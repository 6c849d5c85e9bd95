import ScriptAudit.Proofs.Resolve.StringResolution

/-!
# Request objects

A request object is searched for along the expressions that can give a node its value, and answers
are remembered unless a search was cut short.
-/

namespace ScriptAudit

open Engine Facts List Session

variable {F : Facts} {s t u : Session} {n m : Node} {depth : Nat} {p : Node → Engine Bool}

namespace Facts

def startsXhr (F : Facts) (n : Node) : Bool :=
  match n.kind with
  | .newExpression => constructsXhr F n
  | .identifier => hasXhrType F n
  | _ => false

def originsOf (F : Facts) (n : Node) : List Node :=
  match F.model.binding? n with
  | none => (n.name.map F.definitions).getD []
  | some b => b.initial.toList ++ b.violations.filterMap fun w =>
      if w.kind == .assignmentExpression then w.child? .right else none

def xhrParts (F : Facts) (n : Node) : List Node :=
  match n.kind with
  | .conditionalExpression | .logicalExpression => n.branches
  | .assignmentExpression => (n.child? .right).toList
  | .sequenceExpression => (n.last? .expressions).toList
  | .memberExpression =>
    match n.memberName?, n.child? .object with
    | some name, some object => F.model.assignedMembers object name
    | _, _ => []
  | .identifier => F.originsOf n
  | _ => []

def xhrGivers (F : Facts) (found : Node → List Node) (n : Node) : List Node :=
  F.xhrParts n ++ found n

/-- A node holds a request object if one can come to it. -/
inductive HoldsXhr (F : Facts) (found : Node → List Node) : Node → Prop
  | here {n : Node} : F.startsXhr n = true → HoldsXhr F found n
  | given {n m : Node} : m ∈ F.xhrGivers found n → HoldsXhr F found m → HoldsXhr F found n

/-- A request object can come to a node by a way that goes through no node of `path` and no node
twice. -/
inductive XhrAvoiding (F : Facts) (found : Node → List Node) : List Node → Node → Prop
  | here {path : List Node} {n : Node} : n ∉ path → F.startsXhr n = true → XhrAvoiding F found path n
  | given {path : List Node} {n m : Node} : n ∉ path → m ∈ F.xhrGivers found n →
      XhrAvoiding F found (n :: path) m → XhrAvoiding F found path n

end Facts

def xhrFound (n : Node) (depth : Nat) : Engine (List Node) := do
  match n.kind with
  | .callExpression => return (← Ask.callTargets n (depth + 1)).flatMap fun t => Model.returnsOf t.1
  | .identifier => xhrArguments n
  | _ => return []

namespace Facts

variable {found : Node → List Node} {path : List Node}

lemma XhrAvoiding.mono {path' : List Node} (h : F.XhrAvoiding found path n) (hsub : path' ⊆ path) :
    F.XhrAvoiding found path' n := by
  induction h generalizing path' with
  | here hn hstart => exact .here (fun hmem => hn (hsub hmem)) hstart
  | given hn hm _ ih => exact .given (fun hmem => hn (hsub hmem)) hm (ih (cons_subset_cons _ hsub))

lemma XhrAvoiding.cons_or (h : F.XhrAvoiding found path m) (n : Node) :
    F.XhrAvoiding found (n :: path) m ∨ F.XhrAvoiding found path n := by
  induction h with
  | @here path m hm hstart =>
    by_cases heq : m = n
    · exact .inr (heq ▸ .here hm hstart)
    · exact .inl (.here (by simp [heq, hm]) hstart)
  | @given path m k hm hk hway ih =>
    by_cases heq : m = n
    · exact .inr (heq ▸ .given hm hk hway)
    · rcases ih with ih | ih
      · apply Or.inl
        apply XhrAvoiding.given (by simp [heq, hm]) hk
        apply ih.mono
        intro x hx
        grind
      · exact .inr (ih.mono (subset_cons_self _ _))

lemma HoldsXhr.avoiding (h : F.HoldsXhr found n) : F.XhrAvoiding found [] n := by
  induction h with
  | here hstart => exact .here not_mem_nil hstart
  | @given n m hm _ ih =>
    rcases ih.cons_or n with ih | ih
    · exact .given not_mem_nil hm ih
    · exact ih

lemma XhrAvoiding.holdsXhr (h : F.XhrAvoiding found path n) : F.HoldsXhr found n := by
  induction h with
  | here _ hstart => exact .here hstart
  | given _ hm _ ih => exact .given hm ih

lemma holdsXhr_iff (hstart : F.startsXhr n = false) :
    F.HoldsXhr found n ↔ ∃ m ∈ F.xhrGivers found n, F.HoldsXhr found m := by
  constructor
  · rintro (h | ⟨hm, h⟩)
    · simp [hstart] at h
    · exact ⟨_, hm, h⟩
  · rintro ⟨m, hm, h⟩
    exact .given hm h

end Facts

namespace Engine

variable {holds : Node → Engine Bool}

lemma run_xhrRule_starts (hstart : F.startsXhr n = true) : (xhrRule holds n depth).run F s = .ok true s := by
  rw [xhrRule, run_bind (b := F) (t := s) rfl]
  unfold startsXhr at hstart
  split at hstart
  next hkind =>
    simp only [hkind, hstart]
    rfl
  next hkind =>
    simp only [hkind, hstart, if_true]
    rfl
  · cases hstart

lemma run_xhrOrigins (hname : n.name.isSome = true) : (xhrOrigins n).run F s = .ok (F.originsOf n) s := by
  obtain ⟨name, hname⟩ := Option.isSome_iff_exists.mp hname
  rw [xhrOrigins, run_bind (b := F) (t := s) rfl]
  unfold originsOf definitions
  cases F.model.binding? n with
  | some b => rfl
  | none =>
    cases F.globals with
    | none => simp [hname, run_pure]
    | some g =>
      have hnamed : (nameOf n).run F s = .ok name s := by
        rw [nameOf, hname]
        rfl
      rw [run_bind hnamed]
      simp [hname, run_pure]

lemma run_xhrRule (hname : n.kind = .identifier → n.name.isSome = true) (hstart : F.startsXhr n = false) {b : Bool}
    (hparts : ((F.xhrParts n).anyM holds).run F s = .ok b t) : (xhrRule holds n depth).run F s =
      if b then .ok true t else (xhrFound n depth >>= fun ms => ms.anyM holds).run F t := by
  have hnothing (hcall : n.kind ≠ .callExpression) (hid : n.kind ≠ .identifier) :
      .ok b t = if b then .ok true t else (xhrFound n depth >>= fun ms => ms.anyM holds).run F t := by
    have hfound : xhrFound n depth = pure [] := by
      rw [xhrFound]
      split <;> first | contradiction | rfl
    rw [hfound]
    cases b <;> rfl
  rw [xhrRule, run_bind (b := F) (t := s) rfl]
  unfold xhrParts at hparts
  unfold startsXhr at hstart
  split
  next hkind =>
    simp only [hkind] at hstart hparts
    rw [hstart, ← hnothing (by simp [hkind]) (by simp [hkind])]
    exact hparts
  -- The value of an expression with parts only is that of one of them.
  iterate 4
    next hkind =>
      simp only [hkind] at hparts
      rwa [← hnothing (by simp [hkind]) (by simp [hkind])]
  next hkind =>
    simp only [hkind] at hparts
    obtain ⟨rfl, rfl⟩ : b = false ∧ t = s := by
      cases hparts
      exact ⟨rfl, rfl⟩
    simp only [xhrFound, hkind, Bool.false_eq_true, if_false]
    rw [run_bind_assoc]
    exact run_bind_congr fun _ _ => rfl
  next hkind =>
    simp only [hkind] at hparts
    rw [← hnothing (by simp [hkind]) (by simp [hkind])]
    cases hmember : n.memberName? <;> cases hobj : n.child? .object <;>
    · simp only [hmember, hobj] at hparts ⊢
      exact hparts
  next hkind =>
    simp only [hkind] at hparts hstart
    rw [hstart]
    simp only [Bool.false_eq_true, if_false]
    rw [run_bind (run_xhrOrigins (hname hkind)), run_bind hparts]
    cases b with
    | true => rfl
    | false => simp only [xhrFound, hkind, Bool.false_eq_true, if_false]
  next hnew hconditional hlogical hassignment hsequence hcall hmember hid =>
    rw [← hnothing hcall hid]
    split at hparts <;> first | contradiction | exact hparts

end Engine

def xhrKey (n : Node) : Key :=
  ⟨.xhr, n.ident, none⟩

/-- The nodes that a search from one of the nodes asked for goes through, the last one first. -/
inductive Facts.XhrTrail (F : Facts) (found : Node → List Node) (asked : Node → Prop) : List Node → Prop
  | start {n : Node} : asked n → XhrTrail F found asked [n]
  | step {n m : Node} {path : List Node} : XhrTrail F found asked (n :: path) → F.startsXhr n = false →
      m ∈ F.xhrGivers found n → m ∉ n :: path → XhrTrail F found asked (m :: n :: path)

/-- No search goes deeper than the limit, and what is found by asking on the way is always `found`.
-/
structure Facts.Searchable (F : Facts) (found : Node → List Node) (asked : Node → Prop) : Prop where
  has : ∀ n, asked n → F.Has n
  finds : ∀ {n : Node} {path : List Node}, F.XhrTrail found asked (n :: path) → F.startsXhr n = false →
    ∀ s : Session, s.Reachable F → s.frames = [] → s.visited = (n :: path).map xhrKey →
      ∃ t, (xhrFound n path.length).run F s = .ok (found n) t
  room : ∀ {n : Node} {path : List Node}, F.XhrTrail found asked (n :: path) → F.startsXhr n = false →
    F.xhrGivers found n ≠ [] → path.length < F.limits.maxDepth

section Search

variable {found : Node → List Node} {asked : Node → Prop} {path ms : List Node} {b : Bool}

lemma Facts.has_of_mem_xhrParts (hF : F.Sound) (hname : n.kind = .identifier → n.name.isSome = true) (hn : F.Has n)
    (hm : m ∈ F.xhrParts n) : F.Has m := by
  unfold xhrParts at hm
  split at hm
  iterate 2 exact Node.Below.mem_branches hn hm
  · exact (hn.child? .right).mem_toList hm
  · exact (hn.last? .expressions).mem_toList hm
  · split at hm
    · exact hF.model.mem_assignedMembers hm
    · cases hm
  next hkind =>
    have hmeets : (xhrOrigins n).Meets F (0 : Nat) F.HasAll := meets_xhrOrigins hF hn hkind
    have hgood := hmeets.run_good hF (within_empty F) (Nat.le_refl _)
    change Outcome.Good F _ ((xhrOrigins n).run F {}) at hgood
    rw [run_xhrOrigins (hname hkind)] at hgood
    exact hgood.2 m hm
  · cases hm

lemma meets_xhrFound (hF : F.Sound) (hn : F.Has n) (depth : Nat) :
    (xhrFound n depth).Meets F (some 0) F.HasAll := by
  unfold xhrFound
  split
  · apply Meets.bind (Ask.meets_callTargets hn _)
    intro targets htargets
    apply meets_pure
    intro m hm
    obtain ⟨t, ht, hm⟩ := mem_flatMap.mp hm
    exact Model.below_of_mem_returnsOf (htargets t ht) hm
  · exact meets_xhrArguments hF n
  · exact meets_pure (by simp)

lemma steps_xhrFound {known : Option Facts} {R : Memory → Memory → Prop} [Memory.HasOwnChanges R] (n : Node)
    (depth : Nat) : (xhrFound n depth).StepsBy known R := by
  unfold xhrFound
  split
  · simp
  · exact steps_xhrArguments n
  · exact steps_pure _

/-- The nodes of `path` are being looked at, and what is remembered about request objects is right.
-/
structure Session.Searching (F : Facts) (found : Node → List Node) (path : List Node) (s : Session) : Prop where
  reachable : s.Reachable F
  frames : s.frames = []
  visited : s.visited = path.map xhrKey
  right : ∀ n b, F.Has n → s.xhr.get? n.ident = some b → (b = true ↔ F.HoldsXhr found n)

lemma Session.Searching.mark (h : s.Searching F found path) (n : Node) :
    Searching F found (n :: path) { s with visited := xhrKey n :: s.visited } :=
  ⟨.mark _ h.reachable, h.frames, congrArg _ h.visited, h.right⟩

lemma Session.Reachable.xhrFound (hF : F.Sound) (hs : s.Reachable F) (hn : F.Has n)
    (hrun : (xhrFound n depth).run F s = .ok ms t) : t.Reachable F := by
  unfold ScriptAudit.xhrFound at hrun
  split at hrun
  · obtain ⟨targets, u, htargets, hrun⟩ := run_bind_ok hrun
    cases hrun
    exact hs.callTargets hn htargets
  · obtain ⟨m, u, hm, hrun⟩ := run_bind_ok hrun
    cases hm
    split at hrun
    next b hb =>
      split at hrun
      · obtain ⟨paths, u, hpaths, hrun⟩ := run_bind_ok hrun
        cases hrun
        exact hs.argumentPaths (hF.model.binding? hb) hpaths
      · cases hrun
        exact hs
    · cases hrun
      exact hs
  · cases hrun
    exact hs

lemma Session.Searching.xhrFound (hF : F.Sound) (hn : F.Has n) (h : s.Searching F found path)
    (hrun : (xhrFound n depth).run F s = .ok ms t) : t.Searching F found path ∧ s.rejections ≤ t.rejections := by
  have hcounts := (steps_xhrFound n depth).quiet.run_keeps (F := F) steady_counts s
  rw [hrun] at hcounts
  refine ⟨⟨?_, (frames_run_ok hrun).trans h.frames, ?_, ?_⟩, hcounts.1⟩
  · exact h.reachable.xhrFound hF hn hrun
  · exact (visited_of_run_eq_ok hrun).trans h.visited
  · rw [((steps_xhrFound n depth).changesBy.sameApart_of_run hrun).xhr]
    exact h.right

/-- What a search from `s` comes to: an answer that is right if it is positive, that is positive if
`near` holds, and that is right if no node was left out. -/
structure Session.Searched (F : Facts) (found : Node → List Node) (path : List Node) (s : Session) (holds near : Prop)
    (b : Bool) (t : Session) : Prop where
  searching : t.Searching F found path
  counts : s.rejections ≤ t.rejections
  sound : b = true → holds
  near : near → b = true
  whole : holds → b = true ∨ s.rejections < t.rejections

def Engine.Searches (F : Facts) (found : Node → List Node) (path : List Node) (x : Engine Bool) (holds near : Prop) :
    Prop :=
  ∀ s : Session, s.Searching F found path → ∃ b t, x.run F s = .ok b t ∧ s.Searched F found path holds near b t

variable {x y : Engine Bool} {P P' Q Q' : Prop}

lemma Session.Searched.or (h : s.Searched F found path P Q false t) (h' : t.Searched F found path P' Q' b u) :
    s.Searched F found path (P ∨ P') (Q ∨ Q') b u where
  searching := h'.searching
  counts := Nat.le_trans h.counts h'.counts
  sound hb := .inr (h'.sound hb)
  near hnear := by
    rcases hnear with hnear | hnear
    · exact absurd (h.near hnear) Bool.false_ne_true
    · exact h'.near hnear
  whole hholds := by
    rcases hholds with hholds | hholds
    · exact .inr (Nat.lt_of_lt_of_le ((h.whole hholds).resolve_left Bool.false_ne_true) h'.counts)
    · exact (h'.whole hholds).imp id fun hlt => Nat.lt_of_le_of_lt h.counts hlt

lemma Session.Searched.or_left (h : s.Searched F found path P Q true t) :
    s.Searched F found path (P ∨ P') (Q ∨ Q') true t :=
  ⟨h.searching, h.counts, fun hb => .inl (h.sound hb), fun _ => rfl, fun _ => .inl rfl⟩

lemma Session.Searched.congr (h : s.Searched F found path P Q b t) (hholds : P' ↔ P) (hnear : Q' → Q) :
    s.Searched F found path P' Q' b t :=
  ⟨h.searching, h.counts, fun hb => hholds.mpr (h.sound hb), fun hq => h.near (hnear hq),
    fun hp => h.whole (hholds.mp hp)⟩

lemma Engine.searches_anyM {holds near : Node → Prop} (h : ∀ m ∈ ms, (p m).Searches F found path (holds m) (near m)) :
    (ms.anyM p).Searches F found path (∃ m ∈ ms, holds m) (∃ m ∈ ms, near m) := by
  induction ms with
  | nil =>
    intro s hs
    exact ⟨false, s, rfl, hs, Nat.le_refl _, by simp, by simp, by simp⟩
  | cons m ms ih =>
    intro s hs
    simp only [exists_mem_cons_iff]
    obtain ⟨b, t, hrun, ht⟩ := h m mem_cons_self s hs
    have hstep : ((m :: ms).anyM p).run F s = if b then .ok true t else (ms.anyM p).run F t := by
      rw [List.anyM, run_bind hrun]
      cases b <;> rfl
    rw [hstep]
    cases b with
    | true => exact ⟨true, t, rfl, ht.or_left⟩
    | false =>
      obtain ⟨b, u, hrun, hu⟩ := ih (fun k hk => h k (mem_cons_of_mem m hk)) t ht.searching
      exact ⟨b, u, hrun, ht.or hu⟩

lemma Engine.searches_xhrRule (hF : F.Sound) (hname : n.kind = .identifier → n.name.isSome = true) (hn : F.Has n)
    (hstart : F.startsXhr n = false) {holds near : Node → Prop}
    (hfinds : ∀ s : Session, s.Searching F found path → ∃ t, (xhrFound n depth).run F s = .ok (found n) t)
    (h : ∀ m ∈ F.xhrGivers found n, (p m).Searches F found path (holds m) (near m)) :
    (xhrRule p n depth).Searches F found path (∃ m ∈ F.xhrGivers found n, holds m)
      (∃ m ∈ F.xhrGivers found n, near m) := by
  intro s hs
  have hparts := searches_anyM fun m hm => h m (mem_append_left _ hm)
  have hrest := searches_anyM fun m hm => h m (mem_append_right _ hm)
  simp only [xhrGivers, mem_append, or_and_right, exists_or]
  obtain ⟨b, t, hrun, ht⟩ := hparts s hs
  rw [run_xhrRule hname hstart hrun]
  cases b with
  | true => exact ⟨true, t, rfl, ht.or_left⟩
  | false =>
    obtain ⟨u, hfound⟩ := hfinds t ht.searching
    obtain ⟨hu, hcounts⟩ := ht.searching.xhrFound hF hn hfound
    obtain ⟨b, v, hrun, hv⟩ := hrest u hu
    refine ⟨b, v, ?_, ht.or ⟨hv.searching, Nat.le_trans hcounts hv.counts, hv.sound, hv.near, fun hholds => ?_⟩⟩
    · simp only [Bool.false_eq_true, if_false]
      rw [run_bind hfound, hrun]
    · exact (hv.whole hholds).imp id fun hlt => Nat.lt_of_le_of_lt hcounts hlt

def Session.noteXhr (s : Session) (n : Node) (b : Bool) (t : Session) : Session :=
  { t with
    toMemory := if s.Uncut t then { t.toMemory with xhr := t.xhr.insert n.ident b } else t.toMemory
    visited := t.visited.erase (xhrKey n) }

namespace Engine

variable {room : Nat}

lemma run_holdsXhr_known (h : s.xhr.get? n.ident = some b) : (holdsXhr (room + 1) depth n).run F s = .ok b s := by
  rw [holdsXhr, run_bind (b := s) (t := s) rfl, h]
  rfl

lemma run_holdsXhr_refused (hmiss : s.xhr.get? n.ident = none) (hn : s.visited.contains (xhrKey n) = true) :
    (holdsXhr (room + 1) depth n).run F s = .ok false { s with rejections := s.rejections + 1 } := by
  have hguard (x : Engine Bool) :
      (guarded (xhrKey n) x).run F s = .ok none { s with rejections := s.rejections + 1 } := by
    rw [Engine.run, runWith, if_pos hn]
  rw [holdsXhr, run_bind (b := s) (t := s) rfl, hmiss]
  exact run_bind (hguard _)

lemma run_holdsXhr_fresh (hmiss : s.xhr.get? n.ident = none) (hn : s.visited.contains (xhrKey n) = false)
    (hrule : (xhrRule (holdsXhr room (depth + 1)) n depth).run F { s with visited := xhrKey n :: s.visited } =
      .ok b t) : (holdsXhr (room + 1) depth n).run F s = .ok b (s.noteXhr n b t) := by
  have hguard : (guarded (xhrKey n) (xhrRule (holdsXhr room (depth + 1)) n depth)).run F s =
      .ok (some (b, t.rejections == s.rejections && t.truncations == s.truncations))
        { t with visited := t.visited.erase (xhrKey n) } := by
    rw [Engine.run] at hrule ⊢
    rw [runWith_guarded_fresh hn, hrule]
    rfl
  rw [holdsXhr, run_bind (b := s) (t := s) rfl, hmiss]
  refine (run_bind hguard).trans ?_
  by_cases hwhole : s.Uncut t
  · have htest : (t.rejections == s.rejections && t.truncations == s.truncations) = true := by
      simpa [Uncut] using hwhole
    simp only [htest, if_true, noteXhr, if_pos hwhole]
    rfl
  · have htest : (t.rejections == s.rejections && t.truncations == s.truncations) = false := by
      simpa [Uncut, ← Bool.not_eq_true] using hwhole
    simp only [htest, Bool.false_eq_true, if_false, noteXhr, if_neg hwhole]
    rfl

lemma run_isXhr (n : Node) (depth : Nat) :
    (isXhr (some n) depth).run F s = (holdsXhr (F.limits.maxDepth + 1 - depth) depth n).run F s :=
  run_bind (b := F.limits) (t := s) rfl

end Engine

lemma Session.Searched.note (huniq : F.Unique) (hn : F.Has n) {near : Prop}
    (h : Searched F found (n :: path) { s with visited := xhrKey n :: s.visited } (F.HoldsXhr found n) near b t)
    (hreachable : (s.noteXhr n b t).Reachable F) :
    s.Searched F found path (F.HoldsXhr found n) near b (s.noteXhr n b t) := by
  have hrej : (s.noteXhr n b t).rejections = t.rejections := by
    unfold noteXhr
    split <;> rfl
  refine ⟨⟨hreachable, h.searching.frames, ?_, fun k c hk hknown => ?_⟩, ?_, h.sound, h.near, ?_⟩
  · simp [noteXhr, h.searching.visited]
  · unfold noteXhr at hknown
    split at hknown
    next hwhole =>
      by_cases hid : k.ident = n.ident
      · obtain rfl := huniq k n hk hn hid
        obtain rfl : c = b := by simpa [Memo.get?_insert_self] using hknown.symm
        refine ⟨h.sound, fun hholds => (h.whole hholds).resolve_right ?_⟩
        rw [hwhole.1]
        exact Nat.lt_irrefl _
      · rw [Memo.get?_insert_of_ne hid] at hknown
        exact h.searching.right k c hk hknown
    · exact h.searching.right k c hk hknown
  · exact hrej ▸ h.counts
  · exact hrej ▸ h.whole

lemma Facts.XhrTrail.not_mem (h : F.XhrTrail found asked (n :: path)) : n ∉ path := by
  cases h with
  | start => exact not_mem_nil
  | step _ _ _ hfresh => exact hfresh

lemma Facts.Describes.named {root : Node} (hF : F.Describes root) (hroot : root.WellNamed) (hn : F.Has n)
    (hkind : n.kind = .identifier) : n.name.isSome = true := by
  unfold Facts.Has at hn
  rw [hF.root_eq] at hn
  exact hroot.identifiers n hn hkind

namespace Facts.Searchable

variable {root : Node} (hroot : root.WellFormed) (hF : F.Describes root) (h : F.Searchable found asked)

include hroot hF h

lemma has_of_mem_trail {trail : List Node} (htrail : F.XhrTrail found asked trail) : F.HasAll trail := by
  have hsound := hF.sound hroot.toWellNumbered
  induction htrail with
  | start hasked => simpa using h.has _ hasked
  | @step n m path htrail hstart hm hfresh ih =>
    have hn := ih n mem_cons_self
    refine forall_mem_cons.mpr ⟨?_, ih⟩
    rcases mem_append.mp hm with hm | hm
    · exact has_of_mem_xhrParts hsound (hF.named hroot.toWellNamed hn) hn hm
    · have hs : Reachable F { visited := (n :: path).map xhrKey } := .mark _ .start
      obtain ⟨t, hrun⟩ := h.finds htrail hstart _ hs rfl rfl
      have hgood := (meets_xhrFound hsound hn path.length).run_good hsound (hs.within hsound) (Nat.le_refl _)
      change Outcome.Good F _ ((xhrFound n path.length).run F _) at hgood
      rw [hrun] at hgood
      exact hgood.2 m hm

lemma contains_xhrKey (htrail : F.XhrTrail found asked (n :: path)) (hs : s.Searching F found path) :
    s.visited.contains (xhrKey n) = false := by
  rw [← Bool.not_eq_true, contains_iff_mem, hs.visited, mem_map]
  rintro ⟨k, hk, hkey⟩
  have hhas := h.has_of_mem_trail hroot hF htrail
  have hid : k.ident = n.ident := congrArg Key.node hkey
  obtain rfl := hF.unique hroot.toWellNumbered k n (hhas k (mem_cons_of_mem n hk)) (hhas n mem_cons_self)
    hid
  exact htrail.not_mem hk

lemma searches_holdsXhr_succ {room : Nat} (hroom : room + path.length = F.limits.maxDepth) (hn : F.Has n)
    (htrail : n ∈ path ∨ F.XhrTrail found asked (n :: path))
    (hgivers : F.XhrTrail found asked (n :: path) → F.startsXhr n = false → ∀ m ∈ F.xhrGivers found n,
      (holdsXhr room (path.length + 1) m).Searches F found (n :: path) (F.HoldsXhr found m)
        (F.XhrAvoiding found (n :: path) m)) :
    (holdsXhr (room + 1) path.length n).Searches F found path (F.HoldsXhr found n) (F.XhrAvoiding found path n) := by
  have hsound := hF.sound hroot.toWellNumbered
  intro s hs
  have hreachable {b : Bool} {t : Session} (hrun : (holdsXhr (room + 1) path.length n).run F s = .ok b t) :
      t.Reachable F := by
    apply hs.reachable.query_eq_ok (q := .isXhr n path.length) hn
    change (isXhr (some n) path.length).run F s = _
    rw [run_isXhr, ← hrun]
    congr 2
    omega
  cases hmiss : s.xhr.get? n.ident with
  | some b =>
    have hright := hs.right n b hn hmiss
    refine ⟨b, s, run_holdsXhr_known hmiss, hs, Nat.le_refl _, hright.mp, fun hnear => ?_, fun hholds => ?_⟩
    · exact hright.mpr hnear.holdsXhr
    · exact .inl (hright.mpr hholds)
  | none =>
    rcases htrail with hmem | htrail
    · have hmarked : s.visited.contains (xhrKey n) = true := by
        rw [contains_iff_mem, hs.visited]
        exact mem_map_of_mem hmem
      have hrun : (holdsXhr (room + 1) path.length n).run F s = _ := run_holdsXhr_refused hmiss hmarked
      refine ⟨false, _, hrun, ⟨hreachable hrun, hs.frames, hs.visited, hs.right⟩, Nat.le_succ _, nofun, ?_, ?_⟩
      · rintro (⟨hfresh, -⟩ | ⟨hfresh, -, -⟩) <;> exact absurd hmem hfresh
      · exact fun _ => .inr (Nat.lt_succ_self _)
    · have hfresh := h.contains_xhrKey hroot hF htrail hs
      have hnote {b : Bool} {t : Session} (hrun : (xhrRule (holdsXhr room (path.length + 1)) n path.length).run F
            { s with visited := xhrKey n :: s.visited } = .ok b t)
          (ht : Searched F found (n :: path) { s with visited := xhrKey n :: s.visited }
            (F.HoldsXhr found n) (F.XhrAvoiding found path n) b t) :
          ∃ b t, (holdsXhr (room + 1) path.length n).run F s = .ok b t ∧
            s.Searched F found path (F.HoldsXhr found n) (F.XhrAvoiding found path n) b t := by
        have hholds := run_holdsXhr_fresh hmiss hfresh hrun
        exact ⟨b, _, hholds, ht.note (hF.unique hroot.toWellNumbered) hn (hreachable hholds)⟩
      cases hstart : F.startsXhr n with
      | true =>
        exact hnote (run_xhrRule_starts hstart)
          ⟨hs.mark n, Nat.le_refl _, fun _ => .here hstart, fun _ => rfl, fun _ => .inl rfl⟩
      | false =>
        have hrule := searches_xhrRule hsound (hF.named hroot.toWellNamed hn) hn hstart
          (fun s hs => h.finds htrail hstart s hs.reachable hs.frames hs.visited) (hgivers htrail hstart)
        obtain ⟨b, t, hrun, ht⟩ := hrule _ (hs.mark n)
        refine hnote hrun (ht.congr (holdsXhr_iff hstart) ?_)
        rintro (⟨-, hhere⟩ | ⟨-, hm, hway⟩)
        · simp [hstart] at hhere
        · exact ⟨_, hm, hway⟩

lemma searches_holdsXhr (room : Nat) (hroom : room + path.length = F.limits.maxDepth) (hn : F.Has n)
    (htrail : n ∈ path ∨ F.XhrTrail found asked (n :: path)) :
    (holdsXhr (room + 1) path.length n).Searches F found path (F.HoldsXhr found n) (F.XhrAvoiding found path n) := by
  induction room generalizing n path with
  | zero =>
    apply h.searches_holdsXhr_succ hroot hF hroom hn htrail
    intro htrail hstart m hm
    have := h.room htrail hstart (ne_nil_of_mem hm)
    omega
  | succ room ih =>
    apply h.searches_holdsXhr_succ hroot hF hroom hn htrail
    intro htrail hstart m hm
    have hmem : m ∈ n :: path ∨ F.XhrTrail found asked (m :: n :: path) := by
      by_cases hmem : m ∈ n :: path
      · exact .inl hmem
      · exact .inr (.step htrail hstart hm hmem)
    have hm : F.Has m := by
      rcases hmem with hmem | htrail'
      · exact h.has_of_mem_trail hroot hF htrail m hmem
      · exact h.has_of_mem_trail hroot hF htrail' m mem_cons_self
    apply ih _ hm hmem
    simp only [length_cons]
    omega

end Facts.Searchable

end Search

end ScriptAudit
