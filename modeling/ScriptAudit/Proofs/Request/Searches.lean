import ScriptAudit.Proofs.Request.Objects

/-!
# What was searched for before does not show

If no search goes deeper than the limit, whether a call opens a request does not depend on what was
searched for before.
-/

namespace ScriptAudit

open Ask Engine Facts List Option Outcome

variable {F : Facts} {s t : Session} {n m : Node} {depth : Nat}

namespace Facts

def ownFunctions? (F : Facts) (callee : Node) : Option (List Node) :=
  match callee.kind with
  | .functionExpression | .arrowFunctionExpression => some [callee]
  | .identifier => (F.model.binding? callee).bind fun b => if b.sort = .function then some b.initial.toList else none
  | _ => none

def namedTargets (F : Facts) (n : Node) : List (Node × Nat) :=
  (distinct ((((n.child? .callee).bind F.ownFunctions?).getD []).filterMap callableOf?)).map (·, 0)

def namedReturns (F : Facts) (n : Node) : List Node :=
  match n.kind with
  | .callExpression => (F.namedTargets n).flatMap fun t => Model.returnsOf t.1
  | _ => []

def asksLittle (F : Facts) (n : Node) : Bool :=
  match n.kind with
  | .callExpression => (n.child? .callee).all fun c => !c.reads "call" && (F.ownFunctions? c).isSome
  | .identifier => !(F.model.binding? n).any (·.isParam)
  | _ => true

def surveys (F : Facts) (nodes : List Node) : Bool :=
  nodes.all fun n => F.startsXhr n || F.asksLittle n &&
    (F.xhrGivers F.namedReturns n).all fun m => nodes.any (·.ident == m.ident)

end Facts

lemma Facts.of_ownFunctions?_eq_some {fs : List Node} (h : F.ownFunctions? n = some fs) :
    ((∀ depth, functionsRule n depth = some (pure [n])) ∧ fs = [n]) ∨
      ∃ b, n.kind = .identifier ∧ F.model.binding? n = some b ∧ b.sort = .function ∧ fs = b.initial.toList := by
  unfold ownFunctions? at h
  split at h
  next hkind => exact .inl ⟨fun _ => by simp only [functionsRule, hkind], (some.inj h).symm⟩
  next hkind => exact .inl ⟨fun _ => by simp only [functionsRule, hkind], (some.inj h).symm⟩
  next hkind =>
    obtain ⟨b, hb, h⟩ := Option.bind_eq_some_iff.mp h
    split at h
    next hsort => exact .inr ⟨b, hkind, hb, hsort, (some.inj h).symm⟩
    · cases h
  · cases h

section Survey

variable (hsound : F.Sound) (huniq : F.Unique) {opened : List Key} (hopen : ∀ k ∈ opened, k.topic = .xhr)

include hsound huniq hopen

lemma Engine.settles_functions (hn : F.Has n) {fs : List Node} (h : F.ownFunctions? n = some fs)
    (hd : depth ≤ F.limits.maxDepth) : (ask (.functions n depth)).Settles F [] opened fs := by
  have hfresh : ⟨.functions, n.ident, none⟩ ∉ opened := fun hmem => nomatch hopen _ hmem
  obtain ⟨hrule, rfl⟩ | ⟨b, hkind, hb, hsort, rfl⟩ := of_ownFunctions?_eq_some h
  · exact settles_askFunctions hsound huniq hn (.itself hrule) (hrule depth) hd hfresh (settling.pure [n])
  · have hrule : functionsRule n depth = some (identifierFunctions n depth) := by
      simp only [functionsRule, hkind]
    apply settles_askFunctions hsound huniq hn (.declared hkind hb rfl (.inl hsort)) hrule hd hfresh
    apply settling.bind settling.facts
    simp only [hb]
    apply settling.bind (b := none) (settles_bound b)
    simp only [hsort]
    exact settling.pure _

lemma Engine.settles_namedTargets (hn : F.Has n)
    (h : (n.child? .callee).all (fun c => !c.reads "call" && (F.ownFunctions? c).isSome) = true)
    (hd : depth ≤ F.limits.maxDepth) : (callTargets n depth).Settles F [] opened (F.namedTargets n) := by
  cases hcal : n.child? .callee with
  | none =>
    simp only [callTargets, namedTargets, hcal]
    exact settling.pure []
  | some callee =>
    rw [hcal, Option.all_some, Bool.and_eq_true, Bool.not_eq_true'] at h
    obtain ⟨fs, hfs⟩ := Option.isSome_iff_exists.mp h.2
    have hfuns := settles_functions hsound huniq hopen (hn.child? .callee callee hcal) hfs hd
    simpa [namedTargets, hcal, hfs] using settles_callTargets hcal h.1 hfuns

lemma Engine.settles_xhrFound (hn : F.Has n) (h : F.asksLittle n = true) (hd : depth < F.limits.maxDepth) :
    (xhrFound n depth).Settles F [] opened (F.namedReturns n) := by
  unfold asksLittle at h
  unfold xhrFound namedReturns
  split
  next hkind =>
    simp only [hkind] at h ⊢
    exact settling.bind (settles_namedTargets hsound huniq hopen hn h hd) (settling.pure _)
  next hkind =>
    simp only [hkind] at h ⊢
    apply settling.bind settling.model
    split
    next b hb =>
      have hparam : b.isParam = false := by simpa [hb] using h
      simp only [hparam, Bool.false_eq_true, if_false]
      exact settling.pure []
    · exact settling.pure []
  · split
    · contradiction
    · exact settling.pure []

end Survey

namespace Facts

variable {nodes trail : List Node}

lemma has_of_mem_namedReturns (hsound : F.Sound) (huniq : F.Unique) (hn : F.Has n) (h : F.asksLittle n = true)
    (hd : 0 < F.limits.maxDepth) (hm : m ∈ F.namedReturns n) : F.Has m := by
  have hset : (xhrFound n 0).Settles F [] [] (F.namedReturns n) :=
    settles_xhrFound hsound huniq (by simp) hn h hd
  obtain ⟨t, heval, -, -⟩ := hset {} ⟨within_empty F, .empty, rfl, rfl⟩
  have hmeets := meets_xhrFound hsound hn 0
  have hgood := hmeets.run_good hsound (within_empty F) (Nat.le_refl _)
  change Good F _ ((xhrFound n 0).run F {}) at hgood
  rw [(hmeets.evaluates_iff hsound (within_empty F) _).mp heval] at hgood
  exact hgood.2 m hm

section Surveyed

variable {root : Node} (hroot : root.WellFormed) (hF : F.Describes root) (hhas : ∀ n ∈ nodes, F.Has n)
  (hlen : nodes.length ≤ F.limits.maxDepth) (h : F.surveys nodes = true)

include hroot hF hhas hlen h

lemma mem_of_surveys (hn : n ∈ nodes) (hstart : F.startsXhr n = false) (hm : m ∈ F.xhrGivers F.namedReturns n) :
    m ∈ nodes := by
  have hsound := hF.sound hroot.toWellNumbered
  have huniq := hF.unique hroot.toWellNumbered
  have hnode := all_eq_true.mp h n hn
  simp only [hstart, Bool.false_or, Bool.and_eq_true] at hnode
  obtain ⟨k, hk, hid⟩ := any_eq_true.mp (all_eq_true.mp hnode.2 m hm)
  have hd : 0 < F.limits.maxDepth := Nat.lt_of_lt_of_le (length_pos_of_mem hn) hlen
  have hm : F.Has m := by
    rcases mem_append.mp hm with hm | hm
    · exact has_of_mem_xhrParts hsound (hF.named hroot.toWellNamed (hhas n hn)) (hhas n hn) hm
    · exact has_of_mem_namedReturns hsound huniq (hhas n hn) hnode.1 hd hm
  rwa [← huniq k m (hhas k hk) hm (eq_of_beq hid)]

lemma XhrTrail.of_surveys (htrail : F.XhrTrail F.namedReturns (· ∈ nodes) trail) : trail ⊆ nodes ∧ trail.Nodup := by
  induction htrail with
  | start hn => exact ⟨by simpa using hn, nodup_singleton _⟩
  | step htrail hstart hm hfresh ih =>
    obtain ⟨hsub, hnodup⟩ := ih
    have hm := mem_of_surveys hroot hF hhas hlen h (hsub mem_cons_self) hstart hm
    exact ⟨cons_subset.mpr ⟨hm, hsub⟩, nodup_cons.mpr ⟨hfresh, hnodup⟩⟩

lemma searchable_of_surveys : F.Searchable F.namedReturns (· ∈ nodes) := by
  have hsound := hF.sound hroot.toWellNumbered
  have huniq := hF.unique hroot.toWellNumbered
  have hroom {n : Node} {path : List Node} (htrail : F.XhrTrail F.namedReturns (· ∈ nodes) (n :: path)) :
      n ∈ nodes ∧ path.length < F.limits.maxDepth := by
    obtain ⟨hsub, hnodup⟩ := htrail.of_surveys hroot hF hhas hlen h
    have hle := (subperm_of_subset hnodup hsub).length_le
    exact ⟨hsub mem_cons_self, Nat.lt_of_lt_of_le hle hlen⟩
  refine ⟨hhas, fun {n path} htrail hstart s hs hframes hvis => ?_, fun htrail _ _ => (hroom htrail).2⟩
  obtain ⟨hn, hd⟩ := hroom htrail
  have hnode := all_eq_true.mp h n hn
  simp only [hstart, Bool.false_or, Bool.and_eq_true] at hnode
  have hopen : ∀ k ∈ (n :: path).map xhrKey, k.topic = .xhr := by
    intro k hk
    obtain ⟨m, -, rfl⟩ := mem_map.mp hk
    rfl
  have hwithin := hs.within hsound
  obtain ⟨t, heval, -, -⟩ := settles_xhrFound hsound huniq hopen (hhas n hn) hnode.1 hd s
    ⟨hwithin, hs.faithful hroot.toWellNumbered hF, hframes, hvis⟩
  exact ⟨t, ((meets_xhrFound hsound (hhas n hn) path.length).evaluates_iff hsound hwithin _).mp heval⟩

end Surveyed

end Facts

def Node.receiver? (n : Node) : Option Node :=
  (n.child? .callee).bind (·.child? .object)

/-- The states that searches and attempts to recognise requests leave, if they start from the nodes
asked for. -/
inductive Session.AfterSearches (F : Facts) (asked : Node → Prop) : Session → Prop
  | start : AfterSearches F asked {}
  | search {s : Session} {n : Node} : AfterSearches F asked s → asked n →
      AfterSearches F asked (session ((isXhr (some n) 0).run F s))
  | recognise {s : Session} {n : Node} : AfterSearches F asked s → (∀ r, n.receiver? = some r → asked r) →
      AfterSearches F asked (session ((requestSink? n).run F s))

def Engine.TurnsOn {α : Type} (F : Facts) (r : Option Node) (x : Engine α) : Prop :=
  ∃ answer : Bool → α, ∀ s b t, (isXhr r 0).run F s = .ok b t →
    x.run F s = .ok (answer b) t ∨ x.run F s = .ok (answer b) s

lemma Engine.turnsOn_pure {α : Type} (r : Option Node) (a : α) : (pure a : Engine α).TurnsOn F r :=
  ⟨fun _ => a, fun _ _ _ _ => .inr rfl⟩

lemma Engine.turnsOn_facts {α : Type} {r : Option Node} {f : Facts → Engine α} (h : (f F).TurnsOn F r) :
    (facts >>= f).TurnsOn F r := h

lemma Engine.turnsOn_isXhr {α : Type} (r : Option Node) (a a' : α) :
    (isXhr r 0 >>= fun b => if b then pure a else pure a').TurnsOn F r := by
  refine ⟨fun b => if b then a else a', fun s b t hrun => .inl ?_⟩
  rw [run_bind hrun]
  cases b <;> rfl

lemma turnsOn_callSink? (n : Node) : (callSink? n).TurnsOn F n.receiver? := by
  apply turnsOn_facts
  split
  next callee first rest hcal _ =>
    have hrecv : n.receiver? = callee.child? .object := by simp [Node.receiver?, hcal]
    dsimp only
    split
    · exact turnsOn_pure _ _
    · split
      · unfold opensXhr
        split
        · exact turnsOn_pure _ _
        · rw [hrecv]
          exact turnsOn_isXhr _ _ _
      · split <;> exact turnsOn_pure _ _
      · exact turnsOn_pure _ _
  · exact turnsOn_pure _ _

lemma turnsOn_requestSink? (n : Node) : (requestSink? n).TurnsOn F n.receiver? := by
  unfold requestSink?
  split
  · exact turnsOn_callSink? n
  iterate 3 exact turnsOn_pure _ _

section History

variable {found : Node → List Node} {asked : Node → Prop} {root : Node} (hroot : root.WellFormed)
  (hF : F.Describes root) (h : F.Searchable found asked)

include hroot hF h

lemma Facts.Searchable.isXhr (hn : asked n) (hs : s.Searching F found []) :
    ∃ b t, (isXhr (some n) 0).run F s = .ok b t ∧ (b = true ↔ F.HoldsXhr found n) ∧ t.Searching F found [] := by
  have hsearches : (holdsXhr (F.limits.maxDepth + 1) 0 n).Searches F found [] (F.HoldsXhr found n)
      (F.XhrAvoiding found [] n) :=
    h.searches_holdsXhr hroot hF F.limits.maxDepth rfl (h.has n hn) (.inr (.start hn))
  obtain ⟨b, t, hrun, ht⟩ := hsearches s hs
  exact ⟨b, t, (run_isXhr n 0).trans hrun, ⟨ht.sound, fun hholds => ht.near hholds.avoiding⟩, ht.searching⟩

lemma Facts.Searchable.requestSink? {sink : Bool → Option RequestSink}
    (hsink : ∀ s b t, (ScriptAudit.isXhr n.receiver? 0).run F s = .ok b t →
      (ScriptAudit.requestSink? n).run F s = .ok (sink b) t ∨ (ScriptAudit.requestSink? n).run F s = .ok (sink b) s)
    (hn : ∀ r, n.receiver? = some r → asked r) (hs : s.Searching F found []) :
    ∃ b t, (ScriptAudit.requestSink? n).run F s = .ok (sink b) t ∧
      (b = true ↔ ∃ r, n.receiver? = some r ∧ F.HoldsXhr found r) ∧ t.Searching F found [] := by
  cases hr : n.receiver? with
  | none =>
    rw [hr] at hsink
    refine ⟨false, s, ?_, by simp, hs⟩
    rcases hsink s false s rfl with hrun | hrun <;> exact hrun
  | some r =>
    rw [hr] at hsink
    obtain ⟨b, t, hrun, hholds, ht⟩ := h.isXhr hroot hF (hn r hr) hs
    rcases hsink s b t hrun with hrun | hrun
    · exact ⟨b, t, hrun, by simpa using hholds, ht⟩
    · exact ⟨b, s, hrun, by simpa using hholds, hs⟩

lemma Session.AfterSearches.searching (hs : s.AfterSearches F asked) : s.Searching F found [] := by
  induction hs with
  | start => exact ⟨.start, rfl, rfl, fun n b _ hb => by cases hb⟩
  | search _ hn ih =>
    obtain ⟨b, t, hrun, -, ht⟩ := h.isXhr hroot hF hn ih
    rwa [hrun]
  | @recognise s n _ hn ih =>
    obtain ⟨sink, hsink⟩ := turnsOn_requestSink? (F := F) n
    obtain ⟨b, t, hrun, -, ht⟩ := h.requestSink? hroot hF hsink hn ih
    rwa [hrun]

end History

/-- Where no search goes deeper than the limit, whether a node holds a request object, and what it
is recognised as, is the same after any searches as in a fresh state. -/
theorem isXhr_after_searches {root : Node} (hroot : root.WellFormed) (hF : F.Describes root)
    {found : Node → List Node} {asked : Node → Prop} (h : F.Searchable found asked) (hs : s.AfterSearches F asked) :
    (∀ n, asked n → ∃ b t t', (isXhr (some n) 0).run F s = .ok b t ∧ (isXhr (some n) 0).run F {} = .ok b t' ∧
      (b = true ↔ F.HoldsXhr found n)) ∧
    ∀ n, (∀ r, n.receiver? = some r → asked r) → ∃ sink t t', (requestSink? n).run F s = .ok sink t ∧
      (requestSink? n).run F {} = .ok sink t' := by
  have hs := hs.searching hroot hF h
  have hfresh := Session.AfterSearches.start.searching hroot hF h
  constructor
  · intro n hn
    obtain ⟨b, t, hrun, hholds, -⟩ := h.isXhr hroot hF hn hs
    obtain ⟨b', t', hrun', hholds', -⟩ := h.isXhr hroot hF hn hfresh
    obtain rfl : b = b' := Bool.eq_iff_iff.mpr (hholds.trans hholds'.symm)
    exact ⟨b, t, t', hrun, hrun', hholds⟩
  · intro n hn
    obtain ⟨sink, hsink⟩ := turnsOn_requestSink? (F := F) n
    obtain ⟨b, t, hrun, hholds, -⟩ := h.requestSink? hroot hF hsink hn hs
    obtain ⟨b', t', hrun', hholds', -⟩ := h.requestSink? hroot hF hsink hn hfresh
    obtain rfl : b = b' := Bool.eq_iff_iff.mpr (hholds.trans hholds'.symm)
    exact ⟨sink b, t, t', hrun, hrun'⟩

namespace Shared

def made : Node := .branch 5 .newExpression [(.callee, some (.identifier 6 "XMLHttpRequest"))]

def making : Node := .call 12 (.identifier 13 "make") []

def choice : Node :=
  .branch 10 .conditionalExpression [(.test, some (.identifier 11 "t")), (.consequent, some making),
    (.alternate, some (.identifier 14 "b"))]

def opening (i : Nat) (receiver : Node) : Node :=
  .call i (.member (i + 1) receiver "open") [.identifier (i + 3) "m", .identifier (i + 4) "u"]

def first : Node := .identifier 25 "b"

def second : Node := .identifier 32 "a"

def program : Node :=
  .script [.function 1 (.identifier 2 "make") [] (.block 3 [.returning 4 made]), .declaration 7 "a" choice,
    .declaration 15 "b" (.identifier 18 "a"), .statement 19 (opening 20 first),
    .statement 26 (opening 27 second)]

def nodes : List Node := [first, second, .identifier 18 "a", .identifier 14 "b", choice, making, made]

def recognised (F : Facts) : Session :=
  session ((requestSink? (opening 20 first)).run F {})

def check : Bool :=
  match Model.ofProgram program "" false with
  | .ok m => (ofModel m {}).surveys nodes
  | .error _ => false

end Shared

open Shared

/-- Two calls whose receivers hold each other's value. -/
theorem isXhr_after_searches_shared :
    program.WellFormed ∧ ∃ F : Facts, F.Describes program ∧
      F.Searchable F.namedReturns (· ∈ nodes) ∧ (recognised F).AfterSearches F (· ∈ nodes) ∧
      (∃ b t t', (isXhr (some second) 0).run F (recognised F) = .ok b t ∧
        (isXhr (some second) 0).run F {} = .ok b t' ∧
        (b = true ↔ F.HoldsXhr F.namedReturns second)) ∧
      ∃ sink t t', (requestSink? (opening 27 second)).run F (recognised F) = .ok sink t ∧
        (requestSink? (opening 27 second)).run F {} = .ok sink t' := by
  obtain ⟨hroot, m, hm, hF⟩ := program.exists_described (by decide)
  have hhas : ∀ n ∈ nodes, (ofModel m {}).Has n := by
    simp only [nodes, forall_mem_cons]
    exact ⟨hF.has_walk 22 rfl, hF.has_walk 29 rfl, hF.has_walk 18 rfl, hF.has_walk 14 rfl, hF.has_walk 10 rfl,
      hF.has_walk 12 rfl, hF.has_walk 5 rfl, by simp⟩
  have hcheck : check = true := by decide +kernel
  simp only [check, hm] at hcheck
  have hlen : nodes.length ≤ ({} : Limits).maxDepth := by decide
  have hsearchable := searchable_of_surveys hroot hF hhas hlen hcheck
  have hs : (recognised (ofModel m {})).AfterSearches (ofModel m {}) (· ∈ nodes) := by
    apply Session.AfterSearches.recognise .start
    rintro r ⟨⟩
    exact mem_cons_self
  obtain ⟨hsearch, hsink⟩ := isXhr_after_searches hroot hF hsearchable hs
  refine ⟨hroot, _, hF, hsearchable, hs, hsearch _ (by simp [nodes]), hsink _ ?_⟩
  rintro r ⟨⟩
  simp [nodes]

namespace Cut

def first : Node := .identifier 16 "b"

def second : Node := .identifier 23 "a"

def program : Node :=
  .script [.declaration 1 "a" (.branch 4 .conditionalExpression [(.test, some (.identifier 5 "t")),
    (.consequent, some (.branch 6 .newExpression [(.callee, some (.identifier 7
    "XMLHttpRequest"))])), (.alternate, some (.branch 8 .literal []))]),
    .declaration 9 "b" (.identifier 12 "a"), .statement 13 (.call 14 (.member 15 first "open")
    [.identifier 18 "m", .identifier 19 "u"]), .statement 20 (.call 21 (.member 22 second "open")
    [.identifier 25 "m", .identifier 26 "u"])]

def answers : Option (Bool × Bool) :=
  match Model.ofProgram program "" false with
  | .ok m =>
    let F := ofModel m { maxDepth := 2 }
    match (isXhr (some second) 0).run F {},
        (isXhr (some second) 0).run F (session ((isXhr (some first) 0).run F {})) with
    | .ok fresh _, .ok later _ => some (fresh, later)
    | _, _ => none
  | .error _ => none

end Cut

/-- A search that is cut short because it goes too deep is remembered all the same. -/
theorem isXhr_remembers_cut_search : Cut.answers = some (true, false) := by
  decide +kernel

end ScriptAudit
