import ScriptAudit.Proofs.Engine.Recall
import ScriptAudit.Taint.Trace

/-!
# Taints that show

Literals, sources, calls of sanitizers and functions show their taint by themselves: tracing them
comes to it, whatever else is known.
-/

namespace ScriptAudit

open Engine List Outcome Option

variable {F : Facts} {s : Session} {n : Node} {depth : Nat} {c : Taint} {α : Type}

def Outcome.answer {α : Type} : Outcome α → Except Fault α
  | .ok a _ => .ok a
  | .error e _ => .error e

lemma Outcome.answer_settle (o : Outcome α) (k : Key) (s : Session) (keep : α → Memory → Memory) :
    answer (o.settle k s keep) = o.answer := by
  cases o <;> rfl

lemma Outcome.answer_reframe (o : Outcome α) (frames : List Frame → List Frame) :
    answer (o.reframe frames) = o.answer := by
  cases o <;> rfl

lemma Engine.answer_bind_pure {β : Type} (x : Engine β) (g : β → α) :
    answer ((x >>= fun a => pure (g a)).run F s) = (answer (x.run F s)).map g := by
  change answer ((andThen x fun a => pure (g a)).runWith _ F s) = _
  rw [runWith_andThen, Engine.run]
  cases x.runWith (answerWithin F.openQuestions) F s <;> rfl

def Node.taintKey (n : Node) : Key :=
  ⟨.taint, n.ident, none⟩

def Node.rememberTaint (n : Node) (c : Taint) (m : Memory) : Memory :=
  { m with taints := m.taints.insert n.ident c }

lemma run_traceSource (k : Option Node) :
    (traceSource k depth).run F s = (traceWithin (F.limits.maxDepth + 1 - depth) depth k).run F s := by
  rw [traceSource, run_bind (b := F.limits) (t := s) rfl]

lemma run_traceWithin_below (k : Option Node) :
    (traceWithin (F.limits.maxDepth - depth) (depth + 1) k).run F s = (traceSource k (depth + 1)).run F s := by
  rw [run_traceSource, Nat.add_sub_add_right]

section

variable (hkind : n.kind ≠ .literal) (hdepth : depth ≤ F.limits.maxDepth)
  (hmiss : s.frames = [] → s.taints.get? n.ident = none) (hopen : n.taintKey ∉ s.visited)
include hkind hdepth hmiss hopen

lemma run_traceSource_fresh : (traceSource (some n) depth).run F s =
      ((taintRule (traceWithin (F.limits.maxDepth - depth) (depth + 1)) depth n).run F
        { s with visited := n.taintKey :: s.visited }).settle n.taintKey s n.rememberTaint := by
  rw [run_traceSource, Nat.succ_sub hdepth, traceWithin, if_neg (by simpa using hkind)]
  exact (runWith_consider_missed (balanced_answer _) hdepth hmiss).trans (if_neg hopen)

lemma answer_traceSource_fresh : answer ((traceSource (some n) depth).run F s) =
      answer ((taintRule (traceWithin (F.limits.maxDepth - depth) (depth + 1)) depth n).run F
        { s with visited := n.taintKey :: s.visited }) := by
  rw [run_traceSource_fresh hkind hdepth hmiss hopen, answer_settle]

end

def Facts.shownTaint? (F : Facts) : Option Node → Option Taint
  | none => some .dynamic
  | some n =>
    match n.kind with
    | .literal => some .literal
    | .identifier =>
      if (F.model.binding? n).isNone && F.model.isUnboundName n "location" then some (.source "location" n) else none
    | .memberExpression => memberSource? F n
    | .callExpression => if isSanitizerCall F.model n then some .dynamic else callSource? F n
    | .functionExpression | .arrowFunctionExpression => some .dynamic
    | _ => none

lemma isUserControlled_of_memberSource? (h : memberSource? F n = some c) : c.isUserControlled = true := by
  obtain ⟨name, -, h⟩ := bind_eq_some_iff.mp h
  repeat' split at h
  all_goals cases h <;> rfl

lemma isUserControlled_of_callSource? (h : callSource? F n = some c) : c.isUserControlled = true := by
  obtain ⟨callee, -, h⟩ := bind_eq_some_iff.mp h
  obtain ⟨name, -, h⟩ := bind_eq_some_iff.mp h
  repeat' split at h
  all_goals cases h <;> rfl

namespace Facts

variable {k : Option Node}

lemma combine_of_shownTaint? (h : F.shownTaint? k = some c) : Taint.combine [c] = c := by
  have hsrc (hc : c.isUserControlled = true) : Taint.combine [c] = c := by simp [Taint.combine, hc]
  unfold shownTaint? at h
  repeat' split at h
  all_goals first
    | exact hsrc (isUserControlled_of_memberSource? h)
    | exact hsrc (isUserControlled_of_callSource? h)
    | cases h <;> rfl

lemma run_taintRule_shown {trace : Option Node → Engine Taint} (hkind : n.kind ≠ .literal)
    (h : F.shownTaint? (some n) = some c) : (taintRule trace depth n).run F s = .ok c s := by
  unfold shownTaint? at h
  dsimp only at h
  unfold taintRule
  split at h
  next hk => exact absurd hk hkind
  next hk =>
    rw [ite_none_right_eq_some, Bool.and_eq_true, isNone_iff_eq_none] at h
    obtain ⟨⟨hbind, hloc⟩, hc⟩ := h
    simp only [hk]
    rw [traceIdentifier, run_bind (b := F) rfl]
    simp only [hbind, hloc, if_true]
    rw [some.inj hc]
    rfl
  next hk =>
    simp only [hk]
    rw [traceMember, run_bind (b := F) rfl]
    simp only [h]
    rfl
  next hk =>
    simp only [hk]
    rw [traceCall, run_bind (b := F) rfl]
    split at h
    next htrusted =>
      cases h
      simp only [htrusted, if_true]
      split <;> rfl
    next htrusted =>
      obtain ⟨callee, hcal, -⟩ := bind_eq_some_iff.mp h
      simp only [hcal, htrusted, h]
      rfl
  next hk =>
    cases h
    simp only [hk]
    rfl
  next hk =>
    cases h
    simp only [hk]
    rfl
  · cases h

end Facts

/-- The node is not being traced, and nothing is remembered of its taint but what it shows by
itself. -/
structure Session.Untraced (F : Facts) (s : Session) (n : Node) : Prop where
  closed : n.taintKey ∉ s.visited
  known : ∀ c, s.taints.get? n.ident = some c → F.shownTaint? (some n) = some c

lemma Session.Untraced.get?_eq_none (h : s.Untraced F n) (hn : F.shownTaint? (some n) = none) :
    s.taints.get? n.ident = none := by
  cases hknown : s.taints.get? n.ident with
  | none => rfl
  | some c =>
    rw [h.known c hknown] at hn
    cases hn

section Shown

variable (huniq : F.Unique)

include huniq

lemma Session.Untraced.mark {k : Node} (h : s.Untraced F k) (hk : F.Has k) (hn : F.Has n) (frames : List Frame)
    (hshown : F.shownTaint? (some k) = some c) (hhidden : F.shownTaint? (some n) = none) :
    Untraced F { s with visited := n.taintKey :: s.visited, frames := frames } k := by
  refine ⟨fun hmem => ?_, h.known⟩
  have hkey : k.taintKey = n.taintKey := (mem_cons.mp hmem).resolve_right h.closed
  obtain rfl := huniq k n hk hn (Key.mk.inj hkey).2.1
  rw [hshown] at hhidden
  cases hhidden

lemma run_traceSource_shown {k : Option Node} (hhas : ∀ n, k = some n → F.Has n ∧ s.Untraced F n)
    (hshown : F.shownTaint? k = some c) (hdepth : depth ≤ F.limits.maxDepth) :
    ∃ t, (traceSource k depth).run F s = .ok c t ∧ ∀ n, F.Has n → s.Untraced F n → t.Untraced F n := by
  cases k with
  | none =>
    refine ⟨s, ?_, fun _ _ h => h⟩
    cases hshown
    rw [run_traceSource, traceWithin]
    rfl
  | some n =>
    obtain ⟨hn, hnew⟩ := hhas n rfl
    by_cases hkind : n.kind = .literal
    · refine ⟨s, ?_, fun _ _ h => h⟩
      simp only [Facts.shownTaint?, hkind] at hshown
      cases hshown
      rw [run_traceSource, Nat.succ_sub hdepth, traceWithin, if_pos (by simpa using hkind)]
      rfl
    by_cases hknown : s.frames = [] ∧ s.taints.get? n.ident = some c
    · refine ⟨s, ?_, fun _ _ h => h⟩
      rw [run_traceSource, Nat.succ_sub hdepth, traceWithin, if_neg (by simpa using hkind)]
      exact runWith_consider_known hdepth hknown.1 hknown.2
    · have hmiss : s.frames = [] → s.taints.get? n.ident = none := by
        intro hframes
        cases hget : s.taints.get? n.ident with
        | none => rfl
        | some d =>
          have hd := hnew.known d hget
          rw [hshown] at hd
          cases hd
          exact absurd ⟨hframes, hget⟩ hknown
      rw [run_traceSource_fresh hkind hdepth hmiss hnew.closed, Facts.run_taintRule_shown hkind hshown]
      refine ⟨_, rfl, fun k hk h => ⟨by simpa using h.closed, ?_⟩⟩
      split
      · intro d hd
        by_cases hid : k.ident = n.ident
        · obtain rfl := huniq k n hk hn hid
          rw [Node.rememberTaint, Memo.get?_insert_self] at hd
          cases hd
          exact hshown
        · rw [Node.rememberTaint, Memo.get?_insert_of_ne hid] at hd
          exact h.known d hd
      · exact h.known

lemma run_mapM_traceSource_shown {ks : List (Option Node)} {cs : List Taint}
    (hhas : ∀ n, some n ∈ ks → F.Has n ∧ s.Untraced F n) (hshown : ks.map F.shownTaint? = cs.map some)
    (hdepth : depth ≤ F.limits.maxDepth) : ∃ t, (ks.mapM (traceSource · depth)).run F s = .ok cs t := by
  have loop (ks : List (Option Node)) (done cs : List Taint) (s : Session)
      (hhas : ∀ n, some n ∈ ks → F.Has n ∧ s.Untraced F n) (hshown : ks.map F.shownTaint? = cs.map some) :
      ∃ t, (List.mapM.loop (traceSource · depth) ks done).run F s = .ok (done.reverse ++ cs) t := by
    induction ks generalizing done cs s with
    | nil =>
      obtain rfl : cs = [] := by simpa using hshown
      exact ⟨s, by simp [List.mapM.loop, run_pure]⟩
    | cons k rest ih =>
      obtain ⟨c, cs, rfl⟩ : ∃ c ds, cs = c :: ds := by
        cases cs with
        | nil => cases hshown
        | cons c ds => exact ⟨c, ds, rfl⟩
      rw [map_cons, map_cons, List.cons.injEq] at hshown
      obtain ⟨t, hrun, hkept⟩ := run_traceSource_shown huniq (fun n hn => hhas n (hn ▸ mem_cons_self)) hshown.1
        hdepth
      have hrest : ∀ n, some n ∈ rest → F.Has n ∧ t.Untraced F n := by
        intro n hn
        obtain ⟨hhas, hnew⟩ := hhas n (mem_cons_of_mem _ hn)
        exact ⟨hhas, hkept n hhas hnew⟩
      obtain ⟨u, hloop⟩ := ih (c :: done) cs t hrest hshown.2
      refine ⟨u, ?_⟩
      rw [List.mapM.loop, run_bind hrun, hloop]
      simp
  exact loop ks [] cs s hhas hshown

end Shown

def TaintKind.rank : TaintKind → Nat
  | .literal => 0
  | .dynamic => 1
  | .userControlled => 2

lemma TaintKind.eq_of_rank_eq {x y : TaintKind} (h : x.rank = y.rank) : x = y := by
  cases x <;> cases y <;> first | rfl | cases h

namespace Taint

variable {parts : List Taint}

lemma rank_le_combine (hc : c ∈ parts) : c.kind.rank ≤ (combine parts).kind.rank := by
  unfold combine
  split
  next d hd =>
    have hkind : d.kind = .userControlled := by simpa [isUserControlled] using List.find?_some hd
    rw [hkind]
    cases c.kind <;> decide
  next hnone =>
    have hplain : c.kind ≠ .userControlled := by simpa [isUserControlled] using List.find?_eq_none.mp hnone c hc
    split
    · cases hkind : c.kind <;> first | decide | contradiction
    next hstatic =>
      have hstatic : c.kind ≠ .dynamic := fun hkind => hstatic (any_eq_true.mpr ⟨c, hc, by simp [hkind]⟩)
      cases hkind : c.kind <;> simp_all [TaintKind.rank]

lemma exists_kind_eq_combine (hne : parts ≠ []) : ∃ c ∈ parts, c.kind = (combine parts).kind := by
  unfold combine
  split
  next d hd => exact ⟨d, mem_of_find?_eq_some hd, rfl⟩
  next hnone =>
    split
    next hdynamic =>
      obtain ⟨c, hc, hkind⟩ := any_eq_true.mp hdynamic
      exact ⟨c, hc, eq_of_beq hkind⟩
    next hstatic =>
      obtain ⟨c, hc⟩ := exists_mem_of_ne_nil _ hne
      have hplain : c.kind ≠ .userControlled := by simpa [isUserControlled] using List.find?_eq_none.mp hnone c hc
      have hstatic : c.kind ≠ .dynamic := fun hkind => hstatic (any_eq_true.mpr ⟨c, hc, by simp [hkind]⟩)
      refine ⟨c, hc, ?_⟩
      cases hkind : c.kind <;> simp_all [literal]

lemma kind_combine_eq_iff (hc : c ∈ parts) :
    (combine parts).kind = c.kind ↔ ∀ d ∈ parts, d.kind.rank ≤ c.kind.rank := by
  constructor
  · intro hkind d hd
    rw [← hkind]
    exact rank_le_combine hd
  · intro hworst
    obtain ⟨d, hd, hkind⟩ := exists_kind_eq_combine (ne_nil_of_mem hc)
    apply TaintKind.eq_of_rank_eq
    apply Nat.le_antisymm
    · rw [← hkind]
      exact hworst d hd
    · exact rank_le_combine hc

lemma combine_same_iff (hc : c ∈ parts) (halone : combine [c] = c) :
    (combine parts).kind = c.kind ∧ (combine parts).label = c.label ↔
      (∀ d ∈ parts, d.kind.rank ≤ c.kind.rank) ∧
        ∀ d, parts.find? isUserControlled = some d → d.label = c.label := by
  rw [kind_combine_eq_iff hc]
  apply and_congr_right
  intro _
  cases hfirst : parts.find? isUserControlled with
  | some d => simp [combine, hfirst]
  | none =>
    -- No part has a label.
    have hplain : c.isUserControlled = false := by simpa using List.find?_eq_none.mp hfirst c hc
    have hlabel {ds : List Taint} (hds : ds.find? isUserControlled = none) : (combine ds).label = none := by
      simp only [combine, hds]
      split <;> rfl
    rw [hlabel hfirst, ← halone, hlabel (by simp [hplain])]
    simp

end Taint

end ScriptAudit
