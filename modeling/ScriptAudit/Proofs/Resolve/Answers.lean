import ScriptAudit.Proofs.Resolve.Shapes
import ScriptAudit.Proofs.Resolve.Values

/-!
# Questions are answered

The rule for a question asks only what lies deeper.
-/

namespace ScriptAudit

open Engine Facts List Question Ask

variable {F : Facts} {α : Type} {least : Option Nat} {fuel : Nat}

def Question.level (F : Facts) : {α : Type} → Question α → Option Nat
  | _, .values n property depth => if depth ≤ F.limits.maxDepth then some (values n property depth).rank else none
  | _, .object n depth => if depth ≤ F.limits.maxDepth then some (object n depth).rank else none
  | _, .array n depth => if depth ≤ F.limits.maxDepth then some (array n depth).rank else none
  | _, .functions _ _ => none
  | _, .aliases _ => none

lemma Question.nesting_level_lt (visited : List Key) {q : Question α} (h : q.After least) :
    F.nesting visited (q.level F) < F.nesting visited least := by
  cases least with
  | none => exact h.elim
  | some least =>
    have hsome (depth rank : Nat) (hless : least < rank) (hrank : rank ≤ 2 * depth + 2) :
        F.nesting visited (if depth ≤ F.limits.maxDepth then some rank else none)
          < F.nesting visited (some least) := by
      split
      · simp only [nesting, deepest]
        omega
      · simp only [nesting]
        omega
    have hfree : F.nesting visited none < F.nesting visited (some least) := by
      simp only [nesting]
      omega
    cases q with
    | values n property depth =>
      refine hsome depth _ (h.resolve_left id) ?_
      cases property <;> simp only [rank]
      · split <;> omega
      · omega
    | object n depth => exact hsome depth _ (h.resolve_left id) (Nat.le_refl _)
    | array n depth => exact hsome depth _ (h.resolve_left id) (Nat.le_refl _)
    | functions n depth => exact hfree
    | aliases n => exact hfree

lemma Facts.Sound.lists (hF : F.Sound) {n : Node} (hn : F.Has n) {topic : Topic}
    (htopic : topic = .functions ∨ topic = .receivers) : F.Lists ⟨topic, n.ident, none⟩ := by
  intro _
  obtain ⟨k, hk, hid⟩ := hF.listed n hn
  refine mem_flatMap.mpr ⟨k, hk, ?_⟩
  rw [hid]
  obtain rfl | rfl := htopic <;> simp

lemma Ask.meets_valueAliases (hF : F.Sound) {n : Node} (hn : F.Has n) : (valueAliases n).Meets F none F.Reaches := by
  refine .bind meets_session fun s hs => ?_
  split
  next known hknown => exact meets_pure (hs.memory.aliases.get? hknown)
  · refine .bind_facts ?_
    refine .bind (meets_guarded (hF.lists hn (.inr rfl)) (meets_follow_start hF _ _ hn _)) fun r hr => ?_
    split
    · exact meets_pure reaches_nil
    next fl whole =>
      have hfound := hr fl whole rfl
      refine .bind meets_session fun _ _ => meets_ite (fun _ => ?_) fun _ => meets_pure hfound
      refine .bind (meets_update fun m hm => ?_) fun _ _ => meets_pure hfound
      exact { hm with aliases := hm.aliases.insert hfound }

lemma Question.meets_rule (hF : F.Sound) {q : Question α} (hq : q.Asked F) :
    q.rule.Meets F (q.level F) (q.Answers F) := by
  cases q with
  | values n property depth =>
    cases property with
    | none =>
      simp only [rule]
      split
      · exact meets_pure (capped_singleton _)
      · refine meets_consider capped_nil (fun m hm a ha => hm.values.get? ha)
          (fun a ha m hm => { hm with values := hm.values.insert ha })
          (lists_unsearched rfl) fun hd r hr => ?_
        simp only [level, if_pos hd]
        exact meets_valuesRule hF hq hr
    | some name =>
      simp only [rule]
      refine meets_consider capped_nil (fun m hm a ha => hm.values.get? ha)
        (fun a ha m hm => { hm with values := hm.values.insert ha })
        (lists_unsearched rfl) fun hd r hr => ?_
      cases hr
      simp only [level, if_pos hd]
      exact meets_propertyValues hF hq name (Nat.le_refl _)
  | object n depth =>
    simp only [rule]
    refine meets_consider trivial (fun _ _ _ _ => trivial) (fun _ _ _ hm => { hm with })
      (lists_unsearched rfl) fun hd r hr => ?_
    simp only [level, if_pos hd]
    exact meets_objectRule hF hq hr
  | array n depth =>
    refine meets_consider knownElements_none (fun m hm a ha => hm.arrays.get? ha)
      (fun a ha m hm => { hm with arrays := hm.arrays.insert ha })
      (lists_unsearched rfl) fun hd r hr => ?_
    simp only [level, if_pos hd]
    exact meets_arrayRule hF hq hr
  | functions n depth =>
    refine meets_consider (fun f hf => by cases hf) (fun m hm a ha => hm.functions.get? ha)
      (fun a ha m hm => { hm with functions := hm.functions.insert ha })
      (hF.lists hq (.inl rfl)) fun _ r hr => ?_
    exact meets_functionsRule hF hq hr
  | aliases n => exact meets_valueAliases hF hq

lemma answerWithin_good (hF : F.Sound) (fuel : Nat) (q : Question α) (s : Session) (least : Option Nat)
    (hfuel : F.nesting s.visited least ≤ fuel) (hq : q.Asked F) (hafter : q.After least) (hs : s.Within F) :
    Outcome.Good F (q.Answers F) (answerWithin fuel α q F s) := by
  induction fuel generalizing α s least with
  | zero =>
    have hlt := nesting_level_lt (F := F) s.visited hafter
    omega
  | succ fuel ih =>
    have hlt := nesting_level_lt (F := F) s.visited hafter
    exact (meets_rule hF hq).good (balanced_answer fuel)
      (fun β p t l hl hp hpl ht => ih p t l hl hp hpl ht) s hs (by omega)

lemma nesting_le_open (F : Facts) (visited : List Key) (least : Option Nat) :
    F.nesting visited least ≤ F.openQuestions := by
  have hsearches : F.searchesLeft visited ≤ 2 * F.model.nodes.length := by
    refine Nat.le_trans countP_le_length ?_
    unfold searches
    induction F.model.nodes with
    | nil => simp
    | cons n rest ih =>
      simp only [flatMap_cons, length_append, length_cons, length_nil]
      omega
  have hmul : F.searchesLeft visited * (F.deepest + 1)
      ≤ 2 * F.model.nodes.length * (F.deepest + 1) := Nat.mul_le_mul_right _ hsearches
  have hnesting : F.nesting visited least ≤ (2 * F.model.nodes.length + 1) * (F.deepest + 1) := by
    rw [Nat.succ_mul]
    cases least <;> simp only [nesting] <;> omega
  refine Nat.le_trans hnesting (Nat.mul_le_mul ?_ ?_)
  · omega
  · unfold deepest
    omega

lemma Engine.Meets.run_good (hF : F.Sound) {x : Engine α} {Q : α → Prop} (h : x.Meets F least Q) {s : Session}
    (hs : s.Within F) (hfuel : F.openQuestions ≤ fuel) : Outcome.Good F Q (x.runWith (answerWithin fuel) F s) :=
  h.good (balanced_answer fuel)
    (fun _ q t l hl hq hql ht => answerWithin_good hF fuel q t l hl hq hql ht) s hs
    (Nat.le_trans (nesting_le_open F _ _) hfuel)

def Outcome.Exhausted (o : Outcome α) : Prop :=
  ∃ t, o = .error .exhausted t

def Outcome.Refines (o o' : Outcome α) : Prop :=
  o.Exhausted ∨ o = o'

lemma Engine.runWith_refines {reply reply' : Reply}
    (h : ∀ (β : Type) (q : Question β) (s : Session), (reply β q F s).Refines (reply' β q F s))
    (x : Engine α) (s : Session) : (x.runWith reply F s).Refines (x.runWith reply' F s) := by
  induction x generalizing s with
  | done a => exact .inr rfl
  | facts => exact .inr rfl
  | session => exact .inr rfl
  | update f => exact .inr rfl
  | fail e => exact .inr rfl
  | ask q => exact h _ q s
  | andThen x f ihx ihf =>
    rw [runWith_andThen, runWith_andThen]
    obtain ⟨t, hrun⟩ | hrun := ihx s
    · exact .inl ⟨t, by rw [hrun]⟩
    · rw [hrun]
      cases x.runWith reply' F s with
      | ok a t => exact ihf a t
      | error e t => exact .inr rfl
  | guarded k x ih =>
    simp only [runWith]
    split
    · exact .inr rfl
    · obtain ⟨t, hrun⟩ | hrun := ih { s with visited := k :: s.visited }
      · exact .inl ⟨_, by rw [hrun]⟩
      · exact .inr (by rw [hrun])
  | underFrame frame x ih =>
    simp only [runWith]
    obtain ⟨t, hrun⟩ | hrun := ih { s with frames := s.frames ++ [frame] }
    · exact .inl ⟨_, by rw [hrun]⟩
    · exact .inr (by rw [hrun])
  | underOuter index x ih =>
    simp only [runWith]
    obtain ⟨t, hrun⟩ | hrun := ih { s with frames := s.frames.take index }
    · exact .inl ⟨_, by rw [hrun]⟩
    · exact .inr (by rw [hrun])

lemma answerWithin_refines {fuel' : Nat} (hle : fuel ≤ fuel') (q : Question α) (s : Session) :
    (answerWithin fuel α q F s).Refines (answerWithin fuel' α q F s) := by
  induction fuel generalizing α fuel' s with
  | zero => exact .inl ⟨s, rfl⟩
  | succ fuel ih =>
    cases fuel' with
    | zero => omega
    | succ fuel' => exact runWith_refines (fun β p t => ih (by omega) p t) q.rule s

lemma Engine.Meets.runWith_eq_run (hF : F.Sound) {x : Engine α} {Q : α → Prop} (h : x.Meets F least Q) {s : Session}
    (hs : s.Within F) (hfuel : F.openQuestions ≤ fuel) : x.runWith (answerWithin fuel) F s = x.run F s := by
  obtain ⟨t, hrun⟩ | hrun := runWith_refines (F := F) (fun β q t => answerWithin_refines hfuel q t) x s
  · have hgood := h.run_good hF hs (Nat.le_refl F.openQuestions)
    rw [hrun] at hgood
    exact hgood.2.elim
  · exact hrun.symm

end ScriptAudit
