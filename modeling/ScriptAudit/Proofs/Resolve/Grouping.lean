import Mathlib.Data.List.Induction
import ScriptAudit.Proofs.Query

/-!
# Lists united or joined group by group

It does not matter in what groups candidate lists are united or joined, even if the cap is reached
on the way.
-/

namespace ScriptAudit

open Ask Engine List

variable {cap : Nat} {F : Facts} {s t : Session}

lemma addAllNew_nil_eq (xs : List String) : addAllNew [] xs = xs.eraseDups := by
  induction xs using reverseRecOn with
  | nil => rfl
  | append_singleton xs x ih =>
    rw [addAllNew_append, ih, eraseDups_append]
    by_cases hx : x ∈ xs <;> simp [addAllNew, addNew, removeAll, eraseDups_cons, hx]

lemma unite_map_unite (hcap : 0 < cap) (parts : List (List (List String))) :
    unite cap (parts.map (unite cap)) = unite cap parts.flatten := by
  simp only [unite_eq_cut hcap]
  induction parts using reverseRecOn with
  | nil => rfl
  | append_singleton parts groups ih =>
    simp only [map_append, map_singleton, flatten_append, flatten_singleton, unite_eq_cut hcap] at ih ⊢
    rw [cutTexts_append_cut, ← cutTexts_cut_append, ih, cutTexts_cut_append]

namespace Engine

variable {α β γ : Type} {φ : γ → β} {x : Engine β} {y : Engine γ}

/-- The computation `x` does what `y` does, and its result is made from that of `y`. -/
def Renders (F : Facts) (φ : γ → β) (x : Engine β) (y : Engine γ) : Prop :=
  ∀ s, x.run F s = (y >>= fun c => pure (φ c)).run F s

lemma Renders.bind {z : Engine α} {f : α → Engine β} {g : α → Engine γ} (h : ∀ a, (f a).Renders F φ (g a)) :
    (z >>= f).Renders F φ (z >>= g) := fun s => by
  rw [run_bind_assoc]
  exact run_bind_congr fun a t => h a t

lemma Renders.foldlM {f : β → α → Engine β} {g : γ → α → Engine γ} (h : ∀ c a, (f (φ c) a).Renders F φ (g c a))
    (xs : List α) (c : γ) : (xs.foldlM f (φ c)).Renders F φ (xs.foldlM g c) := by
  induction xs generalizing c with
  | nil => exact fun _ => rfl
  | cons a xs ih =>
    intro s
    have first := h c a s
    have rest := fun c t => ih c t
    simp only [foldlM_cons, Engine.run, Bind.bind, Pure.pure, runWith_andThen, runWith] at first rest ⊢
    rw [first]
    cases (g c a).runWith (answerWithin F.openQuestions) F s <;> simp [rest]

lemma Renders.withCall (h : x.Renders F φ y) (function call : Node) (offset : Nat) :
    (withCall function call offset x).Renders F φ (withCall function call offset y) := by
  refine .bind fun m s => ?_
  have inner := h { s with frames := s.frames ++ [Frame.ofCall m function call offset] }
  simp only [Engine.run, Bind.bind, Pure.pure, runWith_andThen, runWith] at inner ⊢
  rw [inner]
  cases y.runWith (answerWithin F.openQuestions) F _ <;> rfl

end Engine

namespace Ask

variable {β γ : Type} {φ : γ → β} {f : β → Node → Engine β} {g : γ → Node → Engine γ}

/-- The loop over what constructors assign to a property. -/
def foldAssigned (new : Node) (property : String) (depth : Nat) (start : β) (step : β → Node → Engine β) :
    Engine β := do
  let m ← model
  (← callables (new.child? .callee) (depth + 1)).foldlM (fun found ctor => do
    if ← isBound ctor then return found
    let o ← Owner.ofFunction ctor
    withCall ctor new 0 ((o.property m property true).foldlM step found)) start

/-- A step that unites what was found with the texts of an expression. -/
def unionWith (depth : Nat) (found : List String) (n : Node) : Engine (List String) := do
  Engine.union [found, ← ask (.values n none (depth + 1))]

/-- A step that keeps the lists apart. -/
def gather (depth : Nat) (groups : List (List String)) (n : Node) : Engine (List (List String)) :=
  return groups ++ [← ask (.values n none (depth + 1))]

lemma renders_foldReturns (h : ∀ c n, (f (φ c) n).Renders F φ (g c n)) (call : Node) (depth : Nat) (c : γ) :
    (foldReturns call depth (φ c) f).Renders F φ (foldReturns call depth c g) := by
  refine .bind fun targets => .foldlM (fun c t => .bind fun bound => ?_) targets c
  cases bound with
  | true => exact fun _ => rfl
  | false => exact .withCall (.foldlM h _ c) _ _ _

lemma renders_foldAssigned (h : ∀ c n, (f (φ c) n).Renders F φ (g c n)) (new : Node) (property : String)
    (depth : Nat) (c : γ) :
    (foldAssigned new property depth (φ c) f).Renders F φ (foldAssigned new property depth c g) := by
  refine .bind fun m => .bind fun ctors => .foldlM (fun c t => .bind fun bound => ?_) ctors c
  cases bound with
  | true => exact fun _ => rfl
  | false => exact .bind fun o => .withCall (.foldlM h _ c) _ _ _

end Ask

/-- Lists that are united two at a time, or group by group, are the first texts of all lists without
repetition. So what a loop adds up return by return, or assignment by assignment, is the union of
all its lists at once. -/
theorem unite_by_groups (hcap : 0 < cap) (groups : List (List String)) :
    unite cap groups = groups.flatten.eraseDups.take cap ∧
    groups.foldl (fun found g => unite cap [found, g]) [] = unite cap groups ∧
    (∀ parts : List (List (List String)), parts.flatten = groups →
      unite cap (parts.map (unite cap)) = unite cap groups) ∧
    ∀ (F : Facts) (s : Session) (n : Node) (depth : Nat) (property : String), F.limits.maxValues = cap →
      (returnedValues n depth).run F s = (foldReturns n depth [] (gather depth) >>= Engine.union).run F s ∧
      (instancePropertyValues n property depth).run F s =
        (foldAssigned n property depth [] (gather depth) >>= Engine.union).run F s := by
  have pair (groups : List (List String)) (g : List String) :
      unite cap [unite cap groups, g] = unite cap (groups ++ [g]) := by
    simp [unite_eq_cut hcap, cutTexts_cut_append]
  refine ⟨?_, ?_, ?_, ?_⟩
  · rw [unite_eq_cut hcap, cutTexts, addAllNew_nil_eq]
  · induction groups using reverseRecOn with
    | nil => rfl
    | append_singleton groups g ih => rw [foldl_append, ih, foldl_cons, foldl_nil, pair]
  · rintro parts rfl
    exact unite_map_unite hcap parts
  · rintro F s n depth property rfl
    have step (groups : List (List String)) (n : Node) : (unionWith depth (unite F.limits.maxValues groups) n).Renders F
        (unite F.limits.maxValues) (gather depth groups n) :=
      .bind fun texts s => congrArg (EStateM.Result.ok · s) (pair groups texts)
    have all (x : Engine (List (List String))) :
        (x >>= Engine.union).run F s = (x >>= fun groups => pure (unite F.limits.maxValues groups)).run F s :=
      run_bind_congr fun _ _ => rfl
    rw [all, all]
    exact ⟨renders_foldReturns step n depth [] s, renders_foldAssigned step n property depth [] s⟩

theorem unite_by_groups_full : unite 2 [["a", "b"], ["a"], ["c"]] = ["a", "b"] ∧
    [["a", "b"], ["a"], ["c"]].foldl (fun found g => unite 2 [found, g]) [] = ["a", "b"] := by
  obtain ⟨-, folded, -⟩ := unite_by_groups Nat.two_pos [["a", "b"], ["a"], ["c"]]
  exact ⟨by decide, folded.trans (by decide)⟩

section Joining

variable {columns : List (List String)}

lemma isEmpty_columns (h : ∀ c ∈ columns, c ≠ []) : columns.any isEmpty = false := by
  simpa using h

lemma joinTexts_ne_nil (hcap : 0 < cap) (h : ∀ c ∈ columns, c ≠ []) (hsome : columns ≠ []) :
    joinTexts cap columns ≠ [] := by
  rw [← length_pos_iff, length_joinTexts]
  exact columnsWidth_pos hcap h hsome

lemma length_joinTexts_le : (joinTexts cap columns).length ≤ cap := length_joinTexts ▸ Nat.min_le_right _ _

end Joining

lemma zipColumns_groups (hcap : 0 < cap) {groups : List (List (List String))}
    (h : ∀ g ∈ groups, g ≠ [] ∧ ∀ c ∈ g, c ≠ []) :
    (groups.mapM (zipColumns cap) >>= zipColumns cap) = zipColumns cap groups.flatten := by
  have joined : ∀ c ∈ groups.map (joinTexts cap), c ≠ [] := by
    intro c hc
    obtain ⟨g, hg, rfl⟩ := mem_map.mp hc
    exact joinTexts_ne_nil hcap (h g hg).2 (h g hg).1
  have flat : ∀ c ∈ groups.flatten, c ≠ [] := by
    intro c hc
    obtain ⟨g, hg, hc⟩ := mem_flatten.mp hc
    exact (h g hg).2 c hc
  have each : groups.mapM (zipColumns cap) = .ok (groups.map (joinTexts cap)) := by
    clear joined flat
    induction groups with
    | nil => rfl
    | cons g groups ih =>
      rw [forall_mem_cons] at h
      rw [mapM_cons, zipColumns_eq (isEmpty_columns h.1.2), ih h.2]
      rfl
  rw [each, zipColumns_eq (isEmpty_columns flat)]
  refine (zipColumns_eq (isEmpty_columns joined)).trans (congrArg _ ?_)
  clear each
  induction groups with
  | nil => rfl
  | cons g groups ih =>
    simp only [map_cons, flatten_cons, forall_mem_cons, forall_mem_append] at h joined flat ⊢
    -- a single column is joined to itself, if it is not longer than the cap
    by_cases last : groups = []
    · subst last
      simpa using joinTexts_singleton length_joinTexts_le
    · have more : groups.flatten ≠ [] := by
        obtain ⟨g, hg⟩ := exists_mem_of_ne_nil groups last
        simpa using ⟨g, hg, (h.2 g hg).1⟩
      rw [joinTexts_append h.1.2 flat.2 h.1.1 more, ← ih h.2 joined.2 flat.2]
      exact joinTexts_cons joined.1 length_joinTexts_le joined.2 (by simpa using last)

/-- A way to parenthesise a sum of candidate lists. -/
inductive SumTree where
  | column (texts : List String)
  | plus (left right : SumTree)

namespace SumTree

def columns : SumTree → List (List String)
  | column texts => [texts]
  | plus left right => left.columns ++ right.columns

/-- The texts of a sum whose operands are joined two at a time. -/
def texts (cap : Nat) : SumTree → Except Fault (List String)
  | column texts => .ok texts
  | plus left right => do zipColumns cap [← left.texts cap, ← right.texts cap]

lemma columns_ne_nil (x : SumTree) : x.columns ≠ [] := by
  induction x with
  | column texts => simp [columns]
  | plus left right ih _ => simp [columns, ih]

/-- The texts of a sum stand for all its columns. -/
lemma exists_texts (hcap : 0 < cap) (x : SumTree) (h : ∀ c ∈ x.columns, c ≠ []) :
    ∃ texts, x.texts cap = .ok texts ∧ texts ≠ [] ∧ joinTexts cap [texts] = joinTexts cap x.columns ∧
      (∀ left right, x = plus left right → texts = joinTexts cap x.columns) := by
  induction x with
  | column texts => exact ⟨texts, rfl, by simpa [columns] using h, rfl, by simp⟩
  | plus left right ihl ihr =>
    have both := h
    simp only [columns, forall_mem_append] at h
    obtain ⟨xs, hl, hxs, eqleft, -⟩ := ihl h.1
    obtain ⟨ys, hr, hys, eqright, -⟩ := ihr h.2
    have pair : joinTexts cap ([xs] ++ [ys]) = joinTexts cap (plus left right).columns := by
      rw [columns, joinTexts_append h.1 h.2 left.columns_ne_nil right.columns_ne_nil, ← eqleft, ← eqright]
      exact joinTexts_append (by simpa) (by simpa) (by simp) (by simp)
    refine ⟨joinTexts cap (plus left right).columns, ?_, joinTexts_ne_nil hcap both (columns_ne_nil _),
      joinTexts_singleton length_joinTexts_le, fun _ _ _ => rfl⟩
    simp only [texts, hl, hr]
    exact (zipColumns_eq (isEmpty_columns (by simp [hxs, hys]))).trans (congrArg _ pair)

end SumTree

lemma Ask.columns_ne_nil {ns : List Node} {depth : Nat} {cs : List (List String)}
    (h : (columns depth ns).run F s = .ok (some cs) t) : ∀ c ∈ cs, c ≠ [] := by
  induction ns generalizing cs s with
  | nil =>
    cases h
    simp
  | cons n ns ih =>
    obtain ⟨texts, u, -, h⟩ := run_bind_ok h
    by_cases empty : texts.isEmpty
    · simp [empty, run_pure] at h
    · simp only [empty] at h
      obtain ⟨rest, v, hrest, h⟩ := run_bind_ok h
      cases rest with
      | none => cases h
      | some rest =>
        cases h
        simpa using ⟨by simpa using empty, ih hrest⟩

/-- Columns that are joined group by group come to the same as all at once. So a sum whose terms all
have texts has those of any sum with the same terms in this order, in whatever way it is
parenthesised. -/
theorem join_by_groups (hcap : 0 < cap) :
    (∀ groups : List (List (List String)), (∀ g ∈ groups, g ≠ [] ∧ ∀ c ∈ g, c ≠ []) →
      (groups.mapM (zipColumns cap) >>= zipColumns cap) = zipColumns cap groups.flatten) ∧
    ∀ (F : Facts) (s t : Session) (n : Node) (depth : Nat) (cs : List (List String)), F.limits.maxValues = cap →
      n.isConcat = true → (columns depth n.concatTerms).run F s = .ok (some cs) t →
      ∃ rule texts, valuesRule n depth = some rule ∧ rule.run F s = .ok texts t ∧
        (∀ m : Node, m.isConcat = true → m.concatTerms = n.concatTerms → valuesRule m depth = some rule) ∧
        ∀ left right : SumTree, (left.plus right).columns = cs → (left.plus right).texts cap = .ok texts := by
  refine ⟨fun groups h => zipColumns_groups hcap h, ?_⟩
  rintro F s t n depth cs rfl hn hcs
  have found := Ask.columns_ne_nil hcs
  have rule (m : Node) (hm : m.isConcat = true) (terms : m.concatTerms = n.concatTerms) :
      valuesRule m depth = some (concatenated n.concatTerms depth) := by
    simp only [Node.isConcat, Bool.and_eq_true, beq_iff_eq] at hm
    simp [valuesRule, hm, terms]
  refine ⟨_, joinTexts F.limits.maxValues cs, rule n hn rfl, ?_, rule, ?_⟩
  · refine (run_bind hcs).trans ?_
    refine (run_bind (b := F.limits) rfl).trans ?_
    rw [zipColumns_eq (isEmpty_columns found)]
    rfl
  · rintro left right rfl
    obtain ⟨texts, htexts, -, -, same⟩ := (left.plus right).exists_texts hcap found
    rw [htexts, same left right rfl]

/-- `("a" + "b") + "c"` -/
def ThreeTerms.sum : Node :=
  .binary 0 "+" (.binary 1 "+" (.textLiteral 2 "a") (.textLiteral 3 "b")) (.textLiteral 4 "c")

theorem join_by_groups_three_terms : ∃ F : Facts, F.limits.maxValues = 2 ∧
    (columns 0 ThreeTerms.sum.concatTerms).run F {} = .ok (some [["a"], ["b"], ["c"]]) {} ∧
    ∃ rule texts, valuesRule ThreeTerms.sum 0 = some rule ∧ rule.run F {} = .ok texts {} ∧
      (SumTree.plus (.column ["a"]) (.plus (.column ["b"]) (.column ["c"]))).texts 2 = .ok texts ∧
      ([[["a"], ["b", "d", "e"]], [["c"]]].mapM (zipColumns 2) >>= zipColumns 2) =
        zipColumns 2 [["a"], ["b", "d", "e"], ["c"]] := by
  obtain ⟨-, m, -, -⟩ := (Node.textLiteral 0 "").exists_described (by decide)
  have hcs : (columns 0 ThreeTerms.sum.concatTerms).run (.ofModel m { maxValues := 2 }) {} =
      .ok (some [["a"], ["b"], ["c"]]) {} := by
    rw [Engine.run, Facts.openQuestions, Nat.mul_add]
    rfl
  obtain ⟨grouped, summed⟩ := join_by_groups Nat.two_pos
  obtain ⟨rule, texts, hrule, hrun, -, same⟩ := summed _ _ _ ThreeTerms.sum 0 _ rfl rfl hcs
  exact ⟨_, rfl, hcs, rule, texts, hrule, hrun, same _ _ rfl, grouped [[["a"], ["b", "d", "e"]], [["c"]]] (by decide)⟩

end ScriptAudit
