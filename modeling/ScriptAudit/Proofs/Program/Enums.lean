import Mathlib.Data.List.Permutation
import ScriptAudit.Program.Protobuf
import ScriptAudit.Proofs.Scope.WellFormed

/-!
# Enumerations in object literals

A literal counts as an enumeration if its properties number names from zero on without a gap, or
name the numbers.
-/

namespace ScriptAudit

open List Option

namespace EnumPattern

variable {n : Node} {p : EnumPattern} {es : List (Bool × String × Int)} {isReverse : Bool}

lemma perm_of_isSequence {ns : List Int} (h : isSequence ns = true) : ns.Perm ((range ns.length).map Int.ofNat) := by
  have sorted := mergeSort_perm ns (· ≤ ·)
  rw [isSequence, beq_iff_eq] at h
  exact (h ▸ sorted).symm

lemma ofEntries_eq : ofEntries es isReverse = .filled (·.2.1) (fun e _ => e.2.2) (es.filter (·.1 == isReverse)) := rfl

lemma length_eq_of_mapM {props : List Node} (h : props.mapM entry? = some es) : es.length = props.length := by
  induction props generalizing es with
  | nil =>
    cases h
    rfl
  | cons q rest ih =>
    simp only [mapM_cons, Option.bind_eq_bind, bind_eq_some_iff, Option.pure_def, Option.some.injEq] at h
    obtain ⟨e, -, later, hlater, rfl⟩ := h
    rw [length_cons, length_cons, ih hlater]

/-- All entries have one direction if the table of the other one is empty. -/
lemma fst_of_isEmpty (h : (ofEntries es isReverse).isEmpty = true) : ∀ e ∈ es, e.1 = !isReverse := by
  intro e he
  by_contra hne
  have kept : e.2.1 ∈ (ofEntries es isReverse).keys := by
    rw [ofEntries_eq, Table.keys_filled, mem_addAllNew]
    exact .inr (mem_map_of_mem (mem_filter.mpr ⟨he, by simpa using hne⟩))
  rw [Table.keys, isEmpty_iff.mp h] at kept
  cases kept

/-- The names of an enumeration are those of its properties, each with the number that it was given
last, from zero on. -/
theorem numbers_names (h : ofLiteral? n = some p) : ∃ es, (n.list .properties).mapM entry? = some es ∧
    2 ≤ es.length ∧ es.length ≤ 200 ∧ (∀ e ∈ es, e.1 = p.isReverse) ∧ p.values.keys = distinct (es.map (·.2.1)) ∧
    (∀ name, p.values.get? name = (es.filter (·.2.1 == name)).getLast?.map (·.2.2)) ∧
    1 ≤ p.values.size ∧ p.values.size ≤ es.length ∧
    p.values.values.Perm ((range p.values.size).map Int.ofNat) := by
  unfold ofLiteral? at h
  dsimp only at h
  split at h
  · cases h
  next size =>
    obtain ⟨es, hes, h⟩ := bind_eq_some_iff.mp h
    have length := length_eq_of_mapM hes
    rw [Bool.or_eq_true, decide_eq_true_eq, decide_eq_true_eq, not_or, minSize, maxSize] at size
    -- Both directions end in the same facts about the table.
    obtain ⟨direction, values, nonempty, sequence⟩ : (∀ e ∈ es, e.1 = p.isReverse) ∧
        p.values = ofEntries es p.isReverse ∧ p.values.isEmpty = false ∧ isSequence p.values.values = true := by
      split at h
      next forward =>
        cases h
        simp only [Bool.and_eq_true, Bool.not_eq_true'] at forward
        exact ⟨fst_of_isEmpty forward.1.2, rfl, forward.1.1, forward.2⟩
      · split at h
        next reverse =>
          cases h
          simp only [Bool.and_eq_true, Bool.not_eq_true'] at reverse
          exact ⟨fst_of_isEmpty reverse.1.2, rfl, reverse.1.1, reverse.2⟩
        · cases h
    rw [ofEntries_eq, filter_eq_self.mpr fun e he => beq_iff_eq.mpr (direction e he)] at values
    have keys : p.values.keys = distinct (es.map (·.2.1)) := by rw [values, Table.keys_filled, addAllNew_nil]
    have count : p.values.size = (distinct (es.map (·.2.1))).length := by rw [← keys, Table.keys,
      length_map, Table.size]
    have few : p.values.size ≤ es.length := by
      have shorter := (freshBy_sublist id [] (es.map (·.2.1))).length_le
      rwa [length_map, ← distinctBy, ← distinct, ← count] at shorter
    have last (name : String) : p.values.get? name = (es.filter (·.2.1 == name)).getLast?.map (·.2.2) := by
      rw [values, Table.get?_filled]
      induction es.filter (·.2.1 == name) using List.reverseRecOn <;> simp_all
    have some_ : 1 ≤ p.values.size := length_pos_iff.mpr (by simpa [Table.isEmpty] using nonempty)
    refine ⟨es, hes, by omega, by omega, direction, keys, last, some_, few, ?_⟩
    simpa [Table.size, Table.values] using perm_of_isSequence sequence

end EnumPattern

namespace Enums

def property (i : Nat) (key value : Node) : Node :=
  .mk { ident := .listed i, kind := .property, sort := "init" } [(.key, some key), (.value, some value)]

/-- `{ a: 1, b: 1, a: 0 }` -/
def renumbered : Node :=
  .object 0 [property 1 (.identifier 2 "a") (.number 3 1), property 4 (.identifier 5 "b") (.number 6 1),
    property 7 (.identifier 8 "a") (.number 9 0)]

/-- `{ a: 0, a: 0 }` -/
def repeated : Node :=
  .object 0 [property 1 (.identifier 2 "a") (.number 3 0), property 4 (.identifier 5 "a") (.number 6 0)]

/-- `{ 1: "a", 0: "a" }` -/
def renamed : Node :=
  .object 0 [property 1 (.number 2 1) (.textLiteral 3 "a"), property 4 (.number 5 0) (.textLiteral 6 "a")]

end Enums

theorem EnumPattern.numbers_names_renumbered : ∃ p, ofLiteral? Enums.renumbered = some p ∧
    p.values.values.Perm ((range p.values.size).map Int.ofNat) := by
  obtain ⟨p, h⟩ : ∃ p, ofLiteral? Enums.renumbered = some p := isSome_iff_exists.mp (by cbv)
  obtain ⟨es, -, -, -, -, -, -, -, -, sequence⟩ := numbers_names h
  exact ⟨p, h, sequence⟩

/-- A single name is enough, if it is given twice. -/
theorem EnumPattern.single_name : (ofLiteral? Enums.repeated).map (·.values.entries) = some [("a", 0)] ∧
    (ofLiteral? Enums.renamed).map (·.values.entries) = some [("a", 0)] := by
  decide +kernel

end ScriptAudit
