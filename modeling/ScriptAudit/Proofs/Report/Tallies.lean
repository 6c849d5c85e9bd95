import Mathlib.Data.List.Nodup
import ScriptAudit.Proofs.Tables
import ScriptAudit.Report.Batch

/-!
# Counts and groups

Counts add up to the length of the list they are made from, and neither counts nor groups depend on
its order.
-/

namespace ScriptAudit

open List

namespace Table

variable {κ α β : Type} [BEq κ] {t : Table κ α} {k : κ} {a : α}

lemma total_map_alter {size : α → Nat} {f : Option α → α} (hnone : size (f none) = 1)
    (hsome : ∀ a, size (f (some a)) = size a + 1) :
    total ((t.alter k f).values.map size) = total (t.values.map size) + 1 := by
  obtain ⟨es⟩ := t
  simp only [values, alter]
  induction es with
  | nil => simp [alterEntries, total, hnone]
  | cons e rest ih =>
    rw [alterEntries]
    split
    · simp only [map_cons, total, hsome]
      omega
    · simp only [map_cons, total, ih]
      omega

lemma total_map_filled (key : β → κ) (f : β → Option α → α) (xs : List β) (size : α → Nat)
    (hnone : ∀ x, size (f x none) = 1)
    (hsome : ∀ x a, size (f x (some a)) = size a + 1) : total ((filled key f xs).values.map size) = xs.length := by
  have hfold (t : Table κ α) : total ((xs.foldl (fun t x => t.alter (key x) (f x)) t).values.map size) =
      total (t.values.map size) + xs.length := by
    induction xs generalizing t with
    | nil => rfl
    | cons x rest ih =>
      rw [foldl_cons, ih, total_map_alter (hnone x) (hsome x), length_cons]
      omega
  have hempty := hfold empty
  rw [show total ((empty : Table κ α).values.map size) = 0 from rfl, Nat.zero_add] at hempty
  exact hempty

end Table

lemma total_eq_of_perm {ns ms : List Nat} (h : ns.Perm ms) : total ns = total ms := by
  induction h with
  | nil => rfl
  | cons n _ ih => rw [total, total, ih]
  | swap n m ns => exact Nat.add_left_comm m n (total ns)
  | trans _ _ ih ih' => exact ih.trans ih'

section Counts

variable {names names' : List String}

lemma total_countEach (names : List String) : total (countEach names).values = names.length := by
  have h := Table.total_map_filled id (fun (_ : String) (n : Option Nat) => n.getD 0 + 1) names id
    (fun _ => rfl) (fun _ _ => rfl)
  rwa [map_id] at h

lemma foldl_count (xs : List String) (o : Option Nat) :
    xs.foldl (fun o _ => some (o.getD 0 + 1)) o = if xs = [] then o else some (o.getD 0 + xs.length) := by
  induction xs generalizing o with
  | nil => rfl
  | cons x rest ih =>
    rw [foldl_cons, ih]
    split
    next h => simp [h]
    · rw [if_neg (cons_ne_nil x rest), length_cons, Option.getD_some]
      congr 1
      omega

lemma get?_countEach (name : String) : (countEach names).get? name =
    if names.count name = 0 then none else some (names.count name) := by
  have hfilled : countEach names = Table.filled id (fun _ n => n.getD 0 + 1) names := rfl
  have hcount : names.count name = (names.filter (id · == name)).length := count_eq_length_filter
  rw [hfilled, Table.get?_filled, foldl_count, hcount]
  simp [length_eq_zero_iff]

lemma getD_countEach (name : String) : (countEach names).getD name 0 = names.count name := by
  rw [Table.getD, get?_countEach]
  split
  next h => rw [h, Option.getD_none]
  · rfl

lemma get?_countEach_of_perm (h : names.Perm names') (name : String) :
    (countEach names).get? name = (countEach names').get? name := by
  rw [get?_countEach, get?_countEach, h.count_eq]

end Counts

variable {α : Type} {xs ys : List α}

lemma mergeSort_eq_of_perm {le : α → α → Bool} (h : xs.Perm ys) (htrans : ∀ a b c, le a b → le b c → le a c)
    (htotal : ∀ a b, le a b || le b a) (hantisymm : ∀ a b, le a b → le b a → a = b) :
    xs.mergeSort le = ys.mergeSort le := by
  have hxs := pairwise_mergeSort htrans htotal xs
  have hys := pairwise_mergeSort htrans htotal ys
  apply List.Perm.eq_of_pairwise (fun a b _ _ => hantisymm a b) hxs hys
  exact (mergeSort_perm xs le).trans (h.trans (mergeSort_perm ys le).symm)

lemma texts_mergeSort_eq_of_perm {xs ys : List String} (h : xs.Perm ys) :
    xs.mergeSort (· ≤ ·) = ys.mergeSort (· ≤ ·) := by
  apply mergeSort_eq_of_perm h
  · intro a b c hab hbc
    exact decide_eq_true (String.le_trans (of_decide_eq_true hab) (of_decide_eq_true hbc))
  · intro a b
    rcases String.le_total a b with hab | hba
    · simp [hab]
    · simp [hba]
  · exact fun a b hab hba => String.le_antisymm (of_decide_eq_true hab) (of_decide_eq_true hba)

lemma addAllNew_perm [BEq α] [LawfulBEq α] (h : xs.Perm ys) : (addAllNew [] xs).Perm (addAllNew [] ys) := by
  rw [perm_ext_iff_of_nodup (nodup_addAllNew nodup_nil) (nodup_addAllNew nodup_nil)]
  intro a
  simp [mem_addAllNew, h.mem_iff]

lemma mem_freshBy_id [BEq α] [LawfulBEq α] {seen : List α} {a : α} : a ∈ freshBy id seen xs ↔ a ∈ xs ∧ a ∉ seen := by
  induction xs generalizing seen with
  | nil => simp [freshBy]
  | cons x rest ih =>
    rw [freshBy]
    split
    next h =>
      have hx : x ∈ seen := by simpa using h
      rw [ih, mem_cons]
      constructor
      · rintro ⟨ha, hseen⟩
        exact ⟨.inr ha, hseen⟩
      · rintro ⟨rfl | ha, hseen⟩
        · exact (hseen hx).elim
        · exact ⟨ha, hseen⟩
    next h =>
      have hx : x ∉ seen := by simpa using h
      rw [mem_cons, ih, mem_cons, mem_cons]
      constructor
      · rintro (rfl | ⟨ha, hseen⟩)
        · exact ⟨.inl rfl, hx⟩
        · exact ⟨.inr ha, fun h => hseen (.inr h)⟩
      · rintro ⟨rfl | ha, hseen⟩
        · exact .inl rfl
        · by_cases hax : a = x
          · exact .inl hax
          · exact .inr ⟨ha, not_or.mpr ⟨hax, hseen⟩⟩

lemma nodup_freshBy_id [BEq α] [LawfulBEq α] {seen : List α} : (freshBy id seen xs).Nodup := by
  induction xs generalizing seen with
  | nil => exact nodup_nil
  | cons x rest ih =>
    rw [freshBy]
    split
    · exact ih
    · refine nodup_cons.mpr ⟨fun h => ?_, ih⟩
      exact (mem_freshBy_id.mp h).2 mem_cons_self

lemma distinct_perm [BEq α] [LawfulBEq α] (h : xs.Perm ys) : (distinct xs).Perm (distinct ys) := by
  refine (perm_ext_iff_of_nodup nodup_freshBy_id nodup_freshBy_id).mpr fun a => ?_
  rw [mem_freshBy_id, mem_freshBy_id, h.mem_iff]

end ScriptAudit
