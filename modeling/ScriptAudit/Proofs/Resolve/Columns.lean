import Mathlib.Data.List.Perm.Subperm
import ScriptAudit.Proofs.Tables
import ScriptAudit.Resolve.Columns
import ScriptAudit.Tree.Name

/-!
# Candidate lists

Candidate lists are united and joined many at a time, and cut at the end.
-/

namespace ScriptAudit

open List String

def joinPair (cap : Nat) (xs ys : List String) : List String :=
  (List.range (min (max xs.length ys.length) cap)).map fun i => columnAt xs i ++ columnAt ys i

def cutTexts (cap : Nat) (xs : List String) : List String :=
  (addAllNew [] xs).take cap

section Union

variable {cap : Nat} {xs ys known new : List String}

lemma addAllNew_append : addAllNew known (xs ++ ys) = addAllNew (addAllNew known xs) ys := foldl_append

lemma addAllNew_cons_of_mem {x : String} (hx : x ∈ known) : addAllNew known (x :: xs) = addAllNew known xs := by
  simp [addAllNew, addNew, hx]

lemma addAllNew_cons_new {x : String} (hx : x ∉ known) :
    addAllNew known (x :: xs) = addAllNew (known ++ [x]) xs := by
  simp [addAllNew, addNew, hx]

lemma exists_addAllNew_eq_append (known new : List String) : ∃ rest, addAllNew known new = known ++ rest := by
  induction new generalizing known with
  | nil => exact ⟨[], (append_nil known).symm⟩
  | cons x new ih =>
    by_cases hx : x ∈ known
    · rw [addAllNew_cons_of_mem hx]
      exact ih known
    · obtain ⟨rest, hrest⟩ := ih (known ++ [x])
      rw [addAllNew_cons_new hx, hrest]
      exact ⟨x :: rest, by simp⟩

lemma take_addAllNew (h : cap ≤ known.length) : (addAllNew known new).take cap = known.take cap := by
  obtain ⟨rest, hrest⟩ := exists_addAllNew_eq_append known new
  rw [hrest, take_append_of_le_length h]

lemma addAllNew_addAllNew : addAllNew known (addAllNew xs ys) = addAllNew (addAllNew known xs) ys := by
  rw [addAllNew_addAllNew_of_trans, addAllNew_append]
  intro a b c hab hbc
  rwa [eq_of_beq hab]

lemma addAllNew_of_nodup (h : xs.Nodup) (hknown : ∀ x ∈ xs, x ∉ known) : addAllNew known xs = known ++ xs := by
  induction xs generalizing known with
  | nil => simp [addAllNew]
  | cons x xs ih =>
    obtain ⟨hx, hxs⟩ := nodup_cons.mp h
    obtain ⟨hfresh, hrest⟩ := forall_mem_cons.mp hknown
    rw [addAllNew_cons_new hfresh, ih hxs]
    · simp
    · intro z hz hmem
      rcases mem_append.mp hmem with hmem | hmem
      · exact hrest z hz hmem
      · exact hx (mem_singleton.mp hmem ▸ hz)

lemma nodup_cutTexts : (cutTexts cap xs).Nodup := (take_sublist _ _).nodup (nodup_addAllNew nodup_nil)

lemma cutTexts_ne_nil (hcap : 0 < cap) (hxs : xs ≠ []) : cutTexts cap xs ≠ [] := by
  obtain ⟨x, rest, rfl⟩ := exists_cons_of_ne_nil hxs
  obtain ⟨more, hmore⟩ := exists_addAllNew_eq_append [x] rest
  rw [cutTexts, addAllNew_cons_new not_mem_nil, nil_append, hmore]
  simp [take_eq_nil_iff, Nat.ne_of_gt hcap]

lemma cutTexts_append : cutTexts cap (xs ++ ys) = (addAllNew (addAllNew [] xs) ys).take cap := by
  rw [cutTexts, addAllNew_append]

lemma cutTexts_cut_append : cutTexts cap (cutTexts cap xs ++ ys) = cutTexts cap (xs ++ ys) := by
  have hsame : addAllNew [] (cutTexts cap xs) = cutTexts cap xs :=
    addAllNew_of_nodup nodup_cutTexts fun _ _ => not_mem_nil
  rw [cutTexts_append, cutTexts_append, hsame]
  rcases Nat.le_total (addAllNew [] xs).length cap with hshort | hlong
  · rw [cutTexts, take_of_length_le hshort]
  · have hfull : cap ≤ (cutTexts cap xs).length := by simp [cutTexts, hlong]
    rw [take_addAllNew hfull, take_addAllNew hlong, cutTexts, take_take, Nat.min_self]

lemma cutTexts_append_cut : cutTexts cap (xs ++ cutTexts cap ys) = cutTexts cap (xs ++ ys) := by
  have hmerged : addAllNew (addAllNew [] xs) (addAllNew [] ys) = addAllNew (addAllNew [] xs) ys := addAllNew_addAllNew
  rw [cutTexts_append, cutTexts_append, ← hmerged]
  rcases Nat.le_total (addAllNew [] ys).length cap with hshort | hlong
  · rw [cutTexts, take_of_length_le hshort]
  · -- the cut list alone fills the union, so nothing after it is taken
    have hsubset : cutTexts cap ys ⊆ addAllNew (addAllNew [] xs) (cutTexts cap ys) :=
      fun y hy => mem_addAllNew.mpr (.inr hy)
    have hfull : cap ≤ (addAllNew (addAllNew [] xs) (cutTexts cap ys)).length := by
      have hle := (nodup_cutTexts.subperm hsubset).length_le
      simpa [cutTexts, hlong] using hle
    conv => rhs; rw [← take_append_drop cap (addAllNew [] ys), addAllNew_append]
    exact (take_addAllNew hfull).symm

lemma cutTexts_append_cutTexts : cutTexts cap (cutTexts cap xs ++ cutTexts cap ys) = cutTexts cap (xs ++ ys) := by
  rw [cutTexts_cut_append, cutTexts_append_cut]

lemma cutTexts_cutTexts : cutTexts cap (cutTexts cap xs) = cutTexts cap xs := by
  have hcut : cutTexts cap (cutTexts cap xs ++ []) = cutTexts cap (xs ++ []) := cutTexts_cut_append
  simpa using hcut

lemma uniteInto_eq_take (h : known.length < cap) : uniteInto cap known xs = (addAllNew known xs).take cap := by
  induction xs generalizing known with
  | nil => exact (take_of_length_le (Nat.le_of_lt h)).symm
  | cons x xs ih =>
    rw [uniteInto]
    by_cases hx : x ∈ known
    · rw [if_pos (contains_iff_mem.mpr hx), addAllNew_cons_of_mem hx]
      exact ih h
    · have hlen : (known ++ [x]).length = known.length + 1 := by simp
      rw [if_neg (mt contains_iff_mem.mp hx), addAllNew_cons_new hx]
      by_cases hfull : cap ≤ (known ++ [x]).length
      · simp only [hfull, if_true]
        rw [take_addAllNew hfull, take_of_length_le (by omega)]
      · simp only [hfull, if_false]
        exact ih (Nat.lt_of_not_le hfull)

lemma unite_eq_cut (hcap : 0 < cap) (groups : List (List String)) :
    unite cap groups = cutTexts cap groups.flatten := uniteInto_eq_take hcap

end Union

def joinTexts (cap : Nat) (columns : List (List String)) : List String :=
  (List.range (columnsWidth cap columns)).map fun i => join (columns.map (columnAt · i))

def concatTexts (cap : Nat) (columns : List (List String)) : List String :=
  if columns.any List.isEmpty then [] else joinTexts cap columns

def templateTexts? : List Node → List (List String) → Option (List (List String))
  | [], _ => some []
  | q :: qs, [] => (templateTexts? qs []).map ([q.cookedText] :: ·)
  | q :: qs, gap :: gaps => if gap.isEmpty then none else (templateTexts? qs gaps).map ([q.cookedText] :: gap :: ·)

lemma zipColumns_eq {cap : Nat} {columns : List (List String)}
    (h : columns.any List.isEmpty = false) : zipColumns cap columns = .ok (joinTexts cap columns) := by
  unfold zipColumns joinTexts
  simp [h]

lemma any_isEmpty_texts {quasis : List Node} {gaps columns : List (List String)}
    (h : templateTexts? quasis gaps = some columns) : columns.any List.isEmpty = false := by
  induction quasis generalizing gaps columns with
  | nil =>
    cases h
    rfl
  | cons q qs ih =>
    cases gaps with
    | nil =>
      obtain ⟨rest, hrest, rfl⟩ := Option.map_eq_some_iff.mp h
      simp [ih hrest]
    | cons gap gaps =>
      rw [templateTexts?] at h
      split at h
      · cases h
      next hgap =>
        obtain ⟨rest, hrest, rfl⟩ := Option.map_eq_some_iff.mp h
        simp [ih hrest, hgap]

section Join

variable {cap : Nat} {xs ys : List String} {columns others : List (List String)}

lemma length_joinPair : (joinPair cap xs ys).length = min (max xs.length ys.length) cap := by
  simp [joinPair]

lemma length_joinTexts : (joinTexts cap columns).length = columnsWidth cap columns := by
  simp [joinTexts]

lemma columnAt_of_length_le {i j : Nat} (hi : xs.length ≤ i + 1) (hij : i ≤ j) : columnAt xs j = columnAt xs i := by
  have hj : min j (xs.length - 1) = xs.length - 1 := by omega
  have hi' : min i (xs.length - 1) = xs.length - 1 := by omega
  rw [columnAt, columnAt, hi', hj]

lemma foldl_max_eq (start : Nat) (lengths : List Nat) : lengths.foldl max start = max start (lengths.foldl max 0) := by
  induction lengths generalizing start with
  | nil => simp
  | cons k rest ih =>
    rw [foldl_cons, ih, foldl_cons, ih (max 0 k)]
    omega

lemma le_foldl_max {lengths : List Nat} {k : Nat} (h : k ∈ lengths) : k ≤ lengths.foldl max 0 := by
  obtain ⟨pre, after, rfl⟩ := append_of_mem h
  rw [foldl_append, foldl_cons, foldl_max_eq]
  omega

lemma columnsWidth_append :
    columnsWidth cap (columns ++ others) = min (max (columnsWidth cap columns) (columnsWidth cap others)) cap := by
  simp only [columnsWidth, map_append, foldl_append]
  rw [foldl_max_eq]
  omega

lemma columnsWidth_pos (hcap : 0 < cap) (hcols : ∀ c ∈ columns, c ≠ []) (hsome : columns ≠ []) :
    0 < columnsWidth cap columns := by
  obtain ⟨c, hc⟩ := exists_mem_of_ne_nil columns hsome
  have hlen := length_pos_iff.mpr (hcols c hc)
  have hle := le_foldl_max (mem_map_of_mem (f := List.length) hc)
  unfold columnsWidth
  omega

lemma columnAt_joinTexts (hcols : ∀ c ∈ columns, c ≠ []) (hsome : columns ≠ []) {i : Nat} (hi : i < cap) :
    columnAt (joinTexts cap columns) i = join (columns.map (columnAt · i)) := by
  have hwidth := columnsWidth_pos (Nat.zero_lt_of_lt hi) hcols hsome
  have hshown : columnAt (joinTexts cap columns) i =
      join (columns.map (columnAt · (min i (columnsWidth cap columns - 1)))) := by
    have hlt : min i (columnsWidth cap columns - 1) < columnsWidth cap columns := by omega
    rw [columnAt, length_joinTexts, joinTexts, List.getElem?_map, List.getElem?_range hlt]
    rfl
  rw [hshown]
  refine congrArg join (map_congr_left fun c hc => ?_)
  rcases Nat.lt_or_ge i (columnsWidth cap columns) with hin | hbeyond
  · rw [Nat.min_eq_left (Nat.le_sub_one_of_lt hin)]
  · -- the columns end pre the cap, so all of them have ended here
    have hlen := le_foldl_max (mem_map_of_mem (f := List.length) hc)
    have hmost : columnsWidth cap columns = (columns.map List.length).foldl max 0 := by
      unfold columnsWidth at hbeyond ⊢
      omega
    exact (columnAt_of_length_le (by omega) (by omega)).symm

lemma joinTexts_append (hcols : ∀ c ∈ columns, c ≠ []) (hothers : ∀ c ∈ others, c ≠ [])
    (hsome : columns ≠ []) (hsome' : others ≠ []) :
    joinTexts cap (columns ++ others) = joinPair cap (joinTexts cap columns) (joinTexts cap others) := by
  unfold joinPair
  rw [joinTexts, columnsWidth_append, length_joinTexts, length_joinTexts]
  refine map_congr_left fun i hi => ?_
  have hcap : i < cap := Nat.lt_of_lt_of_le (mem_range.mp hi) (Nat.min_le_right _ _)
  rw [columnAt_joinTexts hcols hsome hcap, columnAt_joinTexts hothers hsome' hcap, map_append, join_append]

lemma joinTexts_singleton (hlen : xs.length ≤ cap) : joinTexts cap [xs] = xs := by
  have hwidth : columnsWidth cap [xs] = xs.length := by simp [columnsWidth, hlen]
  apply ext_getElem
  · rw [length_joinTexts, hwidth]
  · intro i _ hi
    have hmin : min i (xs.length - 1) = i := by omega
    simp [joinTexts, columnAt, hmin, hi, join]

lemma joinTexts_cons {column : List String}
    (hcolumn : column ≠ []) (hlen : column.length ≤ cap) (hcols : ∀ c ∈ columns, c ≠ []) (hsome : columns ≠ []) :
    joinTexts cap (column :: columns) = joinPair cap column (joinTexts cap columns) := by
  have happend : joinTexts cap ([column] ++ columns) = joinPair cap (joinTexts cap [column]) (joinTexts cap columns) :=
    joinTexts_append (by simpa using hcolumn) hcols (cons_ne_nil _ _) hsome
  rwa [joinTexts_singleton hlen] at happend

lemma joinTexts_stretches (hcap : 0 < cap) {texts : List String} (htexts : texts ≠ []) :
    joinTexts cap (texts.map ([·])) = [join texts] := by
  induction texts with
  | nil => exact absurd rfl htexts
  | cons text rest ih =>
    by_cases hrest : rest = []
    · subst hrest
      have hone : joinTexts cap [[text]] = [text] := joinTexts_singleton hcap
      simpa [join] using hone
    · have hone : min 1 cap = 1 := Nat.min_eq_left hcap
      rw [map_cons, joinTexts_cons (cons_ne_nil _ _) hcap (by simp) (by simpa using hrest), ih hrest]
      simp [joinPair, hone, columnAt]

lemma templateTexts?_nil (quasis : List Node) :
    templateTexts? quasis [] = some ((quasis.map Node.cookedText).map ([·])) := by
  induction quasis with
  | nil => rfl
  | cons q quasis ih => rw [templateTexts?, ih]; rfl

end Join

end ScriptAudit
