import Mathlib.Data.List.Nodup
import Mathlib.Data.List.TakeWhile
import ScriptAudit.Files.Inspect
import ScriptAudit.Proofs.Tables

/-!
# Finding the files of a folder

A search below a folder takes files by the ending of their names, a file on its own is taken by its
suffix in small letters.
-/

namespace ScriptAudit

open List SourcePath Text

/-- The endings of the names of files with scripts. -/
def endings : List String := suffixKinds.map (·.1)

namespace SourcePath

lemma partsLe_trans (a b c : List String) (hab : partsLe a b = true) (hbc : partsLe b c = true) :
    partsLe a c = true := by
  fun_induction partsLe a b generalizing c with
  | case1 => rfl
  | case2 => cases hab
  | case3 x a y b ih => cases c <;> grind [partsLe]

lemma partsLe_total (a b : List String) : (partsLe a b || partsLe b a) = true := by
  fun_induction partsLe a b with
  | case1 => rfl
  | case2 => rfl
  | case3 x a y b ih => grind [partsLe]

lemma partsLe_append (l a b : List String) : partsLe (l ++ a) (l ++ b) = partsLe a b := by
  induction l with
  | nil => rfl
  | cons x l ih => simp [partsLe, ih]

/-- The suffix starts at the last dot, unless the dot is the first or the last character. -/
lemma suffixOf_ofList {pre after : List Char} (h : '.' ∉ after) :
    suffixOf (.ofList (pre ++ '.' :: after)) =
      if after = [] ∨ pre = [] then "" else .ofList ('.' :: after) := by
  have tail : ((pre ++ '.' :: after).reverse.takeWhile (· != '.')).reverse = after := by
    rw [reverse_append, reverse_cons, append_assoc, takeWhile_append_of_pos fun c hc =>
      bne_iff_ne.mpr fun (e : c = '.') => h (e ▸ mem_reverse.mp hc)]
    simp
  have size : (pre ++ '.' :: after).length = pre.length + 1 + after.length := by
    simp only [length_append, length_cons]
    omega
  have start : ((pre ++ '.' :: after).take (pre.length + 1)).dropLast = pre := by
    simp [take_append, take_of_length_le (Nat.le_succ pre.length)]
  unfold suffixOf
  simp only [String.toList_ofList, String.length_ofList, tail, size, Nat.add_sub_cancel, start]
  simp

/-- A suffix is what the name ends with. -/
lemma suffixOf_suffix (name : String) : (suffixOf name).toList <:+ name.toList := by
  by_cases dot : '.' ∈ name.toList
  · obtain ⟨later, earlier, eq, last⟩ := eq_append_cons_of_mem (mem_reverse.mpr dot)
    obtain rfl : name = .ofList (earlier.reverse ++ '.' :: later.reverse) := by
      simpa using congrArg (fun cs : List Char => String.ofList cs.reverse) eq
    rw [suffixOf_ofList (by simpa using last)]
    split
    · exact nil_suffix
    · simp only [String.toList_ofList]
      exact suffix_append _ _
  · have all : name.toList.reverse.takeWhile (· != '.') = name.toList.reverse :=
      takeWhile_eq_self_iff.mpr fun c hc => bne_iff_ne.mpr fun (e : c = '.') => dot (e ▸ mem_reverse.mp hc)
    simp [suffixOf, all, String.length_toList]

lemma suffix_iff {e name : String} (he : e ∈ endings) : e.toList <:+ name.toList ↔ suffixOf name = e ∨ name = e := by
  constructor
  · have dotted : ∀ e ∈ endings, e.toList = '.' :: e.toList.tail ∧ e.toList.tail ≠ [] ∧ '.' ∉ e.toList.tail := by decide
    -- the dot of the ending is the last one of the name, and is not its first character unless the name is the ending
    obtain ⟨eq, some_, nodot⟩ := dotted e he
    rintro ⟨pre, h⟩
    rw [eq] at h
    have suffix := @suffixOf_ofList pre _ nodot
    rw [h, String.ofList_toList] at suffix
    by_cases first : pre = []
    · subst first
      exact .inr (String.toList_injective (h.symm.trans eq.symm))
    · rw [suffix, if_neg (by simp [first, some_]), ← eq, String.ofList_toList]
      exact .inl rfl
  · rintro (rfl | rfl)
    · exact suffixOf_suffix name
    · exact suffix_rfl

lemma kind?_eq_none_iff (p : SourcePath) : p.kind? = none ↔ lower (suffixOf p.name) ∉ endings := by
  simp only [kind?, suffix, endings, lookup_eq_none_iff, bne_iff_ne, mem_map, not_exists, not_and]
  exact forall₂_congr fun _ _ => ne_comm

end SourcePath

lemma Text.isSome_dropLeading? (p s : List Char) : (dropLeading? p s).isSome = true ↔ p <+: s := by
  induction p generalizing s with
  | nil => simp [dropLeading?]
  | cons a p ih => cases s <;> simp [dropLeading?, cons_prefix_cons, apply_ite, ih]

lemma hasScriptEnding_iff (name : String) : hasScriptEnding name = true ↔ suffixOf name ∈ endings ∨ name ∈ endings := by
  have ends : hasScriptEnding name = true ↔ ∃ e ∈ endings, e.toList <:+ name.toList := by
    simp [hasScriptEnding, endings, isSome_dropLeading?]
  rw [ends]
  constructor
  · rintro ⟨e, he, h⟩
    obtain rfl | rfl := (suffix_iff he).mp h
    · exact .inl he
    · exact .inr he
  · rintro (he | he)
    · exact ⟨_, he, (suffix_iff he).mpr (.inl rfl)⟩
    · exact ⟨_, he, suffix_rfl⟩

lemma FileTree.any_hasScriptEnding {t : FileTree} {folder : SourcePath} {parts : List String}
    (h : parts ∈ t.filesBelow folder) : parts.getLast?.any hasScriptEnding = hasScriptEnding
    (folder.below parts).name := by
  obtain ⟨init, last, rfl⟩ : ∃ init last, parts = init ++ [last] := by
    unfold filesBelow at h
    split at h
    next base _ =>
      obtain ⟨key, hkey, below⟩ := mem_filterMap.mp h
      have some_ := (mem_filter.mp hkey).2
      simp only [isBelow, below] at some_
      exact ⟨_, _, (dropLast_concat_getLast (by simpa using some_)).symm⟩
    next => cases h
  have root : isRoot last = true → hasScriptEnding last = hasScriptEnding "" := by
    intro h
    simp only [isRoot, Bool.or_eq_true, beq_iff_eq] at h
    obtain rfl | rfl := h <;> decide
  simp only [below, name, getLast?_append, getLast?_singleton, Option.any_some, Option.some_or]
  split
  next h => exact root h
  next => rfl

lemma FileTree.mem_scriptFiles_iff (t : FileTree) (folder f : SourcePath) : f ∈ t.scriptFiles folder ↔
    (∃ parts ∈ t.filesBelow folder, folder.below parts = f) ∧ (suffixOf f.name ∈ endings ∨ f.name ∈ endings) := by
  simp only [scriptFiles, mem_map, mem_mergeSort, ← addAllNew_nil, mem_addAllNew, not_mem_nil, false_or, mem_filter]
  rw [← hasScriptEnding_iff]
  constructor
  · rintro ⟨parts, ⟨h, ending⟩, rfl⟩
    exact ⟨⟨parts, h, rfl⟩, any_hasScriptEnding h ▸ ending⟩
  · rintro ⟨⟨parts, h, rfl⟩, ending⟩
    exact ⟨parts, ⟨h, any_hasScriptEnding h ▸ ending⟩, rfl⟩

lemma Inspector.skipped_iff (i : Inspector) (t : FileTree) (f : SourcePath) :
    (i.file t f).result.outcome = .skipped ↔ lower (suffixOf f.name) ∉ endings := by
  refine Iff.trans ?_ (kind?_eq_none_iff f)
  unfold file
  cases f.kind? with
  | none => simp
  | some kind =>
    dsimp only
    repeat' split
    all_goals simp

/-- The files found below a folder are in order and without repetition. The search agrees with what
is done with a file alone, but for a name that is only an ending, and for a suffix that is an ending
with capitals. -/
theorem FileTree.search_agrees_iff (i : Inspector) (t : FileTree) (folder : SourcePath) :
    (t.scriptFiles folder).Pairwise (fun f g => partsLe f.parts g.parts = true) ∧ (t.scriptFiles folder).Nodup ∧
    (∀ f ∈ t.scriptFiles folder, ∃ parts ∈ t.filesBelow folder, folder.below parts = f) ∧
    ∀ parts ∈ t.filesBelow folder, ∀ f, folder.below parts = f →
      ((f ∈ t.scriptFiles folder ↔ (i.file t f).result.outcome ≠ .skipped) ↔
        f.name ∉ endings ∧ (lower (suffixOf f.name) ∈ endings → suffixOf f.name ∈ endings)) := by
  have nodup : (distinct ((t.filesBelow folder).filter fun parts => (parts.getLast?).any hasScriptEnding)).Nodup :=
    addAllNew_nil (α := List String) _ ▸ nodup_addAllNew nodup_nil
  refine ⟨?_, ?_, fun f hf => ((t.mem_scriptFiles_iff folder f).mp hf).1, fun parts hparts f hf => ?_⟩
  · refine pairwise_map.mpr (.imp (fun h => ?_) (pairwise_mergeSort partsLe_trans partsLe_total _))
    exact (partsLe_append ..).trans h
  · refine Nodup.map ?_ ((mergeSort_perm _ _).nodup_iff.mpr nodup)
    intro a b h
    exact append_cancel_left (congrArg SourcePath.parts h)
  · -- endings have no capitals, and a name that is one has no suffix
    have small : ∀ e ∈ endings, lower e ∈ endings := by decide
    have bare : ∀ e ∈ endings, lower (suffixOf e) ∉ endings := by decide
    have found := t.mem_scriptFiles_iff folder f
    have skipped := i.skipped_iff t f
    have hsmall := small (suffixOf f.name)
    have hbare := bare f.name
    clear small bare nodup
    grind

/-- A file with capitals in its suffix is not found, and one whose name is only an ending is found
and skipped. -/
theorem FileTree.search_differs : ∃ t : FileTree, t.filesBelow ⟨["d"]⟩ = [["A.HTML"], [".js"]] ∧
    t.scriptFiles ⟨["d"]⟩ = [⟨["d", ".js"]⟩] ∧ (SourcePath.mk ["d", "A.HTML"]).kind? = some .page ∧
      (SourcePath.mk ["d", ".js"]).kind? = none := by
  refine ⟨{ files := ⟨[(["d", "A.HTML"], []), (["d", ".js"], [])]⟩ }, ?_⟩
  decide +kernel

end ScriptAudit
