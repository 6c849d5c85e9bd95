import Mathlib.Data.List.Basic
import Mathlib.Data.List.Range
import ScriptAudit.Report.Excerpt

/-!
# What excerpts show

An excerpt has the numbered lines around one, each whole or as a window of the allowed width.
-/

namespace ScriptAudit

open List Text

/-- What is shown of a line from the position `left` on: all of it if it is short enough, and
otherwise a stretch of the given width, with dots on each side on which something is cut off. -/
structure Shows (text : List Char) (width left : Nat) (shown : List Char) : Prop where
  whole : text.length ≤ width → left = 0 ∧ shown = text
  cut : width < text.length → left + width ≤ text.length ∧ shown =
    (if 0 < left then "...".toList else []) ++ (text.drop left).take width ++
      (if left + width < text.length then "...".toList else [])

lemma slice_eq_take_drop {α : Type} {xs : List α} {left width : Nat} (h : left + width ≤ xs.length) :
    slice xs left (some (left + width : Nat)) = (xs.drop left).take width := by
  have clamp (i : Nat) (hi : i ≤ xs.length) : clampPosition xs.length i = i := by
    simp [clampPosition, Nat.min_eq_left hi]
  simp only [slice, clamp left (by omega), clamp _ h, drop_take]
  congr 1
  omega

lemma excerptLine_shows (text : List Char) (anchor : Int) {width : Nat} (hwidth : 1 ≤ width) :
    ∃ left, Shows text width left (excerptLine text anchor width) ∧
      (0 ≤ anchor → anchor < text.length → left ≤ anchor ∧ anchor < left + width) := by
  unfold excerptLine
  split
  next long =>
    have half : (width : Int).fdiv 2 = width / 2 := Int.fdiv_eq_ediv_of_nonneg _ (by omega)
    obtain ⟨left, hleft⟩ : ∃ left : Nat, (left : Int) = max 0 (min (anchor - width / 2) (text.length - width)) :=
      ⟨Int.toNat _, Int.toNat_of_nonneg (by omega)⟩
    have inside : left + width ≤ text.length := by omega
    refine ⟨left, ⟨fun short => absurd short (by omega), fun _ => ⟨inside, ?_⟩⟩, by omega⟩
    have stretch := slice_eq_take_drop inside
    rw [Int.natCast_add] at stretch
    rw [excerptWindow, half, ← hleft, stretch]
    norm_cast
  next short => exact ⟨0, ⟨fun _ => ⟨rfl, rfl⟩, fun long => absurd long (by omega)⟩, by omega⟩

def numbered (shown : List (Nat × List Char)) : String :=
  "\n".intercalate (shown.map fun w => toString w.1 ++ ": " ++ String.ofList w.2)

/-- At most `context` consecutive numbers of lines, with `line` among them. -/
def Around (line context : Nat) (numbers : List Nat) : Prop :=
  ∃ first count, numbers = range' first count ∧ count ≤ context ∧ 1 ≤ first ∧ line ∈ numbers

lemma filter_range' {n first : Nat} (count : Nat) (hfirst : 1 ≤ first) (h : first + count ≤ n + 1) :
    (range' 1 n).filter (fun i => decide (first ≤ i) && decide (i < first + count)) = range' first count := by
  obtain ⟨pre, rfl⟩ := Nat.exists_eq_add_of_le hfirst
  obtain ⟨after, rfl⟩ : ∃ after, n = pre + (count + after) := ⟨n - pre - count, by omega⟩
  rw [← range'_append_1, ← range'_append_1, filter_append, filter_append, filter_eq_nil_iff.mpr, filter_eq_self.mpr,
    filter_eq_nil_iff.mpr]
  · simp
  all_goals
    intro i hi
    rw [mem_range'_1] at hi
    simp
    omega

lemma excerpt_eq_numbered {source : String} {line context : Nat} (column : Option Int) (width : Nat) (hline : 1 ≤ line)
    (hlines : line ≤ (lines source).length) (hcontext : 1 ≤ context) :
    ∃ shown, excerpt source (some line) column context width = numbered shown ∧ Around line context (shown.map (·.1)) ∧
      ∀ w ∈ shown, ∃ text, (lines source)[w.1 - 1]? = some text ∧
        w.2 = excerptLine text (if w.1 = line then column.getD 0 else 0) width := by
  have half : ((context : Int) - 1).fdiv 2 = (context - 1) / 2 := Int.fdiv_eq_ediv_of_nonneg _ (by omega)
  obtain ⟨first, hfirst⟩ : ∃ first : Nat, (first : Int) = max 1 ((line : Int) - (context - 1) / 2) :=
    ⟨Int.toNat _, Int.toNat_of_nonneg (by omega)⟩
  obtain ⟨count, hcount⟩ : ∃ count : Nat, (first : Int) + count = min
    ((lines source).length + 1 : Int) (first + context) :=
    ⟨min ((lines source).length + 1) (first + context) - first, by omega⟩
  let within (i : Nat) : Bool := decide (first ≤ i) && decide (i < first + count)
  refine ⟨(((lines source).zipIdx 1).filter (within ·.2)).map fun e =>
    (e.2, excerptLine e.1 (if e.2 = line then column.getD 0 else 0) width), ?_, ⟨first, count, ?_⟩, fun w hw => ?_⟩
  · have last : min ((lines source).length : Int) (first + context - 1) = first + count - 1 := by omega
    have within_iff (i : Nat) : (decide ((first : Int) ≤ i) && decide ((i : Int) ≤ first + count - 1)) = within i := by
      rw [Bool.eq_iff_iff]
      simp [within]
      omega
    have known : ¬((line : Int) == 0 || decide (((lines source).length : Int) < line)) = true := by
      simp
      omega
    simp only [excerpt, Option.getD_some, half, ← hfirst, last, if_neg known, within_iff, numbered, map_map, beq_iff_eq,
      Int.natCast_inj]
    rfl
  · have numbers := filter_range' (n := (lines source).length) count (show 1 ≤ first by omega) (by omega)
    rw [← zipIdx_map_snd, filter_map] at numbers
    rw [map_map]
    refine ⟨numbers, by omega, by omega, numbers ▸ mem_range'_1.mpr (by omega)⟩
  · obtain ⟨⟨text, i⟩, he, rfl⟩ := mem_map.mp hw
    exact ⟨text, (mk_mem_zipIdx_iff_le_and_getElem?_sub.mp (mem_filter.mp he).1).2, rfl⟩

/-- A numbered line shows the line of its number, around the column if it is the line of the place.
-/
def ShowsLine (ls : List (List Char)) (line : Nat) (column : Option Int) (width : Nat) (w : Nat × List Char) : Prop :=
  ∃ text left, ls[w.1 - 1]? = some text ∧ Shows text width left w.2 ∧
    ∀ c, w.1 = line → column = some c → 0 ≤ c → c < text.length → left ≤ c ∧ c < left + width

lemma showsLine_excerptLine {ls : List (List Char)} {line width : Nat} {column : Option Int} {w : Nat × List Char}
    {text : List Char} (hwidth : 1 ≤ width) (listed : ls[w.1 - 1]? = some text)
    (shown : w.2 = excerptLine text (if w.1 = line then column.getD 0 else 0) width) :
    ShowsLine ls line column width w := by
  obtain ⟨left, shows_, inside⟩ := excerptLine_shows text (if w.1 = line then column.getD 0 else 0) hwidth
  refine ⟨text, left, listed, shown ▸ shows_, fun c hw hc => ?_⟩
  simpa [hw, hc] using inside

/-- An excerpt shows consecutive lines, at most as many as asked for, the line of the place among
them. Each is shown whole or in a window of exactly the width, and the window on that line contains
the column. -/
theorem excerpt_window (source : String) {line : Nat} (column : Option Int) (context width : Nat) (hline : 1 ≤ line)
    (hlines : line ≤ (lines source).length) (hcontext : 1 ≤ context) (hwidth : 1 ≤ width) :
    ∃ shown, excerpt source (some line) column context width = numbered shown ∧ Around line context (shown.map (·.1)) ∧
      ∀ w ∈ shown, ShowsLine (lines source) line column width w := by
  obtain ⟨shown, eq, around, each⟩ := excerpt_eq_numbered column width hline hlines hcontext
  refine ⟨shown, eq, around, fun w hw => ?_⟩
  obtain ⟨text, listed, hshown⟩ := each w hw
  exact showsLine_excerptLine hwidth listed hshown

/-- A window of one character at the end of the last line. -/
theorem excerpt_window_narrow : 2 ≤ (lines "ab\nxyz\n").length ∧
    ∃ shown, excerpt "ab\nxyz\n" (some 2) (some 2) 1 1 = numbered shown ∧ Around 2 1 (shown.map (·.1)) := by
  have hlines : 2 ≤ (lines "ab\nxyz\n").length := by decide +kernel
  obtain ⟨shown, eq, around, -⟩ :=
    excerpt_window "ab\nxyz\n" (some 2) 1 1 (by decide) hlines (by decide) (by decide)
  exact ⟨hlines, shown, eq, around⟩

def Text.endsScriptLine (c : Char) : Bool :=
  c == '\n' || c == '\r' || c.toNat == 0x2028 || c.toNat == 0x2029

def Text.scriptLines : List Char → List (List Char)
  | [] => [[]]
  | '\r' :: '\n' :: rest => [] :: scriptLines rest
  | c :: rest =>
    if endsScriptLine c then [] :: scriptLines rest else (scriptLines rest).modifyHead (c :: ·)

/-- None of the first lines contains a character at which a line of a text ends. -/
def Text.Plain (ls : List (List Char)) (n : Nat) : Prop :=
  ∀ l ∈ ls.take n, ∀ c ∈ l, endsLine c = false

lemma Text.endsLine_of_endsScriptLine {c : Char} (h : endsScriptLine c = true) : endsLine c = true := by
  simp only [endsScriptLine, Bool.or_eq_true, beq_iff_eq] at h
  rcases h with ((rfl | rfl) | h) | h
  · rfl
  · rfl
  · simp [endsLine, h]
  · simp [endsLine, h]

lemma Text.exists_scriptLines (cs : List Char) : ∃ l ls, scriptLines cs = l :: ls := by
  fun_induction scriptLines cs with
  | case4 c rest _ _ ih =>
    obtain ⟨l, ls, lines⟩ := ih
    exact ⟨c :: l, ls, by rw [lines, modifyHead_cons]⟩
  | _ => exact ⟨_, _, rfl⟩

/-- As long as only ends of script lines have come, the lines of a text are lines of a script. -/
lemma Text.getElem?_scriptLines {cs pre text : List Char} {k : Nat} (plain : Plain (scriptLines cs) (k + 1))
    (h : (linesFrom pre cs)[k]? = some text) :
    ((scriptLines cs).modifyHead (pre.reverse ++ ·))[k]? = some text := by
  have next {first rest : List Char} {k : Nat} (plain : Plain ([] :: scriptLines rest) (k + 1))
      (h : (first :: linesFrom [] rest)[k]? = some text)
      (ih : ∀ {k}, Plain (scriptLines rest) (k + 1) → (linesFrom [] rest)[k]? = some text →
        ((scriptLines rest).modifyHead ([].reverse ++ ·))[k]? = some text) :
      (first :: scriptLines rest)[k]? = some text := by
    cases k with
    | zero => exact h
    | succ k =>
      obtain ⟨l, ls, lines⟩ := exists_scriptLines rest
      have found := ih (fun l hl => plain l (mem_cons_of_mem _ hl)) h
      rwa [lines] at found ⊢
  fun_induction scriptLines cs generalizing k pre with
  | case1 => cases pre <;> simp_all [linesFrom]
  | case2 rest ih =>
    rw [modifyHead_cons, append_nil]
    exact next plain h ih
  | case3 c rest hcr ends ih =>
    rw [linesFrom, if_pos (endsLine_of_endsScriptLine ends)] at h
    · rw [modifyHead_cons, append_nil]
      exact next plain h ih
    · exact hcr
  | case4 c rest hcr ends ih =>
    obtain ⟨l, ls, lines⟩ := exists_scriptLines rest
    rw [lines] at plain ih ⊢
    have first := plain (c :: l) mem_cons_self
    rw [linesFrom, if_neg (by simp [first c mem_cons_self])] at h
    · have found := ih (fun l' hl' d hd => ?_) h
      · simpa using found
      · rcases mem_cons.mp hl' with rfl | hl'
        · exact first d (mem_cons_of_mem _ hd)
        · exact plain l' (mem_cons_of_mem _ hl') d hd
    · exact hcr

/-- Every line of an excerpt is the line of the script with its number, if no other end of a line
has come up to there. -/
theorem excerpt_shows_script_lines (source : String) {line : Nat} (column : Option Int) (context width : Nat)
    (hline : 1 ≤ line) (hlines : line ≤ (lines source).length) (hcontext : 1 ≤ context) (hwidth : 1 ≤ width) :
    ∃ shown, excerpt source (some line) column context width = numbered shown ∧ Around line context (shown.map (·.1)) ∧
      ∀ w ∈ shown, Plain (scriptLines source.toList) w.1 →
        ShowsLine (scriptLines source.toList) line column width w := by
  obtain ⟨shown, eq, around, each⟩ := excerpt_eq_numbered column width hline hlines hcontext
  refine ⟨shown, eq, around, fun w hw plain => ?_⟩
  obtain ⟨text, listed, hshown⟩ := each w hw
  refine showsLine_excerptLine hwidth ?_ hshown
  obtain ⟨first, count, numbers, -, positive, -⟩ := around
  have hn : w.1 ∈ range' first count := numbers ▸ mem_map_of_mem hw
  rw [mem_range'_1] at hn
  obtain ⟨l, ls, script⟩ := exists_scriptLines source.toList
  have found := getElem?_scriptLines (k := w.1 - 1) (by rwa [Nat.sub_add_cancel (by omega)]) listed
  rwa [script] at found ⊢

/-- A script whose first line ends with two characters. -/
theorem excerpt_shows_script_lines_narrow : 2 ≤ (lines "a\r\nb=c").length ∧
    Plain (scriptLines "a\r\nb=c".toList) 2 ∧
    ∃ shown, excerpt "a\r\nb=c" (some 2) (some 2) 1 2 = numbered shown ∧ Around 2 1 (shown.map (·.1)) := by
  have hlines : 2 ≤ (lines "a\r\nb=c").length := by decide +kernel
  obtain ⟨shown, eq, around, -⟩ :=
    excerpt_shows_script_lines "a\r\nb=c" (some 2) 1 2 (by decide) hlines (by decide) (by decide)
  have plain : ((scriptLines "a\r\nb=c".toList).take 2).all (·.all (!endsLine ·)) = true := by decide +kernel
  exact ⟨hlines, by simpa [Plain] using plain, shown, eq, around⟩

/-- A form feed ends a line of a text and none of a script, so the numbers that follow are too
large. -/
theorem excerpt_after_form_feed : excerpt "a\x0cb\nsink()" (some 2) (some 0) 3 160 = "1: a\n2: b\n3: sink()" ∧
    scriptLines "a\x0cb\nsink()".toList = ["a\x0cb".toList, "sink()".toList] := by
  decide +kernel

end ScriptAudit
