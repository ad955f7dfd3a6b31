import Reckoner.Proofs.DiagnosticPlaces

/-! Excerpts. An excerpt shows the lines around a place in order, each behind its number, and a caret below the
one that is pointed at. The caret stands under its column as long as line numbers have at most four digits. -/

namespace Reckoner
namespace Text

theorem lines_replicate_append (n : Nat) (cs : List Char) :
    lines (List.replicate n '\n' ++ cs) = List.replicate n [] ++ lines cs := by
  induction n with
  | zero => rfl
  | succ n ih => rw [List.replicate_succ, List.cons_append, lines_lineFeed, ih]; rfl

private theorem length_lines_replicate_append (n : Nat) (cs : List Char) :
    (lines (List.replicate n '\n' ++ cs)).length = n + (lines cs).length := by
  rw [lines_replicate_append, List.length_append, List.length_replicate]

private theorem getElem?_lines_replicate_append (n : Nat) (cs : List Char) :
    (lines (List.replicate n '\n' ++ cs))[n]? = (lines cs)[0]? := by
  rw [lines_replicate_append, List.getElem?_append_right (Nat.le_of_eq List.length_replicate),
    List.length_replicate, Nat.sub_self]

end Text

namespace Diagnostic
open Text

private theorem lines_joinLines {ls : List (List Char)} (hne : ls ≠ []) (h : ∀ l, l ∈ ls → '\n' ∉ l) :
    lines (joinLines ls) = ls := by
  rw [lines_eq_splitOn, joinLines, List.splitOn_intercalate '\n' h hne]

/-- A line of a source as an excerpt shows it, behind its number. -/
def numberedLine (source : List Char) (n : Nat) : List Char :=
  lineLabel n ++ ((lines source)[n - 1]?).getD []

/-- Where a column of a line stands in the line as an excerpt shows it. -/
def shownOffset (line column : Nat) : Nat :=
  (lineLabel line).length + (column - 1)

/-- The numbers from one to another. -/
def numbersFrom (first last : Nat) : List Nat :=
  List.range' first (last + 1 - first)

section Numbers
variable {first line last n : Nat}

private theorem mem_numbersFrom : n ∈ numbersFrom first last ↔ first ≤ n ∧ n ≤ last := by
  rw [numbersFrom, List.mem_range'_1]
  omega

private theorem numbersFrom_append (hfirst : first ≤ line) (hlast : line ≤ last) :
    numbersFrom first line ++ numbersFrom (line + 1) last = numbersFrom first last := by
  have hstart : line + 1 = first + 1 * (line + 1 - first) := by omega
  have hcount : line + 1 - first + (last + 1 - (line + 1)) = last + 1 - first := by omega
  rw [numbersFrom, numbersFrom, numbersFrom, ← hcount, ← List.range'_append, ← hstart]

private theorem numbersFrom_concat (hfirst : 1 ≤ first) (hline : first ≤ line) :
    numbersFrom first (line - 1) ++ [line] = numbersFrom first line := by
  have hcount : line + 1 - first = line - 1 + 1 - first + 1 := by omega
  have hstart : first + (line - 1 + 1 - first) = line := by omega
  rw [numbersFrom, numbersFrom, hcount, List.range'_1_concat, hstart]

end Numbers

private theorem zipIdx_window {α : Type} (all : List α) {first last : Nat} (d : α) (hlast : last ≤ all.length) :
    ((all.take last).drop first).zipIdx first =
      (numbersFrom (first + 1) last).map fun n => (all[n - 1]?.getD d, n - 1) := by
  refine List.ext_getElem ?_ fun i hi hi' => ?_
  · simp only [List.length_zipIdx, List.length_drop, List.length_take, List.length_map, numbersFrom,
      List.length_range']
    omega
  · simp only [List.length_map, numbersFrom, List.length_range'] at hi'
    have hlt : first + i < all.length := by omega
    have hindex : first + 1 + i - 1 = first + i := by omega
    simp [numbersFrom, hindex, hlt]

private theorem length_lineLabel (n : Nat) : (lineLabel n).length = max 4 (Nat.toDigits 10 n).length + 2 := by
  have hdigits : (toString n).toList = Nat.toDigits 10 n := by simp
  simp only [lineLabel, hdigits, List.length_append, List.length_replicate, List.length_cons, List.length_nil]
  omega

section Excerpt
variable {source : List Char} {line column n : Nat}

theorem displayLine_eq (hn : 1 ≤ n) (hcolumn : 1 ≤ column) :
    displayLine line column (n - 1) (((lines source)[n - 1]?).getD []) =
      numberedLine source n :: if n = line then [List.replicate (column + 5) ' ' ++ ['^']] else [] := by
  have hnumber : n - 1 + 1 = n := Nat.sub_add_cancel hn
  have hcaret : 6 + ((column : Int) - 1).toNat = column + 5 := by omega
  have hiff : ((n - 1 : Nat) : Int) = line - 1 ↔ n = line := by omega
  simp only [displayLine, hnumber, caretLine, hcaret, hiff]
  split <;> rfl

private theorem flatMap_displayLine {ns : List Nat} (hns : ∀ n, n ∈ ns → 1 ≤ n ∧ n ≠ line) (hcolumn : 1 ≤ column) :
    (ns.flatMap fun n => displayLine line column (n - 1) (((lines source)[n - 1]?).getD [])) =
      ns.map (numberedLine source) := by
  induction ns with
  | nil => rfl
  | cons n ns ih =>
    obtain ⟨⟨hn, hne⟩, hns⟩ := List.forall_mem_cons.1 hns
    rw [List.flatMap_cons, ih hns, displayLine_eq hn hcolumn, if_neg hne]
    rfl

theorem excerptOf_eq (around : Nat) (hline : 1 ≤ line) (hlast : line ≤ (lines source).length)
    (hcolumn : 1 ≤ column) :
    excerptOf source line column around = joinLines
      ((numbersFrom (max 1 (line - around)) line).map (numberedLine source) ++
        (List.replicate (column + 5) ' ' ++ ['^']) ::
          (numbersFrom (line + 1) (min (lines source).length (line + around))).map (numberedLine source)) := by
  have hstart : ((line : Int) - around - 1).toNat + 1 = max 1 (line - around) := by omega
  have hend : (min ((lines source).length : Int) (line + around)).toNat =
      min (lines source).length (line + around) := by omega
  have hfirst : 1 ≤ max 1 (line - around) ∧ max 1 (line - around) ≤ line := by omega
  have hbound : line ≤ min (lines source).length (line + around) := by omega
  have hwindow : excerptOf source line column around = joinLines
      ((numbersFrom (max 1 (line - around)) (min (lines source).length (line + around))).flatMap fun n =>
        displayLine line column (n - 1) (((lines source)[n - 1]?).getD [])) := by
    rw [excerptOf, hend, zipIdx_window _ [] (Nat.min_le_left ..), hstart, List.flatMap_map]
  generalize max 1 (line - around) = first at hfirst hwindow ⊢
  generalize min (lines source).length (line + around) = last at hbound hwindow ⊢
  rw [hwindow, ← numbersFrom_append hfirst.2 hbound, ← numbersFrom_concat hfirst.1 hfirst.2,
    List.flatMap_append, List.flatMap_append, List.flatMap_singleton, displayLine_eq hline hcolumn, if_pos rfl,
    flatMap_displayLine (fun n hn => ?_) hcolumn, flatMap_displayLine (fun n hn => ?_) hcolumn]
  · simp
  all_goals
    have := mem_numbersFrom.1 hn
    omega

private theorem lineFeed_not_mem_numberedLine (n : Nat) : '\n' ∉ numberedLine source n := by
  have hlabel : '\n' ∉ lineLabel n := by
    simp [lineLabel, lineFeed_not_mem_toDigits, List.mem_replicate]
  have htext : '\n' ∉ ((lines source)[n - 1]?).getD [] := by
    cases h : (lines source)[n - 1]? with
    | none => exact List.not_mem_nil
    | some l => exact not_mem_of_mem_lines (List.mem_of_getElem? h)
  exact fun h => (List.mem_append.1 h).elim hlabel htext

private theorem lines_excerptOf (around : Nat) (hline : 1 ≤ line) (hlast : line ≤ (lines source).length)
    (hcolumn : 1 ≤ column) :
    lines (excerptOf source line column around) =
      (numbersFrom (max 1 (line - around)) line).map (numberedLine source) ++
        (List.replicate (column + 5) ' ' ++ ['^']) ::
          (numbersFrom (line + 1) (min (lines source).length (line + around))).map (numberedLine source) := by
  rw [excerptOf_eq around hline hlast hcolumn, lines_joinLines (by simp)]
  intro l hl
  rcases List.mem_append.1 hl with hl | hl
  · obtain ⟨n, -, rfl⟩ := List.mem_map.1 hl
    exact lineFeed_not_mem_numberedLine n
  · rcases List.mem_cons.1 hl with rfl | hl
    · simp
    · obtain ⟨n, -, rfl⟩ := List.mem_map.1 hl
      exact lineFeed_not_mem_numberedLine n

end Excerpt

private theorem shownOffset_eq {line column : Nat} (hcolumn : 1 ≤ column) :
    shownOffset line column = column + 5 + ((Nat.toDigits 10 line).length - 4) := by
  rw [shownOffset, length_lineLabel]
  omega

end Diagnostic

open Text Diagnostic

/-- What an excerpt shows: in order, the lines of the source that are at most so far away from the given line,
each behind its number, and directly below the given line one more, of spaces and a caret. The caret stands
under its column as long as the number of the line has at most four digits, and else as many columns to the
left of it as there are digits more. -/
theorem carets_stand_under_columns_up_to_four_digits {source : List Char} {line column : Nat} (around : Nat)
    (hline : 1 ≤ line) (hlast : line ≤ (lines source).length) (hcolumn : 1 ≤ column) :
    lines (excerptOf source line column around) =
        (numbersFrom (max 1 (line - around)) line).map (numberedLine source) ++
          (List.replicate (column + 5) ' ' ++ ['^']) ::
            (numbersFrom (line + 1) (min (lines source).length (line + around))).map (numberedLine source) ∧
      shownOffset line column = column + 5 + ((Nat.toDigits 10 line).length - 4) ∧
      (shownOffset line column = column + 5 ↔ line < 10000) := by
  refine ⟨lines_excerptOf around hline hlast hcolumn, shownOffset_eq hcolumn, ?_⟩
  have hdigits : (Nat.toDigits 10 line).length ≤ 4 ↔ line < 10000 :=
    Nat.length_toDigits_le_iff (by decide) (by decide)
  rw [shownOffset_eq hcolumn, ← hdigits]
  omega

/-- The last of three lines, and the one before it. -/
theorem last_line_is_pointed_at :
    let source := "a;\nb;\n\tc d".toList
    (1 ≤ 3 ∧ 3 ≤ (lines source).length ∧ 1 ≤ 4) ∧
      lines (excerptOf source 3 4 1) =
        ["   2: b;".toList, "   3: \tc d".toList, "         ^".toList] ∧
      shownOffset 3 4 = 9 := by
  intro source
  have hlast : 3 ≤ (lines source).length := by decide
  have hcolumn : 1 ≤ 4 := by decide
  obtain ⟨hlines, -, hoffset⟩ := carets_stand_under_columns_up_to_four_digits 1 (by decide) hlast hcolumn
  refine ⟨⟨by decide, hlast, by decide⟩, hlines.trans (by decide +kernel), hoffset.2 (by decide)⟩

/-- On the ten-thousandth line the caret stands one column to the left of its own. -/
theorem five_digits_push_the_line_aside :
    let source := List.replicate 9999 '\n' ++ "1 2;".toList
    (lines source).length = 10000 ∧
      excerptOf source 10000 3 0 = "10000: 1 2;\n        ^".toList ∧
      "        ^".toList.idxOf '^' = 8 ∧ shownOffset 10000 3 = 9 := by
  intro source
  have hlength : (lines source).length = 10000 := length_lines_replicate_append 9999 _
  have htext : (lines source)[9999]? = some "1 2;".toList := getElem?_lines_replicate_append 9999 _
  have hshown : numberedLine source 10000 = "10000: 1 2;".toList := by
    rw [numberedLine, htext]
    decide +kernel
  have hlast : 10000 ≤ (lines source).length := Nat.le_of_eq hlength.symm
  have hcolumn : 1 ≤ 3 := by decide
  have hexcerpt := excerptOf_eq 0 (by decide) hlast hcolumn
  have hone : numbersFrom (max 1 (10000 - 0)) 10000 = [10000] := rfl
  have hnone : numbersFrom (10000 + 1) (min (lines source).length (10000 + 0)) = [] := by
    rw [hlength]
    rfl
  rw [hone, hnone, List.map_singleton, hshown] at hexcerpt
  exact ⟨hlength, hexcerpt.trans (by decide +kernel), by decide, by decide +kernel⟩

end Reckoner
