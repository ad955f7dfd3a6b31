import Mathlib.Data.List.Induction
import Reckoner.Proofs.ParsedText
import Reckoner.Proofs.StoppingPlaces

/-! Places in diagnostics. A rejection is about a place in the text as given, but tells where that place is
once tabs are widened, and what it shows is cut from there. Where no tab before the place is wider than a
character, this comes to the same. -/

namespace Reckoner
namespace Text

/-- What stands behind the last line feed. -/
def lastLine (cs : List Char) : List Char :=
  (cs.reverse.takeWhile (· ≠ '\n')).reverse

/-- The offset of a line and a column, both counted from one: the lines before it, each with its line feed,
and the columns before. -/
def offsetOf (cs : List Char) (line column : Nat) : Nat :=
  (((lines cs).take (line - 1)).flatMap (· ++ ['\n'])).length + (column - 1)

section Lines
variable {cs before after : List Char} {c : Char}

theorem lastLine_concat_lineFeed (cs : List Char) : lastLine (cs ++ ['\n']) = [] := by
  simp [lastLine]

theorem lastLine_concat (h : c ≠ '\n') (cs : List Char) : lastLine (cs ++ [c]) = lastLine cs ++ [c] := by
  simp [lastLine, h]

private theorem lastLine_map {f : Char → Char} (hf : ∀ c, f c = '\n' ↔ c = '\n') (cs : List Char) :
    lastLine (cs.map f) = (lastLine cs).map f := by
  induction cs using List.reverseRecOn with
  | nil => rfl
  | append_singleton cs c ih =>
    rw [List.map_append, List.map_singleton]
    by_cases hc : c = '\n'
    · rw [(hf c).2 hc, hc, lastLine_concat_lineFeed, lastLine_concat_lineFeed, List.map_nil]
    · rw [lastLine_concat (mt (hf c).1 hc), lastLine_concat hc, ih, List.map_append, List.map_singleton]

theorem lines_lineFeed (cs : List Char) : lines ('\n' :: cs) = [] :: lines cs :=
  if_pos rfl

theorem lines_eq_cons (cs : List Char) : lines cs = cs.takeWhile (· ≠ '\n') :: (lines cs).tail := by
  induction cs with
  | nil => rfl
  | cons c cs ih =>
    by_cases hc : c = '\n'
    · subst hc
      rfl
    · rw [lines, if_neg hc, ih]
      simp [hc]

theorem lines_cons (h : c ≠ '\n') (cs : List Char) :
    lines (c :: cs) = (c :: cs.takeWhile (· ≠ '\n')) :: (lines cs).tail := by
  rw [lines, if_neg h, lines_eq_cons cs]
  rfl

theorem lineFeed_not_mem_toDigits (n : Nat) : '\n' ∉ Nat.toDigits 10 n :=
  fun hmem => absurd (Nat.isDigit_of_mem_toDigits (by decide) (by decide) hmem) (by decide)

theorem not_mem_of_mem_lines {l : List Char} (h : l ∈ lines cs) : '\n' ∉ l := by
  induction cs generalizing l with
  | nil =>
    rw [List.mem_singleton.1 h]
    exact List.not_mem_nil
  | cons c cs ih =>
    by_cases hc : c = '\n'
    · subst hc
      rw [lines_lineFeed] at h
      rcases List.mem_cons.1 h with rfl | h
      · exact List.not_mem_nil
      · exact ih h
    · rw [lines_cons hc] at h
      rw [lines_eq_cons cs] at ih
      rcases List.mem_cons.1 h with rfl | h
      · exact List.not_mem_cons_of_ne_of_not_mem (Ne.symm hc) (ih List.mem_cons_self)
      · exact ih (List.mem_cons_of_mem _ h)

theorem lines_eq_splitOn (cs : List Char) : lines cs = cs.splitOn '\n' := by
  rw [List.splitOn_eq_splitOnP]
  induction cs with
  | nil => rfl
  | cons c cs ih =>
    rw [lines, List.splitOnP_cons_eq_if_modifyHead, ← ih]
    by_cases hc : c = '\n'
    · simp [hc]
    · rw [if_neg hc, if_neg (by simpa using hc), lines_eq_cons cs]
      rfl

theorem lines_append_lineFeed {l : List Char} (h : '\n' ∉ l) (cs : List Char) :
    lines (l ++ '\n' :: cs) = l :: lines cs := by
  rw [lines_eq_splitOn, lines_eq_splitOn, List.splitOn_eq_splitOnP, List.splitOn_eq_splitOnP]
  refine List.splitOnP_append_cons_of_forall_mem (fun c hc => ?_) '\n' (by decide) cs
  exact beq_eq_false_iff_ne.2 fun he => h (he ▸ hc)

/-- The lines of two pieces: those of the first, the last of them going on to the first line feed of the
second, and those of the second behind it. -/
theorem exists_lines_append (before : List Char) : ∃ front : List (List Char),
    front.length = before.count '\n' ∧
      front.flatMap (· ++ ['\n']) ++ lastLine before = before ∧
      ∀ after, lines (before ++ after) =
        front ++ (lastLine before ++ after.takeWhile (· ≠ '\n')) :: (lines after).tail := by
  induction before using List.reverseRecOn with
  | nil => exact ⟨[], rfl, rfl, lines_eq_cons⟩
  | append_singleton before c ih =>
    obtain ⟨front, hlength, hfront, hlines⟩ := ih
    by_cases hc : c = '\n'
    · subst hc
      refine ⟨front ++ [lastLine before], by simp [hlength], ?_, fun after => ?_⟩
      · rw [lastLine_concat_lineFeed, List.flatMap_append, List.flatMap_singleton, ← List.append_assoc, hfront,
          List.append_nil]
      · rw [lastLine_concat_lineFeed, List.append_assoc, List.singleton_append, hlines, lines_lineFeed,
          List.tail_cons, lines_eq_cons after]
        simp
    · refine ⟨front, by simp [hlength, hc], ?_, fun after => ?_⟩
      · rw [lastLine_concat hc, ← List.append_assoc, hfront]
      · rw [lastLine_concat hc, List.append_assoc, List.singleton_append, hlines, lines_cons hc]
        simp [hc]

/-- The line on which one piece ends and another begins. -/
theorem lines_between (before after : List Char) :
    (lines (before ++ after))[before.count '\n']? =
      some (lastLine before ++ after.takeWhile (· ≠ '\n')) := by
  obtain ⟨front, hlength, -, hlines⟩ := exists_lines_append before
  rw [hlines, ← hlength, List.getElem?_append_right (Nat.le_refl _), Nat.sub_self]
  rfl

private theorem offsetOf_between (before after : List Char) :
    offsetOf (before ++ after) (before.count '\n' + 1) ((lastLine before).length + 1) = before.length := by
  obtain ⟨front, hlength, hfront, hlines⟩ := exists_lines_append before
  rw [offsetOf, hlines, Nat.add_sub_cancel, Nat.add_sub_cancel, ← hlength, List.take_left,
    ← List.length_append, hfront]

theorem clipOffset_between (before after : List Char) :
    clipOffset (before ++ after).length before.length = before.length := by
  rw [clipOffset, if_neg (by omega), List.length_append]
  omega

private theorem lineAt_between (before after : List Char) :
    lineAt (before ++ after) before.length = (before.count '\n' + 1 : Nat) := by
  rw [lineAt, clipOffset_between, List.take_left]
  omega

private theorem columnAt_between (before after : List Char) :
    columnAt (before ++ after) before.length = ((lastLine before).length + 1 : Nat) := by
  simp only [columnAt, clipOffset_between, List.take_left, lastLine, List.length_reverse]
  omega

end Lines

section Tabs
variable {column : Nat} {cs before rest : List Char} {c : Char}

theorem expandTabsFrom_tab (column : Nat) (cs : List Char) : expandTabsFrom column ('\t' :: cs) =
    List.replicate (8 - column % 8) ' ' ++ expandTabsFrom (column + (8 - column % 8)) cs :=
  if_pos rfl

theorem expandTabsFrom_cons (h : c ≠ '\t') (column : Nat) (cs : List Char) :
    expandTabsFrom column (c :: cs) =
      c :: expandTabsFrom (if c = '\n' ∨ c = '\r' then 0 else column + 1) cs := by
  rw [expandTabsFrom, if_neg h]
  split <;> rfl

private theorem count_expandTabsFrom (column : Nat) (cs : List Char) :
    (expandTabsFrom column cs).count '\n' = cs.count '\n' := by
  induction cs generalizing column with
  | nil => rfl
  | cons c cs ih =>
    by_cases hc : c = '\t'
    · subst hc
      simp [expandTabsFrom_tab, ih, List.count_replicate]
    · rw [expandTabsFrom_cons hc, List.count_cons, List.count_cons, ih]

private theorem length_le_expandTabsFrom (column : Nat) (cs : List Char) :
    cs.length ≤ (expandTabsFrom column cs).length := by
  induction cs generalizing column with
  | nil => exact Nat.le_refl 0
  | cons c cs ih =>
    by_cases hc : c = '\t'
    · subst hc
      have := ih (column + (8 - column % 8))
      rw [expandTabsFrom_tab, List.length_append, List.length_replicate, List.length_cons]
      omega
    · rw [expandTabsFrom_cons hc, List.length_cons, List.length_cons]
      exact Nat.succ_le_succ (ih _)

/-- A text that is not longer with its tabs widened has a space for each of them then. -/
theorem expandTabsFrom_eq_map (h : (expandTabsFrom column cs).length = cs.length) :
    expandTabsFrom column cs = cs.map fun c => if c = '\t' then ' ' else c := by
  induction cs generalizing column with
  | nil => rfl
  | cons c cs ih =>
    by_cases hc : c = '\t'
    · subst hc
      have hle := length_le_expandTabsFrom (column + (8 - column % 8)) cs
      rw [expandTabsFrom_tab, List.length_append, List.length_replicate, List.length_cons] at h
      have hwidth : 8 - column % 8 = 1 := by omega
      rw [expandTabsFrom_tab, hwidth, ih (by rw [hwidth] at h; omega)]
      rfl
    · rw [expandTabsFrom_cons hc, List.length_cons, List.length_cons] at h
      rw [expandTabsFrom_cons hc, ih (Nat.succ.inj h), List.map_cons, if_neg hc]

private theorem length_lastLine_expandTabs (h : (expandTabs cs).length = cs.length) :
    (lastLine (expandTabs cs)).length = (lastLine cs).length := by
  have hfeed (c : Char) : (if c = '\t' then ' ' else c) = '\n' ↔ c = '\n' := by
    split
    · rename_i hc
      subst hc
      decide
    · exact Iff.rfl
  rw [expandTabs, expandTabsFrom_eq_map h, lastLine_map hfeed, List.length_map]

/-- What stands in a widened text in front of a character that is no layout, or of the end, is what stands
in front of it in the text, widened. -/
theorem exists_before_of_expandTabsFrom (h : expandTabsFrom column cs = before ++ rest)
    (hrest : Stops isLayout rest) : ∃ front back column', cs = front ++ back ∧
      before = expandTabsFrom column front ∧ rest = expandTabsFrom column' back := by
  induction cs generalizing column before with
  | nil =>
    obtain ⟨rfl, rfl⟩ := List.append_eq_nil_iff.1 h.symm
    exact ⟨[], [], 0, rfl, rfl, rfl⟩
  | cons c cs ih =>
    cases before with
    | nil => exact ⟨[], c :: cs, column, rfl, rfl, h.symm⟩
    | cons d before =>
      by_cases hc : c = '\t'
      · subst hc
        rw [expandTabsFrom_tab] at h
        have hall : ∃ more, d :: before = List.replicate (8 - column % 8) ' ' ++ more ∧
            expandTabsFrom (column + (8 - column % 8)) cs = more ++ rest := by
          rcases List.append_eq_append_iff.1 h with ⟨more, hm, hr⟩ | ⟨more, hm, hr⟩
          · exact ⟨more, hm, hr⟩
          · cases more with
            | nil => exact ⟨[], by simpa using hm.symm, by simpa using hr.symm⟩
            | cons e more =>
              have he : e ∈ List.replicate (8 - column % 8) ' ' := by simp [hm]
              have := hrest e (by rw [hr]; rfl)
              rw [(List.mem_replicate.1 he).2] at this
              cases this
        obtain ⟨more, hbefore, hmore⟩ := hall
        obtain ⟨front, back, column', rfl, rfl, hback⟩ := ih hmore
        exact ⟨'\t' :: front, back, column', rfl, by rw [hbefore, expandTabsFrom_tab], hback⟩
      · rw [expandTabsFrom_cons hc, List.cons_append] at h
        obtain ⟨rfl, htail⟩ := List.cons.inj h
        obtain ⟨front, back, column', rfl, rfl, hback⟩ := ih htail
        exact ⟨c :: front, back, column', rfl, by rw [expandTabsFrom_cons hc], hback⟩

private theorem stops_of_expandTabsFrom (h : Stops isLayout (expandTabsFrom column cs)) : Stops isLayout cs := by
  rintro c hc
  obtain ⟨rest, rfl⟩ := List.head?_eq_some_iff.1 hc
  by_cases htab : c = '\t'
  · subst htab
    obtain ⟨width, hw⟩ := exists_expandTabsFrom_tab column rest
    rw [hw] at h
    have := h ' ' rfl
    cases this
  · rw [expandTabsFrom_cons htab] at h
    exact h c rfl

end Tabs

end Text

namespace Diagnostic
open Text

/-- Text as a diagnostic shows it: ten characters in quotes without the blanks around them. -/
def shownText (cs : List Char) : String :=
  match trimChars (cs.take 10) with
  | [] => "end of input"
  | shown => String.ofList ('\'' :: shown ++ ['\''])

private theorem foundAt_between (before after : List Char) (column : Nat) :
    foundAt (before ++ after) (before.count '\n' + 1 : Nat) (column + 1 : Nat) =
      shownText ((lastLine before ++ after.takeWhile (· ≠ '\n')).drop column) := by
  have hline := lines_between before after
  have hlength : before.count '\n' < (lines (before ++ after)).length := (List.getElem?_eq_some_iff.1 hline).1
  have hrange : 0 < ((before.count '\n' + 1 : Nat) : Int) ∧
      ((before.count '\n' + 1 : Nat) : Int) ≤ (lines (before ++ after)).length := by omega
  have hindex : (((before.count '\n' + 1 : Nat) : Int) - 1).toNat = before.count '\n' := by omega
  have hcolumn : (((column + 1 : Nat) : Int) - 1).toNat = column := by omega
  simp only [foundAt, if_pos hrange, hindex, hcolumn, hline, Option.getD_some, shownText]
  cases trimChars (((lastLine before ++ after.takeWhile (· ≠ '\n')).drop column).take 10) <;> rfl

end Diagnostic

open Text Diagnostic

/-- A reader that stays within its text rejects a text where a character of it or its end stands. -/
theorem exists_place_of_parseWith {α : Type} {r : Reader α} (hr : r.Confined) {source : String}
    {d : Diagnostic} (h : parseWith r source = .error (.error (.unparsable d))) :
    ∃ before after rest expected, source.toList = before ++ after ∧ Stops isLayout after ∧
      d = .locate (expandTabs before ++ rest) source.toList (expandTabs before).length expected := by
  have hwithin := hr (expandTabs source.toList)
  simp only [parseWith] at h
  split at h
  · cases h
  · rename_i m hm
    rw [hm] at hwithin
    cases hwithin with
    | mismatched hsuffix hstops =>
      obtain ⟨front, hfront⟩ := hsuffix
      obtain ⟨before, after, column, hsource, rfl, hrest⟩ :=
        exists_before_of_expandTabsFrom hfront.symm hstops
      refine ⟨before, after, m.rest, expectedBy m.expected.message, hsource,
        stops_of_expandTabsFrom (hrest ▸ hstops), ?_⟩
      have hlocation : (expandTabs source.toList).length - m.rest.length = (expandTabs before).length := by
        rw [← hfront, List.length_append]
        exact Nat.add_sub_cancel ..
      injection h with h
      injection h with h
      injection h with h
      rw [← h, hlocation, ← hfront]
      rfl
  · cases h
  · cases h

/-- The diagnostic of a text that is rejected. -/
def rejection? {α : Type} : Except Failure α → Option Diagnostic
  | .error (.error (.unparsable d)) => some d
  | _ => none

theorem rejection?_eq_some {α : Type} {x : Except Failure α} {d : Diagnostic} (h : rejection? x = some d) :
    x = .error (.error (.unparsable d)) := by
  unfold rejection? at h
  split at h
  · rw [Option.some.inj h]
  · cases h

/-- Where a rejection points. It is about a place in front of a character that is no layout, or at the end.
The line is the one of that place, but location and column are those of the place in the widened text, and
what the rejection shows is cut from the line as given, from that column on. Where the text in front of the
place is as long when it is widened, location, line and column are all those of the place itself. -/
theorem rejections_point_behind_widened_tabs {m : Machine} {source : String} {d : Diagnostic}
    (h : parseStatement m source = .error (.error (.unparsable d)) ∨
      parseProgram m source = .error (.error (.unparsable d))) :
    ∃ (before after text : List Char) (line column : Nat), source.toList = before ++ after ∧
      Stops isLayout after ∧ d.line = line ∧ d.column = column ∧ 0 < line ∧ 0 < column ∧
      (lines source.toList)[line - 1]? = some text ∧ d.found = some (shownText (text.drop (column - 1))) ∧
      d.location = (expandTabs before).length ∧ line = before.count '\n' + 1 ∧
      column = (lastLine (expandTabs before)).length + 1 ∧
      ((expandTabs before).length = before.length →
        d.location = offsetOf source.toList line column ∧ d.location = before.length ∧
          column ≤ text.length + 1) := by
  have hplace := h.elim (exists_place_of_parseWith (Grammar.confined_single m))
    (exists_place_of_parseWith (Grammar.confined_program m))
  obtain ⟨before, after, rest, expected, hsource, hstops, rfl⟩ := hplace
  have hline : lineAt (expandTabs before ++ rest) (expandTabs before).length =
      (before.count '\n' + 1 : Nat) := by
    rw [lineAt_between, expandTabs, count_expandTabsFrom]
  have hcolumn := columnAt_between (expandTabs before) rest
  refine ⟨before, after, _, _, _, hsource, hstops, hline, hcolumn, Nat.succ_pos _, Nat.succ_pos _,
    hsource ▸ lines_between before after, ?_, rfl, rfl, rfl, fun hwidth => ?_⟩
  · simp only [locate, hline, hcolumn, hsource, foundAt_between, Nat.add_sub_cancel]
  · have hlength := length_lastLine_expandTabs hwidth
    refine ⟨?_, congrArg Nat.cast hwidth, ?_⟩
    · rw [hlength, hsource, offsetOf_between]
      exact congrArg Nat.cast hwidth
    · rw [hlength, List.length_append]
      omega

/-- The second number on a second line, where a semicolon is missing. -/
theorem missing_semicolon_is_pointed_at :
    let source := "x =\n 1 2;"
    let d : Diagnostic := ⟨7, 2, 4, ["';'"], some "'2;'", some "   1: x =\n   2:  1 2;\n         ^"⟩
    parseStatement ⟨53, 1000⟩ source = .error (.error (.unparsable d)) ∧
      ∃ before after text, source.toList = before ++ after ∧ (lines source.toList)[1]? = some text ∧
        d.location = (expandTabs before).length ∧ some "'2;'" = some (shownText (text.drop 3)) := by
  intro source d
  have hd : rejection? (parseStatement ⟨53, 1000⟩ source) = some d := by decide +kernel
  obtain ⟨before, after, text, line, column, hsource, -, hline, hcolumn, -, -, htext, hfound, hlocation, -⟩ :=
    rejections_point_behind_widened_tabs (.inl (rejection?_eq_some hd))
  obtain rfl : 2 = line := Int.ofNat.inj hline
  obtain rfl : 4 = column := Int.ofNat.inj hcolumn
  exact ⟨rejection?_eq_some hd, before, after, text, hsource, htext, hlocation, hfound⟩

/-- Behind two tabs, a rejection points beyond its line, to where nothing is found, and its line and column
do not lead to its location. -/
theorem tabs_mislead_rejections :
    let source := "\tx =\n\t1 2;"
    let d : Diagnostic :=
      ⟨22, 2, 11, ["';'"], some "end of input", some "   1: \tx =\n   2: \t1 2;\n                ^"⟩
    parseStatement ⟨53, 1000⟩ source = .error (.error (.unparsable d)) ∧ offsetOf source.toList 2 11 = 15 ∧
      (lines source.toList)[1]? = some "\t1 2;".toList ∧ "\t1 2;".length = 5 ∧
      source.toList = "\tx =\n\t1 ".toList ++ "2;".toList ∧ "\tx =\n\t1 ".length = 8 := by
  intro source d
  have hd : rejection? (parseStatement ⟨53, 1000⟩ source) = some d := by decide +kernel
  exact ⟨rejection?_eq_some hd, by decide +kernel, by decide +kernel, by decide +kernel, by decide +kernel,
    by decide +kernel⟩

end Reckoner
