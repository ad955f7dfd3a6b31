import Reckoner.Proofs.ParsedText
import Reckoner.Proofs.ParserCompleteness

/-! Parsing undoes rendering: a text written as tokens that derive a statement is parsed to that statement,
with redundant parentheses dropped, unless the stack has no room for the calls that the tokens take. -/

namespace Reckoner
open Text

namespace Grammar
open Reader

/-- One statement is read to the end of the text, if there are the calls for its tokens. -/
theorem reads_single {m : Machine} {d : Nat} {ts : List Token} {clause : Statement}
    (h : Derives m.precision d ts (.clause clause)) :
    (single m).Reads (d ≤ m.readingCalls) (ts ++ [.mark ';']) [] clause := by
  have hclause : ReadsClause m.precision d ts clause := readsAs_of_derives h
  have hstatement : (statement m.precision m.readingCalls).Reads (d ≤ m.readingCalls ∧ True)
      (ts ++ [.mark ';']) [] clause := by
    refine (hclause.reads m.readingCalls _ ⟨';', [], by simp, rfl⟩).bind ?_
    exact (reads_mark ';' []).cons (reads_pure clause [])
  have hend : endOfText.Reads True [] [] () := by
    refine reads_of_matched fun s hs => ⟨[], ?_, .nil nofun⟩
    rw [endOfText, hs.skipLayout_eq_nil]
  have hwhole : (single m).Reads ((d ≤ m.readingCalls ∧ True) ∧ True ∧ True) (ts ++ [.mark ';']) [] clause :=
    hstatement.bind_nil (hend.bind_nil (reads_pure clause []))
  exact hwhole.congr (by simp only [and_true])

end Grammar

section Rendered
variable {m : Machine} {d : Nat} {source : String} {ts : List Token} {clause : Statement}

theorem parseStatement_of_le (hr : Renders source.toList (ts ++ [.mark ';']))
    (hd : Derives m.precision d ts (.clause clause)) (hn : d ≤ m.readingCalls) :
    parseStatement m source = .ok clause := by
  have hwide := hr.expandTabsFrom 0
  rw [← List.append_nil (ts ++ _)] at hwide
  obtain ⟨rest, hmatched, -⟩ := (Grammar.reads_single hd _ hwide).1 hn
  exact parseWith_eq_ok.2 ⟨rest, hmatched⟩

theorem parseStatement_of_not_le (hr : Renders source.toList (ts ++ [.mark ';']))
    (hd : Derives m.precision d ts (.clause clause)) (hn : ¬d ≤ m.readingCalls) :
    parseStatement m source = .error .tooDeep := by
  have hwide := hr.expandTabsFrom 0
  rw [← List.append_nil (ts ++ _)] at hwide
  have hdeep := (Grammar.reads_single hd _ hwide).2 hn
  have hparse : parseWith (Grammar.single m) source = .error .tooDeep := by
    simp only [parseWith, expandTabs, hdeep]
  exact hparse

end Rendered

/-- So many pairs of parentheses around tokens. -/
def enclosed : Nat → List Token → List Token
  | 0, ts => ts
  | k + 1, ts => .mark '(' :: enclosed k ts ++ [.mark ')']

private theorem derives_enclosed {p d : Nat} {ts : List Token} {e : Expr}
    (h : Derives p d ts (.expression .sum e)) (k : Nat) :
    Derives p (d + 26 * k) (enclosed k ts) (.expression .sum e) := by
  induction k with
  | zero => exact h
  | succ k ih => exact .term (.factor (.primary (.parenthesized ih)))

private theorem written_of_mem_enclosed {ts : List Token} (h : ∀ t, t ∈ ts → t.Written [' '] [' '])
    (k : Nat) : ∀ t, t ∈ enclosed k ts → t.Written [' '] [' '] := by
  induction k with
  | zero => exact h
  | succ k ih =>
    intro t ht
    rcases List.mem_append.1 ht with ht | ht
    · rcases List.mem_cons.1 ht with rfl | ht
      · exact (by decide : '(' ∈ markChars)
      · exact ih t ht
    · obtain rfl := List.mem_singleton.1 ht
      exact (by decide : ')' ∈ markChars)

/-- A name in three hundred pairs of parentheses derives that name, but it is not parsed. -/
theorem deep_parentheses_are_refused :
    Renders (String.ofList (spell (enclosed 300 [.name ['x']] ++ [.mark ';']))).toList
      (enclosed 300 [.name ['x']] ++ [.mark ';']) ∧
    Derives 128 7801 (enclosed 300 [.name ['x']]) (.clause (.expression (.symbol "x"))) ∧
    parseStatement ⟨128, 1000⟩ (String.ofList (spell (enclosed 300 [.name ['x']] ++ [.mark ';']))) =
      .error .tooDeep := by
  have hwritten : ∀ t, t ∈ [Token.name ['x']] → t.Written [' '] [' '] :=
    List.forall_mem_singleton.2 (written_name rfl (by decide))
  have hrenders : Renders (spell (enclosed 300 [.name ['x']] ++ [.mark ';']))
      (enclosed 300 [.name ['x']] ++ [.mark ';']) :=
    renders_spell (List.forall_mem_append.2 ⟨written_of_mem_enclosed hwritten 300,
      List.forall_mem_singleton.2 (by decide : ';' ∈ markChars)⟩)
  have hderives : Derives 128 7801 (enclosed 300 [.name ['x']]) (.clause (.expression (.symbol "x"))) :=
    .expression (derives_enclosed (.term (.factor (.primary (.symbol ['x'])))) 300)
  rw [← String.toList_ofList (l := spell _)] at hrenders
  exact ⟨hrenders, hderives, parseStatement_of_not_le hrenders hderives (by decide)⟩

/-- A rendered statement is parsed back, unless the stack has no room for the calls that this takes. -/
theorem parsing_undoes_rendering {m : Machine} {d : Nat} {source : String} {ts : List Token} {clause : Statement}
    (hr : Renders source.toList (ts ++ [.mark ';'])) (hd : Derives m.precision d ts (.clause clause)) :
    parseStatement m source = if d ≤ m.readingCalls then .ok clause else .error .tooDeep := by
  split
  · rename_i hn
    exact parseStatement_of_le hr hd hn
  · rename_i hn
    exact parseStatement_of_not_le hr hd hn

/-- A definition whose body is the negation of a block to the right of a power. -/
theorem function_definition_parses_back :
    ∃ ts, Renders " f ( a ) = a ^ - \x7b 2 \x7d ; ".toList (ts ++ [.mark ';']) ∧
      Derives 53 73 ts (.clause (.define "f" ["a"] (.binary "^" (.symbol "a")
        (.unary negation (.block [] (.number ⟨.finite 2, 53⟩)))))) ∧
      parseStatement ⟨53, 1000⟩ " f ( a ) = a ^ - \x7b 2 \x7d ; " =
        .ok (.define "f" ["a"] (.binary "^" (.symbol "a")
          (.unary negation (.block [] (.number ⟨.finite 2, 53⟩))))) := by
  have hnumeral : (Token.numeral ['2']).Written [' '] [' '] :=
    ⟨⟨[], ['2'], [], rfl, .inl rfl, .whole ⟨nofun, forall_mem_of_all (by decide)⟩, .none⟩,
      by rintro _ ⟨⟩; decide⟩
  have hmark (c : Char) (hc : c ∈ markChars) : (Token.mark c).Written [' '] [' '] := hc
  have hoperator (c : Char) (hc : c ∈ operatorChars) : (Token.operator c).Written [' '] [' '] :=
    ⟨hc, nofun, ' ', [], rfl, rfl⟩
  have hblock : Derives 53 47 [.mark '\x7b', .numeral ['2'], .mark '\x7d']
      (.expression .primary (.block [] (.number ⟨.finite 2, 53⟩))) :=
    .block (.final (.term (.factor (.primary (.number (by decide))))))
  have hbody : Derives 53 73
      (.name ['a'] :: .operator '^' :: .mark '-' :: [.mark '\x7b', .numeral ['2'], .mark '\x7d'])
      (.expression .sum (.binary "^" (.symbol "a") (.unary negation (.block [] (.number ⟨.finite 2, 53⟩))))) :=
    .term (.factor (.power (.symbol ['a']) (.negation (.primary hblock))))
  have hderives := hbody.definition ['f'] [['a']]
  have hwritten : ∀ t : Token, t ∈ [.name ['f'], .mark '(', .name ['a'], .mark ')', .operator '=', .name ['a'],
      .operator '^', .mark '-', .mark '\x7b', .numeral ['2'], .mark '\x7d', .mark ';'] →
      t.Written [' '] [' '] := by
    simp only [List.forall_mem_cons]
    exact ⟨written_name rfl (by decide), hmark '(' (by decide), written_name rfl (by decide),
      hmark ')' (by decide), hoperator '=' (by decide), written_name rfl (by decide),
      hoperator '^' (by decide), hmark '-' (by decide), hmark '\x7b' (by decide), hnumeral,
      hmark '\x7d' (by decide), hmark ';' (by decide), nofun⟩
  have hrenders := renders_spell hwritten
  change Renders " f ( a ) = a ^ - \x7b 2 \x7d ; ".toList _ at hrenders
  refine ⟨_, hrenders, hderives, ?_⟩
  rw [parsing_undoes_rendering (m := ⟨53, 1000⟩) hrenders hderives]
  exact if_pos (by decide)

end Reckoner
