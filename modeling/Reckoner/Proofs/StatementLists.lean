import Mathlib.Data.List.DropRight
import Mathlib.Data.List.Forall2
import Reckoner.Proofs.ClosedTexts
import Reckoner.Proofs.FewerCalls
import Reckoner.Proofs.ParsedText
import Reckoner.Proofs.RenderedText

/-! Texts of several statements. A statement ends at its semicolon, wherever its text stands and whatever
follows, so a list of statements is read from a text exactly if the text is made of pieces from which the
statements are read one by one. -/

namespace Reckoner
open Text

namespace Grammar
open Reader
variable {p n n' : Nat} {text : List Char} {clause : Statement}

/-- From the text a statement is read, wherever it stands and whatever comes behind. -/
structure Spells (p n : Nat) (text : List Char) (clause : Statement) : Prop where
  closes : Closes 0 text
  reads : ∀ (column : Nat) (after : List Char), ∃ column',
    statement p n (expandTabsFrom column (text ++ after)) = .matched clause (expandTabsFrom column' after)

/-- What a statement is read from spells it. -/
theorem spells_of_statement {column : Nat} {source rest : List Char}
    (h : statement p n (expandTabsFrom column source) = .matched clause rest) :
    ∃ text after column', source = text ++ after ∧ rest = expandTabsFrom column' after ∧
      Spells p n text clause := by
  obtain ⟨ts, ⟨us, rfl, d, hd⟩, hcov⟩ := sound_statementOf (sound_operandWithin n) _ _ _ h
  obtain ⟨after, column', hsource, rfl⟩ := hcov.of_expandTabsFrom
  obtain ⟨text, rfl, hcloses⟩ := hsource.closes_clause hd
  refine ⟨text, after, column', rfl, rfl, hcloses, fun c v => ?_⟩
  obtain ⟨a, b, hcoupled⟩ := hcloses.coupled after v column c
  exact ⟨b, (statement_of_coupled hcoupled h).2⟩

private theorem Spells.mono (h : Spells p n text clause) (hn : n ≤ n') : Spells p n' text clause := by
  refine ⟨h.closes, fun column after => ?_⟩
  obtain ⟨column', hread⟩ := h.reads column after
  rcases approximates_statement hn (expandTabsFrom column (text ++ after)) with hdeep | hsame
  · rw [hread] at hdeep
    cases hdeep
  · exact ⟨column', hsame ▸ hread⟩

/-- With fewer calls the statement is read from its text as before, or reading goes too deep wherever the text stands:
where it is given up in one place, it is given up in every other. -/
theorem Spells.with_fewer (h : Spells p n' text clause) (hn : n ≤ n') :
    Spells p n text clause ∨ ∀ column after,
      statement p n (expandTabsFrom column (text ++ after)) = .abandoned .tooDeep := by
  by_cases hdeep : statement p n (expandTabsFrom 0 (text ++ [])) = .abandoned .tooDeep
  · refine .inr fun column after => ?_
    obtain ⟨a, b, hcoupled⟩ := h.closes.coupled [] after 0 column
    exact statement_abandoned_of_coupled hcoupled hdeep
  · refine .inl ⟨h.closes, fun column after => ?_⟩
    obtain ⟨column', hread⟩ := h.reads column after
    refine ⟨column', ?_⟩
    rcases approximates_statement hn (expandTabsFrom column (text ++ after)) with hdeep' | hsame
    · obtain ⟨a, b, hcoupled⟩ := h.closes.coupled after [] column 0
      exact absurd (statement_abandoned_of_coupled hcoupled hdeep') hdeep
    · rw [hsame, hread]

end Grammar

/-- A reader that skips layout before it reads anything. -/
def Reader.Skips {α : Type} (r : Reader α) : Prop :=
  ∀ s, r (skipLayout s) = r s

namespace Reader
variable {α β : Type} {r : Reader α}

theorem skipLayout_skipLayout (s : List Char) : skipLayout (skipLayout s) = skipLayout s :=
  List.dropWhile_idempotent ..

private theorem skips_token (c : Char) : (token c).Skips := by
  intro s
  simp only [token, skipLayout_skipLayout]

theorem skips_split (splitting : List Char → Option (List Char × List Char)) (e : Expectation) :
    (split splitting e).Skips := by
  intro s
  simp only [split, skipLayout_skipLayout]

theorem Skips.bind (h : r.Skips) (f : α → Reader β) : (r >>= f).Skips := by
  intro s
  simp only [Bind.bind, h s]

theorem Skips.either {first : Reader α} (h : first.Skips) (h' : r.Skips) : (either first r).Skips := by
  intro s
  simp only [Reader.either, h s, h' s]

theorem Skips.orExpect (h : r.Skips) (e : Expectation) : (r.orExpect e).Skips := by
  intro s
  simp only [Reader.orExpect, h s, skipLayout_skipLayout]

end Reader

namespace Grammar
open Reader
variable {p n : Nat}

private theorem skips_operandWithin (n k : Nat) : (operandWithin p n k).Skips := by
  refine withCalls_induction (fun _ => rfl) (fun below _ => ?_) n k
  have hprimary : (primaryOf p below).Skips :=
    (((((skips_token _).bind _).either ((skips_token _).bind _)).either ((skips_split _ _).bind _)).either
      ((skips_split _ _).bind _)).either ((skips_split _ _).bind _)
  exact (((skips_token _).bind _).either (hprimary.bind _)).orExpect _

theorem skips_statement : (statement p n).Skips := by
  have hexpression : (expressionOf (operandWithin p n)).Skips :=
    ((skips_operandWithin n 0).bind _).bind _
  exact Skips.bind (((((skips_split _ _).bind _).either ((skips_split _ _).bind _)).either
    (hexpression.bind _)).orExpect _) _

theorem statement_layout_append {l : List Char} (hl : ∀ c, c ∈ l → isLayout c = true) (s : List Char) :
    statement p n (l ++ s) = statement p n s := by
  rw [← skips_statement (l ++ s), skipLayout_append hl, skips_statement]

theorem consuming_statement : (statement p n).Consuming := by
  intro s t clause h
  obtain ⟨c, u, hc, hrest⟩ := bind_eq_matched.1 h
  obtain ⟨_, v, hv, hp⟩ := bind_eq_matched.1 hrest
  cases hp
  exact Nat.lt_of_lt_of_le (consuming_token ';' hv) ((sound_clauseOf (sound_operandWithin n)).length_le hc)

theorem expressionOf_operandWithin_zero (s : List Char) :
    expressionOf (operandWithin p 0) s = .abandoned .tooDeep :=
  rfl

/-- A statement has an expression in it, and to read that takes a call. -/
theorem pos_of_statement {s rest : List Char} {clause : Statement} (h : statement p n s = .matched clause rest) :
    0 < n := by
  refine Nat.pos_of_ne_zero ?_
  rintro rfl
  have hvalue {α : Type} {f : Expr → Reader α} {t u : List Char} {a : α} :
      (expressionOf (operandWithin p 0) >>= f) t ≠ .matched a u := by
    intro hm
    obtain ⟨e, v, he, -⟩ := bind_eq_matched.1 hm
    rw [expressionOf_operandWithin_zero] at he
    cases he
  obtain ⟨c, t, hc, -⟩ := bind_eq_matched.1 h
  rcases either_eq_matched.1 (orExpect_eq_matched.1 hc) with hc | ⟨-, hc⟩
  · rcases either_eq_matched.1 hc with hc | ⟨-, hc⟩
    · obtain ⟨_, _, -, hc⟩ := bind_eq_matched.1 hc
      obtain ⟨_, _, -, hc⟩ := bind_eq_matched.1 hc
      obtain ⟨_, _, -, hc⟩ := bind_eq_matched.1 hc
      obtain ⟨_, _, -, hc⟩ := bind_eq_matched.1 hc
      obtain ⟨_, _, -, hc⟩ := bind_eq_matched.1 hc
      exact hvalue hc
    · obtain ⟨_, _, -, hc⟩ := bind_eq_matched.1 hc
      obtain ⟨_, _, -, hc⟩ := bind_eq_matched.1 hc
      exact hvalue hc
  · exact hvalue hc

end Grammar

theorem expandTabsFrom_layout_append {l : List Char} (hl : ∀ c, c ∈ l → isLayout c = true)
    (column : Nat) (s : List Char) :
    ∃ column' l', expandTabsFrom column (l ++ s) = l' ++ expandTabsFrom column' s ∧
      ∀ c, c ∈ l' → isLayout c = true := by
  induction l generalizing column with
  | nil => exact ⟨column, [], rfl, nofun⟩
  | cons c l ih =>
    obtain ⟨hc, hl⟩ := List.forall_mem_cons.1 hl
    obtain ⟨a, l₁, ha, -, hl₁⟩ := expandTabsFrom_layout hc column (l ++ s)
    obtain ⟨b, l₂, hb, hl₂⟩ := ih hl a
    refine ⟨b, l₁ ++ l₂, ?_, List.forall_mem_append.2 ⟨hl₁, hl₂⟩⟩
    rw [List.cons_append, ha, hb, List.append_assoc]

theorem isLayout_of_expandTabsFrom {column : Nat} {s : List Char}
    (h : ∀ c, c ∈ expandTabsFrom column s → isLayout c = true) : ∀ c, c ∈ s → isLayout c = true := by
  obtain ⟨column', hskip⟩ := exists_skipLayout_expandTabsFrom column s
  rw [skipLayout_eq_nil_iff.2 h] at hskip
  exact skipLayout_eq_nil_iff.1 (expandTabsFrom_eq_nil_iff.1 hskip.symm)

theorem Reader.endOfText_eq_matched {s rest : List Char} {u : Unit} :
    endOfText s = .matched u rest ↔ (∀ c, c ∈ s → isLayout c = true) ∧ rest = [] := by
  rw [endOfText, ← skipLayout_eq_nil_iff]
  split
  · rename_i h
    simp [h, eq_comm]
  · rename_i h
    exact iff_of_false (fun hmatched => by cases hmatched) fun hnil => h hnil.1

namespace Grammar
open Reader
variable {p n n' : Nat}

/-- A text that spells a statement, with layout behind. -/
def IsPiece (p n : Nat) (text : List Char) (clause : Statement) : Prop :=
  ∃ body tail, text = body ++ tail ∧ Spells p n body clause ∧ ∀ c, c ∈ tail → isLayout c = true

theorem parseStatement_eq_ok {m : Machine} {source : String} {clause : Statement} :
    parseStatement m source = .ok clause ↔ IsPiece m.precision m.readingCalls source.toList clause := by
  refine parseWith_eq_ok.trans ⟨fun ⟨rest, h⟩ => ?_, fun ⟨body, tail, hsource, hbody, htail⟩ => ?_⟩
  · obtain ⟨c, t, hs, h⟩ := bind_eq_matched.1 h
    obtain ⟨u, v, he, h⟩ := bind_eq_matched.1 h
    cases h
    obtain ⟨text, after, column, hsource, rfl, htext⟩ := spells_of_statement hs
    exact ⟨text, after, hsource, htext, isLayout_of_expandTabsFrom (endOfText_eq_matched.1 he).1⟩
  · obtain ⟨column, h⟩ := hbody.reads 0 tail
    obtain ⟨column', l, hl, hlayout⟩ := expandTabsFrom_layout_append htail column []
    rw [List.append_nil] at hl
    rw [hl] at h
    refine ⟨[], bind_eq_matched.2 ⟨clause, _, hsource ▸ h, bind_eq_matched.2 ⟨(), [], ?_, rfl⟩⟩⟩
    exact endOfText_eq_matched.2 ⟨by simpa [expandTabsFrom] using hlayout, rfl⟩

namespace IsPiece
variable {text : List Char} {clause : Statement}

theorem reads (h : IsPiece p n text clause) (column : Nat) (after : List Char) :
    ∃ column' l, statement p n (expandTabsFrom column (text ++ after)) =
      .matched clause (l ++ expandTabsFrom column' after) ∧ ∀ c, c ∈ l → isLayout c = true := by
  obtain ⟨body, tail, rfl, hbody, htail⟩ := h
  obtain ⟨a, ha⟩ := hbody.reads column (tail ++ after)
  obtain ⟨b, l, hl, hlayout⟩ := expandTabsFrom_layout_append htail a after
  refine ⟨b, l, ?_, hlayout⟩
  rw [List.append_assoc, ha, hl]

theorem pos (h : IsPiece p n text clause) : 0 < n := by
  obtain ⟨column, l, hread, -⟩ := h.reads 0 []
  exact pos_of_statement hread

private theorem mono (h : IsPiece p n text clause) (hn : n ≤ n') : IsPiece p n' text clause := by
  obtain ⟨body, tail, rfl, hbody, htail⟩ := h
  exact ⟨body, tail, rfl, hbody.mono hn, htail⟩

theorem with_fewer (h : IsPiece p n' text clause) (hn : n ≤ n') :
    IsPiece p n text clause ∨ ∀ column after,
      statement p n (expandTabsFrom column (text ++ after)) = .abandoned .tooDeep := by
  obtain ⟨body, tail, rfl, hbody, htail⟩ := h
  rcases hbody.with_fewer hn with hbody | hdeep
  · exact .inl ⟨body, tail, rfl, hbody, htail⟩
  · exact .inr fun column after => by rw [List.append_assoc, hdeep]

end IsPiece

/-- From pieces in a row the statements are read in a row. -/
theorem manyUpTo_of_pieces {texts : List (List Char)} {statements : List Statement} (hpos : 0 < n)
    (h : List.Forall₂ (IsPiece p n) texts statements) {column k : Nat} {l : List Char}
    (hl : ∀ c, c ∈ l → isLayout c = true)
    (hk : (l ++ expandTabsFrom column texts.flatten).length < k) :
    ∃ rest, manyUpTo (statement p n) k (l ++ expandTabsFrom column texts.flatten) =
      .matched statements rest ∧ ∀ c, c ∈ rest → isLayout c = true := by
  induction h generalizing column k l with
  | nil =>
    obtain ⟨n, rfl⟩ := Nat.exists_eq_add_one_of_ne_zero hpos.ne'
    have hend : statement p (n + 1) (l ++ []) = statement p (n + 1) [] := statement_layout_append hl []
    exact ⟨l ++ [], manyUpTo_of_mismatched hend k, by simpa using hl⟩
  | @cons text clause texts statements hpiece _ ih =>
    obtain ⟨k, rfl⟩ := Nat.exists_eq_add_one_of_ne_zero (Nat.ne_zero_of_lt hk)
    obtain ⟨a, l', hread, hl'⟩ := hpiece.reads column texts.flatten
    rw [← statement_layout_append hl] at hread
    have hshort := consuming_statement hread
    obtain ⟨rest, hrest, hlayout⟩ := ih hl' (Nat.lt_of_lt_of_le hshort (Nat.le_of_lt_succ hk))
    refine ⟨rest, ?_, hlayout⟩
    simp only [manyUpTo, List.flatten_cons, hread]
    exact bind_eq_matched.2 ⟨_, _, hrest, rfl⟩

/-- If there are the calls for some pieces in a row but not for all of them, reading goes too deep. -/
theorem manyUpTo_of_not_pieces (hn : n ≤ n') {texts : List (List Char)} {statements : List Statement}
    (h : List.Forall₂ (IsPiece p n') texts statements) (hdeep : ¬List.Forall₂ (IsPiece p n) texts statements)
    {column k : Nat} {l : List Char} (hl : ∀ c, c ∈ l → isLayout c = true)
    (hk : (l ++ expandTabsFrom column texts.flatten).length < k) :
    manyUpTo (statement p n) k (l ++ expandTabsFrom column texts.flatten) = .abandoned .tooDeep := by
  induction h generalizing column k l with
  | nil => exact absurd .nil hdeep
  | @cons text clause texts statements hpiece _ ih =>
    obtain ⟨k, rfl⟩ := Nat.exists_eq_add_one_of_ne_zero (Nat.ne_zero_of_lt hk)
    rcases hpiece.with_fewer hn with hpiece | htooDeep
    · obtain ⟨a, l', hread, hl'⟩ := hpiece.reads column texts.flatten
      rw [← statement_layout_append hl] at hread
      have hshort := consuming_statement hread
      have hrest : manyUpTo (statement p n) k (l' ++ expandTabsFrom a texts.flatten) = .abandoned .tooDeep :=
        ih (fun hall => hdeep (.cons hpiece hall)) hl' (Nat.lt_of_lt_of_le hshort (Nat.le_of_lt_succ hk))
      simp only [manyUpTo, List.flatten_cons, hread]
      exact bind_of_abandoned hrest
    · simp only [manyUpTo, List.flatten_cons, statement_layout_append hl, htooDeep]

/-- Where statements are read in a row, texts that spell them stand in a row. -/
theorem spells_of_manyUpTo {k column : Nat} {source rest : List Char} {statements : List Statement}
    (h : manyUpTo (statement p n) k (expandTabsFrom column source) = .matched statements rest) :
    ∃ texts after column', source = texts.flatten ++ after ∧ rest = expandTabsFrom column' after ∧
      List.Forall₂ (Spells p n) texts statements := by
  induction k generalizing column source statements with
  | zero =>
    cases h
    exact ⟨[], source, column, rfl, rfl, .nil⟩
  | succ k ih =>
    simp only [manyUpTo] at h
    split at h
    · rename_i clause t hclause
      obtain ⟨others, u, hothers, hp⟩ := bind_eq_matched.1 h
      cases hp
      obtain ⟨text, after, a, rfl, rfl, htext⟩ := spells_of_statement hclause
      obtain ⟨texts, after', b, rfl, rfl, htexts⟩ := ih hothers
      exact ⟨text :: texts, after', b, by simp, rfl, .cons htext htexts⟩
    · cases h
      exact ⟨[], source, column, rfl, rfl, .nil⟩
    · cases h

/-- Layout at the end goes to the last of the texts. -/
theorem pieces_of_spells {text tail : List Char} {texts : List (List Char)} {clause : Statement}
    {statements : List Statement} (htext : Spells p n text clause)
    (h : List.Forall₂ (Spells p n) texts statements) (htail : ∀ c, c ∈ tail → isLayout c = true) :
    ∃ pieces, (text :: texts).flatten ++ tail = pieces.flatten ∧
      List.Forall₂ (IsPiece p n) pieces (clause :: statements) := by
  induction h generalizing text clause with
  | nil => exact ⟨[text ++ tail], by simp, .cons ⟨text, tail, rfl, htext, htail⟩ .nil⟩
  | cons hnext _ ih =>
    obtain ⟨pieces, hpieces, hall⟩ := ih hnext
    refine ⟨text :: pieces, ?_, .cons ⟨text, [], by simp, htext, nofun⟩ hall⟩
    rw [List.flatten_cons, List.append_assoc, hpieces, List.flatten_cons]

end Grammar

section Lists
variable {m : Machine} {source : String} {statements : List Statement}
open Grammar Reader

theorem parseProgram_eq_ok : parseProgram m source = .ok statements ↔ statements ≠ [] ∧
    ∃ pieces, source.toList = pieces.flatten ∧
      List.Forall₂ (IsPiece m.precision (m.sparing 3).readingCalls) pieces statements := by
  refine parseWith_eq_ok.trans ⟨fun ⟨rest, h⟩ => ?_, ?_⟩
  · obtain ⟨first, t, hfirst, h⟩ := bind_eq_matched.1 h
    obtain ⟨others, u, hothers, h⟩ := bind_eq_matched.1 h
    obtain ⟨_, v, he, h⟩ := bind_eq_matched.1 h
    cases h
    obtain ⟨text, after, a, hsource, rfl, htext⟩ := spells_of_statement hfirst
    obtain ⟨texts, tail, b, rfl, rfl, htexts⟩ := spells_of_manyUpTo hothers
    have htail := isLayout_of_expandTabsFrom (endOfText_eq_matched.1 he).1
    obtain ⟨pieces, hpieces, hall⟩ := pieces_of_spells htext htexts htail
    exact ⟨nofun, pieces, by rw [hsource, ← hpieces, List.flatten_cons, List.append_assoc], hall⟩
  · rintro ⟨hne, pieces, hsource, hall⟩
    cases hall with
    | nil => exact absurd rfl hne
    | @cons text clause texts statements hpiece hall =>
      obtain ⟨a, l, hfirst, hl⟩ := hpiece.reads 0 texts.flatten
      obtain ⟨rest, hothers, hrest⟩ := manyUpTo_of_pieces hpiece.pos hall hl (Nat.lt_succ_self _)
      rw [hsource]
      exact ⟨[], bind_eq_matched.2 ⟨clause, _, hfirst, bind_eq_matched.2 ⟨_, rest, hothers,
        bind_eq_matched.2 ⟨(), [], endOfText_eq_matched.2 ⟨hrest, rfl⟩, rfl⟩⟩⟩⟩

/-- Pieces for all of which there are more calls, but not the calls that are left in a list. -/
theorem parseProgram_of_not_pieces {n : Nat} (hn : (m.sparing 3).readingCalls ≤ n) {pieces : List (List Char)}
    (hsource : source.toList = pieces.flatten) (h : List.Forall₂ (IsPiece m.precision n) pieces statements)
    (hdeep : ¬List.Forall₂ (IsPiece m.precision (m.sparing 3).readingCalls) pieces statements) :
    parseProgram m source = .error .tooDeep := by
  suffices hread : program m (expandTabs source.toList) = .abandoned .tooDeep by
    rw [parseProgram, parseWith, hread]
  rw [hsource]
  cases h with
  | nil => exact absurd .nil hdeep
  | @cons text clause texts statements hpiece hall =>
    rcases hpiece.with_fewer hn with hpiece | htooDeep
    · obtain ⟨a, l, hfirst, hl⟩ := hpiece.reads 0 texts.flatten
      have hothers : manyUpTo (statement m.precision (m.sparing 3).readingCalls) _
          (l ++ expandTabsFrom a texts.flatten) = .abandoned .tooDeep :=
        manyUpTo_of_not_pieces hn hall (fun hall => hdeep (.cons hpiece hall)) hl (Nat.lt_succ_self _)
      exact bind_eq_abandoned.2 (.inr ⟨clause, _, hfirst, bind_of_abandoned hothers⟩)
    · exact bind_of_abandoned (htooDeep 0 texts.flatten)

end Lists

/-- From each of the texts the statement is parsed. -/
def ParsedFrom (m : Machine) (texts : List String) (statements : List Statement) : Prop :=
  List.Forall₂ (fun text s => parseStatement m text = .ok s) texts statements

section Join
variable {m : Machine} {texts : List String} {statements : List Statement}

theorem parsedFrom_iff : ParsedFrom m texts statements ↔
    List.Forall₂ (Grammar.IsPiece m.precision m.readingCalls) (texts.map String.toList) statements := by
  simp only [ParsedFrom, Grammar.parseStatement_eq_ok, List.forall₂_map_left_iff]

theorem toList_join (texts : List String) : (String.join texts).toList = (texts.map String.toList).flatten := by
  rw [String.toList_join, List.flatMap_def]

/-- What is parsed with some calls to spare is parsed. -/
theorem ParsedFrom.of_sparing {calls : Nat} (h : ParsedFrom (m.sparing calls) texts statements) :
    ParsedFrom m texts statements := by
  rw [parsedFrom_iff] at h ⊢
  refine h.imp fun text clause hpiece => hpiece.mono ?_
  exact Nat.sub_le_sub_right (Nat.sub_le m.stack calls) 54

/-- From texts no other statements are parsed. -/
theorem ParsedFrom.unique {statements' : List Statement} (h : ParsedFrom m texts statements)
    (h' : ParsedFrom m texts statements') : statements = statements' := by
  have hunique : Relator.RightUnique fun text s => parseStatement m text = .ok s :=
    fun _ _ _ hb hc => Except.ok.inj (hb.symm.trans hc)
  exact hunique.forall₂ h h'

theorem parseProgram_join (hne : texts ≠ []) (h : ParsedFrom (m.sparing 3) texts statements) :
    parseProgram m (String.join texts) = .ok statements := by
  rw [parsedFrom_iff] at h
  refine parseProgram_eq_ok.2 ⟨?_, texts.map String.toList, toList_join texts, h⟩
  rintro rfl
  exact hne (List.map_eq_nil_iff.1 (List.forall₂_nil_right_iff.1 h))

theorem parseProgram_join_of_not (h : ParsedFrom m texts statements)
    (hdeep : ¬ParsedFrom (m.sparing 3) texts statements) :
    parseProgram m (String.join texts) = .error .tooDeep := by
  rw [parsedFrom_iff] at h hdeep
  exact parseProgram_of_not_pieces (Nat.sub_le_sub_right (Nat.sub_le m.stack 3) 54) (toList_join texts) h hdeep

end Join

/-- A list of statements is read from a concatenation of texts from each of which one statement is read, if that leaves
three calls for the list, and otherwise the list goes too deep. It is read from nothing else. -/
theorem statement_lists_are_concatenations (m : Machine) :
    (∀ (texts : List String) (statements : List Statement), texts ≠ [] → ParsedFrom m texts statements →
      (ParsedFrom (m.sparing 3) texts statements → parseProgram m (String.join texts) = .ok statements) ∧
      (¬ParsedFrom (m.sparing 3) texts statements →
        parseProgram m (String.join texts) = .error .tooDeep)) ∧
    ∀ (text : String) (statements : List Statement), parseProgram m text = .ok statements →
      ∃ texts, String.join texts = text ∧ ParsedFrom m texts statements ∧
        ParsedFrom (m.sparing 3) texts statements := by
  refine ⟨fun texts statements hne h => ?_, fun text statements h => ?_⟩
  · exact ⟨fun hspare => parseProgram_join hne hspare, fun hdeep => parseProgram_join_of_not h hdeep⟩
  · obtain ⟨-, pieces, hpieces, hall⟩ := parseProgram_eq_ok.1 h
    have hparsed : ParsedFrom (m.sparing 3) (pieces.map String.ofList) statements := by
      rw [parsedFrom_iff, List.map_map]
      change List.Forall₂ (Grammar.IsPiece m.precision (m.sparing 3).readingCalls) _ statements
      simpa [Function.comp_def] using hall
    refine ⟨pieces.map String.ofList, ?_, hparsed.of_sparing, hparsed⟩
    rw [← String.toList_inj, toList_join, List.map_map, hpieces]
    simp [Function.comp_def]

/-- A name in so many calls. -/
def calledTokens : Nat → List Token
  | 0 => [.name ['x']]
  | k + 1 => .name ['f'] :: .mark '(' :: calledTokens k ++ [.mark ')']

def called : Nat → Expr
  | 0 => .symbol "x"
  | k + 1 => .call "f" [called k]

private theorem derives_called (p k : Nat) : Derives p (1 + 35 * k) (calledTokens k) (.expression .sum (called k)) := by
  induction k with
  | zero => exact .term (.factor (.primary (.symbol ['x'])))
  | succ k ih => exact .term (.factor (.primary (.call ['f'] (.arguments (.firstItem ih)))))

private theorem written_of_mem_calledTokens (k : Nat) : ∀ t, t ∈ calledTokens k → t.Written [' '] [' '] := by
  induction k with
  | zero => exact List.forall_mem_singleton.2 (written_name rfl (by decide))
  | succ k ih =>
    refine List.forall_mem_append.2 ⟨List.forall_mem_cons.2 ⟨written_name rfl (by decide), ?_⟩, ?_⟩
    · exact List.forall_mem_cons.2 ⟨(by decide : '(' ∈ markChars), ih⟩
    · exact List.forall_mem_singleton.2 (by decide : ')' ∈ markChars)

private theorem renders_called (k : Nat) :
    Renders (String.ofList (spell (calledTokens k ++ [.mark ';']))).toList (calledTokens k ++ [.mark ';']) := by
  rw [String.toList_ofList]
  exact renders_spell (List.forall_mem_append.2 ⟨written_of_mem_calledTokens k,
    List.forall_mem_singleton.2 (by decide : ';' ∈ markChars)⟩)

private theorem called_in_list {m : Machine} {k : Nat} (h : 1 + 35 * k ≤ m.readingCalls)
    (hdeep : ¬1 + 35 * k ≤ (m.sparing 3).readingCalls) :
    parseStatement m (String.ofList (spell (calledTokens k ++ [.mark ';']))) = .ok (.expression (called k)) ∧
    parseProgram m (String.join [String.ofList (spell (calledTokens k ++ [.mark ';']))]) = .error .tooDeep := by
  have hderives : Derives m.precision (1 + 35 * k) (calledTokens k) (.clause (.expression (called k))) :=
    .expression (derives_called m.precision k)
  have hparsed := parseStatement_of_le (renders_called k) hderives h
  have hrefused := parseStatement_of_not_le (m := m.sparing 3) (renders_called k) hderives hdeep
  refine ⟨hparsed, parseProgram_join_of_not (.cons hparsed .nil) fun hspare => ?_⟩
  cases hspare with
  | cons hread =>
    rw [hrefused] at hread
    cases hread

/-- Twenty-seven calls in each other are parsed as a statement, but not as a list of one statement. -/
theorem lists_go_too_deep_before_statements :
    parseStatement ⟨53, 1000⟩ (String.ofList (spell (calledTokens 27 ++ [.mark ';']))) =
      .ok (.expression (called 27)) ∧
    parseProgram ⟨53, 1000⟩ (String.join [String.ofList (spell (calledTokens 27 ++ [.mark ';']))]) =
      .error .tooDeep :=
  called_in_list (by decide) (by decide)

/-- A semicolon inside of a block, and layout on both sides of a seam. -/
theorem two_texts_make_a_list :
    parseStatement ⟨53, 1000⟩ " \x7b y ; z \x7d ; " =
      .ok (.expression (.block [.expression (.symbol "y")] (.symbol "z"))) ∧
    parseStatement ⟨53, 1000⟩ " - x;" = .ok (.expression (.unary negation (.symbol "x"))) ∧
    parseProgram ⟨53, 1000⟩ (String.join [" \x7b y ; z \x7d ; ", " - x;"]) =
      .ok [.expression (.block [.expression (.symbol "y")] (.symbol "z")),
        .expression (.unary negation (.symbol "x"))] := by
  have hname (c : Char) : Derives 53 1 [.name [c]] (.expression .sum (.symbol (String.ofList [c]))) :=
    .term (.factor (.primary (.symbol [c])))
  have hderives : Derives 53 47 [.mark '\x7b', .name ['y'], .mark ';', .name ['z'], .mark '\x7d']
      (.clause (.expression (.block [.expression (.symbol "y")] (.symbol "z")))) :=
    .expression (.term (.factor (.primary (.block (.statement (.expression (hname 'y')) (.final (hname 'z')))))))
  have hwritten : ∀ t : Token, t ∈ [.mark '\x7b', .name ['y'], .mark ';', .name ['z'], .mark '\x7d', .mark ';'] →
      t.Written [' '] [' '] := by
    have hmark (c : Char) (hc : c ∈ markChars) : (Token.mark c).Written [' '] [' '] := hc
    simp only [List.forall_mem_cons]
    exact ⟨hmark '\x7b' (by decide), written_name rfl (by decide), hmark ';' (by decide),
      written_name rfl (by decide), hmark '\x7d' (by decide), hmark ';' (by decide), List.forall_mem_nil _⟩
  have hrenders := renders_spell hwritten
  change Renders " \x7b y ; z \x7d ; ".toList _ at hrenders
  have hblock := parseStatement_of_le (m := ⟨53, 1000⟩) hrenders hderives (by decide)
  have hnegation : parseStatement ⟨53, 1000⟩ " - x;" = .ok (.expression (.unary negation (.symbol "x"))) := rfl
  have hnegation' : parseStatement (Machine.sparing ⟨53, 1000⟩ 3) " - x;" =
      .ok (.expression (.unary negation (.symbol "x"))) := rfl
  have hblock' := parseStatement_of_le (m := Machine.sparing ⟨53, 1000⟩ 3) hrenders hderives (by decide)
  have hlist := (statement_lists_are_concatenations ⟨53, 1000⟩).1 _ _ (List.cons_ne_nil _ _)
    (.cons hblock (.cons hnegation .nil))
  exact ⟨hblock, hnegation, hlist.1 (.cons hblock' (.cons hnegation' .nil))⟩

end Reckoner
