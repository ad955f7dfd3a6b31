import Reckoner.Proofs.BindingAttempts
import Reckoner.Proofs.Repetitions

/-! Completeness of the readers: tokens that derive a phrase are read as that phrase, from any text that
is written as them, if there are as many calls left as that takes, and otherwise reading goes too deep. The
induction is on the derivation; what may follow the tokens says that no repetition goes on behind them. -/

namespace Reckoner
open Text

namespace Grammar
open Reader

variable {p n d : Nat} {ts us : List Token}

theorem operandWithin_succ (p n : Nat) : operandWithin p (n + 1) 0 = operandOf p (operandWithin p n) :=
  rfl

theorem operandWithin_eq (p n k : Nat) : operandWithin p n k = operandWithin p (n - k) 0 :=
  withCalls_eq n k

theorem deeper_operandWithin (p n calls : Nat) :
    deeper (operandWithin p n) calls = operandWithin p (n - calls) := by
  funext k
  rw [deeper, operandWithin_eq, ← Nat.sub_sub, ← operandWithin_eq]

section Levels
variable {α : Type} {r : Nat → Reader α} {F : List Token → Prop}

/-- Readers, one for each number of calls that are left, read tokens that take so many. -/
structure ReadsWithin (r : Nat → Reader α) (F : List Token → Prop) (d : Nat) (ts : List Token) (a : α) : Prop where
  one_le : 1 ≤ d
  reads : ∀ n us, F us → (r n).Reads (d ≤ n) ts us a

theorem ReadsWithin.reads_sub {a : α} (h : ReadsWithin r F d ts a) (calls : Nat) (hus : F us) :
    (r (n - calls)).Reads (d + calls ≤ n) ts us a := by
  have := h.one_le
  exact (h.reads (n - calls) us hus).congr (by omega)

/-- Tokens are read as an operand. -/
def ReadsOperand (p : Nat) : Nat → List Token → Expr → Prop :=
  ReadsWithin (fun n => operandWithin p n 0) (Follows .power)

def ReadsTerm (p : Nat) : Nat → List Token → Expr → Prop :=
  ReadsWithin (fun n => termOf (operandWithin p n)) (Follows .product)

def ReadsExpression (p : Nat) : Nat → List Token → Expr → Prop :=
  ReadsWithin (fun n => expressionOf (operandWithin p n)) (Follows .sum)

theorem ReadsOperand.reads_deeper {e : Expr} (h : ReadsOperand p d ts e) (k : Nat) (hus : Follows .power us) :
    (operandWithin p n k).Reads (d + k ≤ n) ts us e := by
  rw [operandWithin_eq]
  exact ReadsWithin.reads_sub h k hus

private theorem ReadsTerm.reads_deeper {e : Expr} (h : ReadsTerm p d ts e) (k : Nat) (hus : Follows .product us) :
    (termOf (deeper (operandWithin p n) k)).Reads (d + k ≤ n) ts us e := by
  rw [deeper_operandWithin]
  exact ReadsWithin.reads_sub h k hus

theorem ReadsExpression.reads_deeper {e : Expr} (h : ReadsExpression p d ts e) (k : Nat) (hus : Follows .sum us) :
    (expressionOf (deeper (operandWithin p n) k)).Reads (d + k ≤ n) ts us e := by
  rw [deeper_operandWithin]
  exact ReadsWithin.reads_sub h k hus

private theorem readsTerm {e : Expr} (h : Chained ['*', '/'] (ReadsOperand p) d ts e) : ReadsTerm p d ts e where
  one_le := h.one_le fun _ _ _ h => h.one_le
  reads _ _ hus := reads_chainOf .product .power (fun k _ _ _ _ h hvs => ReadsOperand.reads_deeper h k hvs)
    (forall_mem_of_all (by decide)) (forall_mem_of_all (by decide)) (forall_mem_of_all (by decide)) h hus

private theorem readsExpression {e : Expr} (h : Chained ['+', '-'] (ReadsTerm p) d ts e) :
    ReadsExpression p d ts e where
  one_le := h.one_le fun _ _ _ h => h.one_le
  reads _ _ hus := reads_chainOf .sum .product (fun k _ _ _ _ h hvs => ReadsTerm.reads_deeper h k hvs)
    (forall_mem_of_all (by decide)) (forall_mem_of_all (by decide)) (forall_mem_of_all (by decide)) h hus

end Levels

section Primary
variable {operand below : Nat → Reader Expr} {e : Expr}

theorem fails_parenthesizedOf (h : lead us ≠ some '(') : (parenthesizedOf operand).Fails us :=
  (fails_token h).bind

theorem fails_blockOf (h : lead us ≠ some '\x7b') : (blockOf operand).Fails us :=
  (fails_token h).bind

theorem fails_number (h : ∀ c, lead us = some c → isDigit c = false ∧ c ∉ ['+', '-', '.']) :
    (number p).Fails us :=
  (fails_numeral h).bind

/-- Where neither a parenthesis, a brace, a name nor a numeral starts, there is no primary form. -/
theorem fails_primaryOf (h : ∀ c, lead us = some c → c ≠ '(' ∧ c ≠ '\x7b' ∧
    isNameStart c = false ∧ isDigit c = false ∧ c ∉ ['+', '-', '.']) : (primaryOf p below).Fails us := by
  have hname : name.Fails us := fails_name fun c hc => (h c hc).2.2.1
  refine ((((fails_parenthesizedOf ?_).either (fails_blockOf ?_)).either hname.bind).either
    (fails_number fun c hc => (h c hc).2.2.2)).either hname.bind
  · exact fun hc => (h _ hc).1 rfl
  · exact fun hc => (h _ hc).2.1 rfl

theorem fails_operandOf (hminus : lead us ≠ some '-') (h : (primaryOf p below).Fails us) :
    (operandOf p below).Fails us :=
  ((fails_token hminus).bind.either h.bind).orExpect _

private theorem reads_parenthesizedOf (h : ReadsExpression p d ts e) (n : Nat) :
    (parenthesizedOf (deeper (operandWithin p n) 25)).Reads (d + 25 ≤ n) (.mark '(' :: ts ++ [.mark ')']) us e := by
  suffices hread : (parenthesizedOf (deeper (operandWithin p n) 25)).Reads (d + 25 ≤ n ∧ True)
      (.mark '(' :: ts ++ [.mark ')']) us e from hread.congr (and_iff_left trivial)
  refine (reads_mark '(' _).cons ?_
  refine (h.reads_deeper 25 (.closer (by decide) us)).bind ?_
  exact (reads_mark ')' us).cons (reads_pure e us)

/-- The arguments of a call are read up to the closing parenthesis. -/
def ReadsArguments (p : Nat) : Nat → List Token → List Expr → Prop :=
  ReadsWithin (fun n => argumentsOf (operandWithin p n)) fun us => ∃ vs, us = .mark ')' :: vs

private theorem reads_callOf {cs : List Char} {es : List Expr} (h : ReadsArguments p d ts es) (n : Nat) :
    (callOf (deeper (operandWithin p n) 34)).Reads (d + 34 ≤ n)
      (.name cs :: .mark '(' :: ts ++ [.mark ')']) us (.call (String.ofList cs) es) := by
  suffices hread : (callOf (deeper (operandWithin p n) 34)).Reads (d + 34 ≤ n ∧ True)
      (.name cs :: .mark '(' :: ts ++ [.mark ')']) us (.call (String.ofList cs) es) from
    hread.congr (and_iff_left trivial)
  rw [deeper_operandWithin]
  have hparted : Parted (.mark '(' :: (ts ++ [.mark ')']) ++ us) :=
    parted_of_lead (by rintro _ ⟨⟩; decide)
  refine (reads_name hparted).cons ?_
  refine (reads_mark '(' _).cons ?_
  refine (ReadsWithin.reads_sub h 34 ⟨us, rfl⟩).bind ?_
  exact (reads_mark ')' us).cons (reads_pure _ us)

private theorem reads_number {cs : List Char} {v : Number} (hv : Number.ofText? p cs = some v)
    (hus : Parted us) : (number p).Reads True [.numeral cs] us (.number ⟨v, p⟩) := by
  refine (reads_numeral hus).cons (reads_of_matched fun s hs => ⟨s, ?_, hs⟩)
  rw [String.toList_ofList, hv]

private theorem reads_symbol {cs : List Char} (hus : Parted us) :
    symbol.Reads True [.name cs] us (.symbol (String.ofList cs)) :=
  (reads_name hus).map Expr.symbol

/-- A name or a numeral without a parenthesis behind it is not a call, even if the numeral could be a
name as well. -/
theorem fails_callOf {t : Token} (ht : ∀ c, c ∈ t.chars → isNameChar c = true) (hus : Parted us)
    (hopen : lead us ≠ some '(') : (callOf operand).Fails (t :: us) := by
  by_cases hname : IsName t.chars
  · exact (reads_name_of_isName hname hus).bind_fails (fails_token hopen).bind
  · refine (fails_name fun c hc => ?_).bind
    cases hchars : t.chars with
    | nil => simp [lead, hchars] at hc
    | cons d cs =>
      obtain rfl : d = c := by simpa [lead, hchars] using hc
      rw [hchars] at hname ht
      cases hstart : isNameStart d with
      | false => rfl
      | true => exact absurd ⟨d, cs, rfl, hstart, fun c hc => ht c (List.mem_cons_of_mem _ hc)⟩ hname

end Primary

section Operand
variable {d' : Nat} {base exponent e : Expr}

/-- The tokens of a primary form start with none that is a minus. -/
def StartsPrimary (ts : List Token) : Prop :=
  ∃ t us, ts = t :: us ∧ ∀ layout rest, t.Written layout rest → t.chars.head? ≠ some '-'

/-- Tokens are read as a primary form, one call above the operands in it. -/
structure ReadsPrimary (p d : Nat) (ts : List Token) (e : Expr) : Prop where
  one_le : 1 ≤ d
  starts : StartsPrimary ts
  reads : ∀ n us, Follows .primary us → (primaryOf p (operandWithin p n)).Reads (d ≤ n + 1) ts us e

theorem readsOperand_of_powerOf (hd : 1 ≤ d) (hstart : StartsPrimary ts)
    (h : ∀ n us, Follows .power us → (powerOf p (operandWithin p n)).Reads (d ≤ n + 1) ts us e) :
    ReadsOperand p d ts e := by
  obtain ⟨t, vs, rfl, ht⟩ := hstart
  refine ⟨hd, fun n us hus => ?_⟩
  cases n with
  | zero => exact reads_of_abandoned (by omega) fun _ => rfl
  | succ n =>
    refine .of_written fun layout rest hw => ?_
    have hminus : (negationOf (operandWithin p n 9)).Fails (t :: vs ++ us) :=
      (fails_token (show lead (t :: vs ++ us) ≠ some '-' from ht layout rest hw)).bind
    exact (Reads.either_right hminus (h n us hus)).orExpect _

private theorem readsOperand_primary (h : ReadsPrimary p d ts e) : ReadsOperand p d ts e := by
  refine readsOperand_of_powerOf h.one_le h.starts fun n us hus => ?_
  have hcaret : lead us ≠ some '^' := hus.lead_ne (by decide) (by decide)
  have hnone : (optional (do token '^'; operandWithin p n 15)).Reads True [] us none :=
    (fails_token hcaret).bind.optional
  suffices hread : (powerOf p (operandWithin p n)).Reads (d ≤ n + 1 ∧ True ∧ True) ts us e from
    hread.congr (by simp only [and_true])
  have hbase := h.reads n us (hus.mono (forall_mem_of_all (by decide)))
  exact hbase.bind_nil (hnone.bind_nil (reads_pure e us))

private theorem readsOperand_power (h : ReadsPrimary p d ts base) (h' : ReadsOperand p d' us exponent) :
    ReadsOperand p (max d (d' + 16)) (ts ++ .operator '^' :: us) (.binary "^" base exponent) := by
  have hd := h.one_le
  have hstart : StartsPrimary (ts ++ .operator '^' :: us) := by
    obtain ⟨t, vs, rfl, ht⟩ := h.starts
    exact ⟨t, _, rfl, ht⟩
  refine readsOperand_of_powerOf (by omega) hstart fun n vs hvs => ?_
  have hexponent : (operandWithin p n 15).Reads (d' + 16 ≤ n + 1) us vs exponent :=
    (h'.reads_deeper 15 hvs).congr (by omega)
  have hsome : (optional (do token '^'; operandWithin p n 15)).Reads (d' + 16 ≤ n + 1)
      (.operator '^' :: us) vs (some exponent) :=
    ((reads_operator '^' _).cons hexponent).optional
  suffices hread : (powerOf p (operandWithin p n)).Reads (d ≤ n + 1 ∧ d' + 16 ≤ n + 1 ∧ True)
      (ts ++ .operator '^' :: us) vs (.binary "^" base exponent) by
    refine hread.congr ?_
    rw [and_true]
    exact Nat.max_le.symm
  exact (h.reads n _ (.operator (by decide) _)).bind (hsome.bind_nil (reads_pure _ vs))

private theorem readsOperand_negation (h : ReadsOperand p d ts e) :
    ReadsOperand p (d + 10) (.mark '-' :: ts) (.unary negation e) := by
  refine ⟨by omega, fun n us hus => ?_⟩
  cases n with
  | zero => exact reads_of_abandoned (by omega) fun _ => rfl
  | succ n =>
    have hread : (negationOf (operandWithin p n 9)).Reads (d + 9 ≤ n) (.mark '-' :: ts) us
        (.unary negation e) := (reads_mark '-' _).cons ((h.reads_deeper 9 hus).map (Expr.unary negation))
    exact ((hread.either_left _).orExpect _).congr (by omega)

end Operand

section PrimaryForms
variable {below : Nat → Reader Expr} {t : Token} {e : Expr} {fits : Prop}

theorem lead_ne (ht : ∀ c, c ∈ t.chars → isNameChar c = true) {c : Char} (hc : isNameChar c = false) :
    lead (t :: us) ≠ some c := by
  intro h
  rw [ht c (List.mem_of_head? h)] at hc
  cases hc

private theorem reads_primaryOf_call {vs : List Token} (ht : ∀ c, c ∈ t.chars → isNameChar c = true)
    (h : (callOf (deeper below 34)).Reads fits (t :: ts) vs e) :
    (primaryOf p below).Reads fits (t :: ts) vs e :=
  ((Reads.either_right ((fails_parenthesizedOf (lead_ne ht (by decide))).either
    (fails_blockOf (lead_ne ht (by decide)))) h).either_left _).either_left _

private theorem reads_primaryOf_number (ht : ∀ c, c ∈ t.chars → isNameChar c = true)
    (hus : Follows .primary us) (h : (number p).Reads fits [t] us e) :
    (primaryOf p below).Reads fits [t] us e := by
  have hcall : (callOf (deeper below 34)).Fails ([t] ++ us) :=
    fails_callOf ht hus.parted (hus.lead_ne (by decide) (by decide))
  exact (Reads.either_right (((fails_parenthesizedOf (lead_ne ht (by decide))).either
    (fails_blockOf (lead_ne ht (by decide)))).either hcall) h).either_left _

private theorem reads_primaryOf_symbol (ht : ∀ c, c ∈ t.chars → isNameChar c = true)
    (hnumber : (number p).Fails (t :: us)) (hus : Follows .primary us)
    (h : symbol.Reads fits [t] us e) : (primaryOf p below).Reads fits [t] us e := by
  have hcall : (callOf (deeper below 34)).Fails ([t] ++ us) :=
    fails_callOf ht hus.parted (hus.lead_ne (by decide) (by decide))
  exact Reads.either_right ((((fails_parenthesizedOf (lead_ne ht (by decide))).either
    (fails_blockOf (lead_ne ht (by decide)))).either hcall).either hnumber) h

theorem startsPrimary_mark {c : Char} (hc : c ≠ '-') (ts : List Token) :
    StartsPrimary (.mark c :: ts) :=
  ⟨_, ts, rfl, fun _ _ _ h => hc (Option.some.inj h)⟩

theorem startsPrimary_name (cs : List Char) (ts : List Token) : StartsPrimary (.name cs :: ts) :=
  ⟨_, ts, rfl, fun _ _ h hc => h.2 '-' hc (by decide)⟩

private theorem startsPrimary_numeral (cs : List Char) (ts : List Token) : StartsPrimary (.numeral cs :: ts) :=
  ⟨_, ts, rfl, fun _ _ h hc => (h.2 '-' hc).2 rfl⟩

private theorem readsPrimary_parenthesized (h : ReadsExpression p d ts e) :
    ReadsPrimary p (d + 26) (.mark '(' :: ts ++ [.mark ')']) e := by
  refine ⟨by omega, startsPrimary_mark (by decide) _, fun n us _ => ?_⟩
  refine Reads.congr ?_ (by omega : d + 25 ≤ n ↔ d + 26 ≤ n + 1)
  exact ((((reads_parenthesizedOf h n).either_left _).either_left _).either_left _).either_left _

private theorem readsPrimary_call {cs : List Char} {es : List Expr} (h : ReadsArguments p d ts es) :
    ReadsPrimary p (d + 35) (.name cs :: .mark '(' :: ts ++ [.mark ')']) (.call (String.ofList cs) es) := by
  refine ⟨by omega, startsPrimary_name cs _, fun n us _ => .of_written fun _ _ hw => ?_⟩
  refine Reads.congr ?_ (by omega : d + 34 ≤ n ↔ d + 35 ≤ n + 1)
  exact reads_primaryOf_call (fun _ hc => hw.1.isNameChar hc) (reads_callOf h n)

private theorem readsPrimary_number {cs : List Char} {v : Number} (hv : Number.ofText? p cs = some v) :
    ReadsPrimary p 1 [.numeral cs] (.number ⟨v, p⟩) := by
  refine ⟨Nat.le_refl 1, startsPrimary_numeral cs [], fun n us hus => .of_written fun _ _ hw => ?_⟩
  have hchars : ∀ c, c ∈ (Token.numeral cs).chars → isNameChar c = true :=
    fun _ hc => hw.1.isNameChar hc
  refine (reads_primaryOf_number hchars hus (reads_number hv hus.parted)).congr ?_
  exact iff_of_true trivial (Nat.le_add_left 1 n)

private theorem readsPrimary_symbol (cs : List Char) :
    ReadsPrimary p 1 [.name cs] (.symbol (String.ofList cs)) := by
  refine ⟨Nat.le_refl 1, startsPrimary_name cs [], fun n us hus => .of_written fun _ _ hw => ?_⟩
  have hchars : ∀ c, c ∈ (Token.name cs).chars → isNameChar c = true :=
    fun _ hc => hw.1.isNameChar hc
  have hnumber : (number p).Fails (.name cs :: us) := by
    refine fails_number fun c hc => ⟨?_, fun hmem => hw.2 c hc ?_⟩
    · obtain ⟨first, rest, rfl, hfirst, -⟩ := hw.1
      cases hc
      simp only [isNameStart, Bool.and_eq_true, Bool.not_eq_true'] at hfirst
      exact hfirst.2
    · exact forall_mem_of_all (P := (· ∈ reservedChars)) (by decide) c hmem
  refine (reads_primaryOf_symbol hchars hnumber hus (reads_symbol hus.parted)).congr ?_
  exact iff_of_true trivial (Nat.le_add_left 1 n)

end PrimaryForms

section Clauses
variable {e : Expr}

/-- A semicolon, or the closing brace behind the last expression of a block. -/
def EndsClause (us : List Token) : Prop :=
  ∃ c vs, c ∈ [';', '\x7d'] ∧ us = .mark c :: vs

theorem EndsClause.follows {level : Level} (h : EndsClause us) : Follows level us := by
  obtain ⟨c, vs, hc, rfl⟩ := h
  exact .closer (forall_mem_of_all (P := (· ∈ closerChars)) (by decide) c hc) vs

private theorem EndsClause.unbound (h : EndsClause us) : Unbound us := by
  obtain ⟨c, vs, hc, rfl⟩ := h
  exact .stop (forall_mem_of_all (P := (· ∈ ['\x7b', '\x7d', ';'])) (by decide) c hc) vs

def ReadsClause (p : Nat) : Nat → List Token → Statement → Prop :=
  ReadsWithin (fun n => clauseOf (operandWithin p n)) EndsClause

private theorem reads_names (params : List (List Char)) (us : List Token) :
    (commaSeparated name name).Reads True (nameTokens params) (.mark ')' :: us)
      (params.map String.ofList) := by
  cases params with
  | nil => exact reads_commaSeparated_nil (fails_name (by rintro _ ⟨⟩; decide))
  | cons first others =>
    let I (d : Nat) (ts : List Token) (n : String) : Prop :=
      d = 0 ∧ ∃ cs, ts = [.name cs] ∧ n = String.ofList cs
    have hrow : Row (Separated 0 I) 0 (others.flatMap fun cs => [.mark ',', .name cs])
        (others.map String.ofList) := by
      induction others with
      | nil => exact .nil
      | cons cs others ih => exact .cons ⟨0, [.name cs], rfl, rfl, rfl, cs, rfl, rfl⟩ ih
    have hlist : Listed 0 I 0 (nameTokens (first :: others)) ((first :: others).map String.ofList) :=
      ⟨0, 0, [.name first], _, _, _, ⟨rfl, first, rfl, rfl⟩, hrow, rfl, rfl, rfl⟩
    have hname : ∀ d ts a us, I d ts a → EndsItem us → name.Reads (d ≤ 0) ts us a := by
      rintro d _ _ us ⟨rfl, cs, rfl, rfl⟩ hus
      have hparted := (show Follows .sum us from hus.follows).parted
      exact (reads_name hparted).congr (iff_of_true trivial (Nat.le_refl 0))
    exact (reads_commaSeparated (n := 0) hname hname hlist).congr (iff_of_true (Nat.le_refl 0) trivial)

private theorem readsClause_definition (cs : List Char) (params : List (List Char))
    (h : ReadsExpression p d ts e) :
    ReadsClause p d (.name cs :: .mark '(' :: nameTokens params ++ .mark ')' :: .operator '=' :: ts)
      (.define (String.ofList cs) (params.map String.ofList) e) := by
  refine ⟨h.one_le, fun n us hus => ?_⟩
  suffices hread : (definitionOf (operandWithin p n)).Reads (True ∧ d ≤ n)
      (.name cs :: .mark '(' :: nameTokens params ++ .mark ')' :: .operator '=' :: ts) us
      (.define (String.ofList cs) (params.map String.ofList) e) from
    (((hread.congr (and_iff_right trivial)).either_left _).either_left _).orExpect _
  refine (reads_name (parted_of_lead (by rintro _ ⟨⟩; decide))).cons ?_
  refine (reads_mark '(' _).cons ?_
  refine (reads_names params _).bind ?_
  refine (reads_mark ')' _).cons ?_
  refine (reads_operator '=' _).cons ?_
  exact (h.reads n us hus.follows).map (Statement.define _ _)

private theorem readsClause_assignment (cs : List Char) (h : ReadsExpression p d ts e) :
    ReadsClause p d (.name cs :: .operator '=' :: ts) (.assign (String.ofList cs) e) := by
  refine ⟨h.one_le, fun n us hus => ?_⟩
  have hdefinition : (definitionOf (operandWithin p n)).Fails
      (.name cs :: .operator '=' :: ts ++ us) :=
    (reads_name (parted_operator _ _)).bind_fails (fails_token (by rintro ⟨⟩)).bind
  have hassignment : (assignmentOf (operandWithin p n)).Reads (d ≤ n)
      (.name cs :: .operator '=' :: ts) us (.assign (String.ofList cs) e) := by
    refine (reads_name (parted_operator _ _)).cons ?_
    refine (reads_operator '=' _).cons ?_
    exact (h.reads n us hus.follows).map (Statement.assign _)
  exact ((hassignment.either_right hdefinition).either_left _).orExpect _

private theorem readsClause_expression (hu : ∀ us, Unbound us → Unbound (ts ++ us))
    (h : ReadsExpression p d ts e) : ReadsClause p d ts (.expression e) := by
  refine ⟨h.one_le, fun n us hus => ?_⟩
  have hfail := (fails_definitionOf (operandWithin p n) (hu us hus.unbound)).either
    (fails_assignmentOf (operandWithin p n) (hu us hus.unbound))
  exact (((h.reads n us hus.follows).map Statement.expression).either_right hfail).orExpect _

end Clauses

section Blocks
variable {d' : Nat} {e final : Expr} {clause : Statement} {statements : List Statement}

/-- The inside of a block is read up to the closing brace; it has no more statements than tokens. -/
structure ReadsBody (p d : Nat) (ts : List Token) (statements : List Statement) (final : Expr) : Prop where
  one_le : 1 ≤ d
  length_le : statements.length ≤ ts.length
  reads : ∀ n us k, statements.length < k →
    (blockBodyOf (operandWithin p n) k).Reads (d ≤ n) ts (.mark '\x7d' :: us) (statements, final)

private theorem readsBody_final (h : ReadsClause p d ts (.expression e)) : ReadsBody p d ts [] e := by
  refine ⟨h.one_le, Nat.zero_le _, fun n us k hk s hs => ?_⟩
  cases k with
  | zero => exact absurd hk (Nat.not_lt_zero _)
  | succ k =>
    obtain ⟨hfit, hdeep⟩ := h.reads n (.mark '\x7d' :: us) ⟨'\x7d', us, by simp, rfl⟩ s hs
    simp only [blockBodyOf]
    refine ⟨fun hn => ?_, fun hn => by rw [hdeep hn]⟩
    obtain ⟨rest, hr, hrest⟩ := hfit hn
    obtain ⟨m, hm⟩ := fails_token (c := ';') (by rintro ⟨⟩) rest hrest
    simp only [hr, hm]
    exact ⟨rest, rfl, hrest⟩

private theorem readsBody_statement (h : ReadsClause p d ts clause) (h' : ReadsBody p d' us statements final) :
    ReadsBody p (max d d') (ts ++ .mark ';' :: us) (clause :: statements) final := by
  have hd := h.one_le
  have hlen := h'.length_le
  refine ⟨by omega, by simp only [List.length_cons, List.length_append]; omega, fun n vs k hk s hs => ?_⟩
  cases k with
  | zero => exact absurd hk (Nat.not_lt_zero _)
  | succ k =>
    rw [List.append_assoc] at hs
    obtain ⟨hfit, hdeep⟩ := h.reads n (.mark ';' :: us ++ .mark '\x7d' :: vs) ⟨';', _, by simp, rfl⟩ s hs
    simp only [blockBodyOf]
    by_cases hn : d ≤ n
    · obtain ⟨t, hr, ht⟩ := hfit hn
      obtain ⟨u, hu, hrest⟩ := (reads_mark ';' _ t ht).1 trivial
      have hbody := (h'.reads n vs k (Nat.lt_of_succ_lt_succ hk)).map fun x => (clause :: x.1, x.2)
      obtain ⟨hfit', hdeep'⟩ := hbody u hrest
      simp only [hr, hu]
      exact ⟨fun hmax => hfit' (by omega), fun hmax => hdeep' (by omega)⟩
    · rw [hdeep hn]
      exact ⟨fun hmax => absurd hmax (by omega), fun _ => rfl⟩

/-- The fuel of a block is enough for its statements, each of which has a semicolon. -/
theorem reads_blockOf (h : ReadsBody p d ts statements final) (n : Nat) :
    (blockOf (deeper (operandWithin p n) 45)).Reads (d + 45 ≤ n) (.mark '\x7b' :: ts ++ [.mark '\x7d']) us
      (.block statements final) := by
  have hd := h.one_le
  suffices hread : (blockOf (deeper (operandWithin p n) 45)).Reads (d + 45 ≤ n ∧ True)
      (.mark '\x7b' :: ts ++ [.mark '\x7d']) us (.block statements final) from
    hread.congr (and_iff_left trivial)
  rw [deeper_operandWithin]
  have hbody : Reads (fun s => blockBodyOf (operandWithin p (n - 45)) (s.length + 1) s) (d + 45 ≤ n) ts
      (.mark '\x7d' :: us) (statements, final) := by
    intro s hs
    have hs' := hs.length_le
    have hlen := h.length_le
    rw [List.length_append] at hs'
    exact ((h.reads (n - 45) us (s.length + 1) (by omega)).congr (by omega)) s hs
  refine (reads_mark '\x7b' _).cons ?_
  refine hbody.bind ?_
  exact (reads_mark '\x7d' us).cons (reads_pure _ us)

private theorem readsPrimary_block (h : ReadsBody p d ts statements final) :
    ReadsPrimary p (d + 46) (.mark '\x7b' :: ts ++ [.mark '\x7d']) (.block statements final) := by
  refine ⟨by omega, startsPrimary_mark (by decide) _, fun n us _ => ?_⟩
  have hopen : (parenthesizedOf (deeper (operandWithin p n) 25)).Fails
      (.mark '\x7b' :: ts ++ [.mark '\x7d'] ++ us) := fails_parenthesizedOf (by rintro ⟨⟩)
  refine Reads.congr ?_ (by omega : d + 45 ≤ n ↔ d + 46 ≤ n + 1)
  exact ((((reads_blockOf h n).either_right hopen).either_left _).either_left _).either_left _

end Blocks

/-- What it is to be read as a phrase. -/
def ReadsAs (p d : Nat) (ts : List Token) : Phrase → Prop
  | .expression .primary e => ReadsPrimary p d ts e
  | .expression .power e => ReadsOperand p d ts e
  | .expression .product e => Chained ['*', '/'] (ReadsOperand p) d ts e
  | .expression .sum e => Chained ['+', '-'] (ReadsTerm p) d ts e
  | .items es => Listed 7 (ReadsExpression p) d ts es
  | .arguments es => ReadsArguments p d ts es
  | .clause s => ReadsClause p d ts s
  | .body statements final => ReadsBody p d ts statements final

/-- Where an argument could stand but the list is closed, none is found, unless there is no call left. -/
theorem readsArguments_nil : ReadsArguments p 1 [] [] := by
  refine ⟨Nat.le_refl 1, ?_⟩
  rintro n _ ⟨us, rfl⟩
  cases n with
  | zero => exact reads_of_abandoned (by omega) fun _ => rfl
  | succ n =>
    have hprimary : (primaryOf p (operandWithin p n)).Fails (.mark ')' :: us) :=
      fails_primaryOf (by rintro _ ⟨⟩; decide)
    have hoperand : (operandWithin p (n + 1) 0).Fails (.mark ')' :: us) :=
      fails_operandOf (by rintro ⟨⟩) hprimary
    exact (reads_commaSeparated_nil hoperand.bind.bind).congr
      (iff_of_true trivial (Nat.le_add_left 1 n))

private theorem readsArguments_items {es : List Expr} (h : Listed 7 (ReadsExpression p) d ts es) :
    ReadsArguments p d ts es := by
  refine ⟨h.one_le fun _ _ _ h => h.one_le, ?_⟩
  rintro n _ ⟨us, rfl⟩
  exact reads_commaSeparated (fun _ _ _ vs h hvs => h.reads n vs hvs.follows)
    (fun _ _ _ _ h hvs => h.reads_deeper 7 hvs.follows) h

/-- Tokens are read as what they derive. -/
theorem readsAs_of_derives {phrase : Phrase} (h : Derives p d ts phrase) : ReadsAs p d ts phrase := by
  induction h with
  | number hv => exact readsPrimary_number hv
  | symbol cs => exact readsPrimary_symbol cs
  | parenthesized _ ih => exact readsPrimary_parenthesized (readsExpression ih)
  | block _ ih => exact readsPrimary_block ih
  | call _ _ ih => exact readsPrimary_call ih
  | primary _ ih => exact readsOperand_primary ih
  | negation _ ih => exact readsOperand_negation ih
  | power _ _ ih ih' => exact readsOperand_power ih ih'
  | factor _ ih => exact chained_of_item ih
  | product hop _ _ ih ih' => exact chained_snoc ih hop ih'
  | term _ ih => exact chained_of_item (readsTerm ih)
  | sum hop _ _ ih ih' => exact chained_snoc ih hop (readsTerm ih')
  | firstItem _ ih => exact listed_of_item (readsExpression ih)
  | item _ _ ih ih' => exact listed_snoc ih (readsExpression ih')
  | noArguments => exact readsArguments_nil
  | arguments _ ih => exact readsArguments_items ih
  | definition cs params _ ih => exact readsClause_definition cs params (readsExpression ih)
  | assignment cs _ ih => exact readsClause_assignment cs (readsExpression ih)
  | expression h ih => exact readsClause_expression (fun _ => h.unbound trivial) (readsExpression ih)
  | final h ih =>
    exact readsBody_final (readsClause_expression (fun _ => h.unbound trivial) (readsExpression ih))
  | statement _ _ ih ih' => exact readsBody_statement ih ih'

end Grammar

end Reckoner
