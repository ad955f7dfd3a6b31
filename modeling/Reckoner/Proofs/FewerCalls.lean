import Reckoner.Proofs.ParserSoundness

/-! Reading with fewer calls left: what is found is the same, unless the calls run out. -/

namespace Reckoner

/-- A reader finds in every text what another one finds, or goes too deep. -/
def Reader.Approximates {α : Type} (r r' : Reader α) : Prop :=
  ∀ s, r s = .abandoned .tooDeep ∨ r s = r' s

namespace Reader
variable {α β : Type} {r r' first first' : Reader α}

theorem approximates_refl (r : Reader α) : r.Approximates r :=
  fun _ => .inr rfl

theorem Approximates.bind {f f' : α → Reader β} (h : r.Approximates r') (hf : ∀ a, (f a).Approximates (f' a)) :
    (r >>= f).Approximates (r' >>= f') := by
  intro s
  rcases h s with hdeep | hsame
  · exact .inl (bind_of_abandoned hdeep)
  · cases hr : r s with
    | matched a rest =>
      rw [bind_of_matched hr, bind_of_matched (hsame ▸ hr)]
      exact hf a rest
    | mismatched m => exact .inr (by rw [bind_of_mismatched hr, bind_of_mismatched (hsame ▸ hr)])
    | abandoned a => exact .inr (by rw [bind_of_abandoned hr, bind_of_abandoned (hsame ▸ hr)])

theorem Approximates.either (h : first.Approximates first') (h' : r.Approximates r') :
    (either first r).Approximates (either first' r') := by
  intro s
  simp only [Reader.either]
  rcases h s with hdeep | hsame
  · exact .inl (by rw [hdeep])
  · rw [← hsame]
    rcases h' s with hdeep' | hsame'
    · cases first s with
      | mismatched m => exact .inl (by rw [hdeep'])
      | matched a rest => exact .inr rfl
      | abandoned a => exact .inr rfl
    · exact .inr (by rw [hsame'])

theorem Approximates.orExpect (h : r.Approximates r') (e : Expectation) :
    (r.orExpect e).Approximates (r'.orExpect e) := by
  intro s
  simp only [Reader.orExpect]
  rcases h s with hdeep | hsame
  · exact .inl (by rw [hdeep])
  · exact .inr (by rw [hsame])

theorem Approximates.optional (h : r.Approximates r') : (optional r).Approximates (optional r') := by
  intro s
  simp only [Reader.optional]
  rcases h s with hdeep | hsame
  · exact .inl (by rw [hdeep])
  · exact .inr (by rw [hsame])

private theorem Approximates.manyUpTo (h : r.Approximates r') (n : Nat) :
    (manyUpTo r n).Approximates (manyUpTo r' n) := by
  induction n with
  | zero => exact approximates_refl _
  | succ n ih =>
    intro s
    simp only [Reader.manyUpTo]
    rcases h s with hdeep | hsame
    · exact .inl (by rw [hdeep])
    · rw [← hsame]
      cases r s with
      | matched a rest => exact (ih.bind fun as => approximates_refl _) rest
      | mismatched m => exact .inr rfl
      | abandoned a => exact .inr rfl

theorem Approximates.many (h : r.Approximates r') : (many r).Approximates (many r') :=
  fun s => h.manyUpTo (s.length + 1) s

private theorem Approximates.commaSeparated (h : first.Approximates first') (h' : r.Approximates r') :
    (commaSeparated first r).Approximates (commaSeparated first' r') := by
  refine h.optional.bind fun a => ?_
  cases a with
  | none => exact approximates_refl _
  | some a => exact ((approximates_refl _).bind fun _ => h').many.bind fun as => approximates_refl _

end Reader

namespace Grammar
open Reader
variable {p n n' : Nat} {operand operand' : Nat → Reader Expr}

private theorem approximates_chainOf {ops : List Char} (h : ∀ k, (operand k).Approximates (operand' k)) :
    (chainOf ops operand).Approximates (chainOf ops operand') := by
  have hpair : Approximates (do return (← oneOf ops, ← operand 7)) (do return (← oneOf ops, ← operand' 7)) :=
    (approximates_refl _).bind fun op => (h 7).bind fun e => approximates_refl _
  exact (h 0).bind fun first => hpair.many.bind fun others => approximates_refl _

theorem approximates_deeper (h : ∀ k, (operand k).Approximates (operand' k)) (calls k : Nat) :
    (deeper operand calls k).Approximates (deeper operand' calls k) :=
  h (calls + k)

theorem approximates_expressionOf (h : ∀ k, (operand k).Approximates (operand' k)) :
    (expressionOf operand).Approximates (expressionOf operand') :=
  approximates_chainOf fun k => approximates_chainOf (approximates_deeper h k)

theorem approximates_clauseOf (h : ∀ k, (operand k).Approximates (operand' k)) :
    (clauseOf operand).Approximates (clauseOf operand') := by
  have hvalue {α : Type} (f : Expr → α) :
      Approximates (do return f (← expressionOf operand)) (do return f (← expressionOf operand')) :=
    (approximates_expressionOf h).bind fun e => approximates_refl _
  have hdefinition : (definitionOf operand).Approximates (definitionOf operand') :=
    (approximates_refl _).bind fun f => (approximates_refl _).bind fun _ => (approximates_refl _).bind fun params =>
      (approximates_refl _).bind fun _ => (approximates_refl _).bind fun _ => hvalue (Statement.define f params)
  have hassignment : (assignmentOf operand).Approximates (assignmentOf operand') :=
    (approximates_refl _).bind fun target => (approximates_refl _).bind fun _ => hvalue (Statement.assign target)
  exact ((hdefinition.either hassignment).either (hvalue Statement.expression)).orExpect _

private theorem approximates_statementOf (h : ∀ k, (operand k).Approximates (operand' k)) :
    (statementOf operand).Approximates (statementOf operand') :=
  (approximates_clauseOf h).bind fun _ => approximates_refl _

private theorem approximates_blockBodyOf (h : ∀ k, (operand k).Approximates (operand' k)) (j : Nat) :
    (blockBodyOf operand j).Approximates (blockBodyOf operand' j) := by
  induction j with
  | zero => exact approximates_refl _
  | succ j ih =>
    intro s
    simp only [blockBodyOf]
    rcases approximates_clauseOf h s with hdeep | hsame
    · exact .inl (by rw [hdeep])
    · rw [← hsame]
      cases clauseOf operand s with
      | mismatched m => exact .inr rfl
      | abandoned a => exact .inr rfl
      | matched clause rest =>
        dsimp only
        split
        · exact (ih.bind fun x => approximates_refl _) _
        · split
          · exact .inr rfl
          · exact ((approximates_expressionOf h).bind fun e => approximates_refl _) s

private theorem approximates_blockOf (h : ∀ k, (operand k).Approximates (operand' k)) :
    (blockOf operand).Approximates (blockOf operand') :=
  (approximates_refl _).bind fun _ => Approximates.bind (fun s => approximates_blockBodyOf h (s.length + 1) s)
    fun _ => approximates_refl _

private theorem approximates_parenthesizedOf (h : ∀ k, (operand k).Approximates (operand' k)) :
    (parenthesizedOf operand).Approximates (parenthesizedOf operand') :=
  (approximates_refl _).bind fun _ => (approximates_expressionOf h).bind fun _ => approximates_refl _

private theorem approximates_callOf (h : ∀ k, (operand k).Approximates (operand' k)) :
    (callOf operand).Approximates (callOf operand') := by
  have hother := approximates_expressionOf (approximates_deeper h 7)
  refine (approximates_refl _).bind fun f => (approximates_refl _).bind fun _ => ?_
  exact ((approximates_expressionOf h).commaSeparated hother).bind fun args => approximates_refl _

private theorem approximates_operandOf (h : ∀ k, (operand k).Approximates (operand' k)) :
    (operandOf p operand).Approximates (operandOf p operand') := by
  have hnegation : (negationOf (operand 9)).Approximates (negationOf (operand' 9)) :=
    (approximates_refl _).bind fun _ => (h 9).bind fun e => approximates_refl _
  have hexponent : Approximates (do token '^'; operand 15) (do token '^'; operand' 15) :=
    (approximates_refl _).bind fun _ => h 15
  have hprimary : (primaryOf p operand).Approximates (primaryOf p operand') :=
    ((((approximates_parenthesizedOf (approximates_deeper h 25)).either
      (approximates_blockOf (approximates_deeper h 45))).either (approximates_callOf (approximates_deeper h 34))).either
      (approximates_refl _)).either (approximates_refl _)
  refine (hnegation.either ?_).orExpect _
  exact hprimary.bind fun base => hexponent.optional.bind fun exponent => approximates_refl _

private theorem approximates_operandWithin (h : n ≤ n') (k : Nat) :
    (operandWithin p n k).Approximates (operandWithin p n' k) :=
  withCalls_relation_of_le (fun _ _ => .inl rfl) (fun _ _ h => approximates_operandOf h) h k

theorem approximates_statement (h : n ≤ n') : (statement p n).Approximates (statement p n') :=
  approximates_statementOf (approximates_operandWithin h)

end Grammar

end Reckoner
