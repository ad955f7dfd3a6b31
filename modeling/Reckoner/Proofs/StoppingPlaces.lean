import Reckoner.Proofs.LocalReading

/-! Where readers stop. A reader goes on to an end piece of the text it is given, and where it does not
match, it stands behind layout: at a character that is no layout, or at the end. -/

namespace Reckoner
open Text

/-- Reading ends within a text, and behind layout if it is a mismatch. -/
inductive Reading.Within {α : Type} (s : List Char) : Reading α → Prop where
  | matched (a : α) {t : List Char} (h : t <:+ s) : Within s (.matched a t)
  | mismatched {m : Mismatch} (h : m.rest <:+ s) (hl : Stops isLayout m.rest) :
    Within s (.mismatched m)
  | abandoned (a : Abandonment) : Within s (.abandoned a)

/-- A reader stays within every text. -/
def Reader.Confined {α : Type} (r : Reader α) : Prop :=
  ∀ s, (r s).Within s

theorem Reading.Within.mono {α : Type} {s t : List Char} {x : Reading α} (h : x.Within t) (hs : t <:+ s) :
    x.Within s := by
  cases h with
  | matched a h => exact .matched a (h.trans hs)
  | mismatched h hl => exact .mismatched (h.trans hs) hl
  | abandoned a => exact .abandoned a

theorem Reading.Within.suffix {α : Type} {s t : List Char} {a : α}
    (h : (Reading.matched a t).Within s) : t <:+ s := by
  cases h with
  | matched _ h => exact h

theorem skipLayout_suffix (s : List Char) : skipLayout s <:+ s :=
  List.dropWhile_suffix isLayout

namespace Reader
variable {α β : Type} {r : Reader α}

theorem within_bind {f : α → Reader β} {s : List Char} (h : (r s).Within s)
    (hf : ∀ a t, r s = .matched a t → (f a t).Within t) : ((r >>= f) s).Within s := by
  cases hr : r s with
  | matched a t =>
    rw [hr] at h
    rw [bind_of_matched hr]
    exact (hf a t hr).mono h.suffix
  | mismatched m =>
    rw [hr] at h
    rw [bind_of_mismatched hr]
    cases h with
    | mismatched h hl => exact .mismatched h hl
  | abandoned a =>
    rw [bind_of_abandoned hr]
    exact .abandoned a

theorem Confined.bind {f : α → Reader β} (h : r.Confined) (hf : ∀ a, (f a).Confined) :
    (r >>= f).Confined :=
  fun s => within_bind (h s) fun a t _ => hf a t

theorem confined_pure (a : α) : Confined (pure a : Reader α) :=
  fun s => .matched a (List.suffix_refl s)

theorem Confined.either {first second : Reader α} (h : first.Confined) (h' : second.Confined) :
    (either first second).Confined := by
  intro s
  have hf := h s
  have hs := h' s
  unfold Reader.either
  cases hx : first s with
  | matched a t => exact .matched a (hx ▸ hf).suffix
  | abandoned a => exact .abandoned a
  | mismatched m =>
    cases hy : second s with
    | matched b t => exact .matched b (hy ▸ hs).suffix
    | abandoned a => exact .abandoned a
    | mismatched n =>
      rw [hx] at hf
      rw [hy] at hs
      cases hf with
      | mismatched hm hlm =>
        cases hs with
        | mismatched hn hln =>
          show (Reading.mismatched (farther m n)).Within s
          rw [farther]
          split
          · exact .mismatched hn hln
          · exact .mismatched hm hlm

theorem Confined.orExpect (h : r.Confined) (e : Expectation) : (r.orExpect e).Confined := by
  intro s
  have hs := h s
  unfold Reader.orExpect
  cases hr : r s with
  | matched a t => exact .matched a (hr ▸ hs).suffix
  | abandoned a => exact .abandoned a
  | mismatched m =>
    rw [hr] at hs
    cases hs with
    | mismatched hm hl =>
      show (Reading.mismatched (if m.rest.length = (skipLayout s).length then ⟨m.rest, e⟩ else m)).Within s
      split
      · exact .mismatched hm hl
      · exact .mismatched hm hl

private theorem Confined.manyUpTo (h : r.Confined) (n : Nat) : (manyUpTo r n).Confined := by
  induction n with
  | zero => exact confined_pure []
  | succ n ih =>
    intro s
    have hs := h s
    simp only [Reader.manyUpTo]
    cases hr : r s with
    | matched a t =>
      rw [hr] at hs
      exact (ih.bind (fun as => confined_pure (a :: as)) t).mono hs.suffix
    | mismatched m => exact .matched [] (List.suffix_refl s)
    | abandoned a => exact .abandoned a

theorem Confined.many (h : r.Confined) : (many r).Confined :=
  fun s => h.manyUpTo (s.length + 1) s

theorem Confined.optional (h : r.Confined) : (optional r).Confined := by
  intro s
  have hs := h s
  rw [Reader.optional]
  cases hr : r s with
  | matched a t =>
    rw [hr] at hs
    exact .matched (some a) hs.suffix
  | mismatched m => exact .matched none (List.suffix_refl s)
  | abandoned a => exact .abandoned a

/-- A mismatch behind the layout of a text. -/
theorem within_mismatch {s rest : List Char} (h : skipLayout s = rest) (e : Expectation) :
    (Reading.mismatched ⟨rest, e⟩ : Reading α).Within s := by
  subst h
  exact .mismatched (skipLayout_suffix s) (stops_dropWhile isLayout s)

/-- What follows characters behind the layout of a text. -/
theorem suffix_of_skipLayout {s rest : List Char} (word : List Char) (h : skipLayout s = word ++ rest) :
    rest <:+ s :=
  (h ▸ List.suffix_append word rest).trans (skipLayout_suffix s)

theorem confined_token (c : Char) : (token c).Confined := by
  intro s
  rw [token]
  split
  · rename_i hs
    exact within_mismatch hs _
  · rename_i d rest hs
    split
    · exact .matched () (suffix_of_skipLayout [d] hs)
    · exact within_mismatch hs _

private theorem confined_oneOf (cs : List Char) : (oneOf cs).Confined := by
  intro s
  rw [oneOf]
  split
  · rename_i hs
    exact within_mismatch hs _
  · rename_i d rest hs
    split
    · exact .matched d (suffix_of_skipLayout [d] hs)
    · exact within_mismatch hs _

theorem confined_endOfText : endOfText.Confined := by
  intro s
  rw [endOfText]
  split
  · exact .matched () List.nil_suffix
  · exact within_mismatch rfl _

theorem confined_split {splitting : List Char → Option (List Char × List Char)}
    (h : ∀ {s cs rest : List Char}, splitting s = some (cs, rest) → s = cs ++ rest) (e : Expectation) :
    (split splitting e).Confined := by
  intro s
  simp only [split]
  split
  · rename_i cs rest hsplit
    exact .matched _ (suffix_of_skipLayout cs (h hsplit))
  · exact within_mismatch rfl e

theorem confined_name : name.Confined :=
  confined_split (fun h => (splitName?_sound h).1) _

private theorem confined_numeral : numeral.Confined :=
  confined_split (fun h => (splitNumeral?_sound h).1) _

theorem Confined.commaSeparated {other : Reader α} (h : r.Confined) (h' : other.Confined) :
    (commaSeparated r other).Confined := by
  refine h.optional.bind fun a => ?_
  cases a with
  | none => exact confined_pure []
  | some a =>
    exact ((confined_token ',').bind fun _ => h').many.bind fun as => confined_pure (a :: as)

end Reader

namespace Grammar
open Reader
variable {p : Nat} {operand item : Nat → Reader Expr}

private theorem confined_chainOf (ops : List Char) (h : ∀ k, (item k).Confined) : (chainOf ops item).Confined := by
  have hpair : Confined (do return (← oneOf ops, ← item 7)) :=
    (confined_oneOf ops).bind fun op => (h 7).bind fun e => confined_pure (op, e)
  exact (h 0).bind fun first => hpair.many.bind fun others => confined_pure _

theorem confined_deeper (h : ∀ k, (operand k).Confined) (calls k : Nat) : (deeper operand calls k).Confined :=
  h (calls + k)

theorem confined_expressionOf (h : ∀ k, (operand k).Confined) : (expressionOf operand).Confined :=
  confined_chainOf _ fun k => confined_chainOf _ (confined_deeper h k)

private theorem confined_definitionOf (h : ∀ k, (operand k).Confined) : (definitionOf operand).Confined := by
  refine confined_name.bind fun f => (confined_token '(').bind fun _ => ?_
  refine (confined_name.commaSeparated confined_name).bind fun params => (confined_token ')').bind fun _ => ?_
  exact (confined_token '=').bind fun _ => (confined_expressionOf h).bind fun e => confined_pure _

private theorem confined_assignmentOf (h : ∀ k, (operand k).Confined) : (assignmentOf operand).Confined := by
  refine confined_name.bind fun target => (confined_token '=').bind fun _ => ?_
  exact (confined_expressionOf h).bind fun e => confined_pure _

theorem confined_clauseOf (h : ∀ k, (operand k).Confined) : (clauseOf operand).Confined :=
  (((confined_definitionOf h).either (confined_assignmentOf h)).either
    ((confined_expressionOf h).bind fun _ => confined_pure _)).orExpect _

private theorem confined_statementOf (h : ∀ k, (operand k).Confined) : (statementOf operand).Confined :=
  (confined_clauseOf h).bind fun s => (confined_token ';').bind fun _ => confined_pure s

/-- The inside of a block takes no more statements than it has characters. -/
theorem within_blockBodyOf (h : ∀ k, (operand k).Confined) {n : Nat} {s : List Char} (hn : s.length < n) :
    (blockBodyOf operand n s).Within s := by
  induction n generalizing s with
  | zero => omega
  | succ n ih =>
    have hs := confined_clauseOf h s
    simp only [blockBodyOf]
    cases hc : clauseOf operand s with
    | mismatched m =>
      rw [hc] at hs
      cases hs with
      | mismatched hm hl => exact .mismatched hm hl
    | abandoned a => exact .abandoned a
    | matched clause t =>
      rw [hc] at hs
      have ht := hs.suffix
      have hfinal : ((expressionOf operand >>= fun e => pure (([] : List Statement), e)) s).Within s :=
        (confined_expressionOf h).bind (fun _ => confined_pure _) s
      dsimp only
      split
      · rename_i u hu
        have hut : u <:+ t := (hu ▸ confined_token ';' t).suffix
        have hlt := consuming_token ';' hu
        have hle := ht.length_le
        exact (within_bind (ih (by omega)) fun x v _ => confined_pure _ v).mono (hut.trans ht)
      · split
        · exact .matched _ ht
        · exact hfinal

private theorem confined_blockOf (h : ∀ k, (operand k).Confined) : (blockOf operand).Confined := by
  have hbody : Confined fun s => blockBodyOf operand (s.length + 1) s :=
    fun s => within_blockBodyOf h (Nat.lt_succ_self s.length)
  refine (confined_token '\x7b').bind fun _ => hbody.bind fun x => ?_
  exact (confined_token '\x7d').bind fun _ => confined_pure _

private theorem confined_parenthesizedOf (h : ∀ k, (operand k).Confined) : (parenthesizedOf operand).Confined := by
  refine (confined_token '(').bind fun _ => (confined_expressionOf h).bind fun e => ?_
  exact (confined_token ')').bind fun _ => confined_pure e

private theorem confined_callOf (h : ∀ k, (operand k).Confined) : (callOf operand).Confined := by
  refine confined_name.bind fun f => (confined_token '(').bind fun _ => ?_
  have hother := confined_expressionOf (confined_deeper h 7)
  refine ((confined_expressionOf h).commaSeparated hother).bind fun args => ?_
  exact (confined_token ')').bind fun _ => confined_pure _

private theorem confined_number : (number p).Confined := by
  refine confined_numeral.bind fun text s => ?_
  cases Number.ofText? p text.toList with
  | some n => exact .matched _ (List.suffix_refl s)
  | none => exact .abandoned _

variable {below : Nat → Reader Expr}

private theorem confined_primaryOf (h : ∀ k, (below k).Confined) : (primaryOf p below).Confined :=
  ((((confined_parenthesizedOf (confined_deeper h 25)).either (confined_blockOf (confined_deeper h 45))).either
    (confined_callOf (confined_deeper h 34))).either confined_number).either
      (confined_name.bind fun _ => confined_pure _)

private theorem confined_operandOf (h : ∀ k, (below k).Confined) : (operandOf p below).Confined := by
  have hnegation : (negationOf (below 9)).Confined :=
    (confined_token '-').bind fun _ => (h 9).bind fun e => confined_pure _
  have hexponent : Confined (do token '^'; below 15) := (confined_token '^').bind fun _ => h 15
  refine (hnegation.either ?_).orExpect _
  refine (confined_primaryOf h).bind fun base => hexponent.optional.bind fun exponent => ?_
  cases exponent <;> exact confined_pure _

private theorem confined_operandWithin (n k : Nat) : (operandWithin p n k).Confined :=
  withCalls_induction (fun _ => .abandoned _) (fun _ h => confined_operandOf h) n k

theorem confined_statement (p n : Nat) : (statement p n).Confined :=
  confined_statementOf (confined_operandWithin n)

theorem confined_single (m : Machine) : (single m).Confined :=
  (confined_statement _ _).bind fun s => confined_endOfText.bind fun _ => confined_pure s

theorem confined_program (m : Machine) : (program m).Confined :=
  (confined_statement _ _).bind fun first => (confined_statement _ _).many.bind fun others =>
    confined_endOfText.bind fun _ => confined_pure (first :: others)

end Grammar

end Reckoner
