import Reckoner.Proofs.LayoutVariants
import Reckoner.Proofs.ParserCompleteness

/-! How a name is read where an expression is expected. Negations come before all other forms of an operand
and numerals before names, and both can begin with characters of names. So a name alone is read as that name
if no numeral starts it and no minus does that has more of the name behind it. In front of parentheses a name
is looked at before numerals are, and only the minus matters. -/

namespace Reckoner
open Text

/-- A name that cannot be mistaken for a negation or a numeral. -/
structure Unmistakable (name : String) : Prop where
  minus : name.toList.head? = some '-' → name = "-"
  numeral : splitNumeral? name.toList = none

namespace Reader
variable {α β γ : Type} {r : Reader α} {s t : List Char}

/-- A reader does not match a text. -/
def Refuses (r : Reader α) (s : List Char) : Prop :=
  ∃ m, r s = .mismatched m

theorem Refuses.bind {f : α → Reader β} (h : r.Refuses s) : (r >>= f).Refuses s := by
  obtain ⟨m, hm⟩ := h
  exact ⟨m, bind_of_mismatched hm⟩

theorem refuses_bind {f : α → Reader β} {a : α} (h : r s = .matched a t) (h' : (f a).Refuses t) :
    (r >>= f).Refuses s := by
  rwa [Refuses, bind_of_matched h]

private theorem Refuses.of_bind {f : α → Reader β} {a : α} (h : r s = .matched a t) (h' : (r >>= f).Refuses s) :
    (f a).Refuses t := by
  rwa [Refuses, bind_of_matched h] at h'

private theorem not_refuses_pure (a : α) : ¬Refuses (pure a : Reader α) s := by
  rintro ⟨m, ⟨⟩⟩

/-- Whether a reader refuses a text does not depend on what becomes of the value. -/
theorem Refuses.bind_mono {f : α → Reader β} {g : α → Reader γ} (h : (r >>= f).Refuses s)
    (hfg : ∀ a t, (f a).Refuses t → (g a).Refuses t) : (r >>= g).Refuses s := by
  obtain ⟨m, hm⟩ := h
  rcases bind_eq_mismatched.1 hm with hr | ⟨a, t, hr, hf⟩
  · exact ⟨m, bind_of_mismatched hr⟩
  · exact refuses_bind hr (hfg a t ⟨m, hf⟩)

theorem Refuses.either {first : Reader α} (h : first.Refuses s) (h' : r.Refuses s) :
    (either first r).Refuses s := by
  obtain ⟨m, hm⟩ := h
  obtain ⟨m', hm'⟩ := h'
  exact ⟨farther m m', by simp only [Reader.either, hm, hm']⟩

private theorem Refuses.orExpect (h : r.Refuses s) (e : Expectation) : (r.orExpect e).Refuses s := by
  obtain ⟨m, hm⟩ := h
  exact ⟨_, by rw [Reader.orExpect, hm]⟩

private theorem optional_of_refuses (h : r.Refuses s) : optional r s = .matched none s := by
  obtain ⟨m, hm⟩ := h
  rw [optional, hm]

theorem many_of_refuses (h : r.Refuses s) : many r s = .matched [] s := by
  obtain ⟨m, hm⟩ := h
  exact manyUpTo_of_mismatched hm _

theorem rest_of_optional (h : optional r s = .matched none t) : r.Refuses s ∧ t = s := by
  rw [optional] at h
  split at h
  · cases h
  · rename_i m hm
    cases h
    exact ⟨⟨m, hm⟩, rfl⟩
  · cases h

private theorem of_optional {a : α} (h : optional r s = .matched (some a) t) : r s = .matched a t := by
  rw [optional] at h
  split at h
  · cases h
    assumption
  · cases h
  · cases h

private theorem rest_of_many (h : many r s = .matched [] t) : t = s := by
  simp only [many, manyUpTo] at h
  split at h
  · obtain ⟨as, u, -, hp⟩ := bind_eq_matched.1 h
    cases hp
  · cases h
    rfl
  · cases h

theorem refuses_token {c : Char} (h : (skipLayout s).head? ≠ some c) : (token c).Refuses s := by
  rw [Refuses, token]
  cases hs : skipLayout s with
  | nil => exact ⟨_, rfl⟩
  | cons d rest =>
    rw [hs] at h
    dsimp only
    rw [if_neg fun hd => h (by rw [hd]; rfl)]
    exact ⟨_, rfl⟩

private theorem refuses_oneOf {cs : List Char} (h : ∀ c, (skipLayout s).head? = some c → c ∉ cs) :
    (oneOf cs).Refuses s := by
  rw [Refuses, oneOf]
  cases hs : skipLayout s with
  | nil => exact ⟨_, rfl⟩
  | cons d rest =>
    dsimp only
    rw [if_neg (h d (by rw [hs]; rfl))]
    exact ⟨_, rfl⟩

theorem token_opener (u : List Char) : token '(' ('(' :: u) = .matched () u :=
  rfl

theorem refuses_opened {c : Char} (h : c ≠ '(') (u : List Char) : (token c).Refuses ('(' :: u) :=
  refuses_token fun hc => h (Option.some.inj hc).symm

private theorem head?_of_token {c : Char} {u : Unit} (h : token c s = .matched u t) :
    skipLayout s = c :: t := by
  rw [token] at h
  cases hs : skipLayout s with
  | nil => rw [hs] at h; cases h
  | cons d rest =>
    rw [hs] at h
    dsimp only at h
    split at h
    · rename_i hd
      cases h
      rw [hd]
    · cases h

end Reader

open Reader

/-- A name stands in front of characters that do not belong to it. -/
structure Heads (cs u : List Char) : Prop where
  isName : IsName cs
  stops : Stops isNameChar u

namespace Heads
variable {cs u : List Char}

theorem skipLayout_eq (h : Heads cs u) : skipLayout (cs ++ u) = cs ++ u := by
  obtain ⟨c, rest, rfl, hc, -⟩ := h.isName
  exact skipLayout_cons_of_neg (not_isLayout_of_isNameChar (isName_singleton hc |>.isNameChar (by simp))) _

private theorem head? (h : Heads cs u) : (skipLayout (cs ++ u)).head? = cs.head? := by
  rw [h.skipLayout_eq]
  obtain ⟨c, rest, rfl, -⟩ := h.isName
  rfl

theorem name_eq (h : Heads cs u) : name (cs ++ u) = .matched (String.ofList cs) u := by
  simp only [name, split, h.skipLayout_eq, splitName?_append h.isName h.stops]

theorem refuses_token {c : Char} (h : Heads cs u) (hc : cs.head? ≠ some c) : (token c).Refuses (cs ++ u) :=
  Reader.refuses_token (h.head? ▸ hc)

/-- No bracket starts a name. -/
theorem refuses_mark {c : Char} (h : Heads cs u) (hc : isNameChar c = false) :
    (token c).Refuses (cs ++ u) := by
  refine h.refuses_token fun hhead => ?_
  rw [h.isName.isNameChar (List.mem_of_mem_head? hhead)] at hc
  cases hc

end Heads

namespace Grammar
variable {p n : Nat} {operand below : Nat → Reader Expr} {cs s t u : List Char}
  {e : Expr}

/-- Nothing that an expression goes on with. -/
def Ended (t : List Char) : Prop :=
  ∀ c, (skipLayout t).head? = some c → c ∉ operatorChars

theorem ended_semicolon {rest : List Char} (h : skipLayout t = ';' :: rest) : Ended t := by
  rw [Ended, h]
  rintro c ⟨⟩
  decide

private theorem chainOf_of_ended {ops : List Char} {item : Nat → Reader Expr} (hops : ∀ c, c ∈ ops → c ∈ operatorChars)
    (h : item 0 s = .matched e t) (ht : Ended t) : chainOf ops item s = .matched e t := by
  have hpair : Refuses (do return (← oneOf ops, ← item 7)) t :=
    (refuses_oneOf fun c hc hmem => ht c hc (hops c hmem)).bind
  rw [chainOf, bind_of_matched h, bind_of_matched (many_of_refuses hpair)]
  rfl

/-- Where no negation starts and nothing follows a primary form, it is a whole expression. -/
theorem expressionOf_of_primaryOf (hneg : (negationOf (operandWithin p n 9)).Refuses s)
    (h : primaryOf p (operandWithin p n) s = .matched e t) (ht : Ended t) :
    expressionOf (operandWithin p (n + 1)) s = .matched e t := by
  have hexponent : Refuses (do token '^'; operandWithin p n 15) t :=
    (refuses_token fun hc => ht '^' hc (by decide)).bind
  have hpower : powerOf p (operandWithin p n) s = .matched e t := by
    rw [powerOf, bind_of_matched h, bind_of_matched (optional_of_refuses hexponent)]
    rfl
  have hoperand : operandWithin p (n + 1) 0 s = .matched e t :=
    orExpect_eq_matched.2 (either_eq_matched.2 (.inr ⟨hneg, hpower⟩))
  exact chainOf_of_ended (forall_mem_of_all (by decide))
    (chainOf_of_ended (forall_mem_of_all (by decide)) hoperand ht) ht

private theorem of_chainOf {ops : List Char} {item : Nat → Reader Expr} (h : chainOf ops item s = .matched e t)
    (he : ∀ op lhs rhs, e ≠ .binary op lhs rhs) : item 0 s = .matched e t := by
  obtain ⟨first, v, hfirst, h⟩ := bind_eq_matched.1 h
  obtain ⟨others, w, hothers, h⟩ := bind_eq_matched.1 h
  injection h with hfold hrest
  rcases List.eq_nil_or_concat others with rfl | ⟨others, x, rfl⟩
  · rw [hfirst, show first = e from hfold, ← hrest, rest_of_many hothers]
  · rw [List.concat_eq_append, List.foldl_concat] at hfold
    exact absurd hfold.symm (he _ _ _)

/-- An expression that applies no operator is a primary form. -/
theorem primaryOf_of_expressionOf (h : expressionOf (operandWithin p (n + 1)) s = .matched e t)
    (hb : ∀ op lhs rhs, e ≠ .binary op lhs rhs) (hu : ∀ x, e ≠ .unary negation x) :
    primaryOf p (operandWithin p n) s = .matched e t := by
  have hoperand : operandOf p (operandWithin p n) s = .matched e t := of_chainOf (of_chainOf h hb) hb
  rcases either_eq_matched.1 (orExpect_eq_matched.1 hoperand) with h | ⟨-, h⟩
  · obtain ⟨_, v, -, h⟩ := bind_eq_matched.1 h
    obtain ⟨x, w, -, h⟩ := bind_eq_matched.1 h
    cases h
    exact absurd rfl (hu x)
  · obtain ⟨base, v, hbase, h⟩ := bind_eq_matched.1 h
    obtain ⟨exponent, w, hexponent, h⟩ := bind_eq_matched.1 h
    cases exponent with
    | none =>
      cases h
      rw [hbase, (rest_of_optional hexponent).2]
    | some x =>
      cases h
      exact absurd rfl (hb _ _ _)

/-- Neither parentheses nor braces start a name. -/
theorem refuses_bracketed (h : Heads cs u) (inner outer : Nat → Reader Expr) :
    (either (parenthesizedOf inner) (blockOf outer)).Refuses (cs ++ u) :=
  (h.refuses_mark (by decide)).bind.either (h.refuses_mark (by decide)).bind

/-- A clause that is an expression is neither a definition nor an assignment. -/
theorem expressionOf_of_clauseOf (h : clauseOf operand s = .matched (.expression e) t) :
    (definitionOf operand).Refuses s ∧ expressionOf operand s = .matched e t := by
  rcases either_eq_matched.1 (orExpect_eq_matched.1 h) with h | ⟨⟨m, hm⟩, h⟩
  · rcases either_eq_matched.1 h with h | ⟨-, h⟩
    · obtain ⟨_, _, -, h⟩ := bind_eq_matched.1 h
      obtain ⟨_, _, -, h⟩ := bind_eq_matched.1 h
      obtain ⟨_, _, -, h⟩ := bind_eq_matched.1 h
      obtain ⟨_, _, -, h⟩ := bind_eq_matched.1 h
      obtain ⟨_, _, -, h⟩ := bind_eq_matched.1 h
      obtain ⟨_, _, -, h⟩ := bind_eq_matched.1 h
      cases h
    · obtain ⟨_, _, -, h⟩ := bind_eq_matched.1 h
      obtain ⟨_, _, -, h⟩ := bind_eq_matched.1 h
      obtain ⟨_, _, -, h⟩ := bind_eq_matched.1 h
      cases h
  · obtain ⟨e, t, he, h⟩ := bind_eq_matched.1 h
    cases h
    exact ⟨(either_eq_mismatched hm).1, he⟩

theorem clauseOf_expression (hd : (definitionOf operand).Refuses s) (ha : (assignmentOf operand).Refuses s)
    (h : expressionOf operand s = .matched e t) : clauseOf operand s = .matched (.expression e) t :=
  orExpect_eq_matched.2 (either_eq_matched.2 (.inr ⟨hd.either ha, bind_of_matched h⟩))

private theorem primaryOf_symbol (h : Heads cs u) (hparen : (skipLayout u).head? ≠ some '(')
    (hn : splitNumeral? cs = none) : primaryOf p below (cs ++ u) = .matched (.symbol (String.ofList cs)) u := by
  have hcall : (callOf (deeper below 34)).Refuses (cs ++ u) := refuses_bind h.name_eq (refuses_token hparen).bind
  have hnumeral : numeral.Refuses (cs ++ u) := by
    simp only [Refuses, numeral, split, h.skipLayout_eq, splitNumeral?_run h.stops, hn]
    exact ⟨_, rfl⟩
  have hsymbol : symbol (cs ++ u) = .matched (.symbol (String.ofList cs)) u := bind_of_matched h.name_eq
  exact either_eq_matched.2 (.inr ⟨((refuses_bracketed h _ _).either hcall).either hnumeral.bind, hsymbol⟩)

private theorem refuses_operand_semicolon (p n : Nat) : (operandWithin p (n + 1) 0).Refuses [';'] := by
  have hrenders : Renders [';'] [.mark ';'] := (Renders.nil (List.forall_mem_nil _)).cons_mark (by decide)
  rw [operandWithin_succ]
  exact fails_operandOf (by decide) (fails_primaryOf (by rintro _ ⟨⟩; decide)) _ hrenders

/-- A minus alone is no negation, since no operand follows it. -/
theorem refuses_negationOf_name (h : Heads cs [';'])
    (hminus : cs.head? = some '-' → cs = ['-'] ∧ 10 ≤ n) :
    (negationOf (operandWithin p n 9)).Refuses (cs ++ [';']) := by
  by_cases hhead : cs.head? = some '-'
  · obtain ⟨rfl, hn⟩ := hminus hhead
    obtain ⟨k, rfl⟩ := Nat.exists_eq_add_of_le' hn
    rw [operandWithin_eq]
    exact refuses_bind (a := ()) (t := [';']) rfl (refuses_operand_semicolon p k).bind
  · exact (h.refuses_token hhead).bind

private theorem single_symbol {m : Machine} (h : IsName cs) (hroom : 0 < m.readingCalls)
    (hminus : cs.head? = some '-' → cs = ['-'] ∧ 10 < m.readingCalls) (hn : splitNumeral? cs = none) :
    single m (cs ++ [';']) = .matched (.expression (.symbol (String.ofList cs))) [] := by
  have hh : Heads cs [';'] := ⟨h, by rintro _ ⟨⟩; decide⟩
  obtain ⟨n, hcalls⟩ := Nat.exists_eq_add_one_of_ne_zero hroom.ne'
  rw [hcalls] at hminus
  have hexpression : expressionOf (operandWithin m.precision m.readingCalls) (cs ++ [';']) =
      .matched (.symbol (String.ofList cs)) [';'] := by
    rw [hcalls]
    refine expressionOf_of_primaryOf ?_ (primaryOf_symbol hh (by decide) hn)
      (ended_semicolon (rfl : skipLayout [';'] = ';' :: []))
    exact refuses_negationOf_name hh fun hhead => ⟨(hminus hhead).1, Nat.le_of_lt_succ (hminus hhead).2⟩
  have hdefinition : (definitionOf (operandWithin m.precision m.readingCalls)).Refuses (cs ++ [';']) :=
    refuses_bind hh.name_eq (refuses_token (by decide)).bind
  have hassignment : (assignmentOf (operandWithin m.precision m.readingCalls)).Refuses (cs ++ [';']) :=
    refuses_bind hh.name_eq (refuses_token (by decide)).bind
  have hstatement : statement m.precision m.readingCalls (cs ++ [';']) =
      .matched (.expression (.symbol (String.ofList cs))) [] :=
    bind_of_matched (clauseOf_expression hdefinition hassignment hexpression)
  exact bind_of_matched hstatement

/-- A call that is a primary form behind a name: the arguments up to the parenthesis. -/
theorem arguments_of_primaryOf {g : String} {es : List Expr} (h : Heads cs ('(' :: u))
    (hp : primaryOf p below (cs ++ '(' :: u) = .matched (.call g es) t) :
    ∃ v, argumentsOf (deeper below 34) u = .matched es v ∧ token ')' v = .matched () t := by
  rcases either_eq_matched.1 hp with hp | ⟨-, hp⟩
  · rcases either_eq_matched.1 hp with hp | ⟨-, hp⟩
    · rcases either_eq_matched.1 hp with hp | ⟨-, hp⟩
      · obtain ⟨m, hm⟩ := refuses_bracketed h (deeper below 25) (deeper below 45)
        rw [hm] at hp
        cases hp
      · rw [callOf, bind_of_matched h.name_eq, bind_of_matched (token_opener u)] at hp
        obtain ⟨args, v, hargs, hp⟩ := bind_eq_matched.1 hp
        obtain ⟨_, w, hclose, hp⟩ := bind_eq_matched.1 hp
        cases hp
        exact ⟨v, hargs, hclose⟩
    · obtain ⟨text, v, -, hp⟩ := bind_eq_matched.1 hp
      split at hp <;> cases hp
  · obtain ⟨name, v, -, hp⟩ := bind_eq_matched.1 hp
    cases hp

private theorem primaryOf_call {es : List Expr} {v : List Char} (h : Heads cs ('(' :: u))
    (hargs : argumentsOf (deeper below 34) u = .matched es v)
    (hclose : token ')' v = .matched () t) :
    primaryOf p below (cs ++ '(' :: u) = .matched (.call (String.ofList cs) es) t := by
  have hcall : callOf (deeper below 34) (cs ++ '(' :: u) = .matched (.call (String.ofList cs) es) t := by
    rw [callOf, bind_of_matched h.name_eq, bind_of_matched (token_opener u), bind_of_matched hargs,
      bind_of_matched hclose]
    rfl
  exact either_eq_matched.2 (.inl (either_eq_matched.2 (.inl (either_eq_matched.2
    (.inr ⟨refuses_bracketed h _ _, hcall⟩)))))

/-- What a definition goes on with behind its name and the parenthesis. -/
def definitionTail (operand : Nat → Reader Expr) (function : String) : Reader Statement := do
  let params ← commaSeparated name name
  token ')'
  token '='
  return .define function params (← expressionOf operand)

private theorem local_definitionTail {k : Nat} (h : LocalOperands p operand) (function : String) :
    (definitionTail operand function).Local (k + 1) k := by
  refine (local_name.commaSeparated local_name sound_name).bind fun params => ?_
  refine (local_closer ')' (by decide)).bind fun _ => (local_sign '=' (by decide)).bind fun _ => ?_
  exact (local_expressionOf h).bind fun e => local_pure _

private theorem refuses_definitionTail {f g : String} (h : (definitionTail operand g).Refuses u) :
    (definitionTail operand f).Refuses u := by
  refine h.bind_mono fun params t h => h.bind_mono fun _ t h => h.bind_mono fun _ t h => ?_
  exact h.bind_mono fun e t h => absurd h (not_refuses_pure _)

variable {after after' ds v : List Char} {k : Nat}

private theorem refuses_of_coupled {α : Type} {r : Reader α} {j : Nat} (hr : r.Local k j)
    (h : Coupled after after' k u v) (hu : r.Refuses u) : r.Refuses v := by
  obtain ⟨m, hm⟩ := hu
  exact (hr h).of_mismatched hm

/-- What is no definition of one function is none of another. -/
theorem refuses_definitionOf (hcs : Heads cs ('(' :: u)) (hds : Heads ds ('(' :: v))
    (huv : Coupled after after' (k + 1) u v) (h : LocalOperands p operand)
    (hu : (definitionOf operand).Refuses (cs ++ '(' :: u)) :
    (definitionOf operand).Refuses (ds ++ '(' :: v) := by
  have hrest : Refuses (do token '('; definitionTail operand (String.ofList cs)) ('(' :: u) :=
    Refuses.of_bind (f := fun function => do token '('; definitionTail operand function) hcs.name_eq hu
  have htail : (definitionTail operand (String.ofList cs)).Refuses u :=
    Refuses.of_bind (f := fun _ => definitionTail operand (String.ofList cs)) (token_opener u) hrest
  have htail' := refuses_definitionTail (f := String.ofList ds)
    (refuses_of_coupled (local_definitionTail h _) huv htail)
  exact refuses_bind hds.name_eq (refuses_bind (token_opener v) htail')

/-- No expression in parentheses is a list of arguments that are none or several. -/
theorem refuses_parenthesizedOf {es : List Expr} (h : argumentsOf operand u = .matched es t)
    (hes : es.length ≠ 1) : (parenthesizedOf operand).Refuses ('(' :: u) := by
  refine refuses_bind (token_opener u) ?_
  obtain ⟨first, v, hfirst, h⟩ := bind_eq_matched.1 h
  cases first with
  | none => exact (rest_of_optional hfirst).1.bind
  | some e =>
    obtain ⟨others, w, hothers, h⟩ := bind_eq_matched.1 h
    cases h
    refine refuses_bind (of_optional hfirst) (refuses_token fun hclose => hes ?_).bind
    have hcomma : Refuses (do token ','; expressionOf (deeper operand 7)) v :=
      (refuses_token (by rw [hclose]; decide)).bind
    rw [many_of_refuses hcomma] at hothers
    cases hothers
    rfl

/-- A minus in front of such a list is no negation. The attempt takes one call more than the list does. -/
theorem refuses_negationOf_call (es : List Expr) (hds : Heads ds ('(' :: u))
    (hminus : ds.head? = some '-' → ds = ['-'] ∧ es.length ≠ 1 ∧ 10 ≤ n ∧
      ∃ t, argumentsOf (operandWithin p (n - 35)) u = .matched es t) :
    (negationOf (operandWithin p n 9)).Refuses (ds ++ '(' :: u) := by
  by_cases hhead : ds.head? = some '-'
  · obtain ⟨rfl, hes, hn, t, h⟩ := hminus hhead
    obtain ⟨k, rfl⟩ := Nat.exists_eq_add_of_le' hn
    have hname : name.Refuses ('(' :: u) := ⟨_, rfl⟩
    have hnumeral : numeral.Refuses ('(' :: u) := by
      simp only [Refuses, numeral, split, skipLayout_cons_of_neg (show isLayout '(' = false by decide),
        splitNumeral?_eq_none (show isDigit '(' = false by decide) (by decide : '(' ∉ ['+', '-', '.'])]
      exact ⟨_, rfl⟩
    have hparenthesized : (parenthesizedOf (deeper (operandWithin p k) 25)).Refuses ('(' :: u) := by
      rw [deeper_operandWithin]
      exact refuses_parenthesizedOf h hes
    have hprimary : (primaryOf p (operandWithin p k)).Refuses ('(' :: u) :=
      (((hparenthesized.either (refuses_opened (by decide) u).bind).either hname.bind).either
        hnumeral.bind).either hname.bind
    have hoperand : (operandWithin p (k + 1) 0).Refuses ('(' :: u) :=
      ((refuses_opened (by decide) u).bind.either hprimary.bind).orExpect _
    rw [operandWithin_eq]
    exact refuses_bind (a := ()) (t := '(' :: u) rfl hoperand.bind
  · exact (hds.refuses_token hhead).bind

/-- A statement that is a call behind a name: no definition, but arguments up to the parenthesis, and a semicolon. -/
theorem arguments_of_statement {g : String} {es : List Expr} {N : Nat} (hcs : Heads cs ('(' :: u))
    (h : statement p N (cs ++ '(' :: u) = .matched (.expression (.call g es)) t) :
    ∃ n v w, N = n + 1 ∧ (definitionOf (operandWithin p N)).Refuses (cs ++ '(' :: u) ∧
      argumentsOf (operandWithin p (n - 34)) u = .matched es v ∧ token ')' v = .matched () w ∧
        token ';' w = .matched () t := by
  obtain ⟨n, rfl⟩ := Nat.exists_eq_add_one_of_ne_zero (pos_of_statement h).ne'
  obtain ⟨clause, w, hclause, h⟩ := bind_eq_matched.1 h
  obtain ⟨_, t', hsemicolon, h⟩ := bind_eq_matched.1 h
  cases h
  obtain ⟨hdefinition, hexpression⟩ := expressionOf_of_clauseOf hclause
  obtain ⟨v, hargs, hclose⟩ := arguments_of_primaryOf hcs (primaryOf_of_expressionOf hexpression nofun nofun)
  rw [deeper_operandWithin] at hargs
  exact ⟨n, v, w, rfl, hdefinition, hargs, hclose, hsemicolon⟩

private theorem pos_of_argumentsOf {es : List Expr} (h : argumentsOf (operandWithin p n) s = .matched es t) :
    0 < n := by
  refine Nat.pos_of_ne_zero ?_
  rintro rfl
  obtain ⟨first, v, hfirst, -⟩ := bind_eq_matched.1 h
  simp only [Reader.optional, expressionOf_operandWithin_zero] at hfirst
  cases hfirst

/-- Arguments are read alike where two texts are coupled. -/
theorem local_argumentsOf {k : Nat} (h : LocalOperands p operand) : (argumentsOf operand).Local (k + 1) (k + 1) :=
  (local_expressionOf h).commaSeparated (local_expressionOf (h.deeper 7)) (sound_expressionOf (h.deeper 7).sound)

/-- What is a call behind one name is a call with the same arguments behind another, but for a name that
starts with a minus. Behind a minus it takes a call more. -/
theorem single_call {m : Machine} {g : String} {es : List Expr} {rest : List Char} (hcs : Heads cs ('(' :: u))
    (hds : Heads ds ('(' :: v)) (huv : Coupled [] [] (k + 2) u v)
    (hminus : ds.head? = some '-' → ds = ['-'] ∧ es.length ≠ 1 ∧
      ∃ rest, single (m.sparing 1) (cs ++ '(' :: u) = .matched (.expression (.call g es)) rest)
    (h : single m (cs ++ '(' :: u) = .matched (.expression (.call g es)) rest) :
    ∃ rest', single m (ds ++ '(' :: v) = .matched (.expression (.call (String.ofList ds) es)) rest' := by
  obtain ⟨clause, t, hstatement, h⟩ := bind_eq_matched.1 h
  obtain ⟨_, w, hend, h⟩ := bind_eq_matched.1 h
  cases h
  obtain ⟨n, x, y, hcalls, hdefinition, hargs, hclose, hsemicolon⟩ := arguments_of_statement hcs hstatement
  have hoperands := localOperands_operandWithin m.precision
  -- Behind the parenthesis both texts are read alike.
  obtain ⟨x', hargs', hx⟩ := (local_argumentsOf (hoperands (n - 34)) huv).of_matched hargs
  obtain ⟨y', hclose', hy⟩ := (local_closer ')' (by decide) hx).of_matched hclose
  obtain ⟨t', hsemicolon', ht⟩ := (local_semicolon hy).of_matched hsemicolon
  obtain ⟨rest', hend', -⟩ := (local_endOfText ht).of_matched hend
  have hnegation : (negationOf (operandWithin m.precision n 9)).Refuses (ds ++ '(' :: v) := by
    refine refuses_negationOf_call es hds fun hhead => ?_
    obtain ⟨hds, hes, rest, hspare⟩ := hminus hhead
    obtain ⟨clause, z, hspare, hp⟩ := bind_eq_matched.1 hspare
    obtain ⟨_, z', -, hp⟩ := bind_eq_matched.1 hp
    cases hp
    obtain ⟨n', q, -, hcalls', -, hread, -⟩ := arguments_of_statement hcs hspare
    have hpos := pos_of_argumentsOf hread
    rw [Machine.readingCalls] at hcalls
    rw [Machine.readingCalls, Machine.sparing] at hcalls'
    obtain rfl : n = n' + 1 := by dsimp only at hcalls'; omega
    obtain ⟨q', hread', -⟩ := (local_argumentsOf (hoperands (n' - 34)) huv).of_matched hread
    exact ⟨hds, hes, by omega, q', hread'⟩
  have hprimary : primaryOf m.precision (operandWithin m.precision n) (ds ++ '(' :: v) =
      .matched (.call (String.ofList ds) es) y' :=
    primaryOf_call hds ((deeper_operandWithin m.precision n 34).symm ▸ hargs') hclose'
  have hexpression' : expressionOf (operandWithin m.precision m.readingCalls) (ds ++ '(' :: v) =
      .matched (.call (String.ofList ds) es) y' := by
    rw [hcalls]
    exact expressionOf_of_primaryOf hnegation hprimary (ended_semicolon (head?_of_token hsemicolon'))
  have hdefinition' : (definitionOf (operandWithin m.precision m.readingCalls)).Refuses (ds ++ '(' :: v) :=
    refuses_definitionOf hcs hds huv (hoperands m.readingCalls) hdefinition
  have hassignment' : (assignmentOf (operandWithin m.precision m.readingCalls)).Refuses (ds ++ '(' :: v) :=
    refuses_bind hds.name_eq (refuses_opened (by decide) v).bind
  have hstatement' : statement m.precision m.readingCalls (ds ++ '(' :: v) =
      .matched (.expression (.call (String.ofList ds) es)) t' :=
    (bind_of_matched (clauseOf_expression hdefinition' hassignment' hexpression')).trans
      (bind_of_matched hsemicolon')
  exact ⟨rest', (bind_of_matched hstatement').trans (bind_of_matched hend')⟩

end Grammar

/-- Tabs do not stand in names, so nothing in front of a name's end is widened. -/
theorem exists_expandTabs_name {name : String} (h : IsName name.toList) (rest : String) :
    ∃ column, expandTabs (name ++ rest).toList = name.toList ++ expandTabsFrom column rest.toList := by
  rw [String.toList_append]
  exact exists_expandTabsFrom_append (fun c hc => not_isLayout_of_isNameChar (h.isNameChar hc)) 0 _

/-- A name alone is read as that name, unless it can be mistaken. -/
theorem parseStatement_name {name : String} (h : IsName name.toList) (hu : Unmistakable name) {m : Machine}
    (hroom : 0 < m.readingCalls) (hminus : name = "-" → 10 < m.readingCalls) :
    parseStatement m (name ++ ";") = .ok (.expression (.symbol name)) := by
  obtain ⟨column, hwide⟩ := exists_expandTabs_name h ";"
  have hsingle := Grammar.single_symbol h hroom
    (fun hhead => ⟨by rw [hu.minus hhead]; rfl, hminus (hu.minus hhead)⟩) hu.numeral
  rw [String.ofList_toList] at hsingle
  exact parseWith_eq_ok.2 ⟨[], hwide ▸ hsingle⟩

private theorem Relaid.refl (s : List Char) : Relaid s s := by
  induction s with
  | nil => exact .ended (List.forall_mem_nil _) (List.forall_mem_nil _)
  | cons c s ih =>
    cases hc : isLayout c with
    | false => exact .cons hc ih
    | true =>
      have hl : ∀ d, d ∈ [c] → isLayout d = true := List.forall_mem_singleton.2 hc
      show Relaid ([c] ++ s) ([c] ++ s)
      exact .layout (List.cons_ne_nil c []) (List.cons_ne_nil c []) hl hl ih

/-- Whatever is written in parentheses behind some name and makes a call of it makes a call behind any name,
but for a minus with one argument and for longer names that start with a minus. Behind a minus there has to be
a call to spare. -/
theorem parseStatement_call {m : Machine} {f g args : String} {es : List Expr} (hf : IsName f.toList)
    (hminus : f.toList.head? = some '-' → f = "-" ∧ es.length ≠ 1 ∧
      parseStatement (m.sparing 1) (g ++ "(" ++ args ++ ");") = .ok (.expression (.call g es)))
    (h : parseStatement m (g ++ "(" ++ args ++ ");") = .ok (.expression (.call g es))) :
    parseStatement m (f ++ "(" ++ args ++ ");") = .ok (.expression (.call f es)) := by
  have hg : IsName g.toList := by
    have hregular := regular_of_parseStatement h
    cases hregular with
    | expression h =>
      cases h with
      | call hn => exact hn
  have hwide {name : String} (hn : IsName name.toList) : ∃ column,
      expandTabs (name ++ "(" ++ args ++ ");").toList =
        name.toList ++ '(' :: expandTabsFrom column (args ++ ");").toList := by
    obtain ⟨start, hs⟩ := exists_expandTabs_name hn ("(" ++ (args ++ ");"))
    obtain ⟨column, hc⟩ := exists_expandTabsFrom_cons start (by decide : '(' ≠ '\t') (args ++ ");").toList
    refine ⟨column, ?_⟩
    rw [String.append_assoc, String.append_assoc, hs, String.toList_append, ← hc]
    rfl
  have hheads {name : String} (hn : IsName name.toList) (u : List Char) : Heads name.toList ('(' :: u) :=
    ⟨hn, by rintro _ ⟨⟩; decide⟩
  obtain ⟨a, ha⟩ := hwide hg
  obtain ⟨b, hb⟩ := hwide hf
  have hcoupled : Coupled [] [] ((args ++ ");").toList.countP isCloser + 2)
      (expandTabsFrom a (args ++ ");").toList) (expandTabsFrom b (args ++ ");").toList) :=
    (Relaid.refl _).coupled (by omega) a b
  obtain ⟨rest, hsingle⟩ := parseWith_eq_ok.1 h
  have hspare (hhead : f.toList.head? = some '-') : f.toList = ['-'] ∧ es.length ≠ 1 ∧
      ∃ rest, Grammar.single (m.sparing 1) (g.toList ++ '(' :: expandTabsFrom a (args ++ ");").toList) =
        .matched (.expression (.call g es)) rest := by
    obtain ⟨rfl, hes, hparse⟩ := hminus hhead
    exact ⟨rfl, hes, ha ▸ parseWith_eq_ok.1 hparse⟩
  obtain ⟨rest', hsingle'⟩ := Grammar.single_call (hheads hg _) (hheads hf _) hcoupled hspare (ha ▸ hsingle)
  rw [String.ofList_toList] at hsingle'
  exact parseWith_eq_ok.2 ⟨rest', hb ▸ hsingle'⟩

end Reckoner
