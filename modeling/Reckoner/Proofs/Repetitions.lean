import Reckoner.Proofs.Readings

/-! Repetitions on rendered texts: items in a row, lists with commas and chains with operators, read to
their end since no other item can follow. An item behind another takes some calls more than the first. -/

namespace Reckoner
open Text

/-- The operators with which a text may go on behind an expression. -/
def Level.followers : Level → List Char
  | sum => []
  | product => ['+', '-']
  | power => ['+', '-', '*', '/']
  | primary => ['+', '-', '*', '/', '^']

def closerChars : List Char :=
  [')', '\x7d', ',', ';']

/-- Tokens that may stand behind an expression. -/
inductive Follows (level : Level) : List Token → Prop where
  | closer {c : Char} (hc : c ∈ closerChars) (us : List Token) : Follows level (.mark c :: us)
  | operator {op : Char} (hop : op ∈ level.followers) (us : List Token) :
    Follows level (.operator op :: us)

section Follows
variable {level level' : Level} {us : List Token}

theorem Follows.mono (h : Follows level us) (hsub : ∀ c, c ∈ level.followers → c ∈ level'.followers) :
    Follows level' us := by
  cases h with
  | closer hc => exact .closer hc _
  | operator hop => exact .operator (hsub _ hop) _

theorem Follows.parted (h : Follows level us) : Parted us := by
  cases h with
  | closer hc =>
    refine parted_of_lead ?_
    rintro _ ⟨⟩
    exact forall_mem_of_all (P := fun c => isNameChar c = false) (by decide) _ hc
  | operator => exact parted_operator _ _

private theorem Follows.lead (h : Follows level us) {c : Char} (hc : Reckoner.lead us = some c) :
    c ∈ closerChars ∨ c ∈ level.followers := by
  cases h with
  | closer h =>
    cases hc
    exact .inl h
  | operator h =>
    cases hc
    exact .inr h

theorem Follows.lead_ne (h : Follows level us) {c : Char} (hc : c ∉ closerChars)
    (hc' : c ∉ level.followers) : Reckoner.lead us ≠ some c := by
  intro hl
  rcases h.lead hl with h | h
  · exact hc h
  · exact hc' h

end Follows

namespace Reader
variable {α : Type} {r : Reader α} {ts us : List Token}

/-- Values one after another, with the calls of the one that takes most. -/
inductive Row {α : Type} (R : Nat → List Token → α → Prop) : Nat → List Token → List α → Prop where
  | nil : Row R 0 [] []
  | cons {d d' : Nat} {ts us : List Token} {a : α} {as : List α} (h : R d ts a)
    (h' : Row R d' us as) : Row R (max d d') (ts ++ us) (a :: as)

section Repetition
variable {R : Nat → List Token → α → Prop} {F : List Token → Prop} {d n : Nat} {as : List α}

private theorem Row.length_le (hne : ∀ d ts a, R d ts a → ts ≠ []) (h : Row R d ts as) :
    as.length ≤ ts.length := by
  induction h with
  | nil => exact Nat.le_refl _
  | cons h _ ih =>
    have := List.length_pos_iff.2 (hne _ _ _ h)
    simp only [List.length_cons, List.length_append]
    omega

/-- A row is read by its reader as long as every value is followed by what may follow a value. -/
theorem Row.reads_manyUpTo (hread : ∀ d ts a vs, R d ts a → F vs → r.Reads (d ≤ n) ts vs a)
    (hnext : ∀ d ts a vs, R d ts a → F (ts ++ vs)) (hus : F us) (hfail : r.Fails us)
    (h : Row R d ts as) {k : Nat} (hk : as.length ≤ k) :
    (manyUpTo r k).Reads (d ≤ n) ts us as := by
  induction h generalizing k with
  | nil =>
    intro s hs
    refine ⟨fun _ => ⟨s, ?_, hs⟩, fun hn => absurd (Nat.zero_le n) hn⟩
    cases k with
    | zero => rfl
    | succ k =>
      obtain ⟨m, hm⟩ := hfail s hs
      simp only [manyUpTo, hm]
  | @cons d d' ts vs a as h h' ih =>
    cases k with
    | zero => exact absurd hk (Nat.not_succ_le_zero _)
    | succ k =>
      have hF : F (vs ++ us) := by
        cases h' with
        | nil => exact hus
        | cons h _ =>
          rw [List.append_assoc]
          exact hnext _ _ _ _ h
      have hmany := (ih (Nat.le_of_succ_le_succ hk)).map (a :: ·)
      intro s hs
      rw [List.append_assoc] at hs
      obtain ⟨hfit, hdeep⟩ := hread d ts a _ h hF s hs
      simp only [manyUpTo]
      by_cases hd : d ≤ n
      · obtain ⟨t, hr, ht⟩ := hfit hd
        obtain ⟨hfit', hdeep'⟩ := hmany t ht
        rw [hr]
        exact ⟨fun hn => hfit' (by omega), fun hn => hdeep' (by omega)⟩
      · rw [hdeep hd]
        exact ⟨fun hn => absurd hn (by omega), fun _ => rfl⟩

theorem Row.reads_many (hread : ∀ d ts a vs, R d ts a → F vs → r.Reads (d ≤ n) ts vs a)
    (hnext : ∀ d ts a vs, R d ts a → F (ts ++ vs)) (hne : ∀ d ts a, R d ts a → ts ≠ [])
    (hus : F us) (hfail : r.Fails us) (h : Row R d ts as) : (many r).Reads (d ≤ n) ts us as := by
  intro s hs
  refine h.reads_manyUpTo hread hnext hus hfail ?_ s hs
  have := h.length_le hne
  have := hs.length_le
  rw [List.length_append] at this
  omega

end Repetition

end Reader

namespace Grammar
open Reader

variable {n d : Nat} {ts us : List Token}

section Row
variable {α : Type} {I : Nat → List Token → α → Prop} {ops : List Char} {calls : Nat}

theorem row_snoc {R : Nat → List Token → α → Prop} {as : List α} {d' : Nat} {a : α}
    (h : Row R d ts as) (ha : R d' us a) : Row R (max d d') (ts ++ us) (as ++ [a]) := by
  induction h with
  | nil =>
    have := Row.cons ha .nil
    rwa [Nat.max_comm, List.append_nil] at this
  | cons h _ ih =>
    rw [Nat.max_assoc, List.append_assoc]
    exact .cons h ih

/-- An item behind an operator, so many calls further down. -/
def Joined (ops : List Char) (calls : Nat) (I : Nat → List Token → α → Prop) (d : Nat) (ts : List Token)
    (x : Char × α) : Prop :=
  x.1 ∈ ops ∧ ∃ d' us, d = d' + calls ∧ ts = .operator x.1 :: us ∧ I d' us x.2

/-- An item behind a comma, so many calls further down. -/
def Separated (calls : Nat) (I : Nat → List Token → α → Prop) (d : Nat) (ts : List Token) (a : α) : Prop :=
  ∃ d' us, d = d' + calls ∧ ts = .mark ',' :: us ∧ I d' us a

/-- Items with commas between them, at least one. -/
def Listed (calls : Nat) (I : Nat → List Token → α → Prop) (d : Nat) (ts : List Token) (as : List α) : Prop :=
  ∃ d₁ d₂ us vs first others, I d₁ us first ∧ Row (Separated calls I) d₂ vs others ∧
    d = max d₁ d₂ ∧ ts = us ++ vs ∧ as = first :: others

theorem listed_of_item {a : α} (h : I d ts a) : Listed calls I d ts [a] :=
  ⟨d, 0, ts, [], a, [], h, .nil, (Nat.max_zero d).symm, (List.append_nil ts).symm, rfl⟩

theorem listed_snoc {d' : Nat} {a : α} {as : List α} (h : Listed calls I d ts as) (ha : I d' us a) :
    Listed calls I (max d (d' + calls)) (ts ++ .mark ',' :: us) (as ++ [a]) := by
  obtain ⟨d₁, d₂, vs, ws, first, others, hfirst, hothers, rfl, rfl, rfl⟩ := h
  have hrow := row_snoc hothers (a := a) ⟨d', us, rfl, rfl, ha⟩
  exact ⟨d₁, _, vs, _, first, _, hfirst, hrow, Nat.max_assoc .., List.append_assoc .., rfl⟩

theorem Listed.one_le {as : List α} (hI : ∀ d ts a, I d ts a → 1 ≤ d) (h : Listed calls I d ts as) : 1 ≤ d := by
  obtain ⟨d₁, d₂, vs, ws, first, others, hfirst, -, rfl, -, -⟩ := h
  exact Nat.le_trans (hI _ _ _ hfirst) (Nat.le_max_left d₁ d₂)

/-- A comma or the closing parenthesis of a list. -/
def EndsItem (us : List Token) : Prop :=
  ∃ c vs, c ∈ [',', ')'] ∧ us = .mark c :: vs

theorem EndsItem.follows {level : Level} (h : EndsItem us) : Follows level us := by
  obtain ⟨c, vs, hc, rfl⟩ := h
  exact .closer (forall_mem_of_all (P := (· ∈ closerChars)) (by decide) c hc) vs

theorem reads_commaSeparated {first other : Reader α} {as : List α}
    (hfirst : ∀ d ts a us, I d ts a → EndsItem us → first.Reads (d ≤ n) ts us a)
    (hother : ∀ d ts a us, I d ts a → EndsItem us → other.Reads (d + calls ≤ n) ts us a)
    (h : Listed calls I d ts as) :
    (commaSeparated first other).Reads (d ≤ n) ts (.mark ')' :: us) as := by
  obtain ⟨d₁, d₂, vs, ws, a, others, ha, hothers, rfl, rfl, rfl⟩ := h
  have hend : EndsItem (.mark ')' :: us) := ⟨')', us, by simp, rfl⟩
  have hnext : EndsItem (ws ++ .mark ')' :: us) := by
    cases hothers with
    | nil => exact hend
    | cons h _ =>
      obtain ⟨-, xs, -, rfl, -⟩ := h
      exact ⟨',', _, by simp, rfl⟩
  have hmany : (many (do token ','; other)).Reads (d₂ ≤ n) ws (.mark ')' :: us) others := by
    refine hothers.reads_many (F := EndsItem) ?_ ?_ ?_ hend (fails_token (by simp [lead, Token.chars])).bind
    · rintro _ _ b vs ⟨d, us, rfl, rfl, hb⟩ hvs
      exact (reads_mark ',' _).cons (hother d us b vs hb hvs)
    · rintro _ _ b vs ⟨d, us, rfl, rfl, hb⟩
      exact ⟨',', _, by simp, rfl⟩
    · rintro _ _ b ⟨d, us, rfl, rfl, -⟩
      exact List.cons_ne_nil _ _
  have hrest := hmany.map (a :: ·)
  exact ((hfirst _ _ _ _ ha hnext).optional.bind hrest).congr Nat.max_le.symm

theorem reads_commaSeparated_nil {first other : Reader α} (h : first.Fails (.mark ')' :: us)) :
    (commaSeparated first other).Reads True [] (.mark ')' :: us) [] :=
  (h.optional.bind_nil (reads_pure [] _)).congr (and_iff_left trivial)

end Row

section Chain
variable {I : Nat → List Token → Expr → Prop} {ops : List Char} {e : Expr}

/-- The value of a chain of items, nested to the left. -/
def joinLeft (first : Expr) (others : List (Char × Expr)) : Expr :=
  others.foldl (fun e (op, x) => .binary op.toString e x) first

/-- Items with operators between them, at least one. -/
def Chained (ops : List Char) (I : Nat → List Token → Expr → Prop) (d : Nat) (ts : List Token)
    (e : Expr) : Prop :=
  ∃ d₁ d₂ us vs first others, I d₁ us first ∧ Row (Joined ops 7 I) d₂ vs others ∧
    d = max d₁ d₂ ∧ ts = us ++ vs ∧ e = joinLeft first others

theorem chained_of_item (h : I d ts e) : Chained ops I d ts e :=
  ⟨d, 0, ts, [], e, [], h, .nil, (Nat.max_zero d).symm, (List.append_nil ts).symm, rfl⟩

theorem chained_snoc {d' : Nat} {op : Char} {rhs : Expr} (h : Chained ops I d ts e) (hop : op ∈ ops)
    (hrhs : I d' us rhs) :
    Chained ops I (max d (d' + 7)) (ts ++ .operator op :: us) (.binary op.toString e rhs) := by
  obtain ⟨d₁, d₂, vs, ws, first, others, hfirst, hothers, rfl, rfl, rfl⟩ := h
  have hrow := row_snoc hothers (a := (op, rhs)) ⟨hop, d', us, rfl, rfl, hrhs⟩
  refine ⟨d₁, _, vs, _, first, _, hfirst, hrow, Nat.max_assoc .., List.append_assoc .., ?_⟩
  simp only [joinLeft, List.foldl_append, List.foldl_cons, List.foldl_nil]

theorem Chained.one_le (hI : ∀ d ts e, I d ts e → 1 ≤ d) (h : Chained ops I d ts e) : 1 ≤ d := by
  obtain ⟨d₁, d₂, vs, ws, first, others, hfirst, -, rfl, -, -⟩ := h
  exact Nat.le_trans (hI _ _ _ hfirst) (Nat.le_max_left d₁ d₂)

theorem reads_chainOf {item : Nat → Reader Expr} (level below : Level)
    (hitem : ∀ k d ts e us, I d ts e → Follows below us → (item k).Reads (d + k ≤ n) ts us e)
    (hops : ∀ c, c ∈ ops → c ∈ below.followers)
    (hsub : ∀ c, c ∈ level.followers → c ∈ below.followers)
    (hend : ∀ c, c ∈ ops → c ∉ closerChars ∧ c ∉ level.followers)
    (h : Chained ops I d ts e) (hus : Follows level us) : (chainOf ops item).Reads (d ≤ n) ts us e := by
  obtain ⟨d₁, d₂, vs, ws, first, others, hfirst, hothers, rfl, rfl, rfl⟩ := h
  have hnext : Follows below (ws ++ us) := by
    cases hothers with
    | nil => exact hus.mono hsub
    | cons h _ =>
      obtain ⟨hop, -, xs, -, rfl, -⟩ := h
      exact .operator (hops _ hop) _
  have hmany : (many (do return (← oneOf ops, ← item 7))).Reads (d₂ ≤ n) ws us others := by
    refine hothers.reads_many (F := Follows below) ?_ ?_ ?_ (hus.mono hsub) ?_
    · rintro _ _ ⟨op, e⟩ vs ⟨hop, d, us, rfl, rfl, he⟩ hvs
      exact (reads_oneOf hop _).cons ((hitem 7 d us e vs he hvs).map fun e => (op, e))
    · rintro _ _ ⟨op, e⟩ vs ⟨hop, d, us, rfl, rfl, -⟩
      exact .operator (hops _ hop) _
    · rintro _ _ ⟨op, e⟩ ⟨-, d, us, rfl, rfl, -⟩
      exact List.cons_ne_nil _ _
    · refine (fails_oneOf fun c hc hmem => ?_).bind
      exact hus.lead_ne (hend c hmem).1 (hend c hmem).2 hc
  exact ((hitem 0 _ _ _ _ hfirst hnext).bind (hmany.map (joinLeft first))).congr Nat.max_le.symm

end Chain

end Grammar

end Reckoner
