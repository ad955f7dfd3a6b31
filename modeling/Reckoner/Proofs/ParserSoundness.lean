import Reckoner.Proofs.Derivation
import Reckoner.Syntax.Grammar

/-! Soundness of the readers: what a reader has matched consists of tokens that derive its value. -/

namespace Reckoner
open Text

/-- Whatever a reader matches consists of tokens that stand for its value. -/
def Reader.Sound {α : Type} (r : Reader α) (P : List Token → α → Prop) : Prop :=
  ∀ s a rest, r s = .matched a rest → ∃ ts, P ts a ∧ Covers s ts rest

/-- Tokens that stand for values one after another. -/
inductive Each {α : Type} (P : List Token → α → Prop) : List Token → List α → Prop where
  | nil : Each P [] []
  | cons {ts us : List Token} {a : α} {as : List α} (h : P ts a) (h' : Each P us as) :
    Each P (ts ++ us) (a :: as)

namespace Reader
variable {α β : Type} {r : Reader α} {P Q : List Token → α → Prop}

section Bind
variable {f : α → Reader β} {s rest : List Char} {a : α} {b : β} {m : Mismatch}

theorem bind_of_matched (h : r s = .matched a rest) : (r >>= f) s = f a rest := by
  simp only [bind, h]

theorem bind_of_mismatched (h : r s = .mismatched m) : (r >>= f) s = .mismatched m := by
  simp only [bind, h]

theorem bind_of_abandoned {c : Abandonment} (h : r s = .abandoned c) : (r >>= f) s = .abandoned c := by
  simp only [bind, h]

theorem bind_eq_matched :
    (r >>= f) s = .matched b rest ↔ ∃ a t, r s = .matched a t ∧ f a t = .matched b rest := by
  constructor
  · intro h
    cases hr : r s with
    | matched a t => exact ⟨a, t, rfl, by rwa [bind_of_matched hr] at h⟩
    | mismatched m => rw [bind_of_mismatched hr] at h; cases h
    | abandoned c => rw [bind_of_abandoned hr] at h; cases h
  · rintro ⟨a, t, hr, h⟩
    rwa [bind_of_matched hr]

theorem bind_eq_mismatched :
    (r >>= f) s = .mismatched m ↔
      r s = .mismatched m ∨ ∃ a t, r s = .matched a t ∧ f a t = .mismatched m := by
  constructor
  · intro h
    cases hr : r s with
    | matched a t => exact .inr ⟨a, t, rfl, by rwa [bind_of_matched hr] at h⟩
    | mismatched m' => rw [bind_of_mismatched hr] at h; cases h; exact .inl rfl
    | abandoned c => rw [bind_of_abandoned hr] at h; cases h
  · rintro (hr | ⟨a, t, hr, h⟩)
    · exact bind_of_mismatched hr
    · rwa [bind_of_matched hr]

theorem bind_eq_abandoned {c : Abandonment} :
    (r >>= f) s = .abandoned c ↔
      r s = .abandoned c ∨ ∃ a t, r s = .matched a t ∧ f a t = .abandoned c := by
  constructor
  · intro h
    cases hr : r s with
    | matched a t => exact .inr ⟨a, t, rfl, by rwa [bind_of_matched hr] at h⟩
    | mismatched m => rw [bind_of_mismatched hr] at h; cases h
    | abandoned c' => rw [bind_of_abandoned hr] at h; cases h; exact .inl rfl
  · rintro (hr | ⟨a, t, hr, h⟩)
    · exact bind_of_abandoned hr
    · rwa [bind_of_matched hr]

end Bind

theorem either_eq_matched {first second : Reader α} {s rest : List Char} {a : α} :
    either first second s = .matched a rest ↔ first s = .matched a rest ∨
      (∃ m, first s = .mismatched m) ∧ second s = .matched a rest := by
  rw [either]
  cases first s with
  | matched b t => simp
  | abandoned b => simp
  | mismatched m => cases second s <;> simp

theorem orExpect_eq_matched {e : Expectation} {s rest : List Char} {a : α} :
    r.orExpect e s = .matched a rest ↔ r s = .matched a rest := by
  rw [orExpect]
  cases r s <;> simp

theorem either_eq_mismatched {first second : Reader α} {s : List Char} {m : Mismatch}
    (h : either first second s = .mismatched m) :
    (∃ m, first s = .mismatched m) ∧ ∃ m, second s = .mismatched m := by
  rw [either] at h
  cases hf : first s with
  | matched b t => simp [hf] at h
  | abandoned b => simp [hf] at h
  | mismatched m' =>
    refine ⟨⟨m', rfl⟩, ?_⟩
    cases hs : second s with
    | matched b t => simp [hf, hs] at h
    | abandoned b => simp [hf, hs] at h
    | mismatched m => exact ⟨m, rfl⟩

private theorem orExpect_eq_mismatched {e : Expectation} {s : List Char} {m : Mismatch}
    (h : r.orExpect e s = .mismatched m) : ∃ m, r s = .mismatched m := by
  rw [orExpect] at h
  cases hr : r s with
  | matched b t => simp [hr] at h
  | abandoned b => simp [hr] at h
  | mismatched m => exact ⟨m, rfl⟩

theorem token_ne_abandoned (c : Char) (s : List Char) (a : Abandonment) : token c s ≠ .abandoned a := by
  rw [token]
  split
  · nofun
  · split <;> nofun

private theorem optional_ne_mismatched (s : List Char) (m : Mismatch) : optional r s ≠ .mismatched m := by
  rw [optional]
  cases r s <;> simp

theorem Sound.mono (h : r.Sound P) (hpq : ∀ ts a, P ts a → Q ts a) : r.Sound Q := by
  intro s a rest hr
  obtain ⟨ts, hp, hc⟩ := h s a rest hr
  exact ⟨ts, hpq ts a hp, hc⟩

theorem sound_pure (a : α) : Sound (pure a : Reader α) fun ts b => ts = [] ∧ b = a := by
  rintro s b rest ⟨⟩
  exact ⟨[], ⟨rfl, rfl⟩, .nil s⟩

theorem Sound.bind {f : α → Reader β} {R : List Token → β → Prop} (hr : r.Sound P)
    (hf : ∀ a ts, P ts a → (f a).Sound fun us b => R (ts ++ us) b) : Sound (r >>= f) R := by
  intro s b rest h
  obtain ⟨a, t, ha, hb⟩ := bind_eq_matched.1 h
  obtain ⟨ts, hp, hc⟩ := hr s a t ha
  obtain ⟨us, hq, hc'⟩ := hf a ts hp t b rest hb
  exact ⟨ts ++ us, hq, hc.trans hc'⟩

theorem Sound.either {first second : Reader α} (h : first.Sound P) (h' : second.Sound P) :
    (either first second).Sound P := by
  intro s a rest hr
  rcases either_eq_matched.1 hr with hr | ⟨-, hr⟩
  · exact h s a rest hr
  · exact h' s a rest hr

theorem Sound.orExpect (h : r.Sound P) (e : Expectation) : (r.orExpect e).Sound P :=
  fun s a rest hr => h s a rest (orExpect_eq_matched.1 hr)

private theorem Sound.manyUpTo (h : r.Sound P) (n : Nat) : (manyUpTo r n).Sound (Each P) := by
  induction n with
  | zero =>
    rintro s as rest ⟨⟩
    exact ⟨[], .nil, .nil s⟩
  | succ n ih =>
    intro s as rest hr
    simp only [Reader.manyUpTo] at hr
    split at hr
    · rename_i a t ha
      obtain ⟨bs, u, hb, hp⟩ := bind_eq_matched.1 hr
      cases hp
      obtain ⟨ts, hts, hc⟩ := h s a t ha
      obtain ⟨us, hus, hc'⟩ := ih t bs rest hb
      exact ⟨ts ++ us, .cons hts hus, hc.trans hc'⟩
    · cases hr
      exact ⟨[], .nil, .nil s⟩
    · cases hr

theorem Sound.many (h : r.Sound P) : (many r).Sound (Each P) :=
  fun s as rest hr => h.manyUpTo (s.length + 1) s as rest hr

theorem Sound.optional (h : r.Sound P) :
    (optional r).Sound fun ts a => a.elim (ts = []) (P ts) := by
  intro s a rest hr
  rw [Reader.optional] at hr
  split at hr
  · rename_i b t hb
    cases hr
    exact h s b rest hb
  · cases hr
    exact ⟨[], rfl, .nil s⟩
  · cases hr

private theorem skipLayout_eq (s : List Char) :
    ∃ layout, s = layout ++ skipLayout s ∧ ∀ c, c ∈ layout → isLayout c = true :=
  ⟨s.takeWhile isLayout, List.takeWhile_append_dropWhile.symm,
    fun c hc => List.all_eq_true.1 List.all_takeWhile c hc⟩

/-- A single token behind layout. -/
theorem covers_token {s rest : List Char} {t : Token} (hs : skipLayout s = t.chars ++ rest)
    (ht : t.Fits rest) : Covers s [t] rest := by
  obtain ⟨layout, he, hl⟩ := skipLayout_eq s
  rw [he, hs]
  exact .cons hl ht (.nil rest)

theorem sound_token {c : Char} {t : Token} (hc : t.chars = [c]) (ht : ∀ rest, t.Fits rest) :
    (token c).Sound fun ts _ => ts = [t] := by
  intro s a rest hr
  rw [token] at hr
  split at hr
  · cases hr
  · rename_i d after hd
    split at hr
    · rename_i hdc
      cases hr
      exact ⟨[t], rfl, covers_token (by rw [hd, hc, hdc]; rfl) (ht _)⟩
    · cases hr

private theorem sound_oneOf {cs : List Char} (hcs : ∀ c, c ∈ cs → c ∈ operatorChars) :
    (oneOf cs).Sound fun ts c => c ∈ cs ∧ ts = [.operator c] := by
  intro s a rest hr
  rw [oneOf] at hr
  split at hr
  · cases hr
  · rename_i d after hd
    split at hr
    · rename_i hm
      cases hr
      exact ⟨_, ⟨hm, rfl⟩, covers_token hd (hcs _ hm)⟩
    · cases hr

theorem sound_name : name.Sound fun ts n => ∃ cs, n = String.ofList cs ∧ ts = [.name cs] := by
  intro s a rest hr
  simp only [name, split] at hr
  split at hr
  · rename_i cs after hs
    cases hr
    obtain ⟨he, hform, hstop⟩ := splitName?_sound hs
    exact ⟨_, ⟨cs, rfl, rfl⟩, covers_token he ⟨hform, hstop⟩⟩
  · cases hr

theorem Sound.commaSeparated {other : Reader α} (h : r.Sound P) (h' : other.Sound P) :
    (commaSeparated r other).Sound fun ts as => ts = [] ∧ as = [] ∨ ∃ us vs a rest,
      ts = us ++ vs ∧ as = a :: rest ∧ P us a ∧
      Each (fun ws b => ∃ xs, ws = .mark ',' :: xs ∧ P xs b) vs rest := by
  have hitem : Sound (do token ','; other) fun ws b => ∃ xs, ws = .mark ',' :: xs ∧ P xs b := by
    refine (sound_token (t := .mark ',') rfl fun _ => (by decide : ',' ∈ markChars)).bind fun _ ts ht => ?_
    obtain rfl := ht
    exact h'.mono fun us a hp => ⟨us, rfl, hp⟩
  refine h.optional.bind fun a ts hp => ?_
  cases a with
  | none =>
    obtain rfl := hp
    exact (sound_pure []).mono fun us as hq => .inl hq
  | some a =>
    refine hitem.many.bind fun as us hq => ?_
    refine (sound_pure (a :: as)).mono fun vs bs hv => .inr ?_
    obtain ⟨rfl, rfl⟩ := hv
    exact ⟨ts, us, a, as, by simp, rfl, hp, hq⟩

end Reader

namespace Grammar
open Reader
variable {p : Nat}

/-- Tokens derive a phrase, however many calls that takes. -/
def Forms (p : Nat) (ts : List Token) (phrase : Phrase) : Prop :=
  ∃ d, Derives p d ts phrase

/-- A reader finds tokens that derive expressions of a level. -/
abbrev SoundAt (p : Nat) (level : Level) (r : Reader Expr) : Prop :=
  r.Sound fun ts e => Forms p ts (.expression level e)

section Forms
variable {operand : Nat → Reader Expr}

theorem sound_chainOf {ops : List Char} {item : Nat → Reader Expr} {level below : Level}
    (hops : ∀ c, c ∈ ops → c ∈ operatorChars) (hitem : ∀ k, SoundAt p below (item k))
    (hfirst : ∀ d ts e, Derives p d ts (.expression below e) → Derives p d ts (.expression level e))
    (hstep : ∀ d d' ts us lhs rhs op, op ∈ ops → Derives p d ts (.expression level lhs) →
      Derives p d' us (.expression below rhs) →
      Derives p (max d (d' + 7)) (ts ++ .operator op :: us)
        (.expression level (.binary op.toString lhs rhs))) :
    SoundAt p level (chainOf ops item) := by
  have hpair : Sound (do return (← oneOf ops, ← item 7)) fun ts (x : Char × Expr) =>
      x.1 ∈ ops ∧ ∃ us, ts = .operator x.1 :: us ∧ Forms p us (.expression below x.2) := by
    refine (sound_oneOf hops).bind fun op ts hop => (hitem 7).bind fun e us he => ?_
    obtain ⟨hmem, rfl⟩ := hop
    refine (sound_pure (op, e)).mono fun vs x hx => ?_
    obtain ⟨rfl, rfl⟩ := hx
    exact ⟨hmem, us, by simp, he⟩
  refine (hitem 0).bind fun first ts hts => hpair.many.bind fun others us hus => ?_
  refine (sound_pure _).mono fun vs e he => ?_
  obtain ⟨rfl, rfl⟩ := he
  rw [List.append_nil]
  obtain ⟨d, hd⟩ := hts
  replace hd := hfirst d ts first hd
  induction hus generalizing first ts d with
  | nil => exact ⟨d, by simpa using hd⟩
  | @cons vs us x others hx _ ih =>
    obtain ⟨hop, ws, rfl, d', hd'⟩ := hx
    rw [List.foldl_cons, ← List.append_assoc]
    exact ih _ _ _ (hstep d d' ts ws first x.2 x.1 hop hd hd')

theorem sound_termOf (h : ∀ k, SoundAt p .power (operand k)) :
    SoundAt p .product (termOf operand) :=
  sound_chainOf (forall_mem_of_all (by decide)) h (fun _ _ _ h => .factor h)
    fun _ _ _ _ _ _ _ hop h h' => .product hop h h'

theorem sound_deeper (h : ∀ k, SoundAt p .power (operand k)) (calls k : Nat) :
    SoundAt p .power (deeper operand calls k) :=
  h (calls + k)

theorem sound_expressionOf (h : ∀ k, SoundAt p .power (operand k)) :
    SoundAt p .sum (expressionOf operand) :=
  sound_chainOf (forall_mem_of_all (by decide)) (fun k => sound_termOf (sound_deeper h k)) (fun _ _ _ h => .term h)
    fun _ _ _ _ _ _ _ hop h h' => .sum hop h h'

theorem sound_mark {c : Char} (hc : c ∈ markChars) : (token c).Sound fun ts _ => ts = [.mark c] :=
  sound_token rfl fun _ => hc

theorem sound_operator {c : Char} (hc : c ∈ operatorChars) :
    (token c).Sound fun ts _ => ts = [.operator c] :=
  sound_token rfl fun _ => hc

private theorem sound_names : (commaSeparated name name).Sound fun ts names =>
    ∃ params, names = params.map String.ofList ∧ ts = nameTokens params := by
  refine (sound_name.commaSeparated sound_name).mono fun ts names h => ?_
  rcases h with ⟨rfl, rfl⟩ | ⟨us, vs, first, others, rfl, rfl, ⟨cs, rfl, rfl⟩, hrest⟩
  · exact ⟨[], rfl, rfl⟩
  · suffices hs : ∃ params : List (List Char), others = params.map String.ofList ∧
        vs = params.flatMap fun cs => [.mark ',', .name cs] by
      obtain ⟨params, rfl, rfl⟩ := hs
      exact ⟨cs :: params, rfl, rfl⟩
    induction hrest with
    | nil => exact ⟨[], rfl, rfl⟩
    | cons h _ ih =>
      obtain ⟨_, rfl, ds, rfl, rfl⟩ := h
      obtain ⟨params, rfl, rfl⟩ := ih
      exact ⟨ds :: params, rfl, rfl⟩

/-- Items go on with more of them, each behind a comma. -/
theorem forms_items {d : Nat} {ts us : List Token} {es others : List Expr} (h : Derives p d ts (.items es))
    (hothers : Each (fun ws e => ∃ xs, ws = .mark ',' :: xs ∧ Forms p xs (.expression .sum e)) us others) :
    Forms p (ts ++ us) (.items (es ++ others)) := by
  induction hothers generalizing d ts es with
  | nil => exact ⟨d, by simpa using h⟩
  | cons hnext _ ih =>
    obtain ⟨xs, rfl, d', hd'⟩ := hnext
    simpa using ih (h.item hd')

private theorem sound_argumentsOf (h : ∀ k, SoundAt p .power (operand k)) :
    (argumentsOf operand).Sound fun ts es => Forms p ts (.arguments es) := by
  refine ((sound_expressionOf h).commaSeparated (sound_expressionOf (sound_deeper h 7))).mono fun ts es h => ?_
  rcases h with ⟨rfl, rfl⟩ | ⟨us, vs, first, others, rfl, rfl, hfirst, hrest⟩
  · exact ⟨1, .noArguments⟩
  · obtain ⟨d, hd⟩ := hfirst
    obtain ⟨d, hd⟩ := forms_items hd.firstItem hrest
    exact ⟨d, hd.arguments⟩

private theorem sound_definitionOf (h : ∀ k, SoundAt p .power (operand k)) :
    (definitionOf operand).Sound fun ts s => Forms p ts (.clause s) := by
  refine sound_name.bind fun n ts hn => (sound_mark (by decide)).bind fun _ us hu => ?_
  refine sound_names.bind fun names vs hv => (sound_mark (by decide)).bind fun _ ws hw => ?_
  refine (sound_operator (by decide)).bind fun _ xs hx => (sound_expressionOf h).bind fun e ys he => ?_
  refine (sound_pure _).mono fun zs s hs => ?_
  obtain ⟨cs, rfl, rfl⟩ := hn
  obtain ⟨params, rfl, rfl⟩ := hv
  obtain ⟨d, hd⟩ := he
  obtain ⟨rfl, rfl⟩ := hs
  subst hu hw hx
  exact ⟨d, by simpa using hd.definition cs params⟩

private theorem sound_assignmentOf (h : ∀ k, SoundAt p .power (operand k)) :
    (assignmentOf operand).Sound fun ts s => Forms p ts (.clause s) := by
  refine sound_name.bind fun n ts hn => (sound_operator (by decide)).bind fun _ us hu => ?_
  refine (sound_expressionOf h).bind fun e vs he => (sound_pure _).mono fun ws s hs => ?_
  obtain ⟨cs, rfl, rfl⟩ := hn
  obtain ⟨d, hd⟩ := he
  obtain ⟨rfl, rfl⟩ := hs
  subst hu
  exact ⟨d, by simpa using hd.assignment cs⟩

theorem sound_clauseOf (h : ∀ k, SoundAt p .power (operand k)) :
    (clauseOf operand).Sound fun ts s => Forms p ts (.clause s) := by
  refine (((sound_definitionOf h).either (sound_assignmentOf h)).either ?_).orExpect _
  refine (sound_expressionOf h).bind fun e ts he => (sound_pure _).mono fun us s hs => ?_
  obtain ⟨d, hd⟩ := he
  obtain ⟨rfl, rfl⟩ := hs
  exact ⟨d, by simpa using hd.expression⟩

theorem sound_statementOf (h : ∀ k, SoundAt p .power (operand k)) :
    (statementOf operand).Sound fun ts s => ∃ us, ts = us ++ [.mark ';'] ∧ Forms p us (.clause s) := by
  refine (sound_clauseOf h).bind fun s ts hs => (sound_mark (by decide)).bind fun _ us hu => ?_
  refine (sound_pure s).mono fun vs s' hs' => ?_
  obtain ⟨rfl, rfl⟩ := hs'
  subst hu
  exact ⟨ts, by simp, hs⟩

private theorem sound_blockBodyOf (h : ∀ k, SoundAt p .power (operand k)) (n : Nat) :
    (blockBodyOf operand n).Sound fun ts x => Forms p ts (.body x.1 x.2) := by
  induction n with
  | zero => nofun
  | succ n ih =>
    intro s x rest hr
    simp only [blockBodyOf] at hr
    split at hr
    · rename_i clause t hc
      obtain ⟨ts, hts, hcov⟩ := sound_clauseOf h s clause t hc
      split at hr
      · rename_i u hu
        obtain ⟨⟨statements, final⟩, v, hb, hp⟩ := bind_eq_matched.1 hr
        cases hp
        obtain ⟨us, rfl, hcov'⟩ := (sound_mark (by decide)) t _ u hu
        obtain ⟨vs, ⟨d', hd'⟩, hcov''⟩ := ih u _ rest hb
        obtain ⟨d, hd⟩ := hts
        refine ⟨ts ++ .mark ';' :: vs, ⟨_, hd.statement hd'⟩, ?_⟩
        exact hcov.trans (hcov'.trans hcov'')
      · split at hr
        · rename_i e
          cases hr
          obtain ⟨d, hd⟩ := hts
          cases hd with
          | expression hd => exact ⟨ts, ⟨d, hd.final⟩, hcov⟩
        · obtain ⟨e, v, he, hp⟩ := bind_eq_matched.1 hr
          cases hp
          obtain ⟨us, ⟨d, hd⟩, hcov'⟩ := sound_expressionOf h s e rest he
          exact ⟨us, ⟨d, hd.final⟩, hcov'⟩
    · cases hr
    · cases hr

private theorem sound_blockOf (h : ∀ k, SoundAt p .power (operand k)) :
    SoundAt p .primary (blockOf operand) := by
  refine (sound_mark (by decide)).bind fun _ ts ht => ?_
  refine Sound.bind (P := fun ts x => Forms p ts (.body x.1 x.2))
    (fun s => sound_blockBodyOf h (s.length + 1) s) fun x us hu => ?_
  refine (sound_mark (by decide)).bind fun _ vs hv => (sound_pure _).mono fun ws e he => ?_
  obtain ⟨d, hd⟩ := hu
  obtain ⟨rfl, rfl⟩ := he
  subst ht hv
  exact ⟨_, by simpa using hd.block⟩

private theorem sound_parenthesizedOf (h : ∀ k, SoundAt p .power (operand k)) :
    SoundAt p .primary (parenthesizedOf operand) := by
  refine (sound_mark (by decide)).bind fun _ ts ht => (sound_expressionOf h).bind fun e us he => ?_
  refine (sound_mark (by decide)).bind fun _ vs hv => (sound_pure e).mono fun ws e' he' => ?_
  obtain ⟨d, hd⟩ := he
  obtain ⟨rfl, rfl⟩ := he'
  subst ht hv
  exact ⟨_, by simpa using hd.parenthesized⟩

private theorem sound_callOf (h : ∀ k, SoundAt p .power (operand k)) :
    SoundAt p .primary (callOf operand) := by
  refine sound_name.bind fun n ts hn => (sound_mark (by decide)).bind fun _ us hu => ?_
  refine (sound_argumentsOf h).bind fun es vs hes => (sound_mark (by decide)).bind fun _ ws hw => ?_
  refine (sound_pure _).mono fun xs e he => ?_
  obtain ⟨cs, rfl, rfl⟩ := hn
  obtain ⟨d, hd⟩ := hes
  obtain ⟨rfl, rfl⟩ := he
  subst hu hw
  exact ⟨_, by simpa using hd.call cs⟩

private theorem sound_symbol : SoundAt p .primary symbol := by
  refine sound_name.bind fun n ts hn => (sound_pure _).mono fun us e he => ?_
  obtain ⟨cs, rfl, rfl⟩ := hn
  obtain ⟨rfl, rfl⟩ := he
  exact ⟨1, .symbol cs⟩

/-- A numeral with a minus stands at the start of the text. -/
def StartsNegative (s : List Char) : Prop :=
  ∃ cs, skipLayout s = '-' :: cs ∧ (splitNumeral? ('-' :: cs)).isSome = true

private theorem sound_number {s rest : List Char} {e : Expr} (hs : ¬StartsNegative s)
    (hr : number p s = .matched e rest) :
    ∃ ts, Forms p ts (.expression .primary e) ∧ Covers s ts rest := by
  obtain ⟨text, t, ht, hn⟩ := bind_eq_matched.1 hr
  simp only [numeral, split] at ht
  split at ht
  · rename_i cs after hsplit
    cases ht
    rw [String.toList_ofList] at hn
    split at hn
    · rename_i v hv
      cases hn
      obtain ⟨he, hform⟩ := splitNumeral?_sound hsplit
      refine ⟨_, ⟨1, .number hv⟩, covers_token he ⟨hform, fun hminus => hs ?_⟩⟩
      cases cs with
      | nil => cases hminus
      | cons c cs =>
        obtain rfl := Option.some.inj hminus
        rw [List.cons_append] at he
        exact ⟨_, he, by rw [← he, hsplit]; rfl⟩
    · cases hn
  · cases ht

end Forms

section Operands
variable {below : Nat → Reader Expr}

private theorem sound_primaryOf (h : ∀ k, SoundAt p .power (below k)) {s rest : List Char} {e : Expr}
    (hs : ¬StartsNegative s) (hr : primaryOf p below s = .matched e rest) :
    ∃ ts, Forms p ts (.expression .primary e) ∧ Covers s ts rest := by
  rcases either_eq_matched.1 hr with hr | ⟨-, hr⟩
  · rcases either_eq_matched.1 hr with hr | ⟨-, hr⟩
    · exact (((sound_parenthesizedOf (sound_deeper h 25)).either (sound_blockOf (sound_deeper h 45))).either
        (sound_callOf (sound_deeper h 34))) s e rest hr
    · exact sound_number hs hr
  · exact sound_symbol s e rest hr

private theorem sound_powerOf (h : ∀ k, SoundAt p .power (below k)) {s rest : List Char} {e : Expr}
    (hs : ¬StartsNegative s) (hr : powerOf p below s = .matched e rest) :
    ∃ ts, Forms p ts (.expression .power e) ∧ Covers s ts rest := by
  obtain ⟨base, t, hb, hr⟩ := bind_eq_matched.1 hr
  obtain ⟨ts, ⟨d, hd⟩, hc⟩ := sound_primaryOf h hs hb
  have hexponent : Sound (do token '^'; below 15) fun us e =>
      ∃ vs, us = .operator '^' :: vs ∧ Forms p vs (.expression .power e) := by
    refine (sound_operator (by decide)).bind fun _ us hu => (h 15).mono fun vs e he => ?_
    obtain rfl := hu
    exact ⟨vs, rfl, he⟩
  obtain ⟨exponent, u, hx, hr⟩ := bind_eq_matched.1 hr
  obtain ⟨us, hus, hc'⟩ := hexponent.optional t exponent u hx
  cases exponent with
  | none =>
    cases hr
    obtain rfl := hus
    exact ⟨ts, ⟨d, hd.primary⟩, by simpa using hc.trans hc'⟩
  | some exponent =>
    cases hr
    obtain ⟨vs, rfl, d', hd'⟩ := hus
    exact ⟨_, ⟨_, hd.power hd'⟩, hc.trans hc'⟩

private theorem sound_negationOf {operand : Reader Expr} (h : SoundAt p .power operand) :
    SoundAt p .power (negationOf operand) := by
  refine (sound_mark (by decide)).bind fun _ ts ht => h.bind fun e us he => ?_
  refine (sound_pure _).mono fun vs e' he' => ?_
  obtain ⟨d, hd⟩ := he
  obtain ⟨rfl, rfl⟩ := he'
  subst ht
  exact ⟨_, by simpa using hd.negation⟩

/-- Where a numeral starts, an operand is found, unless reading is given up. -/
def FindsNumerals (r : Reader Expr) : Prop :=
  ∀ s m, (splitNumeral? (skipLayout s)).isSome = true → r s ≠ .mismatched m

private theorem finds_number : FindsNumerals (number p) := by
  intro s m hs hr
  obtain ⟨⟨cs, rest⟩, hsplit⟩ := Option.isSome_iff_exists.1 hs
  have hn : numeral s = .matched (String.ofList cs) rest := by
    simp only [numeral, split, hsplit]
  rcases bind_eq_mismatched.1 hr with hr | ⟨text, t, ht, hr⟩
  · rw [hn] at hr
    cases hr
  · split at hr <;> cases hr

private theorem finds_operandOf : FindsNumerals (operandOf p below) := by
  intro s m hs hr
  obtain ⟨m, hr⟩ := orExpect_eq_mismatched hr
  obtain ⟨-, m, hr⟩ := either_eq_mismatched hr
  rcases bind_eq_mismatched.1 hr with hr | ⟨base, t, -, hr⟩
  · obtain ⟨⟨m, hr⟩, -⟩ := either_eq_mismatched hr
    obtain ⟨-, m, hr⟩ := either_eq_mismatched hr
    exact finds_number s m hs hr
  · rcases bind_eq_mismatched.1 hr with hr | ⟨exponent, u, -, hr⟩
    · exact optional_ne_mismatched t m hr
    · cases exponent <;> cases hr

/-- What follows the minus of a numeral is a numeral. -/
theorem splitNumeral?_of_minus {cs : List Char} (h : (splitNumeral? ('-' :: cs)).isSome = true) :
    (splitNumeral? (skipLayout cs)).isSome = true := by
  rw [splitNumeral?_eq, Option.isSome_map, show takeSign ('-' :: cs) = (['-'], cs) from rfl] at h
  obtain ⟨⟨mantissa, after⟩, hm⟩ := Option.isSome_iff_exists.1 h
  obtain ⟨rfl, hform⟩ := splitMantissa?_sound hm
  obtain ⟨c, body, rfl, hc⟩ := hform.head
  have hname : isNameChar c = true := by
    rcases hc with hc | rfl
    · exact isNameChar_of_isDigit hc
    · decide
  have hskip : skipLayout (c :: body ++ after) = c :: body ++ after :=
    skipLayout_cons_of_neg (not_isLayout_of_isNameChar hname) _
  have hsign : takeSign (c :: body ++ after) = ([], c :: body ++ after) := by
    rw [List.cons_append, takeSign, if_neg]
    rintro (rfl | rfl) <;> revert hc <;> decide
  rw [hskip, splitNumeral?_eq, hsign, Option.isSome_map, hm]
  rfl

private theorem sound_operandOf (h : ∀ k, SoundAt p .power (below k)) (hfind : ∀ k, FindsNumerals (below k)) :
    SoundAt p .power (operandOf p below) := by
  refine Sound.orExpect (fun s e rest hr => ?_) _
  rcases either_eq_matched.1 hr with hr | ⟨⟨m, hm⟩, hr⟩
  · exact sound_negationOf (h 9) s e rest hr
  · refine sound_powerOf h (fun ⟨cs, hcs, hnum⟩ => ?_) hr
    have htoken : token '-' s = .matched () cs := by simp [token, hcs]
    rcases bind_eq_mismatched.1 hm with hm | ⟨_, t, ht, hm⟩
    · rw [htoken] at hm
      cases hm
    · rw [htoken] at ht
      cases ht
      rcases bind_eq_mismatched.1 hm with hm | ⟨e, u, -, hm⟩
      · exact hfind 9 cs m (splitNumeral?_of_minus hnum) hm
      · cases hm

/-- Operands are found with any number of calls. That a minus before a numeral is taken as a negation needs that the
numeral itself is found further down. -/
theorem sound_operandWithin (n k : Nat) : SoundAt p .power (operandWithin p n k) := by
  refine (withCalls_induction (motive := fun r => SoundAt p .power r ∧ FindsNumerals r) ?_ ?_ n k).1
  · exact ⟨nofun, nofun⟩
  · exact fun below h => ⟨sound_operandOf (fun k => (h k).1) fun k => (h k).2, finds_operandOf⟩

end Operands

end Grammar

end Reckoner
