import Reckoner.Proofs.ParserSoundness
import Reckoner.Proofs.Rendering

/-! Readers on rendered texts: a reader finds the tokens at the start if they fit its budget and is too
deep otherwise, or it fails at the first character. -/

namespace Reckoner
open Text

/-- The first character of the first token. -/
def lead : List Token → Option Char
  | [] => none
  | t :: _ => t.chars.head?

/-- Tokens before which every name and every numeral ends. -/
def Parted (us : List Token) : Prop :=
  ∀ s, Renders s us → Stops isNameChar s

section Lead
variable {s : List Char} {us : List Token}

theorem Renders.head?_skipLayout (h : Renders s us) : (skipLayout s).head? = lead us := by
  cases us with
  | nil => rw [h.skipLayout_eq_nil]; rfl
  | cons t ts =>
    obtain ⟨layout, rest, hskip, ht, -⟩ := h.skipLayout_eq
    rw [hskip, List.head?_append, lead]
    cases hc : t.chars with
    | nil => exact absurd hc ht.fits.chars.1
    | cons c cs => rfl

theorem parted_of_lead (h : ∀ c, lead us = some c → isNameChar c = false) : Parted us := by
  intro s hs c hc
  cases hl : isLayout c with
  | true => exact not_isNameChar_of_isLayout hl
  | false =>
    refine h c ?_
    rw [← hs.head?_skipLayout]
    cases s with
    | nil => cases hc
    | cons d s =>
      cases hc
      rw [skipLayout_cons_of_neg hl]
      rfl

theorem parted_operator (op : Char) (us : List Token) : Parted (.operator op :: us) := by
  intro s hs c hc
  obtain ⟨layout, rest, rfl, hl, ht, -⟩ := hs.uncons
  obtain ⟨-, hne, -⟩ := ht
  cases layout with
  | nil => exact absurd rfl hne
  | cons d layout =>
    cases hc
    exact not_isNameChar_of_isLayout (hl c List.mem_cons_self)

end Lead

namespace Reader
variable {α β : Type} {r : Reader α} {fits fits' : Prop} {ts us vs : List Token} {a : α} {b : β}

/-- A reader finds a value in tokens, and leaves the others, if they fit; otherwise it is too deep. -/
def Reads (r : Reader α) (fits : Prop) (ts us : List Token) (a : α) : Prop :=
  ∀ s, Renders s (ts ++ us) →
    (fits → ∃ rest, r s = .matched a rest ∧ Renders rest us) ∧ (¬fits → r s = .abandoned .tooDeep)

/-- A reader does not match. -/
def Fails (r : Reader α) (us : List Token) : Prop :=
  ∀ s, Renders s us → ∃ m, r s = .mismatched m

/-- A reader that needs no budget. -/
theorem reads_of_matched
    (h : ∀ s, Renders s (ts ++ us) → ∃ rest, r s = .matched a rest ∧ Renders rest us) :
    r.Reads True ts us a :=
  fun s hs => ⟨fun _ => h s hs, fun hn => absurd trivial hn⟩

/-- A reader whose budget is used up. -/
theorem reads_of_abandoned (hf : ¬fits) (h : ∀ s, r s = .abandoned .tooDeep) :
    r.Reads fits ts us a :=
  fun s _ => ⟨fun hfits => absurd hfits hf, fun _ => h s⟩

/-- A reader that follows another wherever that one matches or goes too deep. -/
theorem Reads.follow {r' : Reader β} (h : r.Reads fits ts us a)
    (hm : ∀ s rest, Renders s (ts ++ us) → r s = .matched a rest → r' s = .matched b rest)
    (hd : ∀ s, Renders s (ts ++ us) → r s = .abandoned .tooDeep → r' s = .abandoned .tooDeep) :
    r'.Reads fits ts us b := by
  intro s hs
  obtain ⟨hfit, hdeep⟩ := h s hs
  refine ⟨fun hf => ?_, fun hf => hd s hs (hdeep hf)⟩
  obtain ⟨rest, hr, ht⟩ := hfit hf
  exact ⟨rest, hm s rest hs hr, ht⟩

theorem reads_pure (a : α) (us : List Token) : Reads (pure a) True [] us a :=
  reads_of_matched fun s hs => ⟨s, rfl, hs⟩

theorem Reads.congr (h : r.Reads fits ts us a) (hf : fits ↔ fits') : r.Reads fits' ts us a :=
  fun s hs => ⟨fun h' => (h s hs).1 (hf.2 h'), fun h' => (h s hs).2 fun hn => h' (hf.1 hn)⟩

theorem Reads.bind {f : α → Reader β} (h : r.Reads fits ts (us ++ vs) a)
    (h' : (f a).Reads fits' us vs b) : (r >>= f).Reads (fits ∧ fits') (ts ++ us) vs b := by
  intro s hs
  rw [List.append_assoc] at hs
  by_cases hf : fits
  · obtain ⟨t, hr, ht⟩ := (h s hs).1 hf
    rw [bind_of_matched hr]
    exact ⟨fun hfits => (h' t ht).1 hfits.2, fun hn => (h' t ht).2 fun hf' => hn ⟨hf, hf'⟩⟩
  · rw [bind_of_abandoned ((h s hs).2 hf)]
    exact ⟨fun hfits => absurd hfits.1 hf, fun _ => rfl⟩

theorem Reads.bind_nil {f : α → Reader β} (h : r.Reads fits ts us a)
    (h' : (f a).Reads fits' [] us b) : (r >>= f).Reads (fits ∧ fits') ts us b := by
  have hbind : (r >>= f).Reads (fits ∧ fits') (ts ++ []) us b := h.bind h'
  rwa [List.append_nil] at hbind

theorem Reads.map (f : α → β) (h : r.Reads fits ts us a) :
    Reads (do return f (← r)) fits ts us (f a) :=
  (h.bind_nil (reads_pure (f a) us)).congr (and_iff_left trivial)

/-- A token that is always found goes before what is read behind it. -/
theorem Reads.cons {t : Token} {f : α → Reader β} (h : r.Reads True [t] (us ++ vs) a)
    (h' : (f a).Reads fits us vs b) : (r >>= f).Reads fits (t :: us) vs b :=
  (h.bind h').congr (and_iff_right trivial)

theorem Fails.bind {f : α → Reader β} (h : r.Fails us) : (r >>= f).Fails us := by
  intro s hs
  obtain ⟨m, hm⟩ := h s hs
  exact ⟨m, bind_of_mismatched hm⟩

theorem Reads.bind_fails {f : α → Reader β} (h : r.Reads True ts us a) (h' : (f a).Fails us) :
    (r >>= f).Fails (ts ++ us) := by
  intro s hs
  obtain ⟨t, hr, ht⟩ := (h s hs).1 trivial
  rw [bind_of_matched hr]
  exact h' t ht

/-- What holds of a token as it is written may be used. -/
theorem Reads.of_written {t : Token}
    (h : ∀ layout rest, t.Written layout rest → r.Reads fits (t :: ts) us a) :
    r.Reads fits (t :: ts) us a := by
  intro s hs
  obtain ⟨layout, rest, -, ht, -⟩ := Renders.skipLayout_eq hs
  exact h layout rest ht s hs

theorem Reads.either_left (second : Reader α) (h : r.Reads fits ts us a) :
    (either r second).Reads fits ts us a :=
  h.follow (fun _ _ _ hr => by rw [either, hr]) fun _ _ hr => by rw [either, hr]

theorem Reads.either_right {first : Reader α} (hfail : first.Fails (ts ++ us))
    (h : r.Reads fits ts us a) : (either first r).Reads fits ts us a := by
  refine h.follow (fun s rest hs hr => ?_) fun s hs hr => ?_
  · obtain ⟨m, hm⟩ := hfail s hs
    simp only [either, hm, hr]
  · obtain ⟨m, hm⟩ := hfail s hs
    simp only [either, hm, hr]

theorem Fails.either {first : Reader α} (h : first.Fails us) (h' : r.Fails us) :
    (either first r).Fails us := by
  intro s hs
  obtain ⟨m, hm⟩ := h s hs
  obtain ⟨m', hm'⟩ := h' s hs
  exact ⟨farther m m', by simp only [Reader.either, hm, hm']⟩

theorem Reads.orExpect (h : r.Reads fits ts us a) (e : Expectation) :
    (r.orExpect e).Reads fits ts us a :=
  h.follow (fun _ _ _ hr => orExpect_eq_matched.2 hr) fun _ _ hr => by rw [Reader.orExpect, hr]

theorem Fails.orExpect (h : r.Fails us) (e : Expectation) : (r.orExpect e).Fails us := by
  intro s hs
  obtain ⟨m, hm⟩ := h s hs
  rw [Reader.orExpect, hm]
  exact ⟨_, rfl⟩

theorem Reads.optional (h : r.Reads fits ts us a) : (optional r).Reads fits ts us (some a) :=
  h.follow (fun _ _ _ hr => by rw [Reader.optional, hr]) fun _ _ hr => by rw [Reader.optional, hr]

theorem Fails.optional (h : r.Fails us) : (optional r).Reads True [] us none := by
  refine reads_of_matched fun s hs => ?_
  obtain ⟨m, hm⟩ := h s hs
  exact ⟨s, by rw [Reader.optional, hm], hs⟩

section Tokens
variable {c : Char}

theorem token_of_skipLayout {s rest : List Char} (h : skipLayout s = c :: rest) :
    token c s = .matched () rest := by
  rw [token, h]
  simp

theorem reads_token {t : Token} (ht : t.chars = [c]) (us : List Token) :
    Reads (token c) True [t] us () := by
  refine reads_of_matched fun s hs => ?_
  obtain ⟨layout, rest, hskip, -, h⟩ := hs.skipLayout_eq
  rw [ht] at hskip
  exact ⟨rest, token_of_skipLayout hskip, h⟩

theorem reads_mark (c : Char) (us : List Token) : Reads (token c) True [.mark c] us () :=
  reads_token rfl us

theorem reads_operator (c : Char) (us : List Token) : Reads (token c) True [.operator c] us () :=
  reads_token rfl us

theorem fails_token (h : lead us ≠ some c) : Fails (token c) us := by
  intro s hs
  have hlead := hs.head?_skipLayout
  rw [token]
  split
  · exact ⟨_, rfl⟩
  · rename_i d rest hskip
    rw [hskip] at hlead
    rw [if_neg fun hd => h (by rw [← hlead, hd]; rfl)]
    exact ⟨_, rfl⟩

theorem reads_oneOf {cs : List Char} (hc : c ∈ cs) (us : List Token) :
    Reads (oneOf cs) True [.operator c] us c := by
  refine reads_of_matched fun s hs => ?_
  obtain ⟨layout, rest, hskip, -, h⟩ := hs.skipLayout_eq
  refine ⟨rest, ?_, h⟩
  rw [oneOf, hskip]
  exact if_pos hc

theorem fails_oneOf {cs : List Char} (h : ∀ c, lead us = some c → c ∉ cs) : Fails (oneOf cs) us := by
  intro s hs
  have hlead := hs.head?_skipLayout
  rw [oneOf]
  split
  · exact ⟨_, rfl⟩
  · rename_i d rest hskip
    rw [hskip] at hlead
    rw [if_neg (h d hlead.symm)]
    exact ⟨_, rfl⟩

theorem reads_name_of_isName {t : Token} (ht : IsName t.chars) (h : Parted us) :
    Reads name True [t] us (String.ofList t.chars) := by
  refine reads_of_matched fun s hs => ?_
  obtain ⟨layout, rest, hskip, -, hrest⟩ := hs.skipLayout_eq
  refine ⟨rest, ?_, hrest⟩
  simp only [name, split, hskip, splitName?_append ht (h rest hrest)]

theorem reads_name {cs : List Char} (h : Parted us) :
    Reads name True [.name cs] us (String.ofList cs) :=
  .of_written fun _ _ ht => reads_name_of_isName ht.1 h

theorem fails_name (h : ∀ c, lead us = some c → isNameStart c = false) : Fails name us := by
  intro s hs
  have hlead := hs.head?_skipLayout
  have hsplit : splitName? (skipLayout s) = none := by
    cases hskip : skipLayout s with
    | nil => rfl
    | cons c rest =>
      rw [hskip] at hlead
      rw [splitName?, if_neg (ne_true_of_eq_false (h c hlead.symm))]
  simp only [name, split, hsplit]
  exact ⟨_, rfl⟩

theorem reads_numeral {cs : List Char} (h : Parted us) :
    Reads numeral True [.numeral cs] us (String.ofList cs) := by
  refine reads_of_matched fun s hs => ?_
  obtain ⟨layout, rest, hskip, ht, hrest⟩ := hs.skipLayout_eq
  refine ⟨rest, ?_, hrest⟩
  have hend := endsNumeral_of_stops (h rest hrest)
  simp only [numeral, split, hskip, Token.chars, splitNumeral?_append ht.1 hend]

theorem fails_numeral (h : ∀ c, lead us = some c → isDigit c = false ∧ c ∉ ['+', '-', '.']) :
    Fails numeral us := by
  intro s hs
  have hlead := hs.head?_skipLayout
  have hsplit : splitNumeral? (skipLayout s) = none := by
    cases hskip : skipLayout s with
    | nil => rfl
    | cons c rest =>
      rw [hskip] at hlead
      obtain ⟨hd, hc⟩ := h c hlead.symm
      exact splitNumeral?_eq_none hd hc rest
  simp only [numeral, split, hsplit]
  exact ⟨_, rfl⟩

end Tokens

end Reader

end Reckoner
