import Reckoner.Syntax.Token

/-! Lexemes: the forms of names and numerals, and that splitting a token from a text finds just them. -/

namespace Reckoner
open Text

/-- A text that does not go on with a character of a class. -/
def Stops (p : Char → Bool) (rest : List Char) : Prop :=
  ∀ c, rest.head? = some c → p c = false

/-- A character that is neither blank nor a mark nor a digit, and others that are neither blank nor marks. -/
def IsName (cs : List Char) : Prop :=
  ∃ c rest, cs = c :: rest ∧ isNameStart c = true ∧ ∀ d, d ∈ rest → isNameChar d = true

def IsSign (cs : List Char) : Prop :=
  cs = [] ∨ cs = ['+'] ∨ cs = ['-']

def IsDigits (cs : List Char) : Prop :=
  cs ≠ [] ∧ ∀ c, c ∈ cs → isDigit c = true

/-- Digits, perhaps with a fraction, or a fraction alone. -/
inductive IsMantissa : List Char → Prop where
  | whole {ds : List Char} (h : IsDigits ds) : IsMantissa ds
  | point {ds fraction : List Char} (h : IsDigits ds) (hf : ∀ c, c ∈ fraction → isDigit c = true) :
    IsMantissa (ds ++ '.' :: fraction)
  | fraction {ds : List Char} (h : IsDigits ds) : IsMantissa ('.' :: ds)

inductive IsExponent : List Char → Prop where
  | none : IsExponent []
  | some {mark : Char} {sign ds : List Char} (hm : mark = 'e' ∨ mark = 'E') (hs : IsSign sign)
    (hd : IsDigits ds) : IsExponent (mark :: sign ++ ds)

/-- A sign that may be missing, a mantissa, and an exponent that may be missing. -/
def IsNumeral (cs : List Char) : Prop :=
  ∃ sign mantissa exponent, cs = sign ++ mantissa ++ exponent ∧
    IsSign sign ∧ IsMantissa mantissa ∧ IsExponent exponent

section Characters
variable {c : Char}

/-- What is checked one by one holds of all characters of a list. -/
theorem forall_mem_of_all {cs : List Char} {P : Char → Prop} [DecidablePred P]
    (h : cs.all (fun c => decide (P c)) = true) (c : Char) (hc : c ∈ cs) : P c :=
  of_decide_eq_true (List.all_eq_true.1 h c hc)

theorem isDigit_iff : isDigit c = true ↔ ∃ z, z ∈ zeroDigits ∧ ∃ k, k < 10 ∧ c.toNat = z + k := by
  rw [isDigit, digitValue?, Option.isSome_map, List.find?_isSome]
  constructor
  · rintro ⟨z, hz, hc⟩
    simp only [Bool.and_eq_true, decide_eq_true_eq] at hc
    exact ⟨z, hz, c.toNat - z, by omega, by omega⟩
  · rintro ⟨z, hz, k, hk, hc⟩
    refine ⟨z, hz, ?_⟩
    simp only [Bool.and_eq_true, decide_eq_true_eq]
    omega

theorem isNameChar_of_isDigit (h : isDigit c = true) : isNameChar c = true := by
  obtain ⟨z, hz, k, hk, hc⟩ := isDigit_iff.1 h
  have hall : ∀ z, z ∈ zeroDigits → ∀ k, k < 10 → isNameChar (Char.ofNat (z + k)) = true := by
    decide +kernel
  have he : c = Char.ofNat (z + k) := by rw [← hc, Char.ofNat_toNat]
  exact he ▸ hall z hz k hk

private theorem not_isDigit_of_mem (h : c ∈ ['+', '-', '.', 'e', 'E']) : isDigit c = false :=
  forall_mem_of_all (P := fun c => isDigit c = false) (by decide) c h

theorem isNameChar_of_mem (h : c ∈ ['+', '-', '.', 'e', 'E']) : isNameChar c = true :=
  forall_mem_of_all (P := fun c => isNameChar c = true) (by decide) c h

theorem not_isNameChar_of_isLayout (h : isLayout c = true) : isNameChar c = false := by
  simp [isNameChar, isBlank_of_isLayout h]

theorem not_isLayout_of_isNameChar (h : isNameChar c = true) : isLayout c = false := by
  cases hl : isLayout c with
  | false => rfl
  | true =>
    rw [not_isNameChar_of_isLayout hl] at h
    cases h

end Characters

theorem isName_singleton {c : Char} (hc : isNameStart c = true) : IsName [c] :=
  ⟨c, [], rfl, hc, nofun⟩

theorem IsName.isNameChar {cs : List Char} (h : IsName cs) {c : Char} (hc : c ∈ cs) :
    isNameChar c = true := by
  obtain ⟨first, rest, rfl, hfirst, hrest⟩ := h
  rcases List.mem_cons.1 hc with rfl | hc
  · simp only [isNameStart, Bool.and_eq_true] at hfirst
    exact hfirst.1
  · exact hrest c hc

theorem takeWhile_append_of_stops {p : Char → Bool} {cs rest : List Char}
    (h : ∀ c, c ∈ cs → p c = true) (hr : Stops p rest) : (cs ++ rest).takeWhile p = cs := by
  rw [List.takeWhile_append_of_pos h]
  cases rest with
  | nil => simp
  | cons c rest => simp [hr c rfl]

theorem dropWhile_append_of_stops {p : Char → Bool} {cs rest : List Char}
    (h : ∀ c, c ∈ cs → p c = true) (hr : Stops p rest) : (cs ++ rest).dropWhile p = rest := by
  rw [List.dropWhile_append_of_pos h]
  cases rest with
  | nil => rfl
  | cons c rest => simp [hr c rfl]

theorem stops_dropWhile (p : Char → Bool) (cs : List Char) : Stops p (cs.dropWhile p) := by
  intro c hc
  have h := List.head?_dropWhile_not p cs
  rw [hc] at h
  simpa using h

theorem splitName?_sound {s cs rest : List Char} (h : splitName? s = some (cs, rest)) :
    s = cs ++ rest ∧ IsName cs ∧ Stops isNameChar rest := by
  cases s with
  | nil => cases h
  | cons c s =>
    rw [splitName?] at h
    split at h
    · rename_i hc
      cases h
      refine ⟨?_, ⟨c, _, rfl, hc, fun d hd => ?_⟩, stops_dropWhile _ s⟩
      · rw [List.cons_append, List.takeWhile_append_dropWhile]
      · exact List.all_eq_true.1 List.all_takeWhile d hd
    · cases h

theorem splitName?_append {cs rest : List Char} (h : IsName cs) (hr : Stops isNameChar rest) :
    splitName? (cs ++ rest) = some (cs, rest) := by
  obtain ⟨c, ds, rfl, hc, hds⟩ := h
  rw [List.cons_append, splitName?, if_pos hc, takeWhile_append_of_stops hds hr,
    dropWhile_append_of_stops hds hr]

theorem splitDigits_append {ds rest : List Char} (h : ∀ c, c ∈ ds → isDigit c = true)
    (hr : Stops isDigit rest) : splitDigits (ds ++ rest) = (ds, rest) := by
  rw [splitDigits, takeWhile_append_of_stops h hr, dropWhile_append_of_stops h hr]

theorem splitDigits_sound {s ds rest : List Char} (h : splitDigits s = (ds, rest)) :
    s = ds ++ rest ∧ ∀ c, c ∈ ds → isDigit c = true := by
  cases h
  exact ⟨List.takeWhile_append_dropWhile.symm, fun c hc => List.all_eq_true.1 List.all_takeWhile c hc⟩

theorem takeSign_sound {s sign rest : List Char} (h : takeSign s = (sign, rest)) :
    s = sign ++ rest ∧ IsSign sign := by
  cases s with
  | nil => cases h; exact ⟨rfl, .inl rfl⟩
  | cons c s =>
    rw [takeSign] at h
    split at h
    · rename_i hc
      cases h
      rcases hc with rfl | rfl
      · exact ⟨rfl, .inr (.inl rfl)⟩
      · exact ⟨rfl, .inr (.inr rfl)⟩
    · cases h
      exact ⟨rfl, .inl rfl⟩

theorem splitMantissa?_sound {s cs rest : List Char} (h : splitMantissa? s = some (cs, rest)) :
    s = cs ++ rest ∧ IsMantissa cs := by
  rw [splitMantissa?] at h
  split at h
  · rename_i fraction hw
    obtain ⟨hs, -⟩ := splitDigits_sound hw
    split at h
    · cases h
    · rename_i ds after hne hf
      cases h
      obtain ⟨rfl, hd⟩ := splitDigits_sound hf
      exact ⟨hs, .fraction ⟨hne, hd⟩⟩
  · cases h
  · rename_i ds fraction hne hw
    obtain ⟨hs, hd⟩ := splitDigits_sound hw
    rcases hf : splitDigits fraction with ⟨fs, after⟩
    rw [hf] at h
    cases h
    obtain ⟨rfl, hfd⟩ := splitDigits_sound hf
    exact ⟨by rw [hs]; simp, .point ⟨hne, hd⟩ hfd⟩
  · rename_i ds after hne _ hw
    obtain ⟨hs, hd⟩ := splitDigits_sound hw
    cases h
    exact ⟨hs, .whole ⟨hne, hd⟩⟩

private theorem splitExponent_sound {s cs rest : List Char} (h : splitExponent s = (cs, rest)) :
    s = cs ++ rest ∧ IsExponent cs := by
  cases s with
  | nil => cases h; exact ⟨rfl, .none⟩
  | cons mark s =>
    rw [splitExponent] at h
    split at h
    · rename_i hm
      rcases ht : takeSign s with ⟨sign, body⟩
      rcases hw : splitDigits body with ⟨ds, after⟩
      simp only [ht, hw] at h
      obtain ⟨rfl, hsign⟩ := takeSign_sound ht
      obtain ⟨rfl, hd⟩ := splitDigits_sound hw
      cases ds with
      | nil => cases h; exact ⟨rfl, .none⟩
      | cons d ds =>
        cases h
        exact ⟨by simp, .some hm hsign ⟨nofun, hd⟩⟩
    · cases h
      exact ⟨rfl, .none⟩

theorem splitNumeral?_eq (s : List Char) :
    splitNumeral? s = (splitMantissa? (takeSign s).2).map fun (mantissa, rest) =>
      ((takeSign s).1 ++ mantissa ++ (splitExponent rest).1, (splitExponent rest).2) := by
  rw [splitNumeral?]
  rcases takeSign s with ⟨sign, rest⟩
  cases hm : splitMantissa? rest <;> simp [hm]

theorem splitNumeral?_sound {s cs rest : List Char} (h : splitNumeral? s = some (cs, rest)) :
    s = cs ++ rest ∧ IsNumeral cs := by
  rcases ht : takeSign s with ⟨sign, body⟩
  rw [splitNumeral?_eq, ht] at h
  obtain ⟨⟨mantissa, after⟩, hm, h⟩ := Option.map_eq_some_iff.1 h
  rcases hx : splitExponent after with ⟨exponent, later⟩
  simp only [hx] at h
  cases h
  obtain ⟨rfl, hsign⟩ := takeSign_sound ht
  obtain ⟨rfl, hmantissa⟩ := splitMantissa?_sound hm
  obtain ⟨rfl, hexponent⟩ := splitExponent_sound hx
  exact ⟨by simp, sign, mantissa, exponent, rfl, hsign, hmantissa, hexponent⟩

private theorem splitMantissa?_append {cs rest : List Char} (h : IsMantissa cs) (hr : Stops isDigit rest)
    (hp : rest.head? ≠ some '.') : splitMantissa? (cs ++ rest) = some (cs, rest) := by
  have hpoint (s : List Char) : Stops isDigit ('.' :: s) := by
    rintro c ⟨⟩
    decide
  cases h with
  | whole h =>
    obtain ⟨hne, hd⟩ := h
    rw [splitMantissa?, splitDigits_append hd hr]
    split
    · rename_i he
      cases he
      exact absurd rfl hne
    · rename_i he
      cases he
      exact absurd rfl hne
    · rename_i he
      cases he
      exact absurd rfl hp
    · rename_i he
      cases he
      rfl
  | @point ds fraction h hf =>
    obtain ⟨hne, hd⟩ := h
    rw [List.append_assoc, List.cons_append, splitMantissa?, splitDigits_append hd (hpoint _)]
    cases ds with
    | nil => exact absurd rfl hne
    | cons d ds => simp only [splitDigits_append hf hr]
  | @fraction ds h =>
    obtain ⟨hne, hd⟩ := h
    have hnil := splitDigits_append (List.forall_mem_nil _) (hpoint (ds ++ rest))
    rw [List.cons_append, splitMantissa?, show splitDigits ('.' :: (ds ++ rest)) = _ from hnil]
    cases ds with
    | nil => exact absurd rfl hne
    | cons d ds => simp only [splitDigits_append hd hr]

theorem takeSign_append {sign rest : List Char} (h : IsSign sign)
    (hr : rest.head? ≠ some '+' ∧ rest.head? ≠ some '-') : takeSign (sign ++ rest) = (sign, rest) := by
  rcases h with rfl | rfl | rfl
  · cases rest with
    | nil => rfl
    | cons c rest =>
      rw [List.nil_append, takeSign, if_neg]
      rintro (rfl | rfl)
      · exact hr.1 rfl
      · exact hr.2 rfl
  · rfl
  · rfl

private theorem head?_of_isDigits {ds rest : List Char} (h : IsDigits ds) {c : Char}
    (hc : c ∈ ['+', '-', '.', 'e', 'E']) : (ds ++ rest).head? ≠ some c := by
  obtain ⟨hne, hd⟩ := h
  cases ds with
  | nil => exact absurd rfl hne
  | cons d ds =>
    rintro ⟨⟩
    have := hd c List.mem_cons_self
    rw [not_isDigit_of_mem hc] at this
    cases this

private theorem splitExponent_append {cs rest : List Char} (h : IsExponent cs) (hr : Stops isDigit rest)
    (hx : rest.head? ≠ some 'e' ∧ rest.head? ≠ some 'E') : splitExponent (cs ++ rest) = (cs, rest) := by
  cases h with
  | none =>
    cases rest with
    | nil => rfl
    | cons c rest =>
      rw [List.nil_append, splitExponent, if_neg]
      rintro (rfl | rfl)
      · exact hx.1 rfl
      · exact hx.2 rfl
  | @some mark sign ds hm hs hd =>
    have ht : takeSign (sign ++ (ds ++ rest)) = (sign, ds ++ rest) :=
      takeSign_append hs ⟨head?_of_isDigits hd (by simp), head?_of_isDigits hd (by simp)⟩
    rw [List.cons_append, List.cons_append, List.append_assoc, splitExponent, if_pos hm]
    simp only [ht, splitDigits_append hd.2 hr]
    cases ds with
    | nil => exact absurd rfl hd.1
    | cons d ds => rfl

/-- The first character of a mantissa. -/
theorem IsMantissa.head {cs : List Char} (h : IsMantissa cs) :
    ∃ c rest, cs = c :: rest ∧ (isDigit c = true ∨ c = '.') := by
  cases h with
  | fraction h => exact ⟨_, _, rfl, .inr rfl⟩
  | whole h =>
    obtain ⟨hne, hd⟩ := h
    cases cs with
    | nil => exact absurd rfl hne
    | cons c rest => exact ⟨c, rest, rfl, .inl (hd c List.mem_cons_self)⟩
  | @point ds fraction h hf =>
    obtain ⟨hne, hd⟩ := h
    cases ds with
    | nil => exact absurd rfl hne
    | cons c rest => exact ⟨c, _, rfl, .inl (hd c List.mem_cons_self)⟩

/-- A text with which no numeral before it could go on. -/
def EndsNumeral (rest : List Char) : Prop :=
  Stops (fun c => isDigit c || c ∈ ['.', 'e', 'E']) rest

theorem EndsNumeral.stops {rest : List Char} (h : EndsNumeral rest) : Stops isDigit rest := by
  intro c hc
  have := h c hc
  simp only [Bool.or_eq_false_iff] at this
  exact this.1

private theorem EndsNumeral.head? {rest : List Char} (h : EndsNumeral rest) {c : Char}
    (hc : c ∈ ['.', 'e', 'E']) : rest.head? ≠ some c := by
  intro he
  have := h c he
  simp only [Bool.or_eq_false_iff, decide_eq_false_iff_not] at this
  exact this.2 hc

theorem splitNumeral?_append {cs rest : List Char} (h : IsNumeral cs) (hr : EndsNumeral rest) :
    splitNumeral? (cs ++ rest) = some (cs, rest) := by
  obtain ⟨sign, mantissa, exponent, rfl, hs, hm, he⟩ := h
  obtain ⟨c, body, hcb, hc⟩ := hm.head
  have hsign : takeSign (sign ++ (mantissa ++ (exponent ++ rest))) =
      (sign, mantissa ++ (exponent ++ rest)) := by
    refine takeSign_append hs ?_
    rw [hcb]
    rcases hc with hc | rfl
    · refine ⟨?_, ?_⟩ <;>
      · rintro ⟨⟩
        revert hc
        decide
    · exact ⟨by simp, by simp⟩
  have hex : Stops isDigit (exponent ++ rest) ∧ (exponent ++ rest).head? ≠ some '.' := by
    cases he with
    | none => exact ⟨hr.stops, hr.head? (by simp)⟩
    | some hmark =>
      refine ⟨?_, ?_⟩
      · rintro c ⟨⟩
        rcases hmark with rfl | rfl <;> decide
      · rintro ⟨⟩
        revert hmark
        decide
  have hmantissa := splitMantissa?_append hm hex.1 hex.2
  have hexponent := splitExponent_append he hr.stops ⟨hr.head? (by simp), hr.head? (by simp)⟩
  rw [splitNumeral?_eq, List.append_assoc, List.append_assoc, hsign, hmantissa]
  simp [hexponent]

theorem endsNumeral_of_stops {rest : List Char} (h : Stops isNameChar rest) : EndsNumeral rest := by
  intro c hc
  have hname := h c hc
  simp only [Bool.or_eq_false_iff, decide_eq_false_iff_not]
  refine ⟨?_, fun hmem => ?_⟩
  · cases hd : isDigit c with
    | false => rfl
    | true =>
      rw [isNameChar_of_isDigit hd] at hname
      cases hname
  · rw [isNameChar_of_mem (by simp_all)] at hname
    cases hname

theorem splitNumeral?_eq_none {c : Char} (hd : isDigit c = false) (hc : c ∉ ['+', '-', '.'])
    (cs : List Char) : splitNumeral? (c :: cs) = none := by
  have hsign : takeSign (c :: cs) = ([], c :: cs) := by
    rw [takeSign, if_neg]
    rintro (rfl | rfl) <;> simp at hc
  have hdigits : splitDigits (c :: cs) = ([], c :: cs) := by
    simp [splitDigits, hd]
  rw [splitNumeral?_eq, hsign, splitMantissa?, hdigits, Option.map_eq_none_iff]
  split
  · rename_i he
    cases he
    simp at hc
  · rfl
  · simp_all
  · simp_all

/-- Digits, signs, points and exponent marks. -/
theorem IsNumeral.mem {cs : List Char} (h : IsNumeral cs) {c : Char} (hc : c ∈ cs) :
    isDigit c = true ∨ c ∈ ['+', '-', '.', 'e', 'E'] := by
  obtain ⟨sign, mantissa, exponent, rfl, hs, hm, he⟩ := h
  have hsign (sign : List Char) (hs : IsSign sign) (hc : c ∈ sign) : c ∈ ['+', '-', '.', 'e', 'E'] := by
    rcases hs with rfl | rfl | rfl
    · cases hc
    · simp_all
    · simp_all
  have hpoint : c = '.' → c ∈ ['+', '-', '.', 'e', 'E'] := fun h => by simp [h]
  rcases List.mem_append.1 hc with hc | hc
  · rcases List.mem_append.1 hc with hc | hc
    · exact .inr (hsign sign hs hc)
    · cases hm with
      | whole h => exact .inl (h.2 c hc)
      | point h hf =>
        rcases List.mem_append.1 hc with hc | hc
        · exact .inl (h.2 c hc)
        · rcases List.mem_cons.1 hc with hc | hc
          · exact .inr (hpoint hc)
          · exact .inl (hf c hc)
      | fraction h =>
        rcases List.mem_cons.1 hc with hc | hc
        · exact .inr (hpoint hc)
        · exact .inl (h.2 c hc)
  · cases he with
    | none => cases hc
    | some hmark hs hd =>
      rcases List.mem_append.1 hc with hc | hc
      · rcases List.mem_cons.1 hc with rfl | hc
        · exact .inr (by rcases hmark with rfl | rfl <;> simp)
        · exact .inr (hsign _ hs hc)
      · exact .inl (hd.2 c hc)

/-- A numeral looks like a name, but for its first character. -/
theorem IsNumeral.isNameChar {cs : List Char} (h : IsNumeral cs) {c : Char} (hc : c ∈ cs) :
    isNameChar c = true := by
  rcases h.mem hc with hc | hc
  · exact isNameChar_of_isDigit hc
  · exact isNameChar_of_mem hc

end Reckoner
