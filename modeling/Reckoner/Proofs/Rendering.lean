import Reckoner.Proofs.TabWidening

/-! Rendered texts: tokens written one after another, with layout on both sides of every operator and
any amount of layout around the other tokens. -/

namespace Reckoner
open Text

/-- A text that begins with a layout character. -/
def StartsWithLayout (s : List Char) : Prop :=
  ∃ c rest, s = c :: rest ∧ isLayout c = true

/-- Characters that no name begins with, though they may stand in it. -/
def reservedChars : List Char :=
  ['+', '-', '*', '/', '^', '=', '.']

/-- A token as it is written between the layout before it and the text after it. -/
def Token.Written (layout rest : List Char) : Token → Prop
  | mark c => c ∈ markChars
  | operator c => c ∈ operatorChars ∧ layout ≠ [] ∧ StartsWithLayout rest
  | name cs => IsName cs ∧ ∀ c, cs.head? = some c → c ∉ reservedChars
  | numeral cs => IsNumeral cs ∧ ∀ c, cs.head? = some c → c ≠ '+' ∧ c ≠ '-'

/-- A text that is written as tokens. -/
inductive Renders : List Char → List Token → Prop where
  | nil {layout : List Char} (hl : ∀ c, c ∈ layout → isLayout c = true) : Renders layout []
  | cons {layout s : List Char} {t : Token} {ts : List Token}
    (hl : ∀ c, c ∈ layout → isLayout c = true) (ht : t.Written layout s) (h : Renders s ts) :
    Renders (layout ++ (t.chars ++ s)) (t :: ts)

namespace Token.Written
variable {t : Token} {layout rest : List Char}

/-- A token of a rendered text would be a token of any text, but for what may follow a name. -/
theorem fits (h : t.Written layout rest) : t.Fits [] := by
  cases t with
  | mark c => exact h
  | operator c => exact h.1
  | name cs => exact ⟨h.1, nofun⟩
  | numeral cs => exact ⟨h.1, fun hc => (h.2 '-' hc).2 rfl⟩

theorem skipLayout_append (h : t.Written layout rest) (hl : ∀ c, c ∈ layout → isLayout c = true) :
    skipLayout (layout ++ (t.chars ++ rest)) = t.chars ++ rest :=
  skipLayout_append_word hl h.fits.chars.1 h.fits.chars.2 rest

end Token.Written

theorem written_name {c : Char} (hs : isNameStart c = true) (hr : c ∉ reservedChars)
    {layout rest : List Char} : (Token.name [c]).Written layout rest :=
  ⟨isName_singleton hs, fun _ hd => Option.some.inj hd ▸ hr⟩

private theorem startsWithLayout_expandTabsFrom {s : List Char} (h : StartsWithLayout s) (column : Nat) :
    StartsWithLayout (expandTabsFrom column s) := by
  obtain ⟨c, rest, rfl, hc⟩ := h
  by_cases htab : c = '\t'
  · subst htab
    obtain ⟨width, hw⟩ := exists_expandTabsFrom_tab column rest
    exact ⟨' ', _, hw, rfl⟩
  · obtain ⟨next, hn⟩ := exists_expandTabsFrom_cons column htab rest
    exact ⟨c, _, hn, hc⟩

namespace Renders
variable {s : List Char} {t : Token} {ts us : List Token}

theorem cons_mark {c : Char} (hc : c ∈ markChars) (h : Renders s ts) :
    Renders (c :: s) (.mark c :: ts) := by
  have : Renders ([] ++ ((Token.mark c).chars ++ s)) (.mark c :: ts) :=
    .cons (List.forall_mem_nil _) hc h
  exact this

theorem uncons (h : Renders s (t :: ts)) :
    ∃ layout rest, s = layout ++ (t.chars ++ rest) ∧ (∀ c, c ∈ layout → isLayout c = true) ∧
      t.Written layout rest ∧ Renders rest ts := by
  cases h with
  | cons hl ht h => exact ⟨_, _, rfl, hl, ht, h⟩

/-- Behind layout, the first token and the rendering of the others. -/
theorem skipLayout_eq (h : Renders s (t :: ts)) :
    ∃ layout rest, skipLayout s = t.chars ++ rest ∧ t.Written layout rest ∧ Renders rest ts := by
  obtain ⟨layout, rest, rfl, hl, ht, h⟩ := h.uncons
  exact ⟨layout, rest, ht.skipLayout_append hl, ht, h⟩

theorem skipLayout_eq_nil (h : Renders s []) : skipLayout s = [] := by
  cases h with
  | nil hl => exact skipLayout_eq_nil_iff.2 hl

theorem length_le (h : Renders s ts) : ts.length ≤ s.length := by
  induction h with
  | nil => exact Nat.zero_le _
  | cons _ ht _ ih =>
    have := List.length_pos_iff.2 ht.fits.chars.1
    simp only [List.length_append, List.length_cons]
    omega

/-- Widening tabs leaves the tokens as they are written. -/
theorem expandTabsFrom (h : Renders s ts) (column : Nat) :
    Renders (Text.expandTabsFrom column s) ts := by
  induction h generalizing column with
  | nil hl =>
    refine .nil (skipLayout_eq_nil_iff.1 ?_)
    obtain ⟨column', h⟩ := exists_skipLayout_expandTabsFrom column _
    rw [h, skipLayout_eq_nil_iff.2 hl]
    rfl
  | @cons layout s t ts hl ht h ih =>
    obtain ⟨_, hwide⟩ := exists_skipLayout_expandTabsFrom column (layout ++ (t.chars ++ s))
    obtain ⟨column', htoken⟩ := exists_expandTabsFrom_append ht.fits.chars.2 _ s
    rw [ht.skipLayout_append hl, htoken] at hwide
    generalize hw : Text.expandTabsFrom column (layout ++ (t.chars ++ s)) = wide at hwide
    have hsplit : wide = wide.takeWhile Text.isLayout ++ (t.chars ++ Text.expandTabsFrom column' s) := by
      rw [← hwide]
      exact List.takeWhile_append_dropWhile.symm
    have hlayout : layout ≠ [] → wide.takeWhile Text.isLayout ≠ [] := by
      intro hne
      cases layout with
      | nil => exact absurd rfl hne
      | cons c layout =>
        obtain ⟨d, rest, hd, hdl⟩ := startsWithLayout_expandTabsFrom
          ⟨c, layout ++ (t.chars ++ s), rfl, hl c List.mem_cons_self⟩ column
        rw [← hw, List.cons_append, hd, List.takeWhile_cons, if_pos hdl]
        nofun
    rw [hsplit]
    refine .cons (fun c hc => List.all_eq_true.1 List.all_takeWhile c hc) ?_ (ih column')
    cases t with
    | mark c => exact ht
    | operator c => exact ⟨ht.1, hlayout ht.2.1, startsWithLayout_expandTabsFrom ht.2.2 _⟩
    | name cs => exact ht
    | numeral cs => exact ht

end Renders

/-- Tokens with a space around each. -/
def spell (ts : List Token) : List Char :=
  ts.flatMap (fun t => ' ' :: t.chars) ++ [' ']

private theorem startsWithLayout_spell (ts : List Token) : StartsWithLayout (spell ts) := by
  cases ts with
  | nil => exact ⟨' ', [], rfl, rfl⟩
  | cons t ts => exact ⟨' ', t.chars ++ (ts.flatMap (fun t => ' ' :: t.chars) ++ [' ']), by simp [spell], rfl⟩

/-- Any tokens that have their forms can be written. -/
theorem renders_spell {ts : List Token} (h : ∀ t, t ∈ ts → t.Written [' '] [' ']) :
    Renders (spell ts) ts := by
  have hspace : ∀ c, c ∈ [' '] → isLayout c = true := forall_mem_of_all (by decide)
  induction ts with
  | nil => exact .nil hspace
  | cons t ts ih =>
    obtain ⟨ht, hts⟩ := List.forall_mem_cons.1 h
    have heq : spell (t :: ts) = [' '] ++ (t.chars ++ spell ts) := by simp [spell]
    rw [heq]
    refine .cons hspace ?_ (ih hts)
    cases t with
    | mark c => exact ht
    | operator c => exact ⟨ht.1, ht.2.1, startsWithLayout_spell ts⟩
    | name cs => exact ht
    | numeral cs => exact ht

end Reckoner
