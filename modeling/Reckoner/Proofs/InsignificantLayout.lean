import Reckoner.Proofs.DiagnosticPlaces
import Reckoner.Proofs.LayoutVariants

/-! Words. At either end of a text layout may stand or not, and between two words there is some, no matter how
much: what a text is parsed as depends on its words only, and so does how it fails. -/

namespace Reckoner
open Text

/-- The words of a text: what stands between layout. -/
def words (s : List Char) : List (List Char) :=
  (s.splitOnP isLayout).filter (!·.isEmpty)

section Words
variable {s s' w r : List Char}

theorem words_layout_append {l : List Char} (hl : ∀ c, c ∈ l → isLayout c = true) (s : List Char) :
    words (l ++ s) = words s := by
  induction l with
  | nil => rfl
  | cons c l ih =>
    obtain ⟨hc, hl⟩ := List.forall_mem_cons.1 hl
    rw [List.cons_append, words, List.splitOnP_cons_eq_if_modifyHead, if_pos hc]
    exact ih hl

theorem isLayout_of_mem_takeWhile (s : List Char) : ∀ c, c ∈ s.takeWhile isLayout → isLayout c = true :=
  List.all_eq_true.1 List.all_takeWhile

theorem takeWhile_append_skipLayout (s : List Char) : s.takeWhile isLayout ++ skipLayout s = s :=
  List.takeWhile_append_dropWhile

private theorem words_skipLayout (s : List Char) : words (skipLayout s) = words s := by
  conv => rhs; rw [← takeWhile_append_skipLayout s, words_layout_append (isLayout_of_mem_takeWhile s)]

/-- A word ends at layout or at the end of the text. -/
theorem words_append (hne : w ≠ []) (hw : ∀ c, c ∈ w → isLayout c = false) (hr : Stops (!isLayout ·) r) :
    words (w ++ r) = w :: words r := by
  have hkeep (pieces : List (List Char)) : (w :: pieces).filter (!·.isEmpty) = w :: pieces.filter (!·.isEmpty) :=
    List.filter_cons_of_pos (by simpa using hne)
  cases r with
  | nil => rw [List.append_nil, words, List.splitOnP_eq_singleton hw, hkeep]; rfl
  | cons c r =>
    have hc : isLayout c = true := by simpa using hr c rfl
    rw [words, List.splitOnP_append_cons_of_forall_mem hw c hc, hkeep]
    exact congrArg (w :: ·) (words_layout_append (List.forall_mem_singleton.2 hc) r).symm

/-- Behind layout a text has ended, or it goes on with its first word. -/
theorem skipLayout_eq_nil_or_append (s : List Char) : skipLayout s = [] ∧ words s = [] ∨
    ∃ w r, skipLayout s = w ++ r ∧ w ≠ [] ∧ (∀ c, c ∈ w → isLayout c = false) ∧ Stops (!isLayout ·) r ∧
      words s = w :: words r := by
  rw [← words_skipLayout s]
  have hstops := stops_dropWhile isLayout s
  change Stops isLayout (skipLayout s) at hstops
  generalize skipLayout s = t at hstops ⊢
  cases t with
  | nil => exact .inl ⟨rfl, rfl⟩
  | cons c t =>
    have hc : (!isLayout c) = true := by simpa using hstops c rfl
    have hw : ∀ d, d ∈ (c :: t).takeWhile (!isLayout ·) → isLayout d = false := fun d hd => by
      simpa using List.all_eq_true.1 List.all_takeWhile d hd
    have hne : (c :: t).takeWhile (!isLayout ·) ≠ [] := by simp [hc]
    have hr := stops_dropWhile (!isLayout ·) (c :: t)
    have happend := List.takeWhile_append_dropWhile (p := (!isLayout ·)) (l := c :: t)
    exact .inr ⟨_, _, happend.symm, hne, hw, hr, by rw [← words_append hne hw hr, happend]⟩

private theorem words_eq_nil_iff : words s = [] ↔ ∀ c, c ∈ s → isLayout c = true := by
  rw [← skipLayout_eq_nil_iff]
  rcases skipLayout_eq_nil_or_append s with ⟨hs, hw⟩ | ⟨w, r, hs, hne, -, -, hw⟩
  · exact iff_of_true hw hs
  · exact iff_of_false (by simp [hw]) (by simp [hs, hne])

private theorem Relaid.append_word (hw : ∀ c, c ∈ w → isLayout c = false) (h : Relaid s s') :
    Relaid (w ++ s) (w ++ s') := by
  induction w with
  | nil => exact h
  | cons c w ih =>
    obtain ⟨hc, hw⟩ := List.forall_mem_cons.1 hw
    exact .cons hc (ih hw)

/-- Layout that ends a word stands in front of the next word. -/
theorem takeWhile_isLayout_ne_nil (hr : Stops (!isLayout ·) r) (hne : r ≠ []) : r.takeWhile isLayout ≠ [] := by
  cases r with
  | nil => exact absurd rfl hne
  | cons c r =>
    have hc : isLayout c = true := by simpa using hr c rfl
    simp [hc]

/-- Two texts with the same words agree, behind the layout at their starts, but for the amounts of layout. -/
theorem relaid_of_words (h : words s = words s') : Relaid (skipLayout s) (skipLayout s') := by
  generalize hws : words s = ws at h
  induction ws generalizing s s' with
  | nil =>
    rw [skipLayout_eq_nil_iff.2 (words_eq_nil_iff.1 hws), skipLayout_eq_nil_iff.2 (words_eq_nil_iff.1 h.symm)]
    exact .ended (List.forall_mem_nil _) (List.forall_mem_nil _)
  | cons w ws ih =>
    rcases skipLayout_eq_nil_or_append s with ⟨-, hnil⟩ | ⟨v, r, hs, -, hv, hr, hcons⟩
    · rw [hws] at hnil
      cases hnil
    rcases skipLayout_eq_nil_or_append s' with ⟨-, hnil⟩ | ⟨v', r', hs', -, -, hr', hcons'⟩
    · rw [← h] at hnil
      cases hnil
    rw [hws] at hcons
    rw [← h] at hcons'
    obtain ⟨rfl, hrest⟩ := List.cons.inj hcons
    obtain ⟨rfl, hrest'⟩ := List.cons.inj hcons'
    rw [hs, hs']
    refine Relaid.append_word hv ?_
    by_cases hend : ws = []
    · exact .ended (words_eq_nil_iff.1 (hrest.symm.trans hend)) (words_eq_nil_iff.1 (hrest'.symm.trans hend))
    · have hne : r ≠ [] := by
        rintro rfl
        exact hend hrest
      have hne' : r' ≠ [] := by
        rintro rfl
        exact hend hrest'
      rw [← takeWhile_append_skipLayout r, ← takeWhile_append_skipLayout r']
      exact .layout (takeWhile_isLayout_ne_nil hr hne) (takeWhile_isLayout_ne_nil hr' hne')
        (isLayout_of_mem_takeWhile r) (isLayout_of_mem_takeWhile r') (ih hrest.symm hrest')

end Words

/-- A reader that begins with skipping layout parses texts with the same words alike. -/
theorem sameKind_of_words {α : Type} {r : Reader α} (hskips : r.Skips) (hlocal : ∀ k, r.Local (k + 1) (k + 1))
    {source source' : String} (h : words source.toList = words source'.toList) :
    SameKind (parseWith r source) (parseWith r source') := by
  obtain ⟨a, ha⟩ := exists_skipLayout_expandTabsFrom 0 source.toList
  obtain ⟨b, hb⟩ := exists_skipLayout_expandTabsFrom 0 source'.toList
  have hcoupled := (relaid_of_words h).coupled (Nat.lt_succ_self _) a b
  rw [← ha, ← hb] at hcoupled
  have halike := hlocal _ hcoupled
  rw [hskips, hskips] at halike
  exact sameKind_parseWith halike

/-- Layout is insignificant. Texts with the same words, which differ only in what layout stands between them and
in whether any stands at either end, give the same statements or failures of the same kind. -/
theorem layout_is_insignificant (m : Machine) {source source' : String}
    (h : words source.toList = words source'.toList) :
    SameKind (parseStatement m source) (parseStatement m source') ∧
      SameKind (parseProgram m source) (parseProgram m source') :=
  ⟨sameKind_of_words (Grammar.skips_statement.bind _) (fun _ => Grammar.local_single) h,
    sameKind_of_words (Grammar.skips_statement.bind _) (fun _ => Grammar.local_program) h⟩

/-- Two statements where one is wanted, with a tab between them or with line ends all around. -/
theorem relaid_statements_are_read_alike :
    words "x;\ty;".toList = words "\r\nx; \n y;\t".toList ∧
      (parseProgram ⟨53, 1000⟩ "x;\ty;" = .ok [.expression (.symbol "x"), .expression (.symbol "y")] ∧
        parseProgram ⟨53, 1000⟩ "\r\nx; \n y;\t" = .ok [.expression (.symbol "x"), .expression (.symbol "y")]) ∧
      ∃ d d', parseStatement ⟨53, 1000⟩ "x;\ty;" = .error (.error (.unparsable d)) ∧
        parseStatement ⟨53, 1000⟩ "\r\nx; \n y;\t" = .error (.error (.unparsable d')) := by
  have hwords : words "x;\ty;".toList = words "\r\nx; \n y;\t".toList := by decide
  have hlist : parseProgram ⟨53, 1000⟩ "x;\ty;" = .ok [.expression (.symbol "x"), .expression (.symbol "y")] := rfl
  have hrejected : (rejection? (parseStatement ⟨53, 1000⟩ "x;\ty;")).isSome = true := by decide +kernel
  obtain ⟨d, hd⟩ := Option.isSome_iff_exists.1 hrejected
  have hsingle := rejection?_eq_some hd
  obtain ⟨hsame, hsame'⟩ := layout_is_insignificant ⟨53, 1000⟩ hwords
  rw [hsingle] at hsame
  rw [hlist] at hsame'
  generalize parseStatement ⟨53, 1000⟩ "\r\nx; \n y;\t" = single at hsame ⊢
  generalize parseProgram ⟨53, 1000⟩ "\r\nx; \n y;\t" = list at hsame' ⊢
  cases hsame'
  cases hsame <;> exact ⟨hwords, ⟨hlist, rfl⟩, d, _, hsingle, rfl⟩

end Reckoner
