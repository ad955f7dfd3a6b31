import Reckoner.Proofs.Derivation
import Reckoner.Text.Lines

/-! Widened tabs: layout stays layout, and what is no layout stays as it is, so a text consists of the
same tokens before and after its tabs are widened. -/

namespace Reckoner
open Text

theorem exists_expandTabsFrom_tab (column : Nat) (cs : List Char) :
    ∃ width, expandTabsFrom column ('\t' :: cs) =
      ' ' :: (List.replicate width ' ' ++ expandTabsFrom (column + width + 1) cs) := by
  refine ⟨8 - column % 8 - 1, ?_⟩
  have hw : 8 - column % 8 = 8 - column % 8 - 1 + 1 := by omega
  rw [expandTabsFrom, if_pos rfl]
  conv => lhs; rw [hw]
  rfl

theorem exists_expandTabsFrom_cons (column : Nat) {c : Char} (hc : c ≠ '\t') (cs : List Char) :
    ∃ column', expandTabsFrom column (c :: cs) = c :: expandTabsFrom column' cs := by
  rw [expandTabsFrom, if_neg hc]
  split
  · exact ⟨0, rfl⟩
  · exact ⟨column + 1, rfl⟩

/-- Layout before a text is widened apart from the text. -/
theorem exists_skipLayout_expandTabsFrom (column : Nat) (cs : List Char) :
    ∃ column', skipLayout (expandTabsFrom column cs) = expandTabsFrom column' (skipLayout cs) := by
  induction cs generalizing column with
  | nil => exact ⟨column, rfl⟩
  | cons c cs ih =>
    by_cases hc : c = '\t'
    · subst hc
      obtain ⟨width, hw⟩ := exists_expandTabsFrom_tab column cs
      obtain ⟨column', h⟩ := ih (column + width + 1)
      refine ⟨column', ?_⟩
      rw [hw, skipLayout_cons_of_pos rfl, skipLayout_append (fun d hd => by
        rw [(List.mem_replicate.1 hd).2]; rfl), h, skipLayout_cons_of_pos rfl]
    · obtain ⟨next, hn⟩ := exists_expandTabsFrom_cons column hc cs
      cases hl : isLayout c with
      | true =>
        obtain ⟨column', h⟩ := ih next
        exact ⟨column', by rw [hn, skipLayout_cons_of_pos hl, skipLayout_cons_of_pos hl, h]⟩
      | false => exact ⟨column, by rw [skipLayout_cons_of_neg hl, hn, skipLayout_cons_of_neg hl]⟩

/-- A word is found in the widened text only where it stands in the text itself. -/
theorem exists_eq_append_of_expandTabsFrom {column : Nat} {cs word rest : List Char}
    (hword : ∀ c, c ∈ word → isLayout c = false) (h : expandTabsFrom column cs = word ++ rest) :
    ∃ cs' column', cs = word ++ cs' ∧ rest = expandTabsFrom column' cs' := by
  induction word generalizing column cs with
  | nil => exact ⟨cs, column, rfl, h.symm⟩
  | cons c word ih =>
    cases cs with
    | nil => cases h
    | cons d cs =>
      have hd : d ≠ '\t' := by
        rintro rfl
        obtain ⟨width, hw⟩ := exists_expandTabsFrom_tab column cs
        rw [hw] at h
        obtain rfl := (List.cons.inj h).1
        have := hword ' ' List.mem_cons_self
        cases this
      obtain ⟨next, hn⟩ := exists_expandTabsFrom_cons column hd cs
      rw [hn] at h
      obtain ⟨rfl, htail⟩ := List.cons.inj h
      obtain ⟨cs', column', rfl, hrest⟩ :=
        ih (fun c hc => hword c (List.mem_cons_of_mem _ hc)) htail
      exact ⟨cs', column', rfl, hrest⟩

/-- A word stays as it is. -/
theorem exists_expandTabsFrom_append {word : List Char} (hword : ∀ c, c ∈ word → isLayout c = false)
    (column : Nat) (rest : List Char) :
    ∃ column', expandTabsFrom column (word ++ rest) = word ++ expandTabsFrom column' rest := by
  induction word generalizing column with
  | nil => exact ⟨column, rfl⟩
  | cons c word ih =>
    have hc : c ≠ '\t' := by
      rintro rfl
      have := hword '\t' List.mem_cons_self
      cases this
    obtain ⟨next, hn⟩ := exists_expandTabsFrom_cons column hc (word ++ rest)
    obtain ⟨column', h⟩ := ih (fun c hc => hword c (List.mem_cons_of_mem _ hc)) next
    exact ⟨column', by rw [List.cons_append, hn, h]; rfl⟩

private theorem stops_expandTabsFrom {column : Nat} {cs : List Char} :
    Stops isNameChar (expandTabsFrom column cs) ↔ Stops isNameChar cs := by
  cases cs with
  | nil => rfl
  | cons c cs =>
    by_cases hc : c = '\t'
    · subst hc
      obtain ⟨width, hw⟩ := exists_expandTabsFrom_tab column cs
      rw [hw]
      exact iff_of_true (by rintro _ ⟨⟩; decide) (by rintro _ ⟨⟩; decide)
    · obtain ⟨next, hn⟩ := exists_expandTabsFrom_cons column hc cs
      rw [hn]
      rfl

theorem expandTabsFrom_eq_nil_iff {column : Nat} {cs : List Char} :
    expandTabsFrom column cs = [] ↔ cs = [] := by
  cases cs with
  | nil => exact iff_of_true rfl rfl
  | cons c cs =>
    refine iff_of_false (fun h => ?_) nofun
    by_cases hc : c = '\t'
    · subst hc
      obtain ⟨width, hw⟩ := exists_expandTabsFrom_tab column cs
      rw [hw] at h
      cases h
    · obtain ⟨next, hn⟩ := exists_expandTabsFrom_cons column hc cs
      rw [hn] at h
      cases h

/-- A token has characters, and none of them is layout. -/
theorem Token.Fits.chars {t : Token} {rest : List Char} (h : t.Fits rest) :
    t.chars ≠ [] ∧ ∀ c, c ∈ t.chars → isLayout c = false := by
  cases t with
  | mark c =>
    refine ⟨nofun, fun d hd => ?_⟩
    obtain rfl := List.mem_singleton.1 hd
    exact forall_mem_of_all (P := fun c => isLayout c = false) (by decide) d h
  | operator c =>
    refine ⟨nofun, fun d hd => ?_⟩
    obtain rfl := List.mem_singleton.1 hd
    exact forall_mem_of_all (P := fun c => isLayout c = false) (by decide) d h
  | name cs =>
    obtain ⟨hform, -⟩ := h
    refine ⟨fun hnil => ?_, fun c hc => not_isLayout_of_isNameChar (hform.isNameChar hc)⟩
    obtain ⟨c, body, rfl, -⟩ := hform
    cases hnil
  | numeral cs =>
    obtain ⟨hform, -⟩ := h
    refine ⟨fun hnil => ?_, fun c hc => not_isLayout_of_isNameChar (hform.isNameChar hc)⟩
    obtain ⟨sign, mantissa, exponent, rfl, -, hm, -⟩ := hform
    obtain ⟨c, body, rfl, -⟩ := hm.head
    simp [Token.chars] at hnil

/-- The tokens of a widened text are tokens of the text. -/
theorem Covers.of_expandTabsFrom {column : Nat} {cs rest : List Char} {ts : List Token}
    (h : Covers (expandTabsFrom column cs) ts rest) :
    ∃ rest' column', Covers cs ts rest' ∧ rest = expandTabsFrom column' rest' := by
  generalize hs : expandTabsFrom column cs = s at h
  induction h generalizing column cs with
  | nil => exact ⟨cs, column, .nil cs, hs.symm⟩
  | @cons layout s rest t ts hl ht _ ih =>
    obtain ⟨hne, hchars⟩ := ht.chars
    obtain ⟨start, hstart⟩ := exists_skipLayout_expandTabsFrom column cs
    rw [hs, skipLayout_append_word hl hne hchars] at hstart
    obtain ⟨cs', column', hcs, rfl⟩ := exists_eq_append_of_expandTabsFrom hchars hstart.symm
    obtain ⟨rest', column'', hcov, hrest⟩ := ih rfl
    have hfits : t.Fits cs' := by
      cases t with
      | name => exact ⟨ht.1, stops_expandTabsFrom.1 ht.2⟩
      | mark => exact ht
      | operator => exact ht
      | numeral => exact ht
    refine ⟨rest', column'', ?_, hrest⟩
    have heq : cs = cs.takeWhile isLayout ++ (t.chars ++ cs') := by
      rw [← hcs]
      exact List.takeWhile_append_dropWhile.symm
    rw [heq]
    exact .cons (fun c hc => List.all_eq_true.1 List.all_takeWhile c hc) hfits hcov

theorem Consists.of_expandTabs {cs : List Char} {ts : List Token} (h : Consists (expandTabs cs) ts) :
    Consists cs ts := by
  obtain ⟨rest, hcov, hl⟩ := h
  obtain ⟨rest', column, hsource, rfl⟩ := hcov.of_expandTabsFrom
  refine ⟨rest', hsource, skipLayout_eq_nil_iff.1 ?_⟩
  obtain ⟨column', h⟩ := exists_skipLayout_expandTabsFrom column rest'
  rw [skipLayout_eq_nil_iff.2 hl] at h
  exact expandTabsFrom_eq_nil_iff.1 h.symm

end Reckoner
