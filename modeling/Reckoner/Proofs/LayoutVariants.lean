import Reckoner.Proofs.StatementLists

/-! Layout. How much of it stands where there is any makes no difference to readers, so the statements of a
text are those of the text with its line ends unified. -/

namespace Reckoner
open Text

/-- Two texts that agree but for the amounts of layout. At the end there may be some in one of them only. -/
inductive Relaid : List Char → List Char → Prop where
  | ended {l l' : List Char} (hl : ∀ c, c ∈ l → isLayout c = true) (hl' : ∀ c, c ∈ l' → isLayout c = true) :
    Relaid l l'
  | cons {c : Char} {s s' : List Char} (hc : isLayout c = false) (h : Relaid s s') :
    Relaid (c :: s) (c :: s')
  | layout {l l' s s' : List Char} (hne : l ≠ []) (hne' : l' ≠ [])
    (hl : ∀ c, c ∈ l → isLayout c = true) (hl' : ∀ c, c ∈ l' → isLayout c = true)
    (h : Relaid s s') : Relaid (l ++ s) (l' ++ s')

theorem relaid_unifyLineEnds (s : List Char) : Relaid s (unifyLineEnds s) := by
  have hrun (l l' : List Char) {s s' : List Char} (hl : l ≠ [] ∧ l.all isLayout = true)
      (hl' : l' ≠ [] ∧ l'.all isLayout = true) (h : Relaid s s') : Relaid (l ++ s) (l' ++ s') :=
    .layout hl.1 hl'.1 (List.all_eq_true.1 hl.2) (List.all_eq_true.1 hl'.2) h
  fun_induction unifyLineEnds s with
  | case1 cs ih => exact hrun ['\r', '\n'] ['\n'] (by decide) (by decide) ih
  | case2 cs _ ih => exact hrun ['\r'] ['\n'] (by decide) (by decide) ih
  | case3 c cs _ _ ih =>
    cases hc : isLayout c with
    | false => exact .cons hc ih
    | true => exact hrun [c] [c] (by simp [hc]) (by simp [hc]) ih
  | case4 => exact .ended nofun nofun

/-- Widened at least to something, layout stays layout. -/
theorem expandTabsFrom_layout_run {l : List Char} (hne : l ≠ []) (hl : ∀ c, c ∈ l → isLayout c = true)
    (column : Nat) (s : List Char) :
    ∃ column' l', expandTabsFrom column (l ++ s) = l' ++ expandTabsFrom column' s ∧ l' ≠ [] ∧
      ∀ c, c ∈ l' → isLayout c = true := by
  cases l with
  | nil => exact absurd rfl hne
  | cons c l =>
    obtain ⟨hc, hl⟩ := List.forall_mem_cons.1 hl
    obtain ⟨a, l₁, ha, hne₁, hl₁⟩ := expandTabsFrom_layout hc column (l ++ s)
    obtain ⟨b, l₂, hb, hl₂⟩ := expandTabsFrom_layout_append hl a s
    refine ⟨b, l₁ ++ l₂, ?_, List.append_ne_nil_of_left_ne_nil hne₁ l₂, List.forall_mem_append.2 ⟨hl₁, hl₂⟩⟩
    rw [List.cons_append, ha, hb, List.append_assoc]

/-- A whole text can be thought of as standing inside of brackets that it does not close. -/
theorem Relaid.coupled {s s' : List Char} (h : Relaid s s') {k : Nat} (hk : s.countP isCloser < k)
    (a b : Nat) : Coupled [] [] k (expandTabsFrom a s) (expandTabsFrom b s') := by
  induction h generalizing k a b with
  | @ended l l' hl hl' =>
    obtain ⟨a', m, hm, hlayout⟩ := expandTabsFrom_layout_append hl a []
    obtain ⟨b', m', hm', hlayout'⟩ := expandTabsFrom_layout_append hl' b []
    rw [List.append_nil] at hm hm'
    rw [hm, hm', expandTabsFrom, List.append_nil, expandTabsFrom, List.append_nil]
    exact .ended k hlayout hlayout'
  | @cons c s s' hc _ ih =>
    obtain ⟨a', b', ha, hb⟩ := expandTabsFrom_mark hc a b s s'
    rw [ha, hb]
    cases ho : isOpener c with
    | true => exact .opener ho (ih (by grind) a' b')
    | false =>
      cases hcl : isCloser c with
      | true =>
        rw [List.countP_cons_of_pos hcl] at hk
        obtain ⟨j, rfl⟩ := Nat.exists_eq_add_one_of_ne_zero (Nat.ne_zero_of_lt hk)
        exact .closer hcl (ih (Nat.lt_of_succ_lt_succ hk) a' b')
      | false =>
        rw [List.countP_cons_of_neg (by simp [hcl])] at hk
        exact .plain hc ho hcl (fun _ => Nat.zero_lt_of_lt hk) (ih hk a' b')
  | @layout l l' s s' hne hne' hl hl' _ ih =>
    obtain ⟨a', m, ha, hm, hlayout⟩ := expandTabsFrom_layout_run hne hl a s
    obtain ⟨b', m', hb, hm', hlayout'⟩ := expandTabsFrom_layout_run hne' hl' b s'
    rw [ha, hb]
    rw [List.countP_append] at hk
    exact .layout hm hm' hlayout hlayout' (ih (Nat.lt_of_le_of_lt (Nat.le_add_left _ _) hk) a' b')

namespace Grammar
open Reader
variable {m : Machine} {p n k : Nat}

theorem local_endOfText : endOfText.Local k k := by
  intro after after' s s' h
  rcases h.next with ⟨hnil, hnil'⟩ | ⟨d, t, t', hd, hd', hn⟩
  · simp only [endOfText, hnil, hnil']
    exact .matched () (.ended k (List.forall_mem_nil _) (List.forall_mem_nil _))
  · simp only [endOfText, hd, hd']
    exact .mismatched _ _

theorem local_statement : (statement p n).Local (k + 1) (k + 1) :=
  (local_clauseOf (localOperands_operandWithin p n)).bind fun _ => local_semicolon.bind fun _ => local_pure _

theorem local_single : (single m).Local (k + 1) (k + 1) :=
  local_statement.bind fun _ => local_endOfText.bind fun _ => local_pure _

theorem local_program : (program m).Local (k + 1) (k + 1) :=
  local_statement.bind fun _ => (local_statement.many consuming_statement).bind fun _ =>
    local_endOfText.bind fun _ => local_pure _

end Grammar

/-- The same result, or failures of the same kind: a diagnostic may point elsewhere and quote otherwise. -/
inductive SameKind {α : Type} : Except Failure α → Except Failure α → Prop where
  | ok (a : α) : SameKind (.ok a) (.ok a)
  | unparsable (d d' : Diagnostic) :
    SameKind (.error (.error (.unparsable d))) (.error (.error (.unparsable d')))
  | failure (f : Failure) : SameKind (.error f) (.error f)

theorem sameKind_parseWith {α : Type} {r : Reader α} {source source' : String} {after after' : List Char}
    {k : Nat} (h : (r (expandTabs source.toList)).Alike after after' k (r (expandTabs source'.toList))) :
    SameKind (parseWith r source) (parseWith r source') := by
  simp only [parseWith]
  generalize r (expandTabs source.toList) = x at h ⊢
  generalize r (expandTabs source'.toList) = y at h ⊢
  cases h with
  | matched a => exact .ok a
  | mismatched m m' => exact .unparsable _ _
  | abandoned a => cases a <;> exact .failure _

/-- What is parsed does not depend on the amounts of layout. -/
theorem Relaid.parseProgram {source source' : String} (h : Relaid source.toList source'.toList) (m : Machine) :
    SameKind (parseProgram m source) (parseProgram m source') :=
  sameKind_parseWith (Grammar.local_program (h.coupled (Nat.lt_succ_self _) 0 0))

end Reckoner
