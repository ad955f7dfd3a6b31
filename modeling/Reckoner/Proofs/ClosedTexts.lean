import Reckoner.Proofs.LocalReading
import Reckoner.Proofs.TabWidening

/-! Closed texts. Brackets are balanced in what tokens derive, so the text of a statement with its semicolon
closes there, and is read alike wherever it stands. -/

namespace Reckoner
open Text

/-- How deep in brackets a text is behind a token, unless it has come to the end of its statement. -/
def Token.depth? (k : Nat) : Token → Option Nat
  | mark c =>
    if isOpener c then some (k + 1)
    else if (isCloser c ∨ c = ';') ∧ k = 0 then none
    else if isCloser c then some (k - 1)
    else some k
  | _ => some k

def depth? : Nat → List Token → Option Nat
  | k, [] => some k
  | k, t :: ts => (t.depth? k).bind fun j => depth? j ts

section Depth
variable (k : Nat) (ts us : List Token)

@[simp] theorem depth?_nil : depth? k [] = some k := rfl

@[simp] theorem depth?_append : depth? k (ts ++ us) = (depth? k ts).bind fun j => depth? j us := by
  induction ts generalizing k with
  | nil => rfl
  | cons t ts ih => simp [depth?, ih, Option.bind_assoc]

@[simp] theorem depth?_name (cs : List Char) : depth? k (.name cs :: ts) = depth? k ts := rfl

@[simp] theorem depth?_numeral (cs : List Char) : depth? k (.numeral cs :: ts) = depth? k ts := rfl

@[simp] theorem depth?_operator (c : Char) : depth? k (.operator c :: ts) = depth? k ts := rfl

@[simp] theorem depth?_comma : depth? k (.mark ',' :: ts) = depth? k ts := rfl

@[simp] theorem depth?_minus : depth? k (.mark '-' :: ts) = depth? k ts := rfl

@[simp] theorem depth?_parenthesis : depth? k (.mark '(' :: ts) = depth? (k + 1) ts := rfl

@[simp] theorem depth?_brace : depth? k (.mark '\x7b' :: ts) = depth? (k + 1) ts := rfl

@[simp] theorem depth?_closing_parenthesis : depth? (k + 1) (.mark ')' :: ts) = depth? k ts := rfl

@[simp] theorem depth?_closing_brace : depth? (k + 1) (.mark '\x7d' :: ts) = depth? k ts := rfl

@[simp] theorem depth?_semicolon : depth? (k + 1) (.mark ';' :: ts) = depth? (k + 1) ts := rfl

@[simp] theorem depth?_nameTokens (params : List (List Char)) : depth? k (nameTokens params) = some k := by
  cases params with
  | nil => rfl
  | cons first others =>
    rw [nameTokens, depth?_name]
    induction others with
    | nil => rfl
    | cons cs others ih => simpa using ih

end Depth

/-- The inside of a block stands in brackets. -/
def Phrase.StandsAt (k : Nat) : Phrase → Prop
  | body _ _ => 0 < k
  | _ => True

/-- Brackets are balanced in what derives a phrase, and semicolons stand inside of brackets only. -/
theorem Derives.depth? {p d : Nat} {ts : List Token} {phrase : Phrase} (h : Derives p d ts phrase)
    {k : Nat} (hk : phrase.StandsAt k) : Reckoner.depth? k ts = some k := by
  induction h generalizing k with
  | number | symbol | noArguments => rfl
  | parenthesized _ ih => simp [ih trivial]
  | block _ ih => simp [ih (Nat.succ_pos k)]
  | call cs _ ih => simp [ih trivial]
  | negation _ ih => simp [ih trivial]
  | primary _ ih | factor _ ih | term _ ih | firstItem _ ih | arguments _ ih | expression _ ih | final _ ih =>
    exact ih trivial
  | power _ _ ih ih' | product _ _ _ ih ih' | sum _ _ _ ih ih' | item _ _ ih ih' =>
    simp [ih trivial, ih' trivial]
  | definition cs params _ ih => simp [ih trivial]
  | assignment cs _ ih => simp [ih trivial]
  | statement _ _ ih ih' =>
    obtain ⟨j, rfl⟩ := Nat.exists_eq_succ_of_ne_zero (Nat.ne_of_gt hk)
    simp [ih trivial, ih' (Nat.succ_pos j)]

/-- A text, inside of so many brackets, whose last character and none before it ends what readers look at. -/
inductive Closes : Nat → List Char → Prop where
  | stop {c : Char} (hc : isCloser c = true ∨ c = ';') : Closes 0 [c]
  | opener {k : Nat} {c : Char} {s : List Char} (hc : isOpener c = true) (h : Closes (k + 1) s) :
    Closes k (c :: s)
  | closer {k : Nat} {c : Char} {s : List Char} (hc : isCloser c = true) (h : Closes k s) :
    Closes (k + 1) (c :: s)
  | plain {k : Nat} {c : Char} {s : List Char} (ho : isOpener c = false) (hc : isCloser c = false)
    (hk : c = ';' → 0 < k) (h : Closes k s) : Closes k (c :: s)

section Closes
variable {k : Nat} {s : List Char}

theorem Closes.append {w : List Char}
    (hw : ∀ c, c ∈ w → isOpener c = false ∧ isCloser c = false ∧ c ≠ ';') (h : Closes k s) :
    Closes k (w ++ s) := by
  induction w with
  | nil => exact h
  | cons c w ih =>
    obtain ⟨ho, hc, hs⟩ := hw c List.mem_cons_self
    exact .plain ho hc (fun he => absurd he hs) (ih fun d hd => hw d (List.mem_cons_of_mem _ hd))

theorem plain_of_isLayout {c : Char} (h : isLayout c = true) :
    isOpener c = false ∧ isCloser c = false ∧ c ≠ ';' := by
  refine ⟨Bool.eq_false_iff.2 fun ho => ?_, Bool.eq_false_iff.2 fun hc => ?_, ?_⟩
  · rw [not_isLayout_of_isOpener ho] at h
    cases h
  · rw [not_isLayout_of_isCloser hc] at h
    cases h
  · rintro rfl
    cases h

private theorem plain_of_isNameChar {c : Char} (h : isNameChar c = true) :
    isOpener c = false ∧ isCloser c = false ∧ c ≠ ';' := by
  refine ⟨Bool.eq_false_iff.2 fun ho => ?_, Bool.eq_false_iff.2 fun hc => ?_, ?_⟩
  · rw [not_isNameChar_of_isOpener ho] at h
    cases h
  · rw [not_isNameChar_of_isCloser hc] at h
    cases h
  · rintro rfl
    cases h

private theorem Token.Fits.closes {t : Token} {rest : List Char} {j : Nat} (ht : t.Fits rest)
    (hd : t.depth? k = some j) (h : Closes j s) : Closes k (t.chars ++ s) := by
  cases t with
  | name cs =>
    cases hd
    exact h.append fun c hc => plain_of_isNameChar (ht.1.isNameChar hc)
  | numeral cs =>
    cases hd
    exact h.append fun c hc => plain_of_isNameChar (ht.1.isNameChar hc)
  | operator c =>
    cases hd
    refine h.append fun d hc => ?_
    obtain rfl := List.mem_singleton.1 hc
    exact forall_mem_of_all (P := fun c => isOpener c = false ∧ isCloser c = false ∧ c ≠ ';')
      (by decide) d ht
  | mark c =>
    simp only [Token.depth?] at hd
    split at hd
    · rename_i ho
      cases hd
      exact .opener ho h
    · rename_i ho
      split at hd
      · cases hd
      · rename_i hk
        split at hd
        · rename_i hc
          cases hd
          obtain ⟨i, rfl⟩ := Nat.exists_eq_succ_of_ne_zero fun h0 => hk ⟨.inl hc, h0⟩
          exact .closer hc h
        · rename_i hc
          cases hd
          refine .plain (Bool.eq_false_iff.2 ho) (Bool.eq_false_iff.2 hc) (fun he => ?_) h
          exact Nat.pos_of_ne_zero fun h0 => hk ⟨.inr he, h0⟩

/-- What tokens cover lets a text close at the depth to which they lead. -/
theorem Covers.closes {rest : List Char} {ts : List Token} {j : Nat} (h : Covers s ts rest)
    (hd : depth? k ts = some j) :
    ∃ w, s = w ++ rest ∧ ∀ t, Closes j t → Closes k (w ++ t) := by
  induction h generalizing k with
  | nil rest =>
    cases hd
    exact ⟨[], rfl, fun t ht => ht⟩
  | @cons layout s rest t ts hl ht _ ih =>
    obtain ⟨i, hi, hrest⟩ := Option.bind_eq_some_iff.1 hd
    obtain ⟨w, rfl, hw⟩ := ih hrest
    refine ⟨layout ++ (t.chars ++ w), by simp, fun u hu => ?_⟩
    rw [List.append_assoc, List.append_assoc]
    exact (ht.closes hi (hw u hu)).append fun c hc => plain_of_isLayout (hl c hc)

theorem expandTabsFrom_mark {c : Char} (h : isLayout c = false) (a b : Nat) (u v : List Char) :
    ∃ a' b', expandTabsFrom a (c :: u) = c :: expandTabsFrom a' u ∧
      expandTabsFrom b (c :: v) = c :: expandTabsFrom b' v := by
  have hc : c ≠ '\t' := by
    rintro rfl
    cases h
  obtain ⟨a', ha⟩ := exists_expandTabsFrom_cons a hc u
  obtain ⟨b', hb⟩ := exists_expandTabsFrom_cons b hc v
  exact ⟨a', b', ha, hb⟩

/-- Layout becomes layout, and at least one character of it. -/
theorem expandTabsFrom_layout {c : Char} (h : isLayout c = true) (a : Nat) (u : List Char) :
    ∃ a' l, expandTabsFrom a (c :: u) = l ++ expandTabsFrom a' u ∧ l ≠ [] ∧
      ∀ d, d ∈ l → isLayout d = true := by
  by_cases hc : c = '\t'
  · subst hc
    obtain ⟨width, hw⟩ := exists_expandTabsFrom_tab a u
    refine ⟨a + width + 1, ' ' :: List.replicate width ' ', hw, List.cons_ne_nil _ _, fun d hd => ?_⟩
    rw [List.eq_of_mem_replicate (n := width + 1) hd]
    rfl
  · obtain ⟨a', ha⟩ := exists_expandTabsFrom_cons a hc u
    exact ⟨a', [c], ha, List.cons_ne_nil _ _, List.forall_mem_singleton.2 h⟩

/-- A text that closes reads alike wherever it stands, although its tabs may be widened differently. -/
theorem Closes.coupled (h : Closes k s) (u v : List Char) (a b : Nat) :
    ∃ a' b', Coupled (expandTabsFrom a' u) (expandTabsFrom b' v) k (expandTabsFrom a (s ++ u))
      (expandTabsFrom b (s ++ v)) := by
  induction h generalizing a b with
  | @stop c hc =>
    have hl : isLayout c = false := by
      rcases hc with hc | rfl
      · exact not_isLayout_of_isCloser hc
      · decide
    obtain ⟨a', b', ha, hb⟩ := expandTabsFrom_mark hl a b u v
    refine ⟨a', b', ?_⟩
    rw [List.cons_append, List.cons_append, List.nil_append, List.nil_append, ha, hb]
    exact .stop hc
  | @opener k c s hc _ ih =>
    obtain ⟨a₁, b₁, ha, hb⟩ := expandTabsFrom_mark (not_isLayout_of_isOpener hc) a b (s ++ u) (s ++ v)
    obtain ⟨a', b', hcoupled⟩ := ih a₁ b₁
    refine ⟨a', b', ?_⟩
    rw [List.cons_append, List.cons_append, ha, hb]
    exact .opener hc hcoupled
  | @closer k c s hc _ ih =>
    obtain ⟨a₁, b₁, ha, hb⟩ := expandTabsFrom_mark (not_isLayout_of_isCloser hc) a b (s ++ u) (s ++ v)
    obtain ⟨a', b', hcoupled⟩ := ih a₁ b₁
    refine ⟨a', b', ?_⟩
    rw [List.cons_append, List.cons_append, ha, hb]
    exact .closer hc hcoupled
  | @plain k c s ho hc hk _ ih =>
    rw [List.cons_append, List.cons_append]
    cases hl : isLayout c with
    | true =>
      obtain ⟨a₁, l, ha, hne, hlayout⟩ := expandTabsFrom_layout hl a (s ++ u)
      obtain ⟨b₁, l', hb, hne', hlayout'⟩ := expandTabsFrom_layout hl b (s ++ v)
      obtain ⟨a', b', hcoupled⟩ := ih a₁ b₁
      refine ⟨a', b', ?_⟩
      rw [ha, hb]
      exact .layout hne hne' hlayout hlayout' hcoupled
    | false =>
      obtain ⟨a₁, b₁, ha, hb⟩ := expandTabsFrom_mark hl a b (s ++ u) (s ++ v)
      obtain ⟨a', b', hcoupled⟩ := ih a₁ b₁
      refine ⟨a', b', ?_⟩
      rw [ha, hb]
      exact .plain hl ho hc hk hcoupled

end Closes

private theorem Covers.of_append {s rest : List Char} {ts us : List Token} (h : Covers s (ts ++ us) rest) :
    ∃ m, Covers s ts m ∧ Covers m us rest := by
  induction ts generalizing s with
  | nil => exact ⟨s, .nil s, h⟩
  | cons t ts ih =>
    cases h with
    | cons hl ht h =>
      obtain ⟨m, hm, hrest⟩ := ih h
      exact ⟨m, .cons hl ht hm, hrest⟩

/-- What tokens and a semicolon behind them cover closes there. -/
theorem Covers.closes_clause {p d : Nat} {s rest : List Char} {ts : List Token} {clause : Statement}
    (h : Covers s (ts ++ [.mark ';']) rest) (hd : Derives p d ts (.clause clause)) :
    ∃ text, s = text ++ rest ∧ Closes 0 text := by
  obtain ⟨m, hts, hlast⟩ := h.of_append
  obtain ⟨w, rfl, hw⟩ := hts.closes (k := 0) (hd.depth? trivial)
  generalize hsemicolon : [Token.mark ';'] = last at hlast
  cases hlast with
  | nil => cases hsemicolon
  | @cons layout _ _ _ _ hl ht hnil =>
    cases hsemicolon
    cases hnil
    refine ⟨w ++ (layout ++ [';']), by simp [Token.chars], hw _ ?_⟩
    exact .append (fun c hc => plain_of_isLayout (hl c hc)) (.stop (.inr rfl))

end Reckoner
