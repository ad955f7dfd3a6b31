import Reckoner.Proofs.Readings

/-! An expression is first looked at as a definition or an assignment. These attempts go over names,
parentheses and commas only, and fail since no sign of a binding comes before the first brace or
semicolon, even where an attempt takes a minus and what follows it for one name. -/

namespace Reckoner
open Text

/-- No sign of a binding comes before the first brace or semicolon. -/
inductive Unbound : List Token → Prop where
  | stop {c : Char} (hc : c ∈ ['\x7b', '\x7d', ';']) (ts : List Token) : Unbound (.mark c :: ts)
  | cons {t : Token} {ts : List Token} (ht : t ≠ .operator '=') (h : Unbound ts) : Unbound (t :: ts)

/-- An expression or several, which bind nothing outside blocks. -/
def Phrase.Inline : Phrase → Prop
  | expression .. => True
  | items _ => True
  | arguments _ => True
  | clause _ => False
  | body .. => False

theorem Derives.unbound {p d : Nat} {ts us : List Token} {phrase : Phrase} (h : Derives p d ts phrase)
    (hp : phrase.Inline) (hus : Unbound us) : Unbound (ts ++ us) := by
  have hop {ops : List Char} {op : Char} (hops : '=' ∉ ops) (h : op ∈ ops) :
      Token.operator op ≠ .operator '=' := by
    rintro ⟨⟩
    exact hops h
  induction h generalizing us with
  | number => exact .cons nofun hus
  | symbol => exact .cons nofun hus
  | parenthesized _ ih =>
    simp only [List.cons_append, List.append_assoc]
    exact .cons nofun (ih trivial (.cons nofun hus))
  | block => exact .stop (by decide) _
  | call _ _ ih =>
    simp only [List.cons_append, List.append_assoc]
    exact .cons nofun (.cons nofun (ih trivial (.cons nofun hus)))
  | primary _ ih => exact ih trivial hus
  | negation _ ih => exact .cons nofun (ih trivial hus)
  | power _ _ ih ih' =>
    rw [List.append_assoc]
    exact ih trivial (.cons (by decide) (ih' trivial hus))
  | factor _ ih => exact ih trivial hus
  | product hmem _ _ ih ih' =>
    rw [List.append_assoc]
    exact ih trivial (.cons (hop (by decide) hmem) (ih' trivial hus))
  | term _ ih => exact ih trivial hus
  | sum hmem _ _ ih ih' =>
    rw [List.append_assoc]
    exact ih trivial (.cons (hop (by decide) hmem) (ih' trivial hus))
  | firstItem _ ih => exact ih trivial hus
  | item _ _ ih ih' =>
    rw [List.append_assoc]
    exact ih trivial (.cons nofun (ih' trivial hus))
  | noArguments => exact hus
  | arguments _ ih => exact ih trivial hus
  | definition => exact hp.elim
  | assignment => exact hp.elim
  | expression => exact hp.elim
  | final => exact hp.elim
  | statement => exact hp.elim

/-- A text that is written without the sign of a binding before the first brace or semicolon. -/
def Bindless (s : List Char) : Prop :=
  ∃ ts, Renders s ts ∧ Unbound ts

theorem isNameChar_of_mem_operatorChars {c : Char} (h : c ∈ operatorChars) : isNameChar c = true :=
  forall_mem_of_all (P := fun c => isNameChar c = true) (by decide) c h

section Written
variable {t : Token} {layout rest : List Char} {c : Char}

private theorem Token.Written.eq_mark (h : t.Written layout rest) (hc : t.chars.head? = some c)
    (hname : isNameChar c = false) : t = .mark c := by
  cases t with
  | mark d =>
    cases hc
    rfl
  | operator d =>
    cases hc
    rw [isNameChar_of_mem_operatorChars h.1] at hname
    cases hname
  | name cs =>
    rw [h.1.isNameChar (List.mem_of_head? hc)] at hname
    cases hname
  | numeral cs =>
    rw [h.1.isNameChar (List.mem_of_head? hc)] at hname
    cases hname

private theorem Token.Written.eq_operator (h : t.Written layout rest) (hc : t.chars.head? = some '=') :
    t = .operator '=' := by
  cases t with
  | mark d =>
    cases hc
    simp [Token.Written, markChars] at h
  | operator d =>
    cases hc
    rfl
  | name cs => exact absurd (h.2 '=' hc) (by decide)
  | numeral cs =>
    rcases h.1.mem (List.mem_of_head? hc) with hd | hmem
    · exact absurd hd (by decide)
    · simp at hmem

/-- Behind a run of name characters the text goes on with one of its tokens. -/
theorem Renders.bindless_dropWhile {s : List Char} {ts : List Token} (h : Renders s ts)
    (hu : Unbound ts) : Bindless ((skipLayout s).dropWhile isNameChar) := by
  induction h with
  | nil => cases hu
  | @cons layout s t ts hl ht h ih =>
    have hrun (hall : ∀ c, c ∈ t.chars → isNameChar c = true) (hu : Unbound ts) :
        Bindless ((t.chars ++ s).dropWhile isNameChar) := by
      rw [List.dropWhile_append_of_pos hall]
      cases s with
      | nil => exact ⟨ts, h, hu⟩
      | cons c s =>
        cases hc : isNameChar c with
        | false =>
          rw [List.dropWhile_cons, if_neg (ne_true_of_eq_false hc)]
          exact ⟨ts, h, hu⟩
        | true =>
          have := ih hu
          rwa [skipLayout_cons_of_neg (not_isLayout_of_isNameChar hc)] at this
    rw [ht.skipLayout_append hl]
    cases t with
    | mark c =>
      cases hc : isNameChar c with
      | false =>
        refine ⟨.mark c :: ts, ?_, hu⟩
        rw [Token.chars, List.singleton_append, List.dropWhile_cons, if_neg (ne_true_of_eq_false hc)]
        exact h.cons_mark ht
      | true =>
        cases hu with
        | stop hstop =>
          rw [forall_mem_of_all (P := fun c => isNameChar c = false) (by decide) c hstop] at hc
          cases hc
        | cons _ hu => exact hrun (fun d hd => List.mem_singleton.1 hd ▸ hc) hu
    | operator c =>
      cases hu with
      | cons _ hu =>
        have hc := isNameChar_of_mem_operatorChars ht.1
        exact hrun (fun d hd => List.mem_singleton.1 hd ▸ hc) hu
    | name cs =>
      cases hu with
      | cons _ hu => exact hrun (fun c hc => ht.1.isNameChar hc) hu
    | numeral cs =>
      cases hu with
      | cons _ hu => exact hrun (fun c hc => ht.1.isNameChar hc) hu

end Written

namespace Reader
variable {α β : Type} {r : Reader α}

/-- A reader does not match, or leaves a text without the sign of a binding. -/
def KeepsBindless (r : Reader α) : Prop :=
  ∀ s, Bindless s →
    (∃ m, r s = .mismatched m) ∨ ∃ a rest, r s = .matched a rest ∧ Bindless rest

def FailsBindless (r : Reader α) : Prop :=
  ∀ s, Bindless s → ∃ m, r s = .mismatched m

theorem KeepsBindless.bind {f : α → Reader β} (h : r.KeepsBindless) (hf : ∀ a, (f a).KeepsBindless) :
    (r >>= f).KeepsBindless := by
  intro s hs
  rcases h s hs with ⟨m, hm⟩ | ⟨a, rest, ha, hrest⟩
  · exact .inl ⟨m, bind_of_mismatched hm⟩
  · rw [bind_of_matched ha]
    exact hf a rest hrest

theorem KeepsBindless.bind_fails {f : α → Reader β} (h : r.KeepsBindless)
    (hf : ∀ a, (f a).FailsBindless) : (r >>= f).FailsBindless := by
  intro s hs
  rcases h s hs with ⟨m, hm⟩ | ⟨a, rest, ha, hrest⟩
  · exact ⟨m, bind_of_mismatched hm⟩
  · rw [bind_of_matched ha]
    exact hf a rest hrest

theorem FailsBindless.bind {f : α → Reader β} (h : r.FailsBindless) : (r >>= f).FailsBindless := by
  intro s hs
  obtain ⟨m, hm⟩ := h s hs
  exact ⟨m, bind_of_mismatched hm⟩

theorem keepsBindless_pure (a : α) : KeepsBindless (pure a : Reader α) :=
  fun s hs => .inr ⟨a, s, rfl, hs⟩

private theorem KeepsBindless.optional (h : r.KeepsBindless) : (optional r).KeepsBindless := by
  intro s hs
  rcases h s hs with ⟨m, hm⟩ | ⟨a, rest, ha, hrest⟩
  · exact .inr ⟨none, s, by rw [Reader.optional, hm], hs⟩
  · exact .inr ⟨some a, rest, by rw [Reader.optional, ha], hrest⟩

private theorem KeepsBindless.manyUpTo (h : r.KeepsBindless) (n : Nat) : (manyUpTo r n).KeepsBindless := by
  induction n with
  | zero => exact keepsBindless_pure []
  | succ n ih =>
    intro s hs
    simp only [Reader.manyUpTo]
    rcases h s hs with ⟨m, hm⟩ | ⟨a, rest, ha, hrest⟩
    · rw [hm]
      exact .inr ⟨[], s, rfl, hs⟩
    · rw [ha]
      exact (ih.bind fun as => keepsBindless_pure (a :: as)) rest hrest

theorem keepsBindless_name : KeepsBindless name := by
  rintro s ⟨ts, hs, hu⟩
  simp only [name, split]
  split
  · rename_i cs rest hsplit
    obtain ⟨hskip, hform, hstop⟩ := splitName?_sound hsplit
    have hrest := dropWhile_append_of_stops (fun c hc => hform.isNameChar hc) hstop
    rw [← hskip] at hrest
    exact .inr ⟨_, rest, rfl, hrest ▸ hs.bindless_dropWhile hu⟩
  · exact .inl ⟨_, rfl⟩

theorem keepsBindless_token {c : Char} (hc : c ∈ ['(', ',', ')']) : KeepsBindless (token c) := by
  rintro s ⟨ts, hs, hu⟩
  cases ts with
  | nil => cases hu
  | cons t ts =>
    obtain ⟨layout, rest, hskip, ht, hrest⟩ := hs.skipLayout_eq
    by_cases hhead : t.chars.head? = some c
    · obtain rfl := ht.eq_mark hhead
        (forall_mem_of_all (P := fun c => isNameChar c = false) (by decide) c hc)
      refine .inr ⟨(), rest, token_of_skipLayout hskip, ts, hrest, ?_⟩
      cases hu with
      | stop hstop =>
        exact absurd hstop (forall_mem_of_all (P := (· ∉ ['\x7b', '\x7d', ';'])) (by decide) c hc)
      | cons _ hu => exact hu
    · exact .inl (fails_token (show lead (t :: ts) ≠ some c from hhead) s hs)

theorem failsBindless_binding : FailsBindless (token '=') := by
  rintro s ⟨ts, hs, hu⟩
  refine fails_token (fun hlead => ?_) s hs
  cases ts with
  | nil => cases hlead
  | cons t ts =>
    obtain ⟨layout, rest, -, ht, -⟩ := hs.skipLayout_eq
    obtain rfl := ht.eq_operator hlead
    cases hu with
    | cons hne => exact hne rfl

private theorem keepsBindless_names : KeepsBindless (commaSeparated name name) := by
  refine keepsBindless_name.optional.bind fun first => ?_
  cases first with
  | none => exact keepsBindless_pure []
  | some first =>
    refine KeepsBindless.bind (fun s => ?_) fun others => keepsBindless_pure (first :: others)
    exact ((keepsBindless_token (by decide)).bind fun _ => keepsBindless_name).manyUpTo (s.length + 1) s

end Reader

namespace Grammar
open Reader
variable {us : List Token}

theorem fails_definitionOf (operand : Nat → Reader Expr) (h : Unbound us) :
    (definitionOf operand).Fails us := by
  have hfails : FailsBindless (definitionOf operand) :=
    keepsBindless_name.bind_fails fun _ => (keepsBindless_token (by decide)).bind_fails fun _ =>
      keepsBindless_names.bind_fails fun _ => (keepsBindless_token (by decide)).bind_fails fun _ =>
        failsBindless_binding.bind
  exact fun s hs => hfails s ⟨us, hs, h⟩

theorem fails_assignmentOf (operand : Nat → Reader Expr) (h : Unbound us) :
    (assignmentOf operand).Fails us := by
  have hfails : FailsBindless (assignmentOf operand) :=
    keepsBindless_name.bind_fails fun _ => failsBindless_binding.bind
  exact fun s hs => hfails s ⟨us, hs, h⟩

end Grammar

end Reckoner
