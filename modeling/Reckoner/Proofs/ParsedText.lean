import Reckoner.Proofs.LiteralSign
import Reckoner.Proofs.ParserSoundness
import Reckoner.Proofs.TabWidening
import Reckoner.Syntax.Parse

/-! Accepted texts: the whole text consists of tokens that derive the trees returned, and in these
trees names, operators and numbers are of the forms that can be written. -/

namespace Reckoner
open Text

mutual

/-- An expression as it can be written. -/
inductive Expr.Regular : Expr → Prop where
  | number {v : Value} (hf : v.number.isFinite = true) (hn : v.number.isNegative = false) :
    Expr.Regular (.number v)
  | symbol {name : String} (h : IsName name.toList) : Expr.Regular (.symbol name)
  | unary {e : Expr} (h : Expr.Regular e) : Expr.Regular (.unary negation e)
  | binary {op : String} {lhs rhs : Expr} (hop : op ∈ ["+", "-", "*", "/", "^"])
    (hl : Expr.Regular lhs) (hr : Expr.Regular rhs) : Expr.Regular (.binary op lhs rhs)
  | call {name : String} {args : List Expr} (hn : IsName name.toList)
    (h : ∀ e, e ∈ args → Expr.Regular e) : Expr.Regular (.call name args)
  | block {statements : List Statement} {final : Expr}
    (h : ∀ s, s ∈ statements → Statement.Regular s) (hf : Expr.Regular final) :
    Expr.Regular (.block statements final)

inductive Statement.Regular : Statement → Prop where
  | assign {name : String} {e : Expr} (hn : IsName name.toList) (h : Expr.Regular e) :
    Statement.Regular (.assign name e)
  | define {name : String} {params : List String} {e : Expr} (hn : IsName name.toList)
    (hp : ∀ param, param ∈ params → IsName param.toList) (h : Expr.Regular e) :
    Statement.Regular (.define name params e)
  | expression {e : Expr} (h : Expr.Regular e) : Statement.Regular (.expression e)

end

def Phrase.Regular : Phrase → Prop
  | expression _ e => e.Regular
  | items es => ∀ e, e ∈ es → e.Regular
  | arguments es => ∀ e, e ∈ es → e.Regular
  | clause s => s.Regular
  | body statements final => (∀ s, s ∈ statements → s.Regular) ∧ final.Regular

/-- Tokens that have their forms. -/
def AllFit (ts : List Token) : Prop :=
  ∀ t, t ∈ ts → ∃ rest, t.Fits rest

theorem Covers.allFit {s rest : List Char} {ts : List Token} (h : Covers s ts rest) : AllFit ts := by
  induction h with
  | nil => nofun
  | cons _ ht _ ih =>
    intro t hmem
    rcases List.mem_cons.1 hmem with rfl | hmem
    · exact ⟨_, ht⟩
    · exact ih t hmem

section AllFit
variable {t : Token} {ts us : List Token}

theorem allFit_cons : AllFit (t :: ts) ↔ (∃ rest, t.Fits rest) ∧ AllFit ts :=
  List.forall_mem_cons

theorem allFit_append : AllFit (ts ++ us) ↔ AllFit ts ∧ AllFit us :=
  List.forall_mem_append

theorem AllFit.name {cs : List Char} (h : AllFit (.name cs :: ts)) :
    IsName (String.ofList cs).toList := by
  obtain ⟨⟨rest, hname, -⟩, -⟩ := allFit_cons.1 h
  rwa [String.toList_ofList]

theorem AllFit.names {params : List (List Char)} (h : AllFit (nameTokens params)) (param : String)
    (hp : param ∈ params.map String.ofList) : IsName param.toList := by
  obtain ⟨cs, hcs, rfl⟩ := List.mem_map.1 hp
  suffices hmem : Token.name cs ∈ nameTokens params by
    obtain ⟨rest, hname, -⟩ := h _ hmem
    rwa [String.toList_ofList]
  cases params with
  | nil => cases hcs
  | cons first others =>
    rcases List.mem_cons.1 hcs with rfl | hcs
    · exact List.mem_cons_self
    · exact List.mem_cons_of_mem _ (List.mem_flatMap.2 ⟨cs, hcs, by simp⟩)

end AllFit

/-- What tokens derive has names, operators and numbers of the forms that the tokens have. -/
theorem Derives.regular {p d : Nat} {ts : List Token} {phrase : Phrase} (h : Derives p d ts phrase)
    (ht : AllFit ts) : phrase.Regular := by
  have hop {ops : List Char} {op : Char}
      (hops : ∀ c, c ∈ ops → c.toString ∈ ["+", "-", "*", "/", "^"]) (h : op ∈ ops) :
      op.toString ∈ ["+", "-", "*", "/", "^"] := hops op h
  induction h with
  | number h =>
    obtain ⟨⟨rest, hform, hminus⟩, -⟩ := allFit_cons.1 ht
    obtain ⟨hf, hn⟩ := Number.ofText?_sign hform hminus h
    exact .number hf hn
  | symbol cs => exact .symbol ht.name
  | parenthesized _ ih =>
    obtain ⟨-, ht⟩ := allFit_cons.1 ht
    exact ih (allFit_append.1 ht).1
  | block _ ih =>
    obtain ⟨-, ht⟩ := allFit_cons.1 ht
    obtain ⟨hs, hf⟩ := ih (allFit_append.1 ht).1
    exact .block hs hf
  | call cs _ ih =>
    obtain ⟨-, hrest⟩ := allFit_cons.1 ht
    obtain ⟨-, hrest⟩ := allFit_cons.1 hrest
    exact .call ht.name (ih (allFit_append.1 hrest).1)
  | primary _ ih => exact ih ht
  | negation _ ih => exact .unary (ih (allFit_cons.1 ht).2)
  | power _ _ ih ih' =>
    obtain ⟨hl, hr⟩ := allFit_append.1 ht
    exact .binary (by decide) (ih hl) (ih' (allFit_cons.1 hr).2)
  | factor _ ih => exact ih ht
  | product hmem _ _ ih ih' =>
    obtain ⟨hl, hr⟩ := allFit_append.1 ht
    exact .binary (hop (forall_mem_of_all (by decide)) hmem) (ih hl) (ih' (allFit_cons.1 hr).2)
  | term _ ih => exact ih ht
  | sum hmem _ _ ih ih' =>
    obtain ⟨hl, hr⟩ := allFit_append.1 ht
    exact .binary (hop (forall_mem_of_all (by decide)) hmem) (ih hl) (ih' (allFit_cons.1 hr).2)
  | firstItem _ ih => exact List.forall_mem_singleton.2 (ih ht)
  | item _ _ ih ih' =>
    obtain ⟨hl, hr⟩ := allFit_append.1 ht
    exact List.forall_mem_append.2 ⟨ih hl, List.forall_mem_singleton.2 (ih' (allFit_cons.1 hr).2)⟩
  | noArguments => nofun
  | arguments _ ih => exact ih ht
  | definition cs params _ ih =>
    obtain ⟨-, hrest⟩ := allFit_cons.1 ht
    obtain ⟨-, hrest⟩ := allFit_cons.1 hrest
    obtain ⟨hparams, hrest⟩ := allFit_append.1 hrest
    obtain ⟨-, hrest⟩ := allFit_cons.1 hrest
    exact .define ht.name hparams.names (ih (allFit_cons.1 hrest).2)
  | assignment cs _ ih =>
    obtain ⟨-, hrest⟩ := allFit_cons.1 ht
    exact .assign ht.name (ih (allFit_cons.1 hrest).2)
  | expression _ ih => exact .expression (ih ht)
  | final _ ih => exact ⟨nofun, ih ht⟩
  | statement _ _ ih ih' =>
    obtain ⟨hs, hr⟩ := allFit_append.1 ht
    obtain ⟨hss, hf⟩ := ih' (allFit_cons.1 hr).2
    exact ⟨List.forall_mem_cons.2 ⟨ih hs, hss⟩, hf⟩

theorem DerivesProgram.regular {p : Nat} {ts : List Token} {statements : List Statement}
    (h : DerivesProgram p ts statements) (ht : AllFit ts) : ∀ s, s ∈ statements → s.Regular := by
  induction h with
  | nil => nofun
  | cons h _ ih =>
    obtain ⟨hs, hr⟩ := allFit_append.1 ht
    exact List.forall_mem_cons.2 ⟨h.regular hs, ih (allFit_cons.1 hr).2⟩

theorem Consists.allFit {s : List Char} {ts : List Token} (h : Consists s ts) : AllFit ts := by
  obtain ⟨rest, hcov, -⟩ := h
  exact hcov.allFit

/-- Where the end of the text is found, nothing but tokens and layout came before. -/
theorem Covers.consists {s t rest : List Char} {ts : List Token} {u : Unit} (h : Covers s ts t)
    (he : Reader.endOfText t = .matched u rest) : Consists s ts := by
  rw [Reader.endOfText] at he
  split at he
  · rename_i hskip
    exact ⟨t, h, skipLayout_eq_nil_iff.1 hskip⟩
  · cases he

namespace Grammar
open Reader

variable {m : Machine} {s rest : List Char}

theorem consists_of_single {clause : Statement} (h : single m s = .matched clause rest) :
    ∃ d ts, Consists s (ts ++ [.mark ';']) ∧ Derives m.precision d ts (.clause clause) := by
  obtain ⟨c, t, hs, h⟩ := bind_eq_matched.1 h
  obtain ⟨u, v, he, h⟩ := bind_eq_matched.1 h
  cases h
  obtain ⟨ts, ⟨us, rfl, d, hd⟩, hcov⟩ := sound_statementOf (sound_operandWithin _) s clause t hs
  exact ⟨d, us, hcov.consists he, hd⟩

theorem consists_of_program {statements : List Statement}
    (h : program m s = .matched statements rest) :
    statements ≠ [] ∧ ∃ ts, Consists s ts ∧ DerivesProgram m.precision ts statements := by
  have hsound := sound_statementOf (sound_operandWithin (p := m.precision) (m.sparing 3).readingCalls)
  obtain ⟨first, t, hfirst, h⟩ := bind_eq_matched.1 h
  obtain ⟨others, u, hothers, h⟩ := bind_eq_matched.1 h
  obtain ⟨_, v, he, h⟩ := bind_eq_matched.1 h
  cases h
  obtain ⟨ts, hts, hcov⟩ := hsound s first t hfirst
  obtain ⟨us, hus, hcov'⟩ := hsound.many t others u hothers
  refine ⟨nofun, ts ++ us, (hcov.trans hcov').consists he, ?_⟩
  replace hus : Each _ (ts ++ us) (first :: others) := .cons hts hus
  generalize ts ++ us = vs at hus
  generalize first :: others = statements at hus
  induction hus with
  | nil => exact .nil
  | cons h _ ih =>
    obtain ⟨ws, rfl, d, hd⟩ := h
    rw [List.append_assoc]
    exact .cons hd ih

end Grammar

theorem parseWith_eq_ok {α : Type} {r : Reader α} {source : String} {a : α} :
    parseWith r source = .ok a ↔ ∃ rest, r (expandTabs source.toList) = .matched a rest := by
  simp only [parseWith]
  split <;> simp_all

/-- The failures of a text that is rejected. -/
inductive Failure.Rejects : Failure → Prop where
  | unparsable (d : Diagnostic) : Rejects (.error (.unparsable d))
  | malformedNumber (numeral : String) : Rejects (.error (.malformedNumber numeral))
  | tooDeep : Rejects .tooDeep

theorem rejects_of_parseWith {α : Type} {r : Reader α} {source : String} {f : Failure}
    (h : parseWith r source = .error f) : f.Rejects := by
  simp only [parseWith] at h
  split at h <;> cases h
  · exact .unparsable _
  · exact .malformedNumber _
  · exact .tooDeep

theorem derives_of_parseStatement {m : Machine} {source : String} {statement : Statement}
    (h : parseStatement m source = .ok statement) :
    ∃ d ts, Consists source.toList (ts ++ [.mark ';']) ∧ Derives m.precision d ts (.clause statement) := by
  obtain ⟨rest, h⟩ := parseWith_eq_ok.1 h
  obtain ⟨d, ts, hcs, hd⟩ := Grammar.consists_of_single h
  exact ⟨d, ts, hcs.of_expandTabs, hd⟩

theorem derives_of_parseProgram {m : Machine} {source : String} {statements : List Statement}
    (h : parseProgram m source = .ok statements) :
    statements ≠ [] ∧ ∃ ts, Consists source.toList ts ∧ DerivesProgram m.precision ts statements := by
  obtain ⟨rest, h⟩ := parseWith_eq_ok.1 h
  obtain ⟨hne, ts, hcs, hd⟩ := Grammar.consists_of_program h
  exact ⟨hne, ts, hcs.of_expandTabs, hd⟩

theorem regular_of_parseStatement {m : Machine} {source : String} {statement : Statement}
    (h : parseStatement m source = .ok statement) : statement.Regular := by
  obtain ⟨d, ts, hcs, hd⟩ := derives_of_parseStatement h
  exact hd.regular (allFit_append.1 hcs.allFit).1

theorem regular_of_parseProgram {m : Machine} {source : String} {statements : List Statement}
    (h : parseProgram m source = .ok statements) : ∀ s, s ∈ statements → s.Regular := by
  obtain ⟨-, ts, hcs, hd⟩ := derives_of_parseProgram h
  exact hd.regular hcs.allFit

/-- The whole of an accepted text consists of tokens that derive what is returned, and the trees returned
are regular. -/
theorem accepted_text_derives_its_trees (m : Machine) (source : String) :
    (∀ s, parseStatement m source = .ok s →
      s.Regular ∧ ∃ d ts, Consists source.toList (ts ++ [.mark ';']) ∧ Derives m.precision d ts (.clause s)) ∧
    ∀ ss, parseProgram m source = .ok ss →
      ss ≠ [] ∧ (∀ s, s ∈ ss → s.Regular) ∧
        ∃ ts, Consists source.toList ts ∧ DerivesProgram m.precision ts ss := by
  refine ⟨fun s h => ⟨regular_of_parseStatement h, derives_of_parseStatement h⟩, fun ss h => ?_⟩
  obtain ⟨hne, hderives⟩ := derives_of_parseProgram h
  exact ⟨hne, regular_of_parseProgram h, hderives⟩

theorem short_texts_derive_their_trees :
    parseStatement ⟨53, 1000⟩ "- a;" = .ok (.expression (.unary negation (.symbol "a"))) ∧
    (∃ d ts, Consists "- a;".toList (ts ++ [.mark ';']) ∧
      Derives 53 d ts (.clause (.expression (.unary negation (.symbol "a"))))) ∧
    parseProgram ⟨53, 1000⟩ "y;z;" = .ok [.expression (.symbol "y"), .expression (.symbol "z")] ∧
    ∃ ts, Consists "y;z;".toList ts ∧
      DerivesProgram 53 ts [.expression (.symbol "y"), .expression (.symbol "z")] :=
  have hstatement : parseStatement ⟨53, 1000⟩ "- a;" =
    .ok (.expression (.unary negation (.symbol "a"))) := rfl
  have hprogram : parseProgram ⟨53, 1000⟩ "y;z;" =
    .ok [.expression (.symbol "y"), .expression (.symbol "z")] := rfl
  ⟨hstatement, ((accepted_text_derives_its_trees ⟨53, 1000⟩ "- a;").1 _ hstatement).2, hprogram,
    ((accepted_text_derives_its_trees ⟨53, 1000⟩ "y;z;").2 _ hprogram).2.2⟩

end Reckoner
