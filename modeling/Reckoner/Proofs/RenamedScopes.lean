import Reckoner.Proofs.CorrespondingScopes
import Reckoner.Proofs.UnreferencedValues

/-! Renamed parameters. A function that has one of its parameters renamed, in its body as well, evaluates its body in
layers whose values have the other name, up to the layers around the function. There the two names keep their
meaning: the old one is not looked up from inside, as the parameter hides it, and the new one is not used
inside. So evaluation goes the same way. -/

namespace Reckoner

/-- One name in the place of another. -/
def replaced (old new name : String) : String :=
  if name = old then new else name

mutual

/-- Other names for the values of an expression, wherever in it: for those that it refers to, those that it
assigns, and the parameters of the functions that it defines. Functions keep their names. -/
def Expr.rename (f : String → String) : Expr → Expr
  | .number v => .number v
  | .symbol name => .symbol (f name)
  | .unary op e => .unary op (e.rename f)
  | .binary op l r => .binary op (l.rename f) (r.rename f)
  | .call name args => .call name (renameExprs f args)
  | .block statements final => .block (renameStatements f statements) (final.rename f)
  | .misplaced s => .misplaced (s.rename f)
  | .foreign text => .foreign text

def Statement.rename (f : String → String) : Statement → Statement
  | .assign name e => .assign (f name) (e.rename f)
  | .define name params body => .define name (params.map f) (body.rename f)
  | .expression e => .expression (e.rename f)
  | .misplaced e => .misplaced (e.rename f)

def renameExprs (f : String → String) : List Expr → List Expr
  | [] => []
  | e :: es => e.rename f :: renameExprs f es

def renameStatements (f : String → String) : List Statement → List Statement
  | [] => []
  | s :: ss => s.rename f :: renameStatements f ss

end

mutual

/-- The names that stand for values in an expression: those referred to, those assigned, and parameters. -/
def Expr.valueNames : Expr → List String
  | .number _ | .foreign _ => []
  | .symbol name => [name]
  | .unary _ e => e.valueNames
  | .binary _ l r => l.valueNames ++ r.valueNames
  | .call _ args => exprsValueNames args
  | .block statements final => statementsValueNames statements ++ final.valueNames
  | .misplaced s => s.valueNames

def Statement.valueNames : Statement → List String
  | .assign name e => name :: e.valueNames
  | .define _ params body => params ++ body.valueNames
  | .expression e | .misplaced e => e.valueNames

def exprsValueNames : List Expr → List String
  | [] => []
  | e :: es => e.valueNames ++ exprsValueNames es

def statementsValueNames : List Statement → List String
  | [] => []
  | s :: ss => s.valueNames ++ statementsValueNames ss

end

mutual

theorem Expr.rename_id : ∀ e : Expr, e.rename id = e
  | .number _ | .symbol _ | .foreign _ => rfl
  | .unary _ e => by rw [Expr.rename, e.rename_id]
  | .binary _ l r => by rw [Expr.rename, l.rename_id, r.rename_id]
  | .call _ args => by rw [Expr.rename, renameExprs_id args]
  | .block statements final => by rw [Expr.rename, renameStatements_id statements, final.rename_id]
  | .misplaced s => by rw [Expr.rename, s.rename_id]

theorem Statement.rename_id : ∀ s : Statement, s.rename id = s
  | .assign _ e => by rw [Statement.rename, e.rename_id, id]
  | .define _ params body => by rw [Statement.rename, body.rename_id, List.map_id]
  | .expression e | .misplaced e => by rw [Statement.rename, e.rename_id]

theorem renameExprs_id : ∀ es : List Expr, renameExprs id es = es
  | [] => rfl
  | e :: es => by rw [renameExprs, e.rename_id, renameExprs_id es]

theorem renameStatements_id : ∀ ss : List Statement, renameStatements id ss = ss
  | [] => rfl
  | s :: ss => by rw [renameStatements, s.rename_id, renameStatements_id ss]

end

mutual

/-- Names make no difference to a copier. -/
theorem Expr.copyDepth_rename (c : Copier) (f : String → String) : ∀ e : Expr, (e.rename f).copyDepth c = e.copyDepth c
  | .number _ | .symbol _ | .foreign _ => rfl
  | .unary _ e => by rw [Expr.rename, Expr.copyDepth, Expr.copyDepth, e.copyDepth_rename c f]
  | .binary _ l r => by
    rw [Expr.rename, Expr.copyDepth, Expr.copyDepth, l.copyDepth_rename c f, r.copyDepth_rename c f]
  | .call _ args => by rw [Expr.rename, Expr.copyDepth, Expr.copyDepth, exprsCopyDepth_rename c f args]
  | .block statements final => by
    rw [Expr.rename, Expr.copyDepth, Expr.copyDepth, statementsCopyDepth_rename c f statements,
      final.copyDepth_rename c f]
  | .misplaced s => by rw [Expr.rename, Expr.copyDepth, Expr.copyDepth, s.copyDepth_rename c f]

theorem Statement.copyDepth_rename (c : Copier) (f : String → String) :
    ∀ s : Statement, (s.rename f).copyDepth c = s.copyDepth c
  | .assign _ e | .define _ _ e | .expression e | .misplaced e => by
    rw [Statement.rename, Statement.copyDepth, Statement.copyDepth, e.copyDepth_rename c f]

theorem exprsCopyDepth_rename (c : Copier) (f : String → String) :
    ∀ es : List Expr, exprsCopyDepth c (renameExprs f es) = exprsCopyDepth c es
  | [] => rfl
  | e :: es => by
    rw [renameExprs, exprsCopyDepth, exprsCopyDepth, e.copyDepth_rename c f, exprsCopyDepth_rename c f es]

theorem statementsCopyDepth_rename (c : Copier) (f : String → String) :
    ∀ ss : List Statement, statementsCopyDepth c (renameStatements f ss) = statementsCopyDepth c ss
  | [] => rfl
  | s :: ss => by
    rw [renameStatements, statementsCopyDepth, statementsCopyDepth, s.copyDepth_rename c f,
      statementsCopyDepth_rename c f ss]

end

theorem Statement.kind_rename (f : String → String) (s : Statement) : (s.rename f).kind = s.kind := by
  cases s with
  | misplaced e => cases e <;> rfl
  | _ => rfl

theorem Expr.kind_rename (f : String → String) (e : Expr) : (e.rename f).kind = e.kind := by
  cases e with
  | misplaced s => exact s.kind_rename f
  | _ => rfl

/-- The same failure, unless it is that the one name is bound already: then the other one is. -/
def Failure.Renamed (old new : String) (e f : Failure) : Prop :=
  e = f ∨ e = .error (.alreadyBound old) ∧ f = .error (.alreadyBound new)

/-- Inside of the function a name takes the place of another one, outside all names stay. -/
def translated (old new : String) : Bool → String → String
  | true => replaced old new
  | false => id

section Translated
variable {old new : String} {inner : Bool} {a b name : String}

theorem translated_eq_self (inner : Bool) (h : inner = true → name ≠ old) : translated old new inner name = name := by
  cases inner with
  | false => rfl
  | true => exact if_neg (h rfl)

/-- Names are told apart as before, as long as the new one is none of them. -/
theorem translated_inj (ha : inner = true → a ≠ new) (hb : inner = true → b ≠ new) :
    translated old new inner a = translated old new inner b ↔ a = b := by
  cases inner with
  | false => rfl
  | true =>
    have ha := ha rfl
    have hb := hb rfl
    simp only [translated, replaced]
    grind

theorem translated_alreadyBound (name : String) :
    Failure.Renamed old new (.error (.alreadyBound name)) (.error (.alreadyBound (translated old new inner name))) := by
  by_cases h : inner = true ∧ name = old
  · obtain ⟨rfl, rfl⟩ := h
    exact .inr ⟨rfl, by rw [translated, replaced, if_pos rfl]⟩
  · rw [translated_eq_self inner fun hi hn => h ⟨hi, hn⟩]
    exact .inl rfl

theorem firstRepeated?_translated {seen names : List String} (hseen : inner = true → new ∉ seen)
    (hnames : inner = true → new ∉ names) :
    firstRepeated? (seen.map (translated old new inner)) (names.map (translated old new inner)) =
      (firstRepeated? seen names).map (translated old new inner) := by
  induction names generalizing seen with
  | nil => rfl
  | cons name rest ih =>
    have hname : inner = true → name ≠ new := fun hi he => hnames hi (he ▸ List.mem_cons_self)
    have hmem : translated old new inner name ∈ seen.map (translated old new inner) ↔ name ∈ seen := by
      refine ⟨fun hm => ?_, List.mem_map_of_mem⟩
      obtain ⟨other, hother, he⟩ := List.mem_map.1 hm
      have hnew : inner = true → other ≠ new := fun hi hn => hseen hi (hn ▸ hother)
      exact (translated_inj hnew hname).1 he ▸ hother
    have hlater : inner = true → new ∉ name :: seen := fun hi hm =>
      (List.mem_cons.1 hm).elim (fun he => hname hi he.symm) (hseen hi)
    have hrest := ih hlater fun hi hm => hnames hi (List.mem_cons_of_mem _ hm)
    rw [List.map_cons, firstRepeated?, firstRepeated?, ← List.map_cons, hrest]
    by_cases h : name ∈ seen
    · rw [if_pos h, if_pos (hmem.2 h), Option.map_some]
    · rw [if_neg h, if_neg fun hm => h (hmem.1 hm)]

theorem lookup_translated {α : Type} {bindings : List (String × α)}
    (hkeys : inner = true → new ∉ bindings.map Prod.fst) (hname : inner = true → name ≠ new) :
    (bindings.map (Prod.map (translated old new inner) id)).lookup (translated old new inner name) =
      bindings.lookup name := by
  induction bindings with
  | nil => rfl
  | cons binding rest ih =>
    obtain ⟨key, a⟩ := binding
    have hkey : inner = true → key ≠ new := fun hi he => hkeys hi (he ▸ List.mem_cons_self)
    have heq : (translated old new inner name == translated old new inner key) = (name == key) := by
      rw [Bool.eq_iff_iff, beq_iff_eq, beq_iff_eq, translated_inj hname hkey]
    rw [List.map_cons, Prod.map_apply, List.lookup_cons, List.lookup_cons, heq,
      ih fun hi hm => hkeys hi (List.mem_cons_of_mem _ hm)]
    rfl

end Translated

namespace Lexical

/-- The same function, or one with a renamed parameter. Within the renamed one, all functions are renamed. -/
inductive Lambda.Renamed (old new : String) (outer : Bool) : Lambda → Lambda → Prop where
  | abstraction {params : List String} {body : Expr} (inner : Bool)
    (hinner : inner = outer ∨ inner = true ∧ old ∈ params) (hparams : inner = true → new ∉ params)
    (hbody : inner = true → new ∉ body.valueNames) :
    Renamed old new outer (.abstraction params body)
      (.abstraction (params.map (translated old new inner)) (body.rename (translated old new inner)))
  | tagged (text : String) : Renamed old new outer (.tagged text) (.tagged text)

/-- The same values, under the new name if the layer is one inside of the function. -/
structure Layer.Renamed (old new : String) (inner : Bool) (l m : Layer) : Prop where
  fresh : inner = true → new ∉ l.values.map Prod.fst
  values : m.values = l.values.map (Prod.map (translated old new inner) id)
  functions : List.Forall₂ (fun a b => a.1 = b.1 ∧ a.2.Renamed old new inner b.2) l.functions m.functions

/-- Layers, the innermost of which may be inside of the function. The first of those binds the old name. -/
inductive Renamed (old new : String) : Bool → List Layer → List Layer → Prop where
  | nil : Renamed old new false [] []
  | cons {outer inner : Bool} {l m : Layer} {ls ms : List Layer} (hl : l.Renamed old new inner m)
    (hinner : inner = outer ∨ inner = true ∧ old ∈ l.values.map Prod.fst) (h : Renamed old new outer ls ms) :
    Renamed old new inner (l :: ls) (m :: ms)

section
variable {old new : String} {inner : Bool} {ls ms : List Layer} {name : String}

theorem Renamed.length_eq (h : Renamed old new inner ls ms) : ls.length = ms.length := by
  induction h with
  | nil => rfl
  | cons _ _ _ ih => exact congrArg (· + 1) ih

/-- Inside of the function the old name is bound. -/
theorem Renamed.isSome_old (h : Renamed old new inner ls ms) (hinner : inner = true) :
    (ls.findSome? (·.values.lookup old)).isSome := by
  induction h with
  | nil => cases hinner
  | @cons _ _ l _ _ _ _ hmode _ ih =>
    rw [List.findSome?_cons]
    cases hold : l.values.lookup old with
    | some v => rfl
    | none =>
      rcases hmode with rfl | ⟨-, hmem⟩
      · exact ih hinner
      · exact absurd hmem (lookup_eq_none_iff_not_mem.1 hold)

/-- A name finds the same value, be it inside or outside of the function. -/
theorem Renamed.findSome?_lookup (h : Renamed old new inner ls ms) (hname : inner = true → name ≠ new) :
    ms.findSome? (·.values.lookup (translated old new inner name)) = ls.findSome? (·.values.lookup name) := by
  induction h with
  | nil => rfl
  | @cons outer inner l m _ _ hl hmode _ ih =>
    rw [List.findSome?_cons, List.findSome?_cons, hl.values, lookup_translated hl.fresh hname]
    cases hnone : l.values.lookup name with
    | some v => rfl
    | none =>
      rcases hmode with rfl | ⟨rfl, hmem⟩
      · exact ih hname
      · have hne : name ≠ old := fun he => lookup_eq_none_iff_not_mem.1 hnone (he ▸ hmem)
        have houter := ih fun _ => hname rfl
        rw [translated_eq_self outer fun _ => hne] at houter
        rw [translated_eq_self true fun _ => hne]
        exact houter

/-- A name finds the same function, or one and the renamed one. -/
theorem Renamed.functionAlong (h : Renamed old new inner ls ms) (name : String) :
    Option.Rel (fun a b => ∃ home, a.1.Renamed old new home b.1 ∧ Renamed old new home a.2.layers b.2.layers)
      (Scope.functionAlong? name ls) (Scope.functionAlong? name ms) := by
  induction h with
  | nil => exact .none
  | @cons outer inner l m ls ms hl hmode h ih =>
    have hrel := lookup_of_forall₂ hl.functions name
    rw [Scope.functionAlong?, Scope.functionAlong?]
    generalize l.functions.lookup name = x, m.functions.lookup name = y at hrel ⊢
    cases hrel with
    | some hf => exact .some ⟨inner, hf, .cons hl hmode h⟩
    | none => exact ih

end

/-- The same callee, or a function and the renamed one. -/
inductive Callee.Renamed (old new : String) : Callee → Callee → Prop where
  | builtin (f : Builtin) : Renamed old new (.builtin f) (.builtin f)
  | function {home : Bool} {f g : Lambda} {s t : Scope} (hf : f.Renamed old new home g)
    (h : Lexical.Renamed old new home s.layers t.layers) : Renamed old new (.function f s) (.function g t)

section
variable {old new : String} {inner : Bool} {s t : Scope} {name : String}

/-- Outcomes are the same but for the failure that tells of the name. -/
abbrev Alike {α β : Type} (old new : String) (r : α → β → Prop) : Traced α → Traced β → Prop :=
  Traced.Corresponds (Failure.Renamed old new) r

abbrev Scope.Renamed (old new : String) (inner : Bool) (s t : Scope) : Prop :=
  Lexical.Renamed old new inner s.layers t.layers

theorem Scope.Renamed.push (h : s.Renamed old new inner t) : (s.push []).Renamed old new inner (t.push []) :=
  .cons ⟨fun _ => List.not_mem_nil, rfl, .nil⟩ (.inl rfl) h

theorem Scope.Renamed.lookupValue (h : s.Renamed old new inner t) (hname : inner = true → name ≠ new) :
    Alike old new Eq (Traced.ofExcept (s.lookupValue name))
      (Traced.ofExcept (t.lookupValue (translated old new inner name))) := by
  rw [Scope.lookupValue, Scope.lookupValue, h.findSome?_lookup hname]
  cases hnone : s.layers.findSome? (·.values.lookup name) with
  | some v => exact .ok rfl
  | none =>
    have hne : inner = true → name ≠ old := by
      rintro hinner rfl
      have hsome := h.isSome_old hinner
      rw [hnone] at hsome
      cases hsome
    rw [translated_eq_self inner hne]
    exact .error (.inl rfl)

theorem Scope.Renamed.lookupFunction (h : s.Renamed old new inner t) (name : String) :
    Alike old new (Callee.Renamed old new) (Traced.ofExcept (s.lookupFunction name))
      (Traced.ofExcept (t.lookupFunction name)) := by
  have hrel := h.functionAlong name
  rw [Scope.lookupFunction, Scope.lookupFunction]
  generalize functionAlong? name s.layers = x, functionAlong? name t.layers = y at hrel ⊢
  cases hrel with
  | some hf =>
    obtain ⟨home, hf, h⟩ := hf
    exact .ok (.function hf h)
  | none =>
    cases Builtin.ofName? name with
    | some f => exact .ok (.builtin f)
    | none => exact .error (.inl rfl)

theorem Scope.Renamed.bindValue (h : s.Renamed old new inner t) (hname : inner = true → name ≠ new) (v : Value) :
    Alike old new (Scope.Renamed old new inner) (Traced.ofExcept (s.bindValue name v))
      (Traced.ofExcept (t.bindValue (translated old new inner name) v)) := by
  obtain ⟨l, ls⟩ := s
  obtain ⟨m, ms⟩ := t
  cases h with
  | cons hl hmode h =>
    obtain ⟨hfresh, hvalues, hfunctions⟩ := hl
    have hlookup : m.values.lookup (translated old new inner name) = l.values.lookup name := by
      rw [hvalues, lookup_translated hfresh hname]
    simp only [Scope.bindValue, hlookup]
    split
    · exact .error (translated_alreadyBound name)
    · have hlayer : Layer.Renamed old new inner { l with values := (name, v) :: l.values }
          { m with values := (translated old new inner name, v) :: m.values } :=
        ⟨fun hi hm => (List.mem_cons.1 hm).elim (fun he => hname hi he.symm) (hfresh hi),
          congrArg (_ :: ·) hvalues, hfunctions⟩
      exact .ok (.cons hlayer (hmode.imp_right fun hin => ⟨hin.1, List.mem_cons_of_mem _ hin.2⟩) h)

theorem Scope.Renamed.bindFunction (h : s.Renamed old new inner t) (name : String) {f g : Lambda}
    (hf : f.Renamed old new inner g) :
    Alike old new (Scope.Renamed old new inner) (Traced.ofExcept (s.bindFunction name f))
      (Traced.ofExcept (t.bindFunction name g)) := by
  obtain ⟨l, ls⟩ := s
  obtain ⟨m, ms⟩ := t
  cases h with
  | cons hl hmode h =>
    obtain ⟨hfresh, hvalues, hfunctions⟩ := hl
    have hsome : (l.functions.lookup name).isSome = (m.functions.lookup name).isSome :=
      isSome_lookup_of_forall₂ hfunctions name
    simp only [Scope.bindFunction, hsome]
    split
    · exact .error (.inl rfl)
    · exact .ok (.cons ⟨hfresh, hvalues, .cons ⟨rfl, hf⟩ hfunctions⟩ hmode h)

/-- Evaluation goes alike in two scopes, that of the renamed expression inside of the function. -/
def Evaluator.Renames (old new : String) (evaluate : Evaluator) : Prop :=
  ∀ (inner : Bool) (s t : Scope) (e : Expr), s.Renamed old new inner t → (inner = true → new ∉ e.valueNames) →
    Alike old new Eq (evaluate s e) (evaluate t (e.rename (translated old new inner)))

variable {evaluate : Evaluator}

theorem renamed_run (hev : evaluate.Renames old new) (h : s.Renamed old new inner t) (statement : Statement)
    (hnew : inner = true → new ∉ statement.valueNames) :
    Alike old new (fun a b => a.1 = b.1 ∧ a.2.Renamed old new inner b.2) (run evaluate s statement)
      (run evaluate t (statement.rename (translated old new inner))) := by
  cases statement with
  | assign name e =>
    have hname : inner = true → name ≠ new := fun hi he => hnew hi (he ▸ List.mem_cons_self)
    refine (hev inner s t e h fun hi hm => hnew hi (List.mem_cons_of_mem _ hm)).bind fun v w hvw => ?_
    subst hvw
    exact (h.bindValue hname v).bind fun _ _ h => .ok ⟨rfl, h⟩
  | define name params body =>
    have hparams : inner = true → new ∉ params := fun hi hm => hnew hi (List.mem_append_left _ hm)
    have hbody : inner = true → new ∉ body.valueNames := fun hi hm => hnew hi (List.mem_append_right _ hm)
    have hrepeated : firstRepeated? [] (params.map (translated old new inner)) =
        (firstRepeated? [] params).map (translated old new inner) :=
      firstRepeated?_translated (fun _ => List.not_mem_nil) hparams
    simp only [run, Statement.rename, hrepeated]
    cases firstRepeated? [] params with
    | some param => exact .error (translated_alreadyBound param)
    | none =>
      exact (h.bindFunction name (.abstraction inner (.inl rfl) hparams hbody)).bind fun _ _ h =>
        .ok ⟨rfl, h⟩
  | expression e => exact (hev inner s t e h hnew).bind fun v w hvw => .ok ⟨congrArg some hvw, h⟩
  | misplaced e =>
    have hkind := (Statement.misplaced e).kind_rename (translated old new inner)
    exact .error (.inl (congrArg (fun kind => Failure.error (.malformedTree ("Unknown statement node: " ++ kind)))
      hkind.symm))

theorem renamed_runAll (hev : evaluate.Renames old new) (statements : List Statement)
    (h : s.Renamed old new inner t) (hnew : inner = true → new ∉ statementsValueNames statements) :
    Alike old new (Scope.Renamed old new inner) (runAll evaluate s statements)
      (runAll evaluate t (renameStatements (translated old new inner) statements)) := by
  induction statements generalizing s t with
  | nil => exact .ok h
  | cons statement rest ih =>
    refine (renamed_run hev h statement fun hi hm => hnew hi (List.mem_append_left _ hm)).bind fun _ _ hab => ?_
    exact ih hab.2 fun hi hm => hnew hi (List.mem_append_right _ hm)

theorem renamed_evaluateArgs (hev : evaluate.Renames old new) (h : s.Renamed old new inner t) (args : List Expr)
    (hnew : inner = true → new ∉ exprsValueNames args) :
    Alike old new Eq (evaluateArgs evaluate s args)
      (evaluateArgs evaluate t (renameExprs (translated old new inner) args)) := by
  induction args with
  | nil => exact .ok rfl
  | cons e rest ih =>
    refine (hev inner s t e h fun hi hm => hnew hi (List.mem_append_left _ hm)).bind fun v w hvw => ?_
    refine (ih fun hi hm => hnew hi (List.mem_append_right _ hm)).bind fun vs ws hvws => ?_
    exact .ok (by rw [hvw, hvws])

theorem renamed_applyCallee (hev : evaluate.Renames old new) (p : Nat) (name : String) (args : List Value)
    {c d : Callee} (h : c.Renamed old new d) :
    Alike old new Eq (applyCallee p evaluate name args c) (applyCallee p evaluate name args d) := by
  cases h with
  | builtin f => exact .refl (fun _ => .inl rfl) (fun _ => rfl) _
  | @function home _ _ s t hf h =>
    cases hf with
    | tagged text => exact .error (.inl rfl)
    | @abstraction params body inner hinner hparams hbody =>
      simp only [applyCallee, List.length_map]
      split
      · rename_i hlength
        have hkeys : (params.zip args).map Prod.fst = params := List.map_fst_zip (Nat.le_of_eq hlength.symm)
        have hlayer : Layer.Renamed old new inner { values := params.zip args }
            { values := (params.map (translated old new inner)).zip args } :=
          ⟨hkeys.symm ▸ hparams, List.zip_map_left .., .nil⟩
        have hpush : (s.push (params.zip args)).Renamed old new inner
            (t.push ((params.map (translated old new inner)).zip args)) :=
          .cons hlayer (hkeys.symm ▸ hinner) h
        exact Traced.Corresponds.bind (r := Eq) (.ok rfl) fun _ _ _ => hev inner _ _ body hpush hbody
      · exact .error (.inl rfl)

theorem renames_evaluateOver (p : Nat) {below : Nat → Evaluator} (hb : ∀ k, (below k).Renames old new) :
    (evaluateOver p below).Renames old new := by
  intro inner s t e h hnew
  simp only [evaluateOver, Expr.kind_rename]
  refine Traced.Corresponds.bind (r := Eq) (.ok rfl) fun _ _ _ => ?_
  cases e with
  | number v => exact .ok rfl
  | symbol name => exact h.lookupValue fun hi he => hnew hi (he ▸ List.mem_cons_self)
  | unary op operand =>
    refine (hb 0 inner s t operand h hnew).bind fun v w hvw => ?_
    exact hvw ▸ .refl (fun _ => .inl rfl) (fun _ => rfl) _
  | binary op lhs rhs =>
    refine (hb 0 inner s t lhs h fun hi hm => hnew hi (List.mem_append_left _ hm)).bind fun v w hvw => ?_
    refine (hb 0 inner s t rhs h fun hi hm => hnew hi (List.mem_append_right _ hm)).bind fun v' w' hvw' => ?_
    exact hvw ▸ hvw' ▸ .refl (fun _ => .inl rfl) (fun _ => rfl) _
  | call name args =>
    refine (h.lookupFunction name).bind fun c d hcd => ?_
    refine (renamed_evaluateArgs (hb 2) h args hnew).bind fun values values' hv => ?_
    exact hv ▸ renamed_applyCallee (hb 2) p name values hcd
  | block statements final =>
    have hdepth : (s.push []).depth = (t.push []).depth := h.push.length_eq
    simp only [Expr.rename, hdepth]
    refine Traced.Corresponds.bind (r := Eq) (.ok rfl) fun _ _ _ => ?_
    refine (renamed_runAll (hb 2) statements h.push fun hi hm => hnew hi (List.mem_append_left _ hm)).bind
      fun s t hst => ?_
    exact hb 1 inner s t final hst fun hi hm => hnew hi (List.mem_append_right _ hm)
  | misplaced statement => exact .error (.inl (by simp only [Expr.kind_rename]))
  | foreign text => exact .error (.inl rfl)

theorem renames_evaluateWithin (p n k : Nat) : (evaluateWithin p n k).Renames old new :=
  withCalls_induction (fun _ _ _ _ _ _ => .error (.inl rfl)) (fun _ h => renames_evaluateOver p h) n k

end

end Lexical

end Reckoner
