import Reckoner.Proofs.LexicalEvaluation

/-! Simulations between scopes. Two scopes that have the same layers on top of related outer ones are told
apart by nothing but what their outer layers answer to look-ups, however evaluation nests blocks and
calls. Names whose values the two may answer differently must not be referred to by what is evaluated. -/

namespace Reckoner

mutual

/-- The names whose values an expression refers to, wherever in it. -/
def Expr.references : Expr → List String
  | .number _ | .foreign _ => []
  | .symbol name => [name]
  | .unary _ e => e.references
  | .binary _ l r => l.references ++ r.references
  | .call _ args => exprsReferences args
  | .block statements final => statementsReferences statements ++ final.references
  | .misplaced s => s.references

def Statement.references : Statement → List String
  | .assign _ e | .define _ _ e | .expression e | .misplaced e => e.references

def exprsReferences : List Expr → List String
  | [] => []
  | e :: es => e.references ++ exprsReferences es

def statementsReferences : List Statement → List String
  | [] => []
  | s :: ss => s.references ++ statementsReferences ss

end

/-- The value of the first outcome has a counterpart in the second. So has its failure, if failures are to
be carried over as well. -/
structure Traced.Carries {α β : Type} (failures : Prop) (r : α → β → Prop) (x : Traced α)
    (y : Traced β) : Prop where
  ok : ∀ a, x.result = .ok a → ∃ b, y.result = .ok b ∧ r a b
  error : failures → ∀ f, x.result = .error f → y.result = .error f

namespace Traced.Carries
variable {α β γ δ : Type} {failures : Prop} {r : α → β → Prop} {r' : γ → δ → Prop}

theorem of_ok {x : Traced α} {y : Traced β} {a : α} {b : β} (hx : x.result = .ok a)
    (hy : y.result = .ok b) (h : r a b) : x.Carries failures r y := by
  refine ⟨fun a' ha => ⟨b, hy, ?_⟩, fun _ f hf => ?_⟩
  · obtain rfl := Except.ok.inj (hx.symm.trans ha)
    exact h
  · rw [hx] at hf
    cases hf

theorem of_error {x : Traced α} {y : Traced β} {e : Failure} (hx : x.result = .error e)
    (hy : failures → y.result = .error e) : x.Carries failures r y := by
  refine ⟨fun a ha => ?_, fun hf f he => ?_⟩
  · rw [hx] at ha
    cases ha
  · obtain rfl := Except.error.inj (hx.symm.trans he)
    exact hy hf

theorem of_eq {x y : Traced α} (h : x.result = y.result) {r : α → α → Prop} (hr : ∀ a, r a a) :
    x.Carries failures r y := by
  cases hx : x.result with
  | ok a => exact of_ok hx (h.symm.trans hx) (hr a)
  | error e => exact of_error hx fun _ => h.symm.trans hx

theorem pure {a : α} {b : β} (h : r a b) :
    (Pure.pure a : Traced α).Carries failures r (Pure.pure b) :=
  of_ok rfl rfl h

theorem fail (e : Failure) : (Traced.fail e : Traced α).Carries failures r (Traced.fail e) :=
  of_error rfl fun _ => rfl

theorem bind {x : Traced α} {y : Traced β} {f : α → Traced γ} {g : β → Traced δ}
    (h : x.Carries failures r y) (hf : ∀ a b, r a b → (f a).Carries failures r' (g b)) :
    (x >>= f).Carries failures r' (y >>= g) := by
  obtain ⟨xr, xt⟩ := x
  obtain ⟨yr, yt⟩ := y
  cases xr with
  | ok a =>
    obtain ⟨b, hb, hab⟩ := h.ok a rfl
    obtain rfl : yr = .ok b := hb
    exact ⟨(hf a b hab).ok, (hf a b hab).error⟩
  | error e =>
    refine of_error (e := e) rfl fun hfail => ?_
    obtain rfl : yr = .error e := h.error hfail e rfl
    rfl

/-- What only adds to the traces makes no difference. -/
theorem after {x y : Traced Unit} {f : Unit → Traced α} {g : Unit → Traced β} (hx : x.result = .ok ())
    (hy : y.result = .ok ()) (h : (f ()).Carries failures r (g ())) :
    (x >>= f).Carries failures r (y >>= g) :=
  bind (of_ok hx hy (r := fun _ _ => True) trivial) fun _ _ _ => h

theorem result_eq {x y : Traced α} (h : x.Carries True Eq y) : x.result = y.result := by
  cases hx : x.result with
  | ok a =>
    obtain ⟨b, hb, rfl⟩ := h.ok a hx
    exact hb.symm
  | error e => exact (h.error trivial e hx).symm

end Traced.Carries

namespace Lexical

/-- The body of a function refers to no hidden name. -/
def Lambda.Avoids (hidden : String → Prop) : Lambda → Prop
  | abstraction _ body => ∀ name ∈ body.references, ¬ hidden name
  | tagged _ => True

def Layer.Avoids (hidden : String → Prop) (l : Layer) : Prop :=
  ∀ entry ∈ l.functions, entry.2.Avoids hidden

/-- Two scopes with the same layers on top of two scopes that are related as given. -/
inductive Scope.Related (hidden : String → Prop) (base : Scope → Scope → Prop) : Scope → Scope → Prop where
  | base {s t : Scope} (h : base s t) : Related hidden base s t
  | layer {s t : Scope} (l : Layer) (hl : l.Avoids hidden) (h : Related hidden base s t) :
    Related hidden base ⟨l, s.layers⟩ ⟨l, t.layers⟩

/-- The same callee, or the same function in related scopes. -/
inductive Callee.Related (hidden : String → Prop) (base : Scope → Scope → Prop) :
    Callee → Callee → Prop where
  | same (c : Callee) : Related hidden base c c
  | moved {s t : Scope} (f : Lambda) (hf : f.Avoids hidden) (h : Scope.Related hidden base s t) :
    Related hidden base (.function f s) (.function f t)

/-- A relation between scopes that look-ups carry over, the values of hidden names aside. -/
structure Simulation where
  failures : Prop
  hidden : String → Prop
  base : Scope → Scope → Prop
  lookupValue {s t : Scope} (h : base s t) (name : String) (hn : ¬ hidden name) :
    (Traced.ofExcept (s.lookupValue name)).Carries failures Eq (Traced.ofExcept (t.lookupValue name))
  lookupFunction {s t : Scope} (h : base s t) (name : String) :
    (Traced.ofExcept (s.lookupFunction name)).Carries failures (Callee.Related hidden base)
      (Traced.ofExcept (t.lookupFunction name))

theorem Scope.lookupValue_layer (l : Layer) (s : Scope) (name : String) :
    (⟨l, s.layers⟩ : Scope).lookupValue name =
      match l.values.lookup name with
      | some v => .ok v
      | none => s.lookupValue name := by
  rw [lookupValue, show (⟨l, s.layers⟩ : Scope).layers = l :: s.layers from rfl, List.findSome?_cons]
  cases l.values.lookup name <;> rfl

theorem Scope.lookupFunction_layer (l : Layer) (s : Scope) (name : String) :
    (⟨l, s.layers⟩ : Scope).lookupFunction name =
      match l.functions.lookup name with
      | some f => .ok (.function f ⟨l, s.layers⟩)
      | none => s.lookupFunction name := by
  rw [lookupFunction, show (⟨l, s.layers⟩ : Scope).layers = l :: s.layers from rfl, functionAlong?]
  cases l.functions.lookup name <;> rfl

namespace Simulation
variable (S : Simulation)

abbrev Related : Scope → Scope → Prop :=
  Scope.Related S.hidden S.base

/-- Two scopes with a common innermost layer, which is where statements bind. -/
inductive Topped : Scope → Scope → Prop where
  | intro {s t : Scope} (l : Layer) (hl : l.Avoids S.hidden) (h : S.Related s t) :
    Topped ⟨l, s.layers⟩ ⟨l, t.layers⟩

/-- Evaluation carries results over between related scopes. -/
def Respected (evaluate : Evaluator) : Prop :=
  ∀ (s t : Scope) (e : Expr), S.Related s t → (∀ name ∈ e.references, ¬ S.hidden name) →
    (evaluate s e).Carries S.failures Eq (evaluate t e)

variable {S} {s t : Scope}

theorem Topped.related (h : S.Topped s t) : S.Related s t := by
  cases h with
  | intro l hl h => exact .layer l hl h

theorem topped_push (h : S.Related s t) (values : List (String × Value)) :
    S.Topped (s.push values) (t.push values) :=
  .intro { values } nofun h

theorem carries_lookupValue (h : S.Related s t) {name : String} (hn : ¬ S.hidden name) :
    (Traced.ofExcept (s.lookupValue name)).Carries S.failures Eq
      (Traced.ofExcept (t.lookupValue name)) := by
  induction h with
  | base h => exact S.lookupValue h name hn
  | layer l _ _ ih =>
    rw [Scope.lookupValue_layer, Scope.lookupValue_layer]
    cases l.values.lookup name with
    | some v => exact .of_eq rfl fun _ => rfl
    | none => exact ih

theorem carries_lookupFunction (h : S.Related s t) (name : String) :
    (Traced.ofExcept (s.lookupFunction name)).Carries S.failures (Callee.Related S.hidden S.base)
      (Traced.ofExcept (t.lookupFunction name)) := by
  induction h with
  | base h => exact S.lookupFunction h name
  | layer l hl h ih =>
    rw [Scope.lookupFunction_layer, Scope.lookupFunction_layer]
    cases hf : l.functions.lookup name with
    | none => exact ih
    | some f =>
      obtain ⟨before, after, hm, -⟩ := List.lookup_eq_some_iff.1 hf
      have hfl : f.Avoids S.hidden := hl (name, f) (by rw [hm]; simp)
      exact .of_ok rfl rfl (.moved f hfl (.layer l hl h))

theorem carries_bindValue (h : S.Topped s t) (name : String) (v : Value) :
    (Traced.ofExcept (s.bindValue name v)).Carries S.failures S.Topped
      (Traced.ofExcept (t.bindValue name v)) := by
  cases h with
  | intro l hl h =>
    simp only [Scope.bindValue]
    split
    · exact .fail _
    · exact .of_ok rfl rfl (.intro { l with values := (name, v) :: l.values } hl h)

theorem carries_bindFunction (h : S.Topped s t) (name : String) {f : Lambda} (hf : f.Avoids S.hidden) :
    (Traced.ofExcept (s.bindFunction name f)).Carries S.failures S.Topped
      (Traced.ofExcept (t.bindFunction name f)) := by
  cases h with
  | intro l hl h =>
    simp only [Scope.bindFunction]
    split
    · exact .fail _
    · refine .of_ok rfl rfl (.intro { l with functions := (name, f) :: l.functions } ?_ h)
      intro entry hm
      rcases List.mem_cons.1 hm with rfl | hm
      · exact hf
      · exact hl entry hm

variable {evaluate : Evaluator}

theorem carries_run (hev : S.Respected evaluate) (h : S.Topped s t) (statement : Statement)
    (ha : ∀ name ∈ statement.references, ¬ S.hidden name) :
    (run evaluate s statement).Carries S.failures (fun a b => S.Topped a.2 b.2)
      (run evaluate t statement) := by
  cases statement with
  | assign name e =>
    refine (hev s t e h.related ha).bind fun v w hvw => ?_
    subst hvw
    exact (carries_bindValue h name v).bind fun _ _ ht => .pure ht
  | define name params body =>
    simp only [run]
    cases firstRepeated? [] params with
    | some param => exact .fail _
    | none =>
      exact (carries_bindFunction h name (f := .abstraction params body) ha).bind fun _ _ ht =>
        .of_ok rfl rfl ht
  | expression e => exact (hev s t e h.related ha).bind fun _ _ _ => .pure h
  | misplaced e => exact .fail _

theorem carries_runAll (hev : S.Respected evaluate) (statements : List Statement) (h : S.Topped s t)
    (ha : ∀ name ∈ statementsReferences statements, ¬ S.hidden name) :
    (runAll evaluate s statements).Carries S.failures S.Topped (runAll evaluate t statements) := by
  induction statements generalizing s t with
  | nil => exact .pure h
  | cons statement rest ih =>
    simp only [statementsReferences, List.mem_append] at ha
    exact (carries_run hev h statement fun name hn => ha name (.inl hn)).bind fun _ _ ht =>
      ih ht fun name hn => ha name (.inr hn)

theorem carries_evaluateArgs (hev : S.Respected evaluate) (h : S.Related s t) (args : List Expr)
    (ha : ∀ name ∈ exprsReferences args, ¬ S.hidden name) :
    (evaluateArgs evaluate s args).Carries S.failures Eq (evaluateArgs evaluate t args) := by
  induction args with
  | nil => exact .pure rfl
  | cons e rest ih =>
    simp only [exprsReferences, List.mem_append] at ha
    refine (hev s t e h fun name hn => ha name (.inl hn)).bind fun v w hvw => ?_
    refine (ih fun name hn => ha name (.inr hn)).bind fun vs ws hvws => ?_
    exact .pure (by rw [hvw, hvws])

theorem carries_applyCallee (hev : S.Respected evaluate) (p : Nat) (name : String) (args : List Value)
    {c d : Callee} (h : Callee.Related S.hidden S.base c d) :
    (applyCallee p evaluate name args c).Carries S.failures Eq (applyCallee p evaluate name args d) := by
  cases h with
  | same c => exact .of_eq rfl fun _ => rfl
  | moved f hf h =>
    cases f with
    | tagged text => exact .fail _
    | abstraction params body =>
      simp only [applyCallee]
      split
      · exact .after rfl rfl (hev _ _ body (topped_push h (params.zip args)).related hf)
      · exact .fail _

theorem respected_evaluateOver (p : Nat) {below : Nat → Evaluator} (hb : ∀ k, S.Respected (below k)) :
    S.Respected (evaluateOver p below) := by
  intro s t e h ha
  refine .after rfl rfl ?_
  cases e with
  | number v => exact .pure rfl
  | symbol name => exact carries_lookupValue h (ha name (List.mem_singleton_self name))
  | unary op operand =>
    refine (hb 0 s t operand h ha).bind fun v w hvw => ?_
    exact hvw ▸ .of_eq rfl fun _ => rfl
  | binary op lhs rhs =>
    simp only [Expr.references, List.mem_append] at ha
    refine (hb 0 s t lhs h fun name hn => ha name (.inl hn)).bind fun v w hvw => ?_
    refine (hb 0 s t rhs h fun name hn => ha name (.inr hn)).bind fun v' w' hvw' => ?_
    exact hvw ▸ hvw' ▸ .of_eq rfl fun _ => rfl
  | call name args =>
    refine (carries_lookupFunction h name).bind fun c d hcd => ?_
    refine (carries_evaluateArgs (hb 2) h args ha).bind fun values values' hv => ?_
    exact hv ▸ carries_applyCallee (hb 2) p name values hcd
  | block statements final =>
    simp only [Expr.references, List.mem_append] at ha
    refine .after rfl rfl ?_
    refine (carries_runAll (hb 2) statements (topped_push h [])
      fun name hn => ha name (.inl hn)).bind fun s t hst => ?_
    exact hb 1 s t final hst.related fun name hn => ha name (.inr hn)
  | misplaced statement => exact .fail _
  | foreign text => exact .fail _

theorem respected_evaluateWithin (p n k : Nat) : S.Respected (evaluateWithin p n k) :=
  withCalls_induction (fun _ _ _ _ _ => .fail _) (fun _ h => respected_evaluateOver p h) n k

theorem respected_evaluate (m : Machine) : S.Respected (Lexical.evaluate m) :=
  respected_evaluateWithin m.precision m.evaluationCalls 0

end Simulation

end Lexical

end Reckoner
