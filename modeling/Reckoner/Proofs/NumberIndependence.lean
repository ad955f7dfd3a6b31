import Reckoner.Proofs.LexicalEvaluation

/-! Numbers do not steer evaluation. Two scopes that bind the same names and the same functions, layer by
layer, may bind different numbers: what is evaluated in them, at whatever precisions and with whatever
budgets, goes through the same events until one of the two fails. -/

namespace Reckoner

namespace Lexical

/-- A layer without its numbers: which names have values, and which functions there are. -/
def Layer.shape (l : Layer) : (String → Bool) × (String → Option Lambda) :=
  (fun name => (l.values.lookup name).isSome, fun name => l.functions.lookup name)

/-- A scope without its numbers. -/
def Scope.shape (s : Scope) : List ((String → Bool) × (String → Option Lambda)) :=
  s.layers.map Layer.shape

end Lexical

/-- Two computations go through the same events until one of them fails, and if both come to a value,
their values are related. -/
inductive Traced.InStep {α β : Type} (r : α → β → Prop) : Traced α → Traced β → Prop where
  | ok {a : α} {b : β} (h : r a b) (trace : List Event) : InStep r ⟨.ok a, trace⟩ ⟨.ok b, trace⟩
  | left (f : Failure) (y : Except Failure β) {t u : List Event} (h : t <+: u) :
    InStep r ⟨.error f, t⟩ ⟨y, u⟩
  | right (x : Except Failure α) (f : Failure) {t u : List Event} (h : u <+: t) :
    InStep r ⟨x, t⟩ ⟨.error f, u⟩

namespace Traced.InStep
variable {α β γ δ : Type} {r : α → β → Prop} {q : γ → δ → Prop}

theorem pure {a : α} {b : β} (h : r a b) : InStep r (Pure.pure a) (Pure.pure b) :=
  .ok h []

theorem record (e : Event) : InStep (fun _ _ => True) (Traced.record e) (Traced.record e) :=
  .ok trivial [e]

theorem fail_left (f : Failure) (y : Traced β) : InStep r (Traced.fail f) y :=
  .left f y.result (List.nil_prefix)

private theorem fail_right (x : Traced α) (f : Failure) : InStep r x (Traced.fail f) :=
  .right x.result f (List.nil_prefix)

/-- What records no event is in step with whatever records none. -/
theorem silent {x : Except Failure α} {y : Except Failure β}
    (h : ∀ a b, x = .ok a → y = .ok b → r a b) : InStep r ⟨x, []⟩ ⟨y, []⟩ := by
  cases x with
  | error f => exact .left f y (List.prefix_refl [])
  | ok a =>
    cases y with
    | error f => exact .right (.ok a) f (List.prefix_refl [])
    | ok b => exact .ok (h a b rfl rfl) []

private theorem prefix_trace_bind (x : Traced α) (f : α → Traced γ) : x.trace <+: (x >>= f).trace := by
  obtain ⟨result, trace⟩ := x
  cases result with
  | error e => exact List.prefix_refl trace
  | ok a => exact List.prefix_append trace _

theorem bind {x : Traced α} {y : Traced β} {f : α → Traced γ} {g : β → Traced δ} (h : InStep r x y)
    (hf : ∀ a b, r a b → InStep q (f a) (g b)) : InStep q (x >>= f) (y >>= g) := by
  cases h with
  | @ok a b hab trace =>
    rw [bind_of_ok, bind_of_ok]
    have hs := hf a b hab
    generalize f a = x' at hs ⊢
    generalize g b = y' at hs ⊢
    cases hs with
    | ok h later => exact .ok h _
    | left e y' hp => exact .left e y' ((List.prefix_append_right_inj trace).2 hp)
    | right x' e hp => exact .right x' e ((List.prefix_append_right_inj trace).2 hp)
  | left e y' hp => exact .left e _ (hp.trans (prefix_trace_bind ⟨y', _⟩ g))
  | right x' e hp => exact .right _ e (hp.trans (prefix_trace_bind ⟨x', _⟩ f))

theorem of_ok {x : Traced α} {y : Traced β} (h : InStep r x y) {a : α} {b : β}
    (hx : x.result = .ok a) (hy : y.result = .ok b) : r a b ∧ x.trace = y.trace := by
  cases h with
  | ok h trace =>
    obtain rfl := Except.ok.inj hx
    obtain rfl := Except.ok.inj hy
    exact ⟨h, rfl⟩
  | left f y hp => cases hx
  | right x f hp => cases hy

end Traced.InStep

namespace Lexical
open Traced (InStep)

namespace Scope
variable {s t : Scope}

theorem shape_eq_cons (s : Scope) : s.shape = s.innermost.shape :: s.enclosing.map Layer.shape :=
  rfl

theorem isSome_lookup {α : Type} (name : String) (bindings : List (String × α)) :
    (bindings.lookup name).isSome = decide (name ∈ bindings.map Prod.fst) := by
  induction bindings with
  | nil => rfl
  | cons binding rest ih =>
    obtain ⟨key, a⟩ := binding
    rw [List.lookup_cons]
    by_cases h : name = key
    · simp [h]
    · simp [beq_eq_false_iff_ne.2 h, h, ih]

theorem shape_push (h : s.shape = t.shape) {vs ws : List (String × Value)}
    (hv : vs.map Prod.fst = ws.map Prod.fst) : (s.push vs).shape = (t.push ws).shape := by
  have hnames : (fun name => (vs.lookup name).isSome) = fun name => (ws.lookup name).isSome := by
    funext name
    rw [isSome_lookup, isSome_lookup, hv]
  exact List.cons_eq_cons.2 ⟨Prod.ext hnames rfl, h⟩

private theorem depth_eq_length_shape (s : Scope) : s.depth = s.shape.length := by
  simp only [depth, shape, List.length_map]

theorem shape_innermost (h : s.shape = t.shape) : s.innermost.shape = t.innermost.shape :=
  (List.cons.inj h).1

private theorem inStep_lookupValue (s t : Scope) (name : String) :
    InStep (fun _ _ => True) (Traced.ofExcept (s.lookupValue name))
      (Traced.ofExcept (t.lookupValue name)) :=
  .silent fun _ _ _ _ => trivial

private theorem inStep_bindValue (h : s.shape = t.shape) (name : String) (v w : Value) :
    InStep (fun s' t' => s'.shape = t'.shape) (Traced.ofExcept (s.bindValue name v))
      (Traced.ofExcept (t.bindValue name w)) := by
  obtain ⟨hnames, hfunctions⟩ := Prod.mk.inj (shape_innermost h)
  simp only [bindValue, congrFun hnames name]
  split
  · exact .fail_left _ _
  · refine .pure ?_
    have hbound : (fun key => (List.lookup key ((name, v) :: s.innermost.values)).isSome) =
        fun key => (List.lookup key ((name, w) :: t.innermost.values)).isSome := by
      funext key
      rw [List.lookup_cons, List.lookup_cons]
      split
      · rfl
      · exact congrFun hnames key
    rw [shape_eq_cons, shape_eq_cons, Layer.shape, Layer.shape, hbound, hfunctions, (List.cons.inj h).2]

private theorem inStep_bindFunction (h : s.shape = t.shape) (name : String) (f : Lambda) :
    InStep (fun s' t' => s'.shape = t'.shape) (Traced.ofExcept (s.bindFunction name f))
      (Traced.ofExcept (t.bindFunction name f)) := by
  obtain ⟨hnames, hfunctions⟩ := Prod.mk.inj (shape_innermost h)
  simp only [bindFunction, congrFun hfunctions name]
  split
  · exact .fail_left _ _
  · refine .pure ?_
    have hbound : (fun key => List.lookup key ((name, f) :: s.innermost.functions)) =
        fun key => List.lookup key ((name, f) :: t.innermost.functions) := by
      funext key
      rw [List.lookup_cons, List.lookup_cons, show s.innermost.functions.lookup key = _ from
        congrFun hfunctions key]
    rw [shape_eq_cons, shape_eq_cons, Layer.shape, Layer.shape, hbound, hnames, (List.cons.inj h).2]

end Scope

/-- The same callee, except for the numbers in the scope of a function. -/
inductive Callee.Alike : Callee → Callee → Prop where
  | builtin (f : Builtin) : Alike (.builtin f) (.builtin f)
  | function (f : Lambda) {s t : Scope} (h : s.shape = t.shape) : Alike (.function f s) (.function f t)

namespace Scope

/-- The same function is found along layers of the same shapes, in scopes of the same shape. -/
theorem functionAlong_alike (name : String) {l m : List Layer}
    (h : l.map Layer.shape = m.map Layer.shape) :
    match functionAlong? name l, functionAlong? name m with
    | some (f, s), some (g, t) => f = g ∧ s.shape = t.shape
    | none, none => True
    | _, _ => False := by
  induction l generalizing m with
  | nil =>
    cases m with
    | nil => trivial
    | cons layer rest => cases h
  | cons layer rest ih =>
    cases m with
    | nil => cases h
    | cons layer' rest' =>
      obtain ⟨hl, hr⟩ := List.cons.inj h
      have hf : layer.functions.lookup name = layer'.functions.lookup name :=
        congrFun (Prod.mk.inj hl).2 name
      rw [functionAlong?, functionAlong?, hf]
      cases layer'.functions.lookup name with
      | some f => exact ⟨rfl, h⟩
      | none => exact ih hr

theorem inStep_lookupFunction {s t : Scope} (h : s.shape = t.shape) (name : String) :
    InStep Callee.Alike (Traced.ofExcept (s.lookupFunction name))
      (Traced.ofExcept (t.lookupFunction name)) := by
  have ha := functionAlong_alike name h
  rw [lookupFunction, lookupFunction]
  cases hs : functionAlong? name s.layers with
  | some fs =>
    cases ht : functionAlong? name t.layers with
    | none => simp only [hs, ht] at ha
    | some gt =>
      obtain ⟨f, s'⟩ := fs
      obtain ⟨g, t'⟩ := gt
      simp only [hs, ht] at ha
      obtain ⟨rfl, hst⟩ := ha
      exact .pure (.function f hst)
  | none =>
    cases ht : functionAlong? name t.layers with
    | some gt => simp only [hs, ht] at ha
    | none =>
      cases Builtin.ofName? name with
      | none => exact .fail_left _ _
      | some f => exact .pure (.builtin f)

end Scope

/-- In scopes of the same shape, the two evaluators go through the same events until one fails. -/
def Evaluator.InStep (f g : Evaluator) : Prop :=
  ∀ (s t : Scope) (e : Expr), s.shape = t.shape → Traced.InStep (fun _ _ => True) (f s e) (g t e)

section
variable {f g : Evaluator} {s t : Scope}

private theorem inStep_run (h : f.InStep g) (hs : s.shape = t.shape) (statement : Statement) :
    InStep (fun a b => a.2.shape = b.2.shape) (run f s statement) (run g t statement) := by
  cases statement with
  | assign name e =>
    exact (h s t e hs).bind fun v w _ =>
      (Scope.inStep_bindValue hs name v w).bind fun s' t' hs' => .pure hs'
  | define name params body =>
    simp only [run]
    cases firstRepeated? [] params with
    | some param => exact .fail_left _ _
    | none =>
      exact (Scope.inStep_bindFunction hs name _).bind fun s' t' hs' =>
        (InStep.record _).bind fun _ _ _ => .pure hs'
  | expression e => exact (h s t e hs).bind fun v w _ => .pure hs
  | misplaced e => exact .fail_left _ _

theorem inStep_runAll (h : f.InStep g) (hs : s.shape = t.shape) (statements : List Statement) :
    InStep (fun s' t' => s'.shape = t'.shape) (runAll f s statements) (runAll g t statements) := by
  induction statements generalizing s t with
  | nil => exact .pure hs
  | cons statement rest ih => exact (inStep_run h hs statement).bind fun a b hab => ih hab

private theorem inStep_evaluateArgs (h : f.InStep g) (hs : s.shape = t.shape) (args : List Expr) :
    InStep (fun vs ws => vs.length = ws.length) (evaluateArgs f s args) (evaluateArgs g t args) := by
  induction args with
  | nil => exact .pure rfl
  | cons e rest ih =>
    exact (h s t e hs).bind fun v w _ => ih.bind fun vs ws hl => .pure (congrArg (· + 1) hl)

theorem map_fst_zip {params : List String} {vs : List Value} (h : vs.length = params.length) :
    (params.zip vs).map Prod.fst = params :=
  List.map_fst_zip (Nat.le_of_eq h.symm)

private theorem inStep_applyCallee (h : f.InStep g) (p q : Nat) (name : String) {vs ws : List Value}
    (hl : vs.length = ws.length) {c d : Callee} (hc : c.Alike d) :
    InStep (fun _ _ => True) (applyCallee p f name vs c) (applyCallee q g name ws d) := by
  cases hc with
  | builtin b =>
    match vs, ws, hl with
    | [], [], _ => exact .fail_left _ _
    | [v], [w], _ => exact .silent fun _ _ _ _ => trivial
    | _ :: _ :: _, _ :: _ :: _, _ => exact .fail_left _ _
  | function lambda hs =>
    cases lambda with
    | tagged text => exact .fail_left _ _
    | abstraction params body =>
      simp only [applyCallee, hl]
      split
      · rename_i hw
        refine (InStep.record _).bind fun _ _ _ => h _ _ body (Scope.shape_push hs ?_)
        rw [map_fst_zip (hl.trans hw), map_fst_zip hw]
      · exact .fail_left _ _

end

private theorem inStep_evaluateOver (p q : Nat) {f g : Nat → Evaluator} (h : ∀ k, (f k).InStep (g k)) :
    (evaluateOver p f).InStep (evaluateOver q g) := by
  intro s t e hs
  refine (InStep.record _).bind fun _ _ _ => ?_
  cases e with
  | number v => exact .pure trivial
  | symbol name => exact Scope.inStep_lookupValue s t name
  | unary op operand => exact (h 0 s t operand hs).bind fun _ _ _ => .silent fun _ _ _ _ => trivial
  | binary op lhs rhs =>
    exact (h 0 s t lhs hs).bind fun _ _ _ => (h 0 s t rhs hs).bind fun _ _ _ =>
      .silent fun _ _ _ _ => trivial
  | call name args =>
    exact (Scope.inStep_lookupFunction hs name).bind fun c d hc =>
      (inStep_evaluateArgs (h 2) hs args).bind fun vs ws hl => inStep_applyCallee (h 2) p q name hl hc
  | block statements final =>
    have hp : (s.push []).shape = (t.push []).shape := Scope.shape_push hs rfl
    have hd : (s.push []).depth = (t.push []).depth := by
      rw [Scope.depth_eq_length_shape, Scope.depth_eq_length_shape, hp]
    rw [hd]
    exact (InStep.record _).bind fun _ _ _ => (inStep_runAll (h 2) hp statements).bind
      fun s' t' hs' => h 1 s' t' final hs'
  | misplaced statement => exact .fail_left _ _
  | foreign text => exact .fail_left _ _

/-- The precisions and the budgets may differ as well. -/
theorem inStep_evaluateWithin (p q n m k j : Nat) :
    (evaluateWithin p n k).InStep (evaluateWithin q m j) := by
  rw [evaluateWithin, evaluateWithin, withCalls_eq n, withCalls_eq m]
  generalize n - k = n
  generalize m - j = m
  induction n using Nat.strongRecOn generalizing m with
  | ind n ih =>
    match n, m with
    | 0, m => exact fun _ _ _ _ => .fail_left _ _
    | n, 0 => exact fun _ _ _ _ => .fail_right _ _
    | n + 1, m + 1 =>
      refine inStep_evaluateOver p q fun k => ?_
      rw [withCalls_eq n, withCalls_eq m]
      exact ih (n - k) (by omega) (m - k)

end Lexical

end Reckoner
