import Reckoner.Proofs.FramePreservation
import Reckoner.Proofs.LexicalScope

/-! Evaluation over scopes as values. The rules are those of evaluation over frames, but a scope with one
binding more is another scope, and nothing is changed. Over a linked store the two agree on values,
failures and events, and on the scopes that statements leave. -/

namespace Reckoner
namespace Lexical

abbrev Evaluator := Scope → Expr → Traced Value

/-- Run a statement: the value, if it has one, and the scope with the new binding. -/
def run (evaluate : Evaluator) (s : Scope) : Statement → Traced (Option Value × Scope)
  | .assign name e => do
    let v ← evaluate s e
    let t ← Traced.ofExcept (s.bindValue name v)
    return (some v, t)
  | .define name params body => do
    if let some param := firstRepeated? [] params then
      Traced.fail (.error (.alreadyBound param))
    let t ← Traced.ofExcept (s.bindFunction name (.abstraction params body))
    Traced.record (.defined name)
    return (none, t)
  | .expression e => do
    let v ← evaluate s e
    return (some v, s)
  | statement =>
    Traced.fail (.error (.malformedTree ("Unknown statement node: " ++ statement.kind)))

/-- Run statements one after another, each in the scope that the ones before it left. -/
def runAll (evaluate : Evaluator) : Scope → List Statement → Traced Scope
  | s, [] => pure s
  | s, statement :: rest => do
    let (_, t) ← run evaluate s statement
    runAll evaluate t rest

/-- Evaluate arguments from left to right. -/
def evaluateArgs (evaluate : Evaluator) (s : Scope) : List Expr → Traced (List Value)
  | [] => pure []
  | e :: rest => do
    let v ← evaluate s e
    return v :: (← evaluateArgs evaluate s rest)

/-- Call a function on arguments that are evaluated already, on top of the scope of its layer. -/
def applyCallee (p : Nat) (evaluate : Evaluator) (name : String) (args : List Value) :
    Callee → Traced Value
  | .builtin f =>
    match args with
    | [a] => Traced.ofExcept ((f.apply p a.number).map (⟨·, p⟩))
    | _ => Traced.fail (.error (.arity f.arity args.length (some name)))
  | .function (.tagged _) _ => Traced.fail (.notCallable name)
  | .function (.abstraction params body) home =>
    if args.length = params.length then do
      Traced.record (.calling name args.length)
      evaluate (home.push (params.zip args)) body
    else Traced.fail (.error (.arity params.length args.length (some name)))

/-- Evaluate, given how that is done further down. -/
def evaluateOver (p : Nat) (below : Nat → Evaluator) : Evaluator := fun s e => do
  Traced.record (.evaluating e.kind)
  match e with
  | .number v => return v
  | .symbol name => Traced.ofExcept (s.lookupValue name)
  | .unary op operand => do
    let v ← below 0 s operand
    ⟨applyUnary op v, []⟩
  | .binary op lhs rhs => do
    let a ← below 0 s lhs
    let b ← below 0 s rhs
    ⟨applyBinary op a b, []⟩
  | .call name args => do
    let callee ← Traced.ofExcept (s.lookupFunction name)
    let values ← evaluateArgs (below 2) s args
    applyCallee p (below 2) name values callee
  | .block statements final => do
    Traced.record (.enteringBlock (s.push []).depth)
    let inner ← runAll (below 2) (s.push []) statements
    below 1 inner final
  | e => Traced.fail (.error (.malformedTree ("Unknown expression node: " ++ e.kind)))

/-- Evaluate with a budget of calls, after using up some of them. -/
def evaluateWithin (p : Nat) : Nat → Nat → Evaluator :=
  withCalls (fun _ _ => Traced.fail .tooDeep) (evaluateOver p)

def evaluate (m : Machine) : Evaluator :=
  evaluateWithin m.precision m.evaluationCalls 0

end Lexical

open Lexical (Scope Callee)

/-- Over every linked store that keeps the frames of the given one, a computation has the given outcome,
and the store that it leaves is linked and keeps those frames as well. -/
def Computation.Yields {α : Type} (s : Store) (c : Computation α) (t : Traced α) : Prop :=
  ∀ u, u.Linked → s.Keeps u → (c u).1 = t ∧ (c u).2.Linked ∧ s.Keeps (c u).2

namespace Computation
variable {α β : Type} {s : Store}

theorem yields_lift (t : Traced α) : Yields s (lift t) t :=
  fun _ hu hk => ⟨rfl, hu, hk⟩

theorem yields_pure (a : α) : Yields s (pure a : Computation α) (pure a) :=
  yields_lift _

theorem Yields.bind {c : Computation α} {t : Traced α} {f : α → Computation β} {g : α → Traced β}
    (hc : Yields s c t) (hf : ∀ a, Yields s (f a) (g a)) : Yields s (c >>= f) (t >>= g) := by
  intro u hu hk
  obtain ⟨ht, hl, hk'⟩ := hc u hu hk
  rcases h : c u with ⟨⟨result, trace⟩, v⟩
  rw [h] at ht hl hk'
  subst ht
  cases result with
  | error e => rw [bind_of_error h]; exact ⟨rfl, hl, hk'⟩
  | ok a =>
    obtain ⟨ht, hl, hk⟩ := hf a v hl hk'
    rw [bind_of_ok h, ht]
    exact ⟨rfl, hl, hk⟩

private theorem yields_lookupValue {i : Nat} (hi : i < s.size) (name : String) :
    Yields s (read (Store.lookupValue name i)) (Traced.ofExcept ((s.scope i).lookupValue name)) := by
  intro u hu hk
  have hv : u.lookupValue name i = (s.scope i).lookupValue name := by
    rw [← Store.lookupValue_scope (Nat.lt_of_lt_of_le hi hk.size_le), hk.scope hi]
  exact ⟨congrArg Traced.ofExcept hv, hu, hk⟩

private theorem yields_lookupFunction_bind (hs : s.Linked) {i : Nat} (hi : i < s.size) (name : String)
    {f : Callable → Computation β} {g : Callee → Traced β}
    (hf : ∀ callable callee, callable.Means s name callee → Yields s (f callable) (g callee)) :
    Yields s (read (Store.lookupFunction name i) >>= f)
      (Traced.ofExcept ((s.scope i).lookupFunction name) >>= g) := by
  intro u hu hk
  have hl := Store.lookupFunction_scope hs name hi
  have hc : u.lookupFunction name i = s.lookupFunction name i := by
    simp only [Store.lookupFunction, hk.chain hi]
  cases h : s.lookupFunction name i with
  | error e =>
    rw [h] at hl hc
    rw [hl, bind_of_error (c := read (Store.lookupFunction name i)) (by rw [read, hc]; rfl)]
    exact ⟨rfl, hu, hk⟩
  | ok callable =>
    rw [h] at hl hc
    obtain ⟨callee, hl, hm⟩ := hl
    obtain ⟨ht, hl', hk'⟩ := hf callable callee hm u hu hk
    rw [hl, bind_of_ok (c := read (Store.lookupFunction name i)) (by rw [read, hc]; rfl), ht]
    exact ⟨rfl, hl', hk'⟩

/-- What runs on top of a new frame may change that frame. -/
theorem yields_push_bind {i : Nat} (values : List (String × Value)) {f : Nat → Computation β}
    {t : Traced β}
    (hf : ∀ u : Store, u.Linked → s.Keeps u →
      let (outcome, after) := f u.size (u.add { values, parent := some i })
      outcome = t ∧ after.Linked ∧ s.Keeps after) :
    Yields s (push i values >>= f) t := by
  intro u hu hk
  obtain ⟨ht, hl, hk'⟩ := hf u hu hk
  rw [bind_of_ok (c := push i values) (s := u) (a := u.size) rfl, ht]
  exact ⟨rfl, hl, hk'⟩

end Computation

/-- Over a linked store, evaluation in the scope of a frame is evaluation in that scope as a value. -/
def Evaluator.Agrees (evaluate : Evaluator) (lexical : Lexical.Evaluator) : Prop :=
  ∀ (s : Store) (i : Nat) (e : Expr), s.Linked → i < s.size →
    Computation.Yields s (evaluate i e) (lexical (s.scope i) e)

/-- The end of a computation is what a function of scopes predicts: its outcome, and a linked store in
which the frame at a place has the predicted scope. -/
inductive Store.Lands {α : Type} (i : Nat) : Traced α × Store → Traced (α × Scope) → Prop where
  | ok {a : α} {trace : List Event} {after : Store} (hl : after.Linked) (hi : i < after.size) :
    Lands i (⟨.ok a, trace⟩, after) ⟨.ok (a, after.scope i), trace⟩
  | error {f : Failure} {trace : List Event} {after : Store} (hl : after.Linked) (hi : i < after.size) :
    Lands i (⟨.error f, trace⟩, after) ⟨.error f, trace⟩

/-- What follows on an earlier computation has its events behind those of that one. -/
theorem Store.Lands.later {α : Type} {i : Nat} {x : Traced α × Store} {y : Traced (α × Scope)}
    (h : Store.Lands i x y) (trace : List Event) :
    Store.Lands i (⟨x.1.result, trace ++ x.1.trace⟩, x.2) ⟨y.result, trace ++ y.trace⟩ := by
  cases h with
  | ok hl hi => exact .ok hl hi
  | error hl hi => exact .error hl hi

theorem Store.Lands.outcome {α : Type} {i : Nat} {x : Traced α × Store} {y : Traced (α × Scope)}
    (h : Store.Lands i x y) : x.1 = Prod.fst <$> y ∧ x.2.Linked ∧ i < x.2.size := by
  cases h with
  | @ok a trace after hl hi => exact ⟨congrArg (Traced.mk _) (List.append_nil trace).symm, hl, hi⟩
  | error hl hi => exact ⟨rfl, hl, hi⟩

theorem Store.Lands.scope_of_ok {α : Type} {i : Nat} {x : Traced α × Store} {y : Traced (α × Scope)}
    (h : Store.Lands i x y) {a : α} {scope : Scope} (hy : y.result = .ok (a, scope)) :
    x.2.scope i = scope := by
  cases h with
  | ok hl hi => exact congrArg Prod.snd (Except.ok.inj hy)
  | error hl hi => cases hy

theorem Store.Lands.bind {α β : Type} {i : Nat} {s : Store} {c : Computation α}
    {r : Traced (α × Scope)} {f : α → Computation β} {g : α × Scope → Traced (β × Scope)}
    (hc : Store.Lands i (c s) r)
    (hf : ∀ a (t : Store), t.Linked → i < t.size → Store.Lands i (f a t) (g (a, t.scope i))) :
    Store.Lands i ((c >>= f) s) (r >>= g) := by
  generalize hd : c s = d at hc
  cases hc with
  | error hl hi => rw [Computation.bind_of_error hd]; exact .error hl hi
  | @ok a trace t hl hi =>
    rw [Computation.bind_of_ok hd, Traced.bind_of_ok]
    exact (hf a t hl hi).later trace

namespace Statement
open Computation
variable {evaluate : Evaluator} {lexical : Lexical.Evaluator} {i : Nat} {s : Store}

/-- An expression leaves the frame with the scope that it had. -/
theorem lands_evaluate (h : evaluate.Agrees lexical) (hs : s.Linked) (hi : i < s.size) (e : Expr) :
    Store.Lands i (evaluate i e s) (lexical (s.scope i) e >>= fun v => pure (v, s.scope i)) := by
  obtain ⟨ht, hl, hk⟩ := h s i e hs hi s hs (.refl s)
  have hit : i < (evaluate i e s).2.size := Nat.lt_of_lt_of_le hi hk.size_le
  rw [← ht, ← hk.scope hi]
  generalize evaluate i e s = x at hl hit ⊢
  obtain ⟨⟨result, trace⟩, t⟩ := x
  cases result with
  | error f => exact .error hl hit
  | ok v =>
    rw [Traced.bind_of_ok, show trace ++ (pure (v, t.scope i) : Traced (Value × Scope)).trace = trace
      from List.append_nil trace]
    exact .ok hl hit

/-- A change of the store that makes the scope of the frame what a function of scopes says. -/
theorem lands_update_bind {β : Type} {change : Store → Except Error Store} {r : Except Error Scope}
    (hs : s.Linked) (hi : i < s.size) (hr : r = (change s).map (·.scope i))
    (hc : ∀ t, change s = .ok t → t.Linked ∧ t.size = s.size) {f : Unit → Computation β}
    {g : Scope → Traced (β × Scope)}
    (hf : ∀ t : Store, t.Linked → i < t.size → Store.Lands i (f () t) (g (t.scope i))) :
    Store.Lands i ((update change >>= f) s) (Traced.ofExcept r >>= g) := by
  subst hr
  cases h : change s with
  | error e => rw [bind_of_error (update_of_error h)]; exact .error hs hi
  | ok t =>
    obtain ⟨hl, hsize⟩ := hc t h
    rw [bind_of_ok (update_of_ok h)]
    exact (hf t hl (by omega)).later []

theorem lands_run (h : evaluate.Agrees lexical) (hs : s.Linked) (hi : i < s.size)
    (statement : Statement) :
    Store.Lands i (statement.run evaluate i s) (Lexical.run lexical (s.scope i) statement) := by
  cases statement with
  | assign name e =>
    have hb (v : Value) (t : Store) (ht : t.Linked) (hit : i < t.size) :
        Store.Lands i ((update (Store.bindValue name v i) >>= fun _ => pure (some v)) t)
          (Traced.ofExcept ((t.scope i).bindValue name v) >>= fun t => pure (some v, t)) := by
      refine lands_update_bind ht hit (Store.bindValue_scope hit name v) (fun u hu => ?_)
        fun u hl hiu => .ok hl hiu
      obtain ⟨-, rfl⟩ := Store.bindValue_eq_ok_iff.1 hu
      exact ⟨ht.bindValue hu, Store.size_rebind ..⟩
    have hr := (lands_evaluate h hs hi e).bind (g := fun (v, scope) =>
      Traced.ofExcept (scope.bindValue name v) >>= fun t => pure (some v, t)) hb
    simp only [bind_assoc, pure_bind] at hr
    exact hr
  | define name params body =>
    rw [run, Lexical.run]
    cases firstRepeated? [] params with
    | some param => exact .error hs hi
    | none =>
      refine lands_update_bind hs hi (Store.bindFunction_scope hi name (.closure name params body i)) (fun u hu => ?_)
        fun u hl hiu => .ok hl hiu
      obtain ⟨-, -, rfl⟩ := Store.bindFunction_eq_ok_iff.1 hu
      exact ⟨hs.bindFunction hu, Store.size_rebind ..⟩
  | expression e =>
    have hr := (lands_evaluate h hs hi e).bind (f := fun v => pure (some v))
      (g := fun (v, scope) => pure (some v, scope)) fun v t ht hit => .ok ht hit
    simp only [bind_assoc, pure_bind] at hr
    exact hr
  | misplaced e => exact .error hs hi

theorem lands_runAll (h : evaluate.Agrees lexical) (hs : s.Linked) (hi : i < s.size)
    (statements : List Statement) :
    Store.Lands i (runAll evaluate i statements s)
      (Lexical.runAll lexical (s.scope i) statements >>= fun scope => pure ((), scope)) := by
  induction statements generalizing s with
  | nil => exact .ok hs hi
  | cons statement rest ih =>
    rw [Lexical.runAll, bind_assoc]
    exact (lands_run h hs hi statement).bind fun _ t ht hit => ih ht hit

end Statement

namespace Expr
open Computation
variable {s : Store}

theorem yields_evaluateArgs {evaluate : Evaluator} {lexical : Lexical.Evaluator}
    (h : evaluate.Agrees lexical) (hs : s.Linked) {i : Nat} (hi : i < s.size) (args : List Expr) :
    Yields s (evaluateArgs evaluate i args) (Lexical.evaluateArgs lexical (s.scope i) args) := by
  induction args with
  | nil => exact yields_pure _
  | cons e rest ih => exact (h s i e hs hi).bind fun v => ih.bind fun values => yields_pure _

theorem yields_applyCallable {evaluate : Evaluator} {lexical : Lexical.Evaluator}
    (h : evaluate.Agrees lexical) (p : Nat) (name : String) (args : List Value)
    {callable : Callable} {callee : Callee} (hm : callable.Means s name callee) :
    Yields s (applyCallable p evaluate name args callable)
      (Lexical.applyCallee p lexical name args callee) := by
  cases hm with
  | builtin f =>
    match args with
    | [a] => exact yields_lift _
    | [] | _ :: _ :: _ => exact yields_lift _
  | tagged text home => exact yields_lift _
  | closure params body place hp =>
    simp only [applyCallable, Lexical.applyCallee]
    split
    · refine yields_push_bind _ fun u hu hk => ?_
      have hpu : place < u.size := Nat.lt_of_lt_of_le hp hk.size_le
      have hb := h _ u.size body (hu.add (params.zip args) (some place)) (by simp)
      rw [Store.scope_add hpu, hk.scope hp] at hb
      obtain ⟨ht, hl, hk'⟩ := ((yields_lift (.record (.calling name args.length))).bind fun _ => hb) _
        (hu.add _ _) (.refl _)
      exact ⟨ht, hl, (hk.trans (u.keeps_add _)).trans hk'⟩
    · exact yields_lift _

/-- What a block binds goes into a frame of its own. -/
theorem yields_block {below : Nat → Evaluator} {lexical : Nat → Lexical.Evaluator}
    (h : ∀ k, (below k).Agrees (lexical k)) (hk : ∀ k, (below k).Keeping) {i : Nat}
    (hi : i < s.size) (statements : List Statement) (final : Expr) :
    Yields s (do
        let inner ← push i []
        record (.enteringBlock (← read fun s => .ok (s.depth inner)))
        Statement.runAll (below 2) inner statements
        below 1 inner final)
      (do
        Traced.record (.enteringBlock ((s.scope i).push []).depth)
        let inner ← Lexical.runAll (lexical 2) ((s.scope i).push []) statements
        lexical 1 inner final) := by
  refine yields_push_bind [] fun u hu hus => ?_
  have hkeep := Computation.Keeping.bind (keeping_read fun s => .ok (s.depth u.size)) fun d =>
    Computation.Keeping.bind (keeping_lift (.record (.enteringBlock d))) fun _ =>
      (Statement.keeping_runAll (hk 2) hus.size_le statements).bind fun _ => hk 1 s u.size final
  have hiu : i < u.size := Nat.lt_of_lt_of_le hi hus.size_le
  have hv := hu.add [] (some i)
  have hin : u.size < (u.add { values := [], parent := some i }).size := by simp
  have hr := (Statement.lands_runAll (h 2) hv hin statements).bind (g := fun (_, scope) =>
      lexical 1 scope final >>= fun v => pure (v, scope))
    fun _ t ht hit => Statement.lands_evaluate (h 1) ht hit final
  have hsc : (u.add { values := [], parent := some i }).scope u.size = (s.scope i).push [] := by
    rw [Store.scope_add hiu, hus.scope hi]
  have hd := Store.depth_scope hin
  rw [hsc] at hr hd
  obtain ⟨ho, hl, -⟩ := (hr.later [.enteringBlock ((s.scope i).push []).depth]).outcome
  refine ⟨?_, hl, hkeep _ (hus.trans (u.keeps_add _))⟩
  rw [hd] at ho
  refine ho.trans (?_ : Prod.fst <$> (Traced.record (.enteringBlock _) >>= fun _ => _) = _)
  simp only [bind_assoc, pure_bind, map_bind, map_pure, bind_pure, hd]

private theorem agrees_evaluateOver (p : Nat) {below : Nat → Evaluator} {lexical : Nat → Lexical.Evaluator}
    (h : ∀ k, (below k).Agrees (lexical k)) (hk : ∀ k, (below k).Keeping) :
    (evaluateOver p below).Agrees (Lexical.evaluateOver p lexical) := by
  intro s i e hs hi
  refine (yields_lift _).bind fun _ => ?_
  cases e with
  | number v => exact yields_pure _
  | symbol name => exact yields_lookupValue hi name
  | unary op operand => exact (h 0 s i operand hs hi).bind fun _ => yields_lift _
  | binary op lhs rhs =>
    exact (h 0 s i lhs hs hi).bind fun _ => (h 0 s i rhs hs hi).bind fun _ => yields_lift _
  | call name args =>
    refine yields_lookupFunction_bind hs hi name fun callable callee hm => ?_
    exact (yields_evaluateArgs (h 2) hs hi args).bind fun values =>
      yields_applyCallable (h 2) p name values hm
  | block statements final => exact yields_block h hk hi statements final
  | misplaced statement => exact yields_lift _
  | foreign text => exact yields_lift _

theorem agrees_evaluateWithin (p n k : Nat) :
    (evaluateWithin p n k).Agrees (Lexical.evaluateWithin p n k) := by
  refine (withCalls_relation (motive := fun (f : Evaluator) (g : Lexical.Evaluator) => f.Keeping ∧ f.Agrees g)
    ?_ (fun f g h => ?_) n k).2
  · exact ⟨fun _ _ _ => keeping_lift _, fun _ _ _ _ _ => yields_lift _⟩
  · exact ⟨keeping_evaluateOver p fun k => (h k).1, agrees_evaluateOver p (fun k => (h k).2) fun k => (h k).1⟩

theorem agrees_evaluate (m : Machine) : (evaluate m).Agrees (Lexical.evaluate m) :=
  agrees_evaluateWithin m.precision m.evaluationCalls 0

/-- Over a linked store, an expression has the outcome that it has in the scope of the frame as a value. -/
theorem outcome_evaluate (m : Machine) {s : Store} {i : Nat} (hs : s.Linked) (hi : i < s.size) (e : Expr) :
    (evaluate m i e s).1 = Lexical.evaluate m (s.scope i) e :=
  (agrees_evaluate m s i e hs hi s hs (.refl s)).1

end Expr

/-- Running a statement over a linked store is running it in the scope of the frame as a value. -/
theorem Statement.lands_evaluate_statement (m : Machine) {s : Store} {i : Nat} (hs : s.Linked)
    (hi : i < s.size) (statement : Statement) :
    Store.Lands i (statement.evaluate m i s)
      (Lexical.run (Lexical.evaluate m) (s.scope i) statement) :=
  lands_run (Expr.agrees_evaluate m) hs hi statement

end Reckoner
