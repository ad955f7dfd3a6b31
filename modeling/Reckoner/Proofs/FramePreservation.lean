import Reckoner.Proofs.FrameExtension
import Reckoner.Session

/-! What evaluation does to the frames that were there before. Blocks and calls bind in frames that they
add themselves, so an expression changes no older frame, however it ends, and a statement adds at most
one binding, to the innermost frame and only if it succeeds. -/

namespace Reckoner
open Computation

/-- Evaluating an expression, in whatever scope, keeps the frames of every smaller store. -/
def Evaluator.Keeping (evaluate : Evaluator) : Prop :=
  ∀ (s : Store) (i : Nat) (e : Expr), Computation.Keeping s (evaluate i e)

namespace Statement
variable {evaluate : Evaluator} {s : Store} {i : Nat}

/-- A statement that runs on top of a new frame binds in that frame. -/
theorem keeping_run (h : evaluate.Keeping) (hi : s.size ≤ i) (statement : Statement) :
    Computation.Keeping s (statement.run evaluate i) := by
  cases statement with
  | assign name e =>
    refine (h s i e).bind fun v => ?_
    exact (keeping_bindValue hi name v).bind fun _ => keeping_pure _
  | define name params body =>
    have hb := keeping_bindFunction (s := s) hi name (.closure name params body i)
    simp only [run]
    split
    · exact Computation.Keeping.bind (keeping_lift _) fun _ =>
        hb.bind fun _ => Computation.Keeping.bind (keeping_lift _) fun _ => keeping_pure _
    · exact hb.bind fun _ => Computation.Keeping.bind (keeping_lift _) fun _ => keeping_pure _
  | expression e => exact (h s i e).bind fun _ => keeping_pure _
  | misplaced e => exact keeping_lift _

theorem keeping_runAll (h : evaluate.Keeping) (hi : s.size ≤ i) (statements : List Statement) :
    Computation.Keeping s (runAll evaluate i statements) := by
  induction statements with
  | nil => exact keeping_pure _
  | cons statement rest ih => exact (keeping_run h hi statement).bind fun _ => ih

end Statement

namespace Expr
variable {s : Store}

private theorem keeping_evaluateArgs {evaluate : Evaluator} (h : evaluate.Keeping) (i : Nat)
    (args : List Expr) : Computation.Keeping s (evaluateArgs evaluate i args) := by
  induction args with
  | nil => exact keeping_pure _
  | cons e rest ih => exact (h s i e).bind fun _ => ih.bind fun _ => keeping_pure _

private theorem keeping_applyCallable {evaluate : Evaluator} (h : evaluate.Keeping) (p : Nat) (name : String)
    (args : List Value) (callable : Callable) :
    Computation.Keeping s (applyCallable p evaluate name args callable) := by
  cases callable with
  | builtin f =>
    simp only [applyCallable]
    split <;> exact keeping_lift _
  | function f =>
    cases f with
    | tagged text => exact keeping_lift _
    | closure ownName params body home =>
      simp only [applyCallable]
      split
      · exact keeping_push_bind home _ fun inner _ =>
          Computation.Keeping.bind (keeping_lift _) fun _ => h s inner body
      · exact keeping_lift _

theorem keeping_evaluateOver (p : Nat) {below : Nat → Evaluator}
    (h : ∀ k, (below k).Keeping) : (evaluateOver p below).Keeping := by
  intro s i e
  refine Computation.Keeping.bind (keeping_lift _) fun _ => ?_
  cases e with
  | number v => exact keeping_pure _
  | symbol name => exact keeping_read _
  | unary op operand => exact (h 0 s i operand).bind fun _ => keeping_lift _
  | binary op lhs rhs =>
    exact (h 0 s i lhs).bind fun _ => (h 0 s i rhs).bind fun _ => keeping_lift _
  | call name args =>
    exact Computation.Keeping.bind (keeping_read _) fun callable =>
      (keeping_evaluateArgs (h 2) i args).bind fun values =>
        keeping_applyCallable (h 2) p name values callable
  | block statements final =>
    refine keeping_push_bind i [] fun inner hinner => ?_
    refine Computation.Keeping.bind (keeping_read _) fun _ => ?_
    refine Computation.Keeping.bind (keeping_lift _) fun _ => ?_
    exact (Statement.keeping_runAll (h 2) hinner statements).bind fun _ => h 1 s inner final
  | misplaced statement => exact keeping_lift _
  | foreign text => exact keeping_lift _

theorem keeping_evaluateWithin (p n k : Nat) : (evaluateWithin p n k).Keeping :=
  withCalls_induction (fun _ _ _ => keeping_lift _) (fun _ h => keeping_evaluateOver p h) n k

theorem keeping_evaluate (m : Machine) : (evaluate m).Keeping :=
  keeping_evaluateWithin m.precision m.evaluationCalls 0

end Expr

namespace Statement
variable {evaluate : Evaluator} {s : Store} {i : Nat}

/-- What a statement that succeeds with a value leaves behind: one more binding in the innermost frame,
under a name that the frame had not bound in the same way, or nothing at all. -/
def Binds (i : Nat) (value : Option Value) (s t : Store) : Statement → Prop
  | assign name _ => ∃ v, value = some v ∧ (s.frameAt i).values.lookup name = none ∧
      t.frames[i]? = some { s.frameAt i with values := (name, v) :: (s.frameAt i).values } ∧
      s.KeepsExcept i t
  | define name params body => value = none ∧ (s.frameAt i).functions.lookup name = none ∧
      t.frames[i]? = some { s.frameAt i with
        functions := (name, .closure name params body i) :: (s.frameAt i).functions } ∧
      s.KeepsExcept i t
  | expression _ => value.isSome ∧ s.Keeps t
  | misplaced _ => False

/-- The store after a statement, given its result. -/
def Leaves (i : Nat) (s : Store) (statement : Statement) :
    Traced (Option Value) × Store → Prop
  | (⟨.error _, _⟩, t) => s.Keeps t
  | (⟨.ok value, _⟩, t) => statement.Binds i value s t

private theorem leaves_assign (h : evaluate.Keeping) (hi : i < s.size) (name : String) (e : Expr) :
    (assign name e).Leaves i s ((assign name e).run evaluate i s) := by
  have hu := h s i e s (.refl s)
  cases he : evaluate i e s with
  | mk outcome u =>
    rw [he] at hu
    obtain ⟨result, trace⟩ := outcome
    cases result with
    | error f => rw [run, bind_of_error he]; exact hu
    | ok v =>
      rw [run, bind_of_ok he]
      cases hb : Store.bindValue name v i u with
      | error f => rw [bind_of_error (update_of_error hb)]; exact hu
      | ok t =>
        rw [bind_of_ok (update_of_ok hb)]
        obtain ⟨hn, rfl⟩ := Store.bindValue_eq_ok_iff.1 hb
        rw [hu.frameAt hi] at hn
        have hiu : i < u.size := Nat.lt_of_lt_of_le hi hu.size_le
        refine ⟨v, rfl, hn, ?_, ?_⟩
        · rw [← hu.frameAt hi]
          exact Store.getElem?_rebind hiu _
        · intro j hj hne
          exact (Store.keepsExcept_rebind u i _ j (Nat.lt_of_lt_of_le hj hu.size_le) hne).trans
            (hu j hj)

private theorem leaves_define (hi : i < s.size) (name : String) (params : List String) (body : Expr) :
    (define name params body).Leaves i s ((define name params body).run evaluate i s) := by
  have hbind : (define name params body).Leaves i s ((do
      update (Store.bindFunction name (.closure name params body i) i)
      record (.defined name)
      return none : Computation (Option Value)) s) := by
    cases hb : Store.bindFunction name (.closure name params body i) i s with
    | error f => rw [bind_of_error (update_of_error hb)]; exact .refl s
    | ok t =>
      rw [bind_of_ok (update_of_ok hb)]
      obtain ⟨-, hn, rfl⟩ := Store.bindFunction_eq_ok_iff.1 hb
      exact ⟨rfl, hn, Store.getElem?_rebind hi _, Store.keepsExcept_rebind s i _⟩
  rw [run]
  cases firstRepeated? [] params with
  | none => exact hbind
  | some param => exact .refl s

/-- A definition takes effect if its parameters differ and its name is new. -/
theorem run_define {name : String} {params : List String} (hparams : firstRepeated? [] params = none)
    (hbuiltin : Builtin.ofName? name = none) (hnew : (s.frameAt i).functions.lookup name = none)
    (body : Expr) :
    (define name params body).run evaluate i s = (⟨.ok none, [.defined name]⟩, s.rebind i fun frame =>
      { frame with functions := (name, .closure name params body i) :: frame.functions }) := by
  rw [run, hparams]
  exact bind_of_ok (update_of_ok (Store.bindFunction_eq_ok_iff.2 ⟨hbuiltin, hnew, rfl⟩))

/-- A statement that fails keeps every frame; one that succeeds adds what it binds. -/
theorem leaves_run (h : evaluate.Keeping) (hi : i < s.size) (statement : Statement) :
    statement.Leaves i s (statement.run evaluate i s) := by
  cases statement with
  | assign name e => exact leaves_assign h hi name e
  | define name params body => exact leaves_define hi name params body
  | expression e =>
    have hu := h s i e s (.refl s)
    cases he : evaluate i e s with
    | mk outcome u =>
      rw [he] at hu
      obtain ⟨result, trace⟩ := outcome
      cases result with
      | error f => rw [run, bind_of_error he]; exact hu
      | ok v => rw [run, bind_of_ok he]; exact ⟨rfl, hu⟩
  | misplaced e => exact .refl s

end Statement

namespace Session
variable {session : Session} {text : String} {statement : Statement} {s t : Store}

/-- A text whose statement fails with an error of the language gives the message of the error, and
leaves the store as the evaluation left it. -/
theorem run_of_error {parsing evaluating : List Event} {e : Error}
    (hp : session.parse text = ⟨.ok statement, parsing⟩)
    (he : session.execute statement s = (⟨.error (.error e), evaluating⟩, t)) :
    session.run text s = (⟨.ok e.message, parsing ++ evaluating⟩, t) := by
  have ha : session.answer statement s = (⟨.error (.error e), evaluating⟩, t) := by
    rw [answer, bind_of_error he]
  have hr : (do
      let statement ← lift (session.parse text)
      session.answer statement : Computation String) s =
        (⟨.error (.error e), parsing ++ evaluating⟩, t) := by
    rw [bind_of_ok (c := lift (session.parse text)) (a := statement) (t := s) (by rw [lift, hp]), ha]
  rw [run, recover, hr]

/-- Executing a statement changes the store as evaluating it does, and fails if that does. -/
theorem execute_eq_error {trace : List Event} {f : Failure}
    (h : session.execute statement s = (⟨.error f, trace⟩, t)) :
    ∃ g shown, statement.evaluate session.machine session.frame s = (⟨.error g, shown⟩, t) := by
  rcases hv : statement.evaluate session.machine session.frame s with ⟨⟨result, shown⟩, u⟩
  simp only [execute, hv, Prod.mk.injEq, Traced.mk.injEq] at h
  obtain ⟨⟨hr, -⟩, rfl⟩ := h
  cases result with
  | error g => exact ⟨g, shown, rfl⟩
  | ok v => cases hr

end Session

/-- Evaluation binds at most once, in the innermost frame. An expression keeps every frame of the store,
whether it yields a number or fails, and so does a statement that fails; a statement that succeeds adds
its own binding to the innermost frame, if it has one, and changes nothing else. Hence a session that
answers a text with the error of its evaluation has exactly the bindings that it had before. -/
theorem evaluation_binds_at_most_once (m : Machine) (s : Store) (i : Nat) (hi : i < s.size) :
    (∀ e : Expr, s.Keeps (Expr.evaluate m i e s).2) ∧
    (∀ (statement : Statement) (f : Failure),
      (statement.evaluate m i s).1.result = .error f → s.Keeps (statement.evaluate m i s).2) ∧
    (∀ (statement : Statement) (value : Option Value),
      (statement.evaluate m i s).1.result = .ok value →
        statement.Binds i value s (statement.evaluate m i s).2) ∧
    ∀ (settings : Settings) (text : String) (statement : Statement) (e : Error),
      let session : Session := ⟨⟨m.precision, i⟩, settings, m.stack⟩
      (session.parse text).result = .ok statement →
      (session.execute statement s).1.result = .error (.error e) →
      let after := session.run text s
      after.1.result = .ok e.message ∧ s.Keeps after.2 ∧ after.2.chain i = s.chain i := by
  have hl (statement : Statement) : statement.Leaves i s (statement.evaluate m i s) :=
    Statement.leaves_run (Expr.keeping_evaluate m) hi statement
  refine ⟨fun e => Expr.keeping_evaluate m s i e s (.refl s), ?_, ?_, ?_⟩
  · intro statement f hf
    have h := hl statement
    generalize statement.evaluate m i s = outcome at hf h ⊢
    obtain ⟨⟨result, trace⟩, t⟩ := outcome
    cases hf
    exact h
  · intro statement value hv
    have h := hl statement
    generalize statement.evaluate m i s = outcome at hv h ⊢
    obtain ⟨⟨result, trace⟩, t⟩ := outcome
    cases hv
    exact h
  · intro settings text statement e session hp he
    rcases hpe : session.parse text with ⟨parsed, parsing⟩
    rcases hee : session.execute statement s with ⟨⟨result, evaluating⟩, t⟩
    rw [hpe] at hp
    rw [hee] at he
    cases hp
    cases he
    obtain ⟨g, shown, hv⟩ := Session.execute_eq_error hee
    have h : statement.Leaves i s (statement.evaluate session.machine session.frame s) := hl statement
    rw [hv] at h
    rw [Session.run_of_error hpe hee]
    exact ⟨rfl, h, Store.Keeps.chain h hi⟩

/-- A block that defines a function and then fails leaves nothing behind but a frame of its own. -/
theorem failing_block_keeps_frames :
    let statement : Statement :=
      .assign "x" (.block [.define "f" ["y"] (.symbol "y")] (.binary "/" (.number ⟨.one, 128⟩) (.number ⟨.zero, 128⟩)))
    let s := Store.empty.add {}
    0 < s.size ∧ (statement.evaluate ⟨128, 1000⟩ 0 s).1.result = .error (.error .divisionByZero) ∧
      s.Keeps (statement.evaluate ⟨128, 1000⟩ 0 s).2 :=
  ⟨by decide, rfl, (evaluation_binds_at_most_once ⟨128, 1000⟩ _ 0 (by decide)).2.1 _ _ rfl⟩

end Reckoner
