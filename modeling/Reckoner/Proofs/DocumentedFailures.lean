import Reckoner.Proofs.ParsedText
import Reckoner.Proofs.Reachability

/-! Failures of evaluation. A session that was given nothing but texts has stored functions with bodies that
can be written, so that evaluation knows every operator and every function that it meets. It can fail for
five reasons then, or by running out of depth. -/

namespace Reckoner
open Computation

/-- The failures that evaluation is documented to have. -/
inductive Failure.Documented : Failure → Prop where
  | unbound (name : String) : Documented (.error (.unbound name))
  | alreadyBound (name : String) : Documented (.error (.alreadyBound name))
  | arity (expected found : Int) (function : Option String) :
    Documented (.error (.arity expected found function))
  | divisionByZero : Documented (.error .divisionByZero)
  | notReal (operation : String) : Documented (.error (.notReal operation))
  | tooDeep : Documented .tooDeep

/-- A result of the given kind, or a documented failure. -/
def Orderly {α : Type} (P : α → Prop) : Except Failure α → Prop
  | .ok a => P a
  | .error f => f.Documented

section Arithmetic
variable (p : Nat) (a b : Number)

private theorem orderly_div : Orderly (fun _ => True) (Failure.lift (a.div p b)) := by
  unfold Number.div
  split
  · exact .divisionByZero
  · trivial

private theorem orderly_powWhole (n : Dyadic) : Orderly (fun _ => True) (Failure.lift (Number.powWhole p a n)) := by
  unfold Number.powWhole
  split
  · trivial
  split
  · trivial
  · trivial
  split
  · split
    · exact .divisionByZero
    · trivial
  · trivial

private theorem orderly_pow : Orderly (fun _ => True) (Failure.lift (Number.pow p a b)) := by
  unfold Number.pow
  split
  · split
    · exact orderly_powWhole p a _
    split
    · exact .notReal _
    split
    · exact .divisionByZero
    split <;> trivial
  · split
    · exact .notReal _
    split <;> trivial

private theorem orderly_atFinite (f : Builtin) (x : Dyadic) :
    Orderly (fun _ => True) (Failure.lift (f.atFinite p x)) := by
  cases f <;> simp only [Builtin.atFinite] <;> try trivial
  all_goals split <;> first | trivial | exact .notReal _

private theorem orderly_atInfinity (f : Builtin) (negative : Bool) :
    Orderly (fun _ => True) (Failure.lift (f.atInfinity p negative)) := by
  cases f <;> simp only [Builtin.atInfinity] <;> try trivial
  all_goals first | exact .notReal _ | (split <;> first | trivial | exact .notReal _)

private theorem orderly_apply (f : Builtin) : Orderly (fun _ => True) (Failure.lift (f.apply p a)) := by
  cases a with
  | undefined => trivial
  | infinite negative => exact orderly_atInfinity p f negative
  | finite x =>
    rw [Builtin.apply]
    split
    · trivial
    · have h := orderly_atFinite p f x
      cases hx : f.atFinite p x with
      | ok v => trivial
      | error e =>
        rw [hx] at h
        exact h

private theorem orderly_operate {op : String} (hop : op ∈ ["+", "-", "*", "/", "^"]) :
    Orderly (fun _ => True) (operate p op a b) := by
  simp only [List.mem_cons, List.not_mem_nil, or_false] at hop
  rcases hop with rfl | rfl | rfl | rfl | rfl
  · trivial
  · trivial
  · trivial
  · exact orderly_div p a b
  · exact orderly_pow p a b

end Arithmetic

/-- What is made of a result does not matter to how it fails. -/
theorem Orderly.map {α β : Type} {P : α → Prop} {x : Except Failure α} (h : Orderly P x) (f : α → β) :
    Orderly (fun _ => True) (x.map f) := by
  cases x with
  | ok a => trivial
  | error e => exact h

private theorem orderly_applyBinary {op : String} (hop : op ∈ ["+", "-", "*", "/", "^"]) (a b : Value) :
    Orderly (fun _ => True) (applyBinary op a b) :=
  (orderly_operate a.precision a.number b.number hop).map _

private theorem orderly_applyBuiltin (p : Nat) (f : Builtin) (a : Value) :
    Orderly (fun _ => True) (Traced.ofExcept ((f.apply p a.number).map (⟨·, p⟩ : Number → Value))).result := by
  have h := orderly_apply p a.number f
  cases hf : f.apply p a.number with
  | ok n => trivial
  | error e =>
    rw [hf] at h
    exact h

/-- A function with a body that can be written. -/
def Function.Written : Function → Prop
  | .closure _ _ body _ => body.Regular
  | .tagged _ => False

def Frame.Written (frame : Frame) : Prop :=
  ∀ name f, (name, f) ∈ frame.functions → f.Written

theorem Frame.written_of_values (values : List (String × Value)) (parent : Option Nat) :
    Frame.Written { values, parent } :=
  fun _ _ h => absurd h List.not_mem_nil

def Callable.Written : Callable → Prop
  | .builtin _ => True
  | .function f => f.Written

namespace Store

/-- All functions of the store have bodies that can be written. -/
def Written (s : Store) : Prop :=
  ∀ i, (s.frameAt i).Written

variable {s t : Store}

theorem written_empty : empty.Written :=
  fun _ => Frame.written_of_values [] none

theorem Written.add (hs : s.Written) {frame : Frame} (hf : frame.Written) : (s.add frame).Written := by
  intro i
  simp only [frameAt, Store.add, Array.getElem?_push]
  split
  · exact hf
  · exact hs i

theorem Written.rebind (hs : s.Written) (i : Nat) {change : Frame → Frame}
    (hc : ∀ frame, frame.Written → (change frame).Written) : (s.rebind i change).Written := by
  intro j
  have hj := hs j
  simp only [frameAt, Store.rebind, Array.getElem?_modify] at hj ⊢
  split
  · cases hf : s.frames[j]? with
    | none => exact Frame.written_of_values [] none
    | some frame =>
      rw [hf] at hj
      exact hc frame hj
  · exact hj

private theorem Written.bindValue (hs : s.Written) {name : String} {v : Value} {i : Nat}
    (h : Store.bindValue name v i s = .ok t) : t.Written := by
  obtain ⟨-, rfl⟩ := bindValue_eq_ok_iff.1 h
  exact hs.rebind i fun _ hf => hf

private theorem Written.bindFunction (hs : s.Written) {name : String} {f : Function} {i : Nat} (hf : f.Written)
    (h : Store.bindFunction name f i s = .ok t) : t.Written := by
  obtain ⟨-, -, rfl⟩ := bindFunction_eq_ok_iff.1 h
  refine hs.rebind i fun frame hframe key g hg => ?_
  rcases List.mem_cons.1 hg with he | hg
  · cases he
    exact hf
  · exact hframe key g hg

private theorem written_relocate {frame : Frame} (hf : frame.Written) (place : Nat → Nat) :
    (frame.relocate place).Written := by
  intro name f hmem
  obtain ⟨⟨_, g⟩, hg, he⟩ := List.mem_map.1 hmem
  cases he
  have hw := hf _ g hg
  cases g with
  | closure ownName params body home =>
    change body.rebuild.Regular
    rw [body.rebuild_eq]
    exact hw
  | tagged text => exact hw

private theorem Written.copy (hs : s.Written) (i : Nat) : (s.copy i).Written := by
  have hfold (places : List Nat) (t : Store) (ht : t.Written) :
      (places.foldl (fun t j => t.add ((s.frameAt j).relocate (s.placeInCopy i))) t).Written := by
    induction places generalizing t with
    | nil => exact ht
    | cons j places ih => exact ih _ (ht.add (written_relocate (hs j) _))
  exact hfold _ s hs

private theorem Written.of_mem_chain (hs : s.Written) {i : Nat} {frame : Frame} (h : frame ∈ s.chain i) :
    frame.Written := by
  induction i using Nat.strongRecOn with
  | ind i ih =>
    by_cases hi : i < s.size
    · rw [chain_eq s i hi] at h
      rcases List.mem_cons.1 h with rfl | h
      · exact hs i
      · cases hq : (s.frameAt i).parent with
        | none => rw [hq] at h; cases h
        | some q =>
          rw [hq] at h
          exact ih q (parent_lt hq) h
    · have hnone : s.frames[i]? = none := Array.getElem?_eq_none (Nat.not_lt.1 hi)
      rw [chain] at h
      split at h
      · cases h
      · rename_i hsome
        cases hnone.symm.trans hsome

private theorem Written.lookupFunction (hs : s.Written) (name : String) (i : Nat) :
    Orderly Callable.Written (Failure.lift (s.lookupFunction name i)) := by
  unfold Store.lookupFunction
  split
  · rename_i f hf
    obtain ⟨before, frame, after, hchain, hl, -⟩ := List.findSome?_eq_some_iff.1 hf
    obtain ⟨front, back, hfunctions, -⟩ := List.lookup_eq_some_iff.1 hl
    have hmem : frame ∈ s.chain i := by
      rw [hchain]
      exact List.mem_append_right before List.mem_cons_self
    exact hs.of_mem_chain hmem name f (by rw [hfunctions]; simp)
  · split
    · trivial
    · exact .unbound name

end Store

/-- From a store whose functions can be written to another, with a result of the given kind or a documented
failure. -/
def Computation.Orderly {α : Type} (P : α → Prop) (c : Computation α) : Prop :=
  ∀ s : Store, s.Written → (c s).2.Written ∧ Reckoner.Orderly P (c s).1.result

namespace Computation
variable {α β : Type} {P : α → Prop} {Q : β → Prop}

theorem orderly_lift {t : Traced α} (h : Reckoner.Orderly P t.result) : Orderly P (lift t) :=
  fun _ hs => ⟨hs, h⟩

theorem orderly_pure {a : α} (h : P a) : Orderly P (pure a) :=
  orderly_lift (t := pure a) h

theorem orderly_record (e : Event) : Orderly (fun _ => True) (record e) :=
  orderly_lift trivial

theorem Orderly.bind {c : Computation α} {f : α → Computation β} (hc : Orderly P c)
    (hf : ∀ a, P a → Orderly Q (f a)) : Orderly Q (c >>= f) := by
  intro s hs
  obtain ⟨ht, hr⟩ := hc s hs
  rcases h : c s with ⟨⟨result, trace⟩, t⟩
  rw [h] at ht hr
  cases result with
  | error e =>
    rw [bind_of_error h]
    exact ⟨ht, hr⟩
  | ok a =>
    rw [bind_of_ok h]
    exact hf a hr t ht

private theorem orderly_lookupValue (name : String) (i : Nat) :
    Orderly (fun _ => True) (read (Store.lookupValue name i)) := by
  intro s hs
  refine ⟨hs, ?_⟩
  change Reckoner.Orderly _ (Failure.lift (Store.lookupValue name i s))
  unfold Store.lookupValue
  split
  · trivial
  · exact .unbound name

private theorem orderly_lookupFunction (name : String) (i : Nat) :
    Orderly Callable.Written (read (Store.lookupFunction name i)) :=
  fun _ hs => ⟨hs, hs.lookupFunction name i⟩

theorem orderly_push (parent : Nat) (values : List (String × Value)) :
    Orderly (fun _ => True) (push parent values) :=
  fun _ hs => ⟨hs.add (Frame.written_of_values values parent), trivial⟩

private theorem orderly_bindValue (name : String) (v : Value) (i : Nat) :
    Orderly (fun _ => True) (update (Store.bindValue name v i)) := by
  intro s hs
  cases h : Store.bindValue name v i s with
  | ok t =>
    rw [update_of_ok h]
    exact ⟨hs.bindValue h, trivial⟩
  | error e =>
    rw [update_of_error h]
    refine ⟨hs, ?_⟩
    unfold Store.bindValue at h
    split at h
    · cases h
      exact .alreadyBound name
    · cases h

private theorem orderly_bindFunction (name : String) {f : Function} (hf : f.Written) (i : Nat) :
    Orderly (fun _ => True) (update (Store.bindFunction name f i)) := by
  intro s hs
  cases h : Store.bindFunction name f i s with
  | ok t =>
    rw [update_of_ok h]
    exact ⟨hs.bindFunction hf h, trivial⟩
  | error e =>
    rw [update_of_error h]
    refine ⟨hs, ?_⟩
    unfold Store.bindFunction at h
    split at h
    · cases h
      exact .alreadyBound name
    · cases h

end Computation

/-- The evaluator is orderly on what can be written. -/
def Evaluator.Orderly (evaluate : Evaluator) : Prop :=
  ∀ i e, e.Regular → Computation.Orderly (fun _ => True) (evaluate i e)

namespace Statement
variable {evaluate : Evaluator}

theorem orderly_run (h : evaluate.Orderly) (i : Nat) {statement : Statement} (hs : statement.Regular) :
    Computation.Orderly (fun _ => True) (statement.run evaluate i) := by
  cases hs with
  | assign _ he =>
    exact (h i _ he).bind fun v _ => (orderly_bindValue _ v i).bind fun _ _ => orderly_pure trivial
  | @define name params body _ _ hbody =>
    have hf : (Function.closure name params body i).Written := hbody
    have hbind : Computation.Orderly (fun _ => True) (do
        update (Store.bindFunction name (.closure name params body i) i)
        record (.defined name)
        return none : Computation (Option Value)) :=
      (orderly_bindFunction name hf i).bind fun _ _ =>
        (orderly_record _).bind fun _ _ => orderly_pure trivial
    rw [run]
    cases firstRepeated? [] params with
    | none => exact hbind
    | some param => exact fun _ hw => ⟨hw, .alreadyBound param⟩
  | expression he => exact (h i _ he).bind fun v _ => orderly_pure trivial

private theorem orderly_runAll (h : evaluate.Orderly) (i : Nat) {statements : List Statement}
    (hs : ∀ s, s ∈ statements → s.Regular) :
    Computation.Orderly (fun _ => True) (runAll evaluate i statements) := by
  induction statements with
  | nil => exact orderly_pure trivial
  | cons statement rest ih =>
    obtain ⟨hstatement, hrest⟩ := List.forall_mem_cons.1 hs
    exact (orderly_run h i hstatement).bind fun _ _ => ih hrest

end Statement

namespace Expr

private theorem orderly_evaluateArgs {evaluate : Evaluator} (h : evaluate.Orderly) (i : Nat) {args : List Expr}
    (hargs : ∀ e, e ∈ args → e.Regular) :
    Computation.Orderly (fun _ => True) (evaluateArgs evaluate i args) := by
  induction args with
  | nil => exact orderly_pure trivial
  | cons e rest ih =>
    obtain ⟨he, hrest⟩ := List.forall_mem_cons.1 hargs
    exact (h i e he).bind fun _ _ => (ih hrest).bind fun _ _ => orderly_pure trivial

private theorem orderly_applyCallable {evaluate : Evaluator} (h : evaluate.Orderly) (p : Nat) (name : String)
    (args : List Value) {callable : Callable} (hc : callable.Written) :
    Computation.Orderly (fun _ => True) (applyCallable p evaluate name args callable) := by
  cases callable with
  | builtin f =>
    simp only [applyCallable]
    split
    · exact orderly_lift (orderly_applyBuiltin p f _)
    · exact orderly_lift (.arity _ _ _)
  | function f =>
    cases f with
    | tagged text => exact hc.elim
    | closure ownName params body home =>
      simp only [applyCallable]
      split
      · exact (orderly_push home _).bind fun inner _ => (orderly_record _).bind fun _ _ => h inner body hc
      · exact orderly_lift (.arity _ _ _)

private theorem orderly_evaluateOver (p : Nat) {below : Nat → Evaluator} (h : ∀ k, (below k).Orderly) :
    (evaluateOver p below).Orderly := by
  intro i e he
  refine (orderly_record _).bind fun _ _ => ?_
  cases he with
  | number => exact orderly_pure trivial
  | @symbol name => exact orderly_lookupValue name i
  | unary he => exact (h 0 i _ he).bind fun _ _ => orderly_lift trivial
  | binary hop hl hr =>
    exact (h 0 i _ hl).bind fun a _ => (h 0 i _ hr).bind fun b _ => orderly_lift (orderly_applyBinary hop a b)
  | @call name args _ hargs =>
    exact (orderly_lookupFunction name i).bind fun callable hc =>
      (orderly_evaluateArgs (h 2) i hargs).bind fun values _ =>
        orderly_applyCallable (h 2) p name values hc
  | block hs hf =>
    refine (orderly_push i []).bind fun inner _ => ?_
    refine Computation.Orderly.bind (P := fun _ => True) (fun _ hw => ⟨hw, trivial⟩) fun _ _ => ?_
    refine (orderly_record _).bind fun _ _ => ?_
    exact (Statement.orderly_runAll (h 2) inner hs).bind fun _ _ => h 1 inner _ hf

private theorem orderly_evaluateWithin (p n k : Nat) : (evaluateWithin p n k).Orderly :=
  withCalls_induction (fun _ _ _ _ hs => ⟨hs, .tooDeep⟩) (fun _ h => orderly_evaluateOver p h) n k

end Expr

theorem Statement.orderly_evaluate (m : Machine) (i : Nat) {statement : Statement} (hs : statement.Regular) :
    Computation.Orderly (fun _ => True) (statement.evaluate m i) :=
  orderly_run (Expr.orderly_evaluateWithin m.precision m.evaluationCalls 0) i hs

/-- A tree that a request comes with can be written. -/
def Request.Regular : Request → Prop
  | .perform statement => statement.Regular
  | .run _ | .runAll _ | .execute _ => True

/-- A step hands over no tree but those that can be written. -/
def Step.Regular : Step → Prop
  | .ask _ request => request.Regular
  | .create _ _ | .fork _ _ | .transfer _ _ _ => True

theorem Request.Poses.regular {m : Machine} {statement : Statement} {request : Request}
    (h : request.Poses m statement) (hregular : request.Regular) : statement.Regular := by
  cases h with
  | run h | execute h => exact regular_of_parseStatement h
  | runAll h hmem => exact regular_of_parseProgram h statement hmem
  | perform => exact hregular

namespace Session
variable {s : Session} {store : Store} {statement : Statement}

theorem written_execute (hs : statement.Regular) (hw : store.Written) :
    (s.execute statement store).2.Written :=
  (statement.orderly_evaluate s.machine s.frame hs store hw).1

/-- What can be written fails with an error of the language, if it fails. -/
theorem error_of_execute (hs : statement.Regular) (hw : store.Written) {f : Failure}
    (h : (s.execute statement store).1.result = .error f) : ∃ e, f = .error e := by
  have horderly := (statement.orderly_evaluate s.machine s.frame hs store hw).2
  change (statement.evaluate s.machine s.frame store).1.result.mapError limited = .error f at h
  cases hr : (statement.evaluate s.machine s.frame store).1.result with
  | ok v =>
    rw [hr] at h
    cases h
  | error g =>
    rw [hr] at h horderly
    cases h
    cases horderly <;> exact ⟨_, rfl⟩

end Session

/-- Functions that can be written stay the only ones in the store. -/
theorem Session.written_respond (s : Session) {request : Request} (hrequest : request.Regular) {store : Store}
    (hw : store.Written) : (s.respond request store).2.Written :=
  advances_respond (r := fun t u => t.Written → u.Written) (fun _ h => h) (fun _ _ _ h h' ht => h' (h ht))
    (fun _ hs _ ht => written_execute (s := s) (hs.regular hrequest) ht) store hw

/-- A step gives a workspace no function that cannot be written. -/
theorem Workspace.Moves.written {w after : Workspace} {step : Step} (hmove : w.Moves step after)
    (hstep : step.Regular) (hw : w.store.Written) : after.store.Written := by
  cases hmove with
  | stays => exact hw
  | starts => exact hw.add (Frame.written_of_values [] none)
  | @answers name s hs request hask =>
    subst hask
    exact s.written_respond hstep hw
  | @copies name s => exact hw.copy s.frame

theorem Workspace.written_performAll {steps : List Step} (hsteps : ∀ step, step ∈ steps → step.Regular)
    {w : Workspace} (hw : w.store.Written) : (w.performAll steps).store.Written := by
  induction steps generalizing w with
  | nil => exact hw
  | cons step steps ih =>
    obtain ⟨hstep, hsteps⟩ := List.forall_mem_cons.1 hsteps
    exact ih hsteps ((w.moves_perform step).written hstep hw)

end Reckoner
