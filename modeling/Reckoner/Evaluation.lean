import Reckoner.Computation
import Reckoner.Machine
import Reckoner.Number.Power

/-!
Evaluation. An expression yields a number and binds nothing outside of itself. A statement binds at most
one name, in the innermost frame. Nesting, that of calls included, is limited by the calls that the stack has room for.
-/

namespace Reckoner

/-- Apply one of the five binary operators to numbers, rounding to a precision. -/
def operate (p : Nat) (op : String) (a b : Number) : Except Failure Number :=
  match op with
  | "+" => .ok (a.add p b)
  | "-" => .ok (a.sub p b)
  | "*" => .ok (a.mul p b)
  | "/" => Failure.lift (a.div p b)
  | "^" => Failure.lift (Number.pow p a b)
  | _ => .error (.unknownOperator op)

/-- Apply a binary operator. It works in the number context of the left operand. -/
def applyBinary (op : String) (a b : Value) : Except Failure Value :=
  (operate a.precision op a.number b.number).map (⟨·, a.precision⟩)

/-- Apply the unary operator, which works in the number context of the operand. -/
def applyUnary (op : String) (a : Value) : Except Failure Value :=
  if op = negation then .ok ⟨a.number.neg a.precision, a.precision⟩
  else .error (.error (.malformedTree ("Unknown unary operator: " ++ op)))

/-- The first name that stands behind an equal one or among those seen before. -/
def firstRepeated? (seen : List String) : List String → Option String
  | [] => none
  | name :: rest => if name ∈ seen then some name else firstRepeated? (name :: seen) rest

/-- Evaluates expressions in the scope of the frame at a place. How a statement does that is left to a
parameter. -/
abbrev Evaluator := Nat → Expr → Computation Value

namespace Statement
open Computation

/-- Run a statement on top of the frame at a place: the value, if it has one. -/
def run (evaluate : Evaluator) (i : Nat) : Statement → Computation (Option Value)
  | .assign name e => do
    let v ← evaluate i e
    update (Store.bindValue name v i)
    return some v
  | .define name params body => do
    if let some param := firstRepeated? [] params then
      fail (.error (.alreadyBound param))
    update (Store.bindFunction name (.closure name params body i) i)
    record (.defined name)
    return none
  | .expression e => do
    let v ← evaluate i e
    return some v
  | statement => fail (.error (.malformedTree ("Unknown statement node: " ++ statement.kind)))

/-- Run statements one after another. -/
def runAll (evaluate : Evaluator) (i : Nat) : List Statement → Computation Unit
  | [] => pure ()
  | statement :: rest => do
    let _ ← statement.run evaluate i
    runAll evaluate i rest

end Statement

namespace Expr
open Computation

/-- Evaluate arguments from left to right. -/
def evaluateArgs (evaluate : Evaluator) (i : Nat) : List Expr → Computation (List Value)
  | [] => pure []
  | e :: rest => do
    let v ← evaluate i e
    return v :: (← evaluateArgs evaluate i rest)

/-- Call a function on arguments that are evaluated already. A builtin works in the number context of the
scope. The parameters are bound in a frame on top of the one that the function captured. -/
def applyCallable (p : Nat) (evaluate : Evaluator) (name : String) (args : List Value) :
    Callable → Computation Value
  | .builtin f =>
    match args with
    | [a] => lift (Traced.ofExcept ((f.apply p a.number).map (⟨·, p⟩)))
    | _ => fail (.error (.arity f.arity args.length (some name)))
  | .function (.tagged _) => fail (.notCallable name)
  | .function (.closure ownName params body home) =>
    if args.length = params.length then do
      let inner ← push home (params.zip args)
      record (.calling ownName args.length)
      evaluate inner body
    else fail (.error (.arity params.length args.length (some name)))

/-- Evaluate, given how that is done so many calls further down than in the next one, in which operands are
evaluated. Arguments, the body of a function and the statements of a block take two calls more, the final
expression of a block one. -/
def evaluateOver (p : Nat) (below : Nat → Evaluator) : Evaluator := fun i e => do
  record (.evaluating e.kind)
  match e with
  | .number v => return v
  | .symbol name => read (Store.lookupValue name i)
  | .unary op operand => do
    let v ← below 0 i operand
    lift ⟨applyUnary op v, []⟩
  | .binary op lhs rhs => do
    let a ← below 0 i lhs
    let b ← below 0 i rhs
    lift ⟨applyBinary op a b, []⟩
  | .call name args => do
    let callable ← read (Store.lookupFunction name i)
    let values ← evaluateArgs (below 2) i args
    applyCallable p (below 2) name values callable
  | .block statements final => do
    let inner ← push i []
    record (.enteringBlock (← read fun s => .ok (s.depth inner)))
    Statement.runAll (below 2) inner statements
    below 1 inner final
  | e => fail (.error (.malformedTree ("Unknown expression node: " ++ e.kind)))

/-- Evaluate with a budget of calls, after using up some of them. -/
def evaluateWithin (p : Nat) : Nat → Nat → Evaluator :=
  withCalls (fun _ _ => fail .tooDeep) (evaluateOver p)

def evaluate (m : Machine) : Evaluator :=
  evaluateWithin m.precision m.evaluationCalls 0

end Expr

/-- Run a statement in the scope of the frame at a place. -/
def Statement.evaluate (m : Machine) (i : Nat) (statement : Statement) : Computation (Option Value) :=
  statement.run (Expr.evaluate m) i

end Reckoner
