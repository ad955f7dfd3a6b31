import Reckoner.Number.Basic

/-!
Syntax trees. An operator is kept as it is written, and a tree may hold what no text parses to: a
statement in the place of an expression, an expression in the place of a statement, or a foreign node.
-/

namespace Reckoner

mutual

inductive Expr where
  | number (value : Value)
  | symbol (name : String)
  | unary (op : String) (operand : Expr)
  | binary (op : String) (lhs rhs : Expr)
  | call (name : String) (args : List Expr)
  /-- Statements that run in a frame of their own, and the expression that gives the value. -/
  | block (statements : List Statement) (final : Expr)
  | misplaced (statement : Statement)
  | foreign (text : String)

inductive Statement where
  | assign (name : String) (value : Expr)
  | define (name : String) (params : List String) (body : Expr)
  | expression (e : Expr)
  | misplaced (e : Expr)

end

/-- The one unary operator. -/
def negation : String := "neg"

/-- The name of a function with its parameters. -/
def signature (name : String) (params : List String) : String :=
  name ++ "(" ++ ", ".intercalate params ++ ")"

/-- The kind of an expression, as traces and messages call it. -/
def Statement.kind : Statement → String
  | .assign .. => "Assignment"
  | .define .. => "FunctionDefinition"
  | .expression _ => "ExpressionStatement"
  | .misplaced e =>
    match e with
    | .number _ | .symbol _ => "AtomExpr"
    | .unary .. => "UnaryExpr"
    | .binary .. => "BinaryExpr"
    | .call .. => "FunctionCall"
    | .block .. => "BlockExpr"
    | .misplaced _ | .foreign _ => "str"

def Expr.kind : Expr → String
  | .misplaced s => s.kind
  | e => (Statement.misplaced e).kind

end Reckoner
