import Reckoner.Failure
import Reckoner.Machine
import Reckoner.Number.Plain
import Reckoner.Syntax.Tree
import Reckoner.Text.Quoted

/-!
The outline of a tree: one line per node, a node's children below it and indented two spaces further. Each number
is written as its own number context has it. Indentation may begin below zero; lines stand at the margin until it
has come up to it.
-/

namespace Reckoner

/-- One line of an outline. -/
def outlineLine (indent : Int) (label : String) : String :=
  String.ofList (List.replicate (2 * indent).toNat ' ') ++ label ++ "\n"

mutual

def Expr.outline (indent : Int) : Expr → String
  | .number v => outlineLine indent ("Num(" ++ v.plainText ++ ")")
  | .symbol name => outlineLine indent ("Symbol(" ++ name ++ ")")
  | .unary op e => outlineLine indent ("UnaryExpr(" ++ op ++ ")") ++ e.outline (indent + 1)
  | .binary op l r =>
    outlineLine indent ("BinaryExpr(" ++ op ++ ")") ++ l.outline (indent + 1)
      ++ r.outline (indent + 1)
  | .call name args =>
    outlineLine indent ("FunctionCall(" ++ name ++ ")") ++ outlineExprs (indent + 1) args
  | .block statements final =>
    outlineLine indent "BlockExpr" ++ outlineStatements (indent + 1) statements
      ++ final.outline (indent + 1)
  | .misplaced s => s.outline indent
  | .foreign text => outlineLine indent ("UNKNOWN(" ++ Text.quoted text ++ ")")

def Statement.outline (indent : Int) : Statement → String
  | .assign name e => outlineLine indent ("Assignment(" ++ name ++ ")") ++ e.outline (indent + 1)
  | .define name params e =>
    outlineLine indent ("FunctionDefinition(" ++ signature name params ++ ")")
      ++ e.outline (indent + 1)
  | .expression e => outlineLine indent "ExpressionStatement" ++ e.outline (indent + 1)
  | .misplaced e => e.outline indent

def outlineExprs (indent : Int) : List Expr → String
  | [] => ""
  | e :: es => e.outline indent ++ outlineExprs indent es

def outlineStatements (indent : Int) : List Statement → String
  | [] => ""
  | s :: ss => s.outline indent ++ outlineStatements indent ss

end

mutual

/-- The number of nodes on the longest way down. -/
def Expr.height : Expr → Nat
  | .number _ | .symbol _ | .foreign _ => 1
  | .unary _ e => e.height + 1
  | .binary _ l r => max l.height r.height + 1
  | .call _ args => exprsHeight args + 1
  | .block statements final => max (statementsHeight statements) final.height + 1
  | .misplaced s => s.height

def Statement.height : Statement → Nat
  | .assign _ e | .define _ _ e | .expression e => e.height + 1
  | .misplaced e => e.height

def exprsHeight : List Expr → Nat
  | [] => 0
  | e :: es => max e.height (exprsHeight es)

def statementsHeight : List Statement → Nat
  | [] => 0
  | s :: ss => max s.height (statementsHeight ss)

end

mutual

/-- All numbers can be written. -/
def Expr.writable : Expr → Bool
  | .number v => v.hasPlainText
  | .symbol _ | .foreign _ => true
  | .unary _ e => e.writable
  | .binary _ l r => l.writable && r.writable
  | .call _ args => exprsWritable args
  | .block statements final => statementsWritable statements && final.writable
  | .misplaced s => s.writable

def Statement.writable : Statement → Bool
  | .assign _ e | .define _ _ e | .expression e | .misplaced e => e.writable

def exprsWritable : List Expr → Bool
  | [] => true
  | e :: es => e.writable && exprsWritable es

def statementsWritable : List Statement → Bool
  | [] => true
  | s :: ss => s.writable && statementsWritable ss

end

/-- The outline of a statement that is shown, unless the statement is higher than the stack has room for or a number
in it cannot be written. -/
def Statement.shownOutline (m : Machine) (s : Statement) : Except Failure String :=
  if m.outlineCalls < s.height then .error .tooDeep
  else if s.writable then .ok (s.outline 0)
  else .error (.unwritable .longExponent)

end Reckoner
