import Reckoner.Machine
import Reckoner.Number.Literal
import Reckoner.Syntax.Token
import Reckoner.Syntax.Tree

/-!
The grammar of statements.

    statement  = (definition / assignment / expression) ';'
    definition = NAME '(' [ NAME (',' NAME)* ] ')' '=' expression
    assignment = NAME '=' expression
    expression = term (('+' / '-') term)*
    term       = operand (('*' / '/') operand)*
    operand    = '-' operand / primary [ '^' operand ]
    primary    = '(' expression ')' / '{' statement* expression '}'
               / NAME '(' [ expression (',' expression)* ] ')' / NUMERAL / NAME

Alternatives are tried in order, and repetitions go on as long as they can. All forms are given in terms
of the operands inside them; tying that knot uses up calls, and more of them for the forms with more inside.
In a form the operands are given so many calls further down than its first one.
-/

namespace Reckoner.Grammar
open Reader

/-- The operands so many calls further down. -/
def deeper (operand : Nat → Reader Expr) (calls : Nat) : Nat → Reader Expr := fun k =>
  operand (calls + k)

/-- Items joined by operators, nested to the left. Those behind the first are in a repetition of a sequence,
which takes seven calls. -/
def chainOf (ops : List Char) (item : Nat → Reader Expr) : Reader Expr := do
  let first ← item 0
  let others ← many (do return (← oneOf ops, ← item 7))
  return others.foldl (fun e (op, x) => .binary op.toString e x) first

def termOf (operand : Nat → Reader Expr) : Reader Expr :=
  chainOf ['*', '/'] operand

def expressionOf (operand : Nat → Reader Expr) : Reader Expr :=
  chainOf ['+', '-'] fun k => termOf (deeper operand k)

def definitionOf (operand : Nat → Reader Expr) : Reader Statement := do
  let function ← name
  token '('
  let params ← commaSeparated name name
  token ')'
  token '='
  return .define function params (← expressionOf operand)

def assignmentOf (operand : Nat → Reader Expr) : Reader Statement := do
  let target ← name
  token '='
  return .assign target (← expressionOf operand)

/-- A statement without the semicolon. -/
def clauseOf (operand : Nat → Reader Expr) : Reader Statement :=
  (either (either (definitionOf operand) (assignmentOf operand))
    (do return .expression (← expressionOf operand))).orExpect .statement

def statementOf (operand : Nat → Reader Expr) : Reader Statement := do
  let s ← clauseOf operand
  token ';'
  return s

/-- Inside a block each position is looked at as a statement before it is looked at as the final
expression, and where neither can start, only the first form of an operand is mentioned. -/
def expectedInBlock : Expectation → Expectation
  | .statement | .operand => .minus
  | e => e

/-- The inside of a block, of at most so many statements: a clause without a semicolon is the final
expression, or gives way to one if it binds a name. -/
def blockBodyOf (operand : Nat → Reader Expr) : Nat → Reader (List Statement × Expr)
  | 0 => fun s => .mismatched ⟨s, .minus⟩
  | n + 1 => fun s =>
    match clauseOf operand s with
    | .matched clause rest =>
      match token ';' rest with
      | .matched _ rest => (do
          let (statements, final) ← blockBodyOf operand n
          return (clause :: statements, final)) rest
      | _ =>
        match clause with
        | .expression e => .matched ([], e) rest
        | _ => (do return ([], ← expressionOf operand)) s
    | .mismatched m => .mismatched ⟨m.rest, expectedInBlock m.expected⟩
    | .abandoned a => .abandoned a

def blockOf (operand : Nat → Reader Expr) : Reader Expr := do
  token '\x7b'
  let (statements, final) ← fun s => blockBodyOf operand (s.length + 1) s
  token '\x7d'
  return .block statements final

def parenthesizedOf (operand : Nat → Reader Expr) : Reader Expr := do
  token '('
  let e ← expressionOf operand
  token ')'
  return e

/-- The arguments of a call; those behind the first are in a repetition again. -/
def argumentsOf (operand : Nat → Reader Expr) : Reader (List Expr) :=
  commaSeparated (expressionOf operand) (expressionOf (deeper operand 7))

def callOf (operand : Nat → Reader Expr) : Reader Expr := do
  let function ← name
  token '('
  let args ← argumentsOf operand
  token ')'
  return .call function args

/-- A numeral, whose value is worked out as soon as it is read. -/
def number (p : Nat) : Reader Expr := do
  let text ← numeral
  fun s =>
    match Number.ofText? p text.toList with
    | some n => .matched (.number ⟨n, p⟩) s
    | none => .abandoned (.malformedNumber text)

def symbol : Reader Expr := do
  return .symbol (← name)

/-- The primary forms, given the operands so many calls further down than in the next one. -/
def primaryOf (p : Nat) (below : Nat → Reader Expr) : Reader Expr :=
  either (either (either (either (parenthesizedOf (deeper below 25)) (blockOf (deeper below 45)))
    (callOf (deeper below 34))) (number p)) symbol

def negationOf (operand : Reader Expr) : Reader Expr := do
  token '-'
  return .unary negation (← operand)

def powerOf (p : Nat) (below : Nat → Reader Expr) : Reader Expr := do
  let base ← primaryOf p below
  match ← optional (do token '^'; below 15) with
  | none => return base
  | some exponent => return .binary "^" base exponent

/-- An operand, given the operands so many calls further down than in the next one. -/
def operandOf (p : Nat) (below : Nat → Reader Expr) : Reader Expr :=
  (either (negationOf (below 9)) (powerOf p below)).orExpect .operand

/-- Operands with a budget of calls, after using up some of them. -/
def operandWithin (p : Nat) : Nat → Nat → Reader Expr :=
  withCalls (fun _ => .abandoned .tooDeep) (operandOf p)

/-- A statement whose operands have a budget of calls. -/
def statement (p n : Nat) : Reader Statement :=
  statementOf (operandWithin p n)

/-- Exactly one statement. -/
def single (m : Machine) : Reader Statement := do
  let s ← statement m.precision m.readingCalls
  endOfText
  return s

/-- One or more statements. A repetition takes three calls more. -/
def program (m : Machine) : Reader (List Statement) := do
  let first ← statement m.precision (m.sparing 3).readingCalls
  let others ← many (statement m.precision (m.sparing 3).readingCalls)
  endOfText
  return first :: others

end Reckoner.Grammar
