import Reckoner.Number.Arithmetic
import Reckoner.Number.Elementary

/-!
The builtin functions. Each takes one argument; their names cannot be bound to other functions.
-/

namespace Reckoner

inductive Builtin where
  | sqrt | sin | cos | tan | asin | acos | atan | exp | ln | abs
  deriving DecidableEq, Repr

namespace Builtin

def all : List Builtin :=
  [.sqrt, .sin, .cos, .tan, .asin, .acos, .atan, .exp, .ln, .abs]

def name : Builtin → String
  | sqrt => "sqrt"
  | sin => "sin"
  | cos => "cos"
  | tan => "tan"
  | asin => "asin"
  | acos => "acos"
  | atan => "atan"
  | exp => "exp"
  | ln => "ln"
  | abs => "abs"

def ofName? (name : String) : Option Builtin :=
  all.find? fun f => f.name == name

theorem ofName?_name (f : Builtin) : ofName? f.name = some f := by
  cases f <;> decide

/-- Every builtin takes one argument. -/
def arity (_ : Builtin) : Nat := 1

/-- The argument of an inverse sine lies in `[-1, 1]`. -/
def isSine (x : Dyadic) : Bool :=
  Binary.magnitude x ≤ 0 || Binary.abs x = 1

/-- The value at a finite argument. -/
def atFinite (p : Nat) (x : Dyadic) : Builtin → Except Error Dyadic
  | sqrt => if Binary.isNegative x then .error (.notReal "sqrt") else .ok (Binary.sqrt p x)
  | ln => if Binary.isNegative x then .error (.notReal "ln") else .ok (Binary.ln p x)
  | asin => if isSine x then .ok (Binary.asin p x) else .error (.notReal "asin")
  | acos => if isSine x then .ok (Binary.acos p x) else .error (.notReal "acos")
  | sin => .ok (Binary.sin p x)
  | cos => .ok (Binary.cos p x)
  | tan => .ok (Binary.tan p x)
  | atan => .ok (Binary.atan p x)
  | exp => .ok (Binary.exp p x)
  | abs => .ok (Binary.nearest p (Binary.abs x))

/-- The value at an infinity. -/
def atInfinity (p : Nat) (negative : Bool) : Builtin → Except Error Number
  | sqrt => if negative then .error (.notReal "sqrt") else .ok (.infinite false)
  | ln => if negative then .error (.notReal "ln") else .ok (.infinite false)
  | asin => .error (.notReal "asin")
  | acos => .error (.notReal "acos")
  | sin | cos | tan => .ok .undefined
  | atan => .ok (.finite (if negative then -Binary.halfPi p else Binary.halfPi p))
  | exp => .ok (if negative then .zero else .infinite false)
  | abs => .ok (.infinite false)

/-- The value at any argument: the logarithm of zero is minus infinity, and what is undefined stays so. -/
def apply (p : Nat) (f : Builtin) : Number → Except Error Number
  | .undefined => .ok .undefined
  | .infinite negative => f.atInfinity p negative
  | .finite x =>
    if f = .ln ∧ Binary.isZero x then .ok (.infinite true) else .finite <$> f.atFinite p x

end Builtin

end Reckoner
