import Reckoner.Scope.Store

/-!
The names that a scope makes visible, in the order of their code points. Of several bindings of a name
the innermost is listed.
-/

namespace Reckoner

/-- Insert a binding into a list that is ordered by name, unless the name is there already. -/
def insertNew {α : Type} (name : String) (a : α) : List (String × α) → List (String × α)
  | [] => [(name, a)]
  | (other, b) :: rest =>
    if name < other then (name, a) :: (other, b) :: rest
    else if name = other then (other, b) :: rest
    else (other, b) :: insertNew name a rest

/-- Order bindings by name and keep the first of each name. -/
def orderByName {α : Type} (bindings : List (String × α)) : List (String × α) :=
  bindings.foldl (fun listed (name, a) => insertNew name a listed) []

namespace Store

def visibleValues (s : Store) (i : Nat) : List (String × Value) :=
  orderByName ((s.chain i).flatMap (·.values))

def visibleFunctions (s : Store) (i : Nat) : List (String × Function) :=
  orderByName ((s.chain i).flatMap (·.functions))

end Store

end Reckoner
