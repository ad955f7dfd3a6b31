/-!
Adding one to a list of decimal digits. The sum starts at the last digit and moves to the left as
long as a digit becomes ten; a carry that leaves the first digit puts a new one in front.
-/

namespace Reckoner.Decimal

/-- Add one to digits given from the last to the first. -/
def carry : List Int → List Int
  | [] => [1]
  | d :: ds => if d + 1 = 10 then 0 :: carry ds else (d + 1) :: ds

/-- The digits plus one in their last place. No digits have no last place. -/
def addOne? (ds : List Int) : Option (List Int) :=
  if ds.isEmpty then none else some (carry ds.reverse).reverse

end Reckoner.Decimal
