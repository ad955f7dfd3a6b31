import Reckoner.Builtin
import Reckoner.Evaluation
import Reckoner.Proofs.BinaryRounding

/-! Numbers of a precision. What an operation, a builtin function or a literal gives has no more bits than the
precision, whatever the operands had: everything is rounded last, or moved by a power of two, or changed in
sign after that. -/

namespace Reckoner

namespace Binary
variable {p : Nat} {x y : Dyadic}

theorem fits_zero (p : Nat) : Fits p 0 :=
  Nat.zero_le p

private theorem fits_shiftRight (h : Fits p x) (i : Int) : Fits p (x >>> i) := by
  cases x <;> exact h

variable (hp : 1 ≤ p)
include hp

theorem fits_nearest (x : Dyadic) : Fits p (nearest p x) :=
  (rounds_nearest hp x).fits

theorem fits_settleNearest (start : Nat) (bounds : Nat → Option (Dyadic × Dyadic)) :
    Fits p (settleNearest p start bounds) := by
  unfold settleNearest
  generalize doublings = fuel
  fun_induction settle (nearest p) bounds fuel start with
  | case1 => exact fits_nearest hp _
  | case2 => exact fits_nearest hp _
  | case3 _ _ _ _ _ _ ih => exact ih
  | case4 _ _ _ ih => exact ih

private theorem fits_add (x y : Dyadic) : Fits p (add p x y) :=
  fits_nearest hp _

private theorem fits_mul (x y : Dyadic) : Fits p (mul p x y) :=
  fits_nearest hp _

private theorem fits_div (x y : Dyadic) : Fits p (div p x y) := by
  unfold div
  split
  · exact fits_zero p
  · exact fits_zero p
  · exact fits_shiftRight (fits_nearest hp _) _

private theorem fits_powInt (x : Dyadic) (n : Int) : Fits p (powInt p x n) := by
  unfold powInt
  split
  · exact fits_zero p
  split
  · exact fits_ofIntWithPrec hp Nat.one_le_two_pow _
  split
  · exact fits_settleNearest hp _ _
  split
  · exact fits_nearest hp _
  · exact fits_shiftLeft (fits_nearest hp _) _

private theorem fits_timesPowerOfTen (x : Dyadic) (exponent : Int) : Fits p (timesPowerOfTen p x exponent) := by
  unfold timesPowerOfTen
  split
  · split
    · exact fits_zero p
    · exact fits_shiftLeft (fits_nearest hp _) _
  · exact fits_settleNearest hp _ _

section Elementary

omit hp in
theorem fits_odd {f : Dyadic → Dyadic} (hf : ∀ x, Fits p (f x)) (x : Dyadic) : Fits p (odd f x) := by
  unfold odd
  split
  · exact fits_neg (hf _)
  · exact hf _

theorem fits_halfPi : Fits p (halfPi p) :=
  fits_settleNearest hp _ _

private theorem fits_exp (x : Dyadic) : Fits p (exp p x) := by
  unfold exp
  split
  · exact fits_nearest hp _
  · exact fits_settleNearest hp _ _

private theorem fits_ln (x : Dyadic) : Fits p (ln p x) := by
  unfold ln
  split
  · exact fits_zero p
  · exact fits_settleNearest hp _ _

private theorem fits_sin (x : Dyadic) : Fits p (sin p x) := by
  unfold sin
  split
  · exact fits_zero p
  split
  · exact fits_nearest hp _
  · exact fits_settleNearest hp _ _

private theorem fits_cos (x : Dyadic) : Fits p (cos p x) := by
  unfold cos
  split
  · exact fits_nearest hp _
  · exact fits_settleNearest hp _ _

private theorem fits_tan (x : Dyadic) : Fits p (tan p x) := by
  unfold tan
  split
  · exact fits_zero p
  split
  · exact fits_nearest hp _
  · exact fits_settleNearest hp _ _

private theorem fits_atan (x : Dyadic) : Fits p (atan p x) := by
  unfold atan
  split
  · exact fits_zero p
  · refine fits_odd (fun x => ?_) x
    unfold atanPositive
    split
    · exact fits_nearest hp _
    · exact fits_settleNearest hp _ _

private theorem fits_asin (x : Dyadic) : Fits p (asin p x) := by
  unfold asin
  split
  · exact fits_zero p
  · refine fits_odd (fun x => ?_) x
    unfold asinPositive
    split
    · exact fits_halfPi hp
    split
    · exact fits_nearest hp _
    · exact fits_settleNearest hp _ _

private theorem fits_acos (x : Dyadic) : Fits p (acos p x) := by
  unfold acos
  split
  · exact fits_zero p
  split
  · exact fits_shiftLeft (fits_halfPi hp) _
  split
  · exact fits_halfPi hp
  · exact fits_settleNearest hp _ _

end Elementary

end Binary

/-- A result, if there is one, has no more bits than the precision. -/
def ResultFits {ε : Type} (p : Nat) (r : Except ε Number) : Prop :=
  ∀ v, r = .ok v → v.Fits p

namespace Number
variable {p : Nat}

theorem fits_zero (p : Nat) : zero.Fits p :=
  Binary.fits_zero p

theorem fits_infinite (p : Nat) (negative : Bool) : (infinite negative).Fits p :=
  True.intro

theorem fits_undefined (p : Nat) : undefined.Fits p :=
  True.intro

/-- Nothing is rounded when a number of the precision is negated. -/
theorem neg_eq_flip {v : Number} (h : v.Fits p) : v.neg p = v.flip := by
  cases v with
  | finite x => rw [neg, Binary.nearest_of_fits (Binary.fits_neg h), flip]
  | infinite negative => rfl
  | undefined => rfl

theorem fits_flip {v : Number} (h : v.Fits p) : v.flip.Fits p := by
  cases v with
  | finite x => exact Binary.fits_neg h
  | infinite negative => exact fits_infinite p _
  | undefined => exact fits_undefined p

theorem flip_flip (v : Number) : v.flip.flip = v := by
  cases v with
  | finite x => exact congrArg finite (Binary.neg_neg x)
  | infinite negative => exact congrArg infinite (Bool.not_not negative)
  | undefined => rfl

variable (hp : 1 ≤ p)
include hp

theorem fits_one : one.Fits p :=
  hp

private theorem fits_neg (v : Number) : (v.neg p).Fits p := by
  cases v with
  | finite x => exact Binary.fits_nearest hp _
  | infinite negative => exact fits_infinite p _
  | undefined => exact fits_undefined p

private theorem fits_add (a b : Number) : (a.add p b).Fits p := by
  unfold add
  split
  · exact fits_undefined p
  · exact fits_undefined p
  · split
    · exact fits_infinite p _
    · exact fits_undefined p
  · exact fits_infinite p _
  · exact fits_infinite p _
  · exact Binary.fits_add hp _ _

private theorem fits_mul (a b : Number) : (a.mul p b).Fits p := by
  unfold mul
  split
  · exact fits_undefined p
  · exact fits_undefined p
  · exact fits_infinite p _
  · split
    · exact fits_undefined p
    · exact fits_infinite p _
  · split
    · exact fits_undefined p
    · exact fits_infinite p _
  · exact Binary.fits_mul hp _ _

private theorem fits_div (a b : Number) : ResultFits p (a.div p b) := by
  intro v hv
  unfold div at hv
  split at hv
  · cases hv
  · cases hv
    split
    · exact fits_undefined p
    · exact fits_undefined p
    · exact fits_undefined p
    · exact fits_infinite p _
    · exact fits_zero p
    · exact Binary.fits_div hp _ _

private theorem fits_powWhole (a : Number) (n : Dyadic) : ResultFits p (powWhole p a n) := by
  intro v hv
  unfold powWhole at hv
  split at hv
  · cases hv
    exact fits_one hp
  split at hv
  · cases hv
    exact fits_undefined p
  · cases hv
    split
    · exact fits_zero p
    · exact fits_infinite p _
  split at hv
  · split at hv <;> cases hv
    exact fits_zero p
  · cases hv
    dsimp only [Fits]
    split
    · exact Binary.fits_neg (Binary.fits_powInt hp _ _)
    · exact Binary.fits_powInt hp _ _

private theorem fits_powLogarithmic (a b : Number) : (powLogarithmic p a b).Fits p := by
  unfold powLogarithmic
  split
  · exact fits_undefined p
  · exact fits_undefined p
  · split
    · exact fits_zero p
    · exact fits_infinite p _
  · split
    · exact fits_zero p
    · exact fits_infinite p _
  · split
    · split
      · exact fits_infinite p _
      · exact fits_zero p
    · exact Binary.fits_nearest hp _

private theorem fits_pow (a b : Number) : ResultFits p (pow p a b) := by
  intro v hv
  unfold pow at hv
  split at hv
  · split at hv
    · exact fits_powWhole hp _ _ v hv
    split at hv
    · cases hv
    split at hv
    · cases hv
    split at hv <;> cases hv
    · exact fits_one hp
    · exact fits_powLogarithmic hp _ _
  · split at hv
    · cases hv
    split at hv <;> cases hv
    · exact fits_one hp
    · exact fits_powLogarithmic hp _ _

private theorem fits_value (l : Literal) : (l.value p).Fits p := by
  unfold Literal.value
  dsimp only [Fits]
  split
  · exact Binary.fits_zero p
  split
  · exact Binary.fits_neg (Binary.fits_timesPowerOfTen hp _ _)
  · exact Binary.fits_timesPowerOfTen hp _ _

theorem fits_ofText? {text : List Char} {v : Number} (h : ofText? p text = some v) : v.Fits p := by
  unfold ofText? at h
  rcases Option.or_eq_some_iff.1 h with h | ⟨-, h⟩
  · unfold named? at h
    dsimp only at h
    split at h
    · cases h
      exact fits_infinite p _
    split at h
    · cases h
      exact fits_infinite p _
    split at h <;> cases h
    exact fits_undefined p
  · obtain ⟨l, -, rfl⟩ := Option.map_eq_some_iff.1 h
    exact fits_value hp l

end Number

namespace Builtin
variable {p : Nat} (hp : 1 ≤ p)
include hp

private theorem fits_atFinite (f : Builtin) {x y : Dyadic} (h : f.atFinite p x = .ok y) : Binary.Fits p y := by
  cases f <;> simp only [atFinite] at h
  case sqrt =>
    split at h <;> cases h
    exact Binary.fits_nearest hp _
  case ln =>
    split at h <;> cases h
    exact Binary.fits_ln hp x
  case asin =>
    split at h <;> cases h
    exact Binary.fits_asin hp x
  case acos =>
    split at h <;> cases h
    exact Binary.fits_acos hp x
  all_goals cases h
  · exact Binary.fits_sin hp x
  · exact Binary.fits_cos hp x
  · exact Binary.fits_tan hp x
  · exact Binary.fits_atan hp x
  · exact Binary.fits_exp hp x
  · exact Binary.fits_nearest hp _

private theorem fits_atInfinity (f : Builtin) (negative : Bool) : ResultFits p (f.atInfinity p negative) := by
  intro v hv
  cases f <;> simp only [atInfinity] at hv
  case sqrt =>
    split at hv <;> cases hv
    exact Number.fits_infinite p false
  case ln =>
    split at hv <;> cases hv
    exact Number.fits_infinite p false
  case atan =>
    cases hv
    dsimp only [Number.Fits]
    split
    · exact Binary.fits_neg (Binary.fits_halfPi hp)
    · exact Binary.fits_halfPi hp
  case exp =>
    split at hv <;> cases hv
    · exact Number.fits_zero p
    · exact Number.fits_infinite p false
  all_goals cases hv
  · exact Number.fits_undefined p
  · exact Number.fits_undefined p
  · exact Number.fits_undefined p
  · exact Number.fits_infinite p false

theorem fits_apply (f : Builtin) (a : Number) : ResultFits p (f.apply p a) := by
  intro v hv
  cases a with
  | undefined =>
    cases hv
    exact Number.fits_undefined p
  | infinite negative => exact fits_atInfinity hp f negative v hv
  | finite x =>
    rw [apply] at hv
    split at hv
    · cases hv
      exact Number.fits_infinite p true
    · cases hx : f.atFinite p x with
      | error e =>
        rw [hx] at hv
        cases hv
      | ok y =>
        rw [hx] at hv
        cases hv
        exact fits_atFinite hp f hx

end Builtin

private theorem fits_operate {p : Nat} (hp : 1 ≤ p) (op : String) (a b : Number) : ResultFits p (operate p op a b) := by
  have hlift {r : Except Error Number} (hr : ResultFits p r) : ResultFits p (Failure.lift r) := by
    intro v hv
    cases r with
    | error e => cases hv
    | ok w =>
      cases hv
      exact hr v rfl
  unfold operate
  split
  · rintro v ⟨⟩
    exact Number.fits_add hp a b
  · rintro v ⟨⟩
    exact Number.fits_add hp a b.flip
  · rintro v ⟨⟩
    exact Number.fits_mul hp a b
  · exact hlift (Number.fits_div hp a b)
  · exact hlift (Number.fits_pow hp a b)
  · nofun

section Values
variable {p : Nat} {a b v : Value}

/-- A binary operator gives a number of the left operand's context, rounded to its precision. -/
theorem fits_applyBinary (hp : 1 ≤ p) {op : String} (ha : a.precision = p) (h : applyBinary op a b = .ok v) :
    v.Fits p := by
  subst ha
  unfold applyBinary at h
  cases hr : operate a.precision op a.number b.number with
  | error e =>
    rw [hr] at h
    cases h
  | ok n =>
    rw [hr] at h
    cases h
    exact ⟨rfl, fits_operate hp op a.number b.number n hr⟩

theorem fits_applyUnary (hp : 1 ≤ p) {op : String} (ha : a.precision = p) (h : applyUnary op a = .ok v) :
    v.Fits p := by
  subst ha
  unfold applyUnary at h
  split at h
  · cases h
    exact ⟨rfl, Number.fits_neg hp a.number⟩
  · cases h

end Values

end Reckoner
