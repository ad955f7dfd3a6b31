/-!
Machines: what a computation runs on. Numbers are worked out in a number context, which has a precision,
and the calls that are open at a time stand on a stack, which has room for so many. How much room there is
is up to the host; every activity takes off it the calls on the way to where it begins and those that its
last step makes.
-/

namespace Reckoner

structure Machine where
  /-- The precision of the number context, in bits. -/
  precision : Nat
  /-- The calls that the stack has room for. -/
  stack : Nat

namespace Machine

/-- The room on a stack whose size nobody has set. -/
def usualStack : Nat := 1000

/-- The machine, with so many of its calls spared. -/
def sparing (m : Machine) (calls : Nat) : Machine :=
  { m with stack := m.stack - calls }

/-- The calls left for reading the operands of a single statement. -/
def readingCalls (m : Machine) : Nat :=
  m.stack - 54

/-- The calls left for evaluating an expression. -/
def evaluationCalls (m : Machine) : Nat :=
  m.stack - 9

/-- The calls left for the outline of a tree. -/
def outlineCalls (m : Machine) : Nat :=
  m.stack - 12

/-- The calls left for a copy of a scope. -/
def copyingCalls (m : Machine) : Nat :=
  m.stack - 7

end Machine

section WithCalls
variable {α β : Type}

/-- What goes on down to the last of the calls that are left, after using up some of them. A step is given what goes on
so many calls further down than in the next one. -/
def withCalls (exhausted : α) (step : (Nat → α) → α) : Nat → Nat → α
  | 0, _ => exhausted
  | n + 1, 0 => step (withCalls exhausted step n)
  | n + 1, k + 1 => withCalls exhausted step n k

variable {exhausted : α} {step : (Nat → α) → α}

/-- Calls that are used up are calls that are not left. -/
theorem withCalls_eq (n k : Nat) : withCalls exhausted step n k = withCalls exhausted step (n - k) 0 := by
  induction n generalizing k with
  | zero => rw [Nat.zero_sub]; rfl
  | succ n ih =>
    cases k with
    | zero => rfl
    | succ k => rw [Nat.add_sub_add_right, ← ih k]; rfl

/-- What holds at the end, and of a step if it holds of what goes on below, holds with any number of calls. -/
theorem withCalls_induction {motive : α → Prop} (hexhausted : motive exhausted)
    (hstep : ∀ below, (∀ k, motive (below k)) → motive (step below)) (n k : Nat) :
    motive (withCalls exhausted step n k) := by
  induction n generalizing k with
  | zero => exact hexhausted
  | succ n ih =>
    cases k with
    | zero => exact hstep _ ih
    | succ k => exact ih k

/-- Two that are related at the end and step by step are related with as many calls. -/
theorem withCalls_relation {exhausted' : β} {step' : (Nat → β) → β} {motive : α → β → Prop}
    (hexhausted : motive exhausted exhausted')
    (hstep : ∀ below below', (∀ k, motive (below k) (below' k)) → motive (step below) (step' below')) (n k : Nat) :
    motive (withCalls exhausted step n k) (withCalls exhausted' step' n k) := by
  induction n generalizing k with
  | zero => exact hexhausted
  | succ n ih =>
    cases k with
    | zero => exact hstep _ _ ih
    | succ k => exact ih k

/-- The end is related to everything, and two that go on are related step by step: so they are related with as many
calls or more. -/
theorem withCalls_relation_of_le {exhausted' : β} {step' : (Nat → β) → β} {motive : α → β → Prop}
    (hexhausted : ∀ b, motive exhausted b)
    (hstep : ∀ below below', (∀ k, motive (below k) (below' k)) → motive (step below) (step' below')) {n n' : Nat}
    (h : n ≤ n') (k : Nat) : motive (withCalls exhausted step n k) (withCalls exhausted' step' n' k) := by
  induction n generalizing n' k with
  | zero => exact hexhausted _
  | succ n ih =>
    obtain ⟨n', rfl⟩ := Nat.exists_eq_add_of_lt h
    cases k with
    | zero => exact hstep _ _ (ih (Nat.le_of_succ_le_succ h))
    | succ k => exact ih (Nat.le_of_succ_le_succ h) k

end WithCalls

end Reckoner
