import Reckoner.Scope.Store
import Reckoner.Trace

/-!
Computations over a frame store. What a computation did to the store stays, also when it fails.
-/

namespace Reckoner

def Computation (α : Type) := Store → Traced α × Store

namespace Computation

instance : Monad Computation where
  pure a := fun s => (pure a, s)
  bind c f := fun s =>
    match c s with
    | (⟨.error e, trace⟩, s) => (⟨.error e, trace⟩, s)
    | (⟨.ok a, trace⟩, s) =>
      let (rest, s) := f a s
      (⟨rest.result, trace ++ rest.trace⟩, s)

theorem bind_of_ok {α β : Type} {c : Computation α} {f : α → Computation β} {s t : Store} {a : α}
    {trace : List Event} (h : c s = (⟨.ok a, trace⟩, t)) :
    (c >>= f) s = (⟨(f a t).1.result, trace ++ (f a t).1.trace⟩, (f a t).2) := by
  simp only [bind, h]

theorem bind_of_error {α β : Type} {c : Computation α} {f : α → Computation β} {s t : Store}
    {e : Failure} {trace : List Event} (h : c s = (⟨.error e, trace⟩, t)) :
    (c >>= f) s = (⟨.error e, trace⟩, t) := by
  simp only [bind, h]

/-- A computation that leaves the store alone. -/
def lift {α : Type} (t : Traced α) : Computation α := fun s =>
  (t, s)

def record (e : Event) : Computation Unit :=
  lift (.record e)

def fail {α : Type} (f : Failure) : Computation α :=
  lift (.fail f)

/-- Look something up in the store. -/
def read {α : Type} (look : Store → Except Error α) : Computation α := fun s =>
  (Traced.ofExcept (look s), s)

/-- Change the store, unless that is refused. -/
def update (change : Store → Except Error Store) : Computation Unit := fun s =>
  match change s with
  | .ok s => (pure (), s)
  | .error e => (Traced.fail (.error e), s)

theorem update_of_ok {change : Store → Except Error Store} {s t : Store} (h : change s = .ok t) :
    update change s = (⟨.ok (), []⟩, t) := by
  simp only [update, h]
  rfl

theorem update_of_error {change : Store → Except Error Store} {s : Store} {e : Error}
    (h : change s = .error e) : update change s = (⟨.error (.error e), []⟩, s) := by
  simp only [update, h]
  rfl

/-- Add a frame with some values on top of another, and give its place. -/
def push (parent : Nat) (values : List (String × Value)) : Computation Nat := fun s =>
  (pure s.size, s.add { values, parent := some parent })

end Computation

end Reckoner
