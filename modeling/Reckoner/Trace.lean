import Reckoner.Failure

/-!
Traces: the events of a computation, recorded beside its result. A computation that fails keeps the
events up to its failure.
-/

namespace Reckoner

inductive Event where
  /-- One statement was parsed; its outline. -/
  | parsedStatement (outline : String)
  | parsedProgram (count : Nat)
  | evaluating (kind : String)
  | enteringBlock (depth : Nat)
  | calling (name : String) (count : Nat)
  | defined (name : String)
  deriving DecidableEq, Repr

/-- The lines that show an event. -/
def Event.text : Event → String
  | parsedStatement outline => "Parsed statement:\n" ++ outline
  | parsedProgram count => s!"Parsed {count} statements\n"
  | evaluating kind => s!"Evaluating: {kind}\n"
  | enteringBlock depth => s!"Entering block at depth {depth}\n"
  | calling name count => s!"Calling {name} with {count} arguments\n"
  | defined name => s!"Defined function: {name}\n"

def traceText (events : List Event) : String :=
  String.join (events.map Event.text)

structure Traced (α : Type) where
  result : Except Failure α
  trace : List Event := []

namespace Traced

instance : Monad Traced where
  pure a := ⟨.ok a, []⟩
  bind x f :=
    match x.result with
    | .error e => ⟨.error e, x.trace⟩
    | .ok a => ⟨(f a).result, x.trace ++ (f a).trace⟩

theorem bind_of_ok {α β : Type} (a : α) (trace : List Event) (f : α → Traced β) :
    ((⟨.ok a, trace⟩ : Traced α) >>= f) = ⟨(f a).result, trace ++ (f a).trace⟩ :=
  rfl

instance : LawfulMonad Traced := LawfulMonad.mk' Traced
  (fun ⟨result, trace⟩ => by
    cases result with
    | error e => rfl
    | ok a => exact congrArg (Traced.mk _) (List.append_nil trace))
  (fun _ _ => rfl)
  (fun ⟨result, trace⟩ f g => by
    cases result with
    | error e => rfl
    | ok a =>
      rcases h : f a with ⟨result, later⟩
      cases result <;> simp [bind, h])

def record (e : Event) : Traced Unit :=
  ⟨.ok (), [e]⟩

def fail {α : Type} (f : Failure) : Traced α :=
  ⟨.error f, []⟩

def ofExcept {α : Type} (x : Except Error α) : Traced α :=
  ⟨Failure.lift x, []⟩

end Traced

end Reckoner
