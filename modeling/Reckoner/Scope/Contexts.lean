import Reckoner.Evaluation
import Reckoner.Syntax.Parse

/-!
Named contexts over a frame store: each name stands for a scope with its number context.
-/

namespace Reckoner

/-- Contexts under names, sharing the frames of one store, and the stack on which everything runs. -/
structure Contexts where
  stack : Nat
  store : Store
  /-- The context that exists from the start. -/
  root : Context
  handles : List (String × Context)

namespace Contexts

/-- The name of the context that exists from the start. -/
def rootName : String := "root"

def create (stack precision : Nat) : Contexts :=
  ⟨stack, Store.empty.add {}, ⟨precision, 0⟩, [(rootName, ⟨precision, 0⟩)]⟩

/-- The context of a name. A name that was not given stands for the root. -/
def context (c : Contexts) (name : String) : Context :=
  (c.handles.lookup name).getD c.root

/-- The place of the innermost frame of a named context. -/
def place (c : Contexts) (name : String) : Nat :=
  (c.context name).frame

/-- What a named context is worked with. -/
def machine (c : Contexts) (name : String) : Machine :=
  ⟨(c.context name).precision, c.stack⟩

/-- Let a name stand for a context. -/
def rename (c : Contexts) (name : String) (context : Context) (store : Store) : Contexts :=
  { c with store, handles := (name, context) :: c.handles.filter (·.1 ≠ name) }

/-- A new frame on top of a named scope, which goes on to share its frames and the number context. -/
def push (c : Contexts) (name target : String) (values : List (String × Value)) : Contexts :=
  c.rename target { c.context name with frame := c.store.size }
    (c.store.add { values, parent := some (c.place name) })

/-- Let a name stand for a copied context. -/
def adopt (c : Contexts) (target : String) (copied : Except Failure (Context × Store)) :
    Except Failure Contexts := do
  let (context, store) ← copied
  return c.rename target context store

/-- A copy of a named context that shares no frames with it. -/
def clone (c : Contexts) (name target : String) : Except Failure Contexts :=
  c.adopt target ((c.context name).cloneWithin (c.machine name).copyingCalls c.store)

/-- A copy of a named context that was written down and read again. -/
def pickle (c : Contexts) (name target : String) : Except Failure Contexts :=
  c.adopt target ((c.context name).pickleWithin (c.machine name).copyingCalls c.store)

def bindValue (c : Contexts) (on name : String) (v : Value) : Except Error Contexts := do
  return { c with store := ← c.store.bindValue name v (c.place on) }

def bindFunction (c : Contexts) (on name : String) (f : Function) : Except Error Contexts := do
  return { c with store := ← c.store.bindFunction name f (c.place on) }

def lookupValue (c : Contexts) (on name : String) : Except Error Value :=
  c.store.lookupValue name (c.place on)

def lookupFunction (c : Contexts) (on name : String) : Except Error Callable :=
  c.store.lookupFunction name (c.place on)

def depth (c : Contexts) (name : String) : Nat :=
  c.store.depth (c.place name)

/-- Run a statement that the host has as a tree in a named context. What it did to the frames stays, also when it
fails. -/
def execute (c : Contexts) (on : String) (statement : Statement) : Traced (Option Value) × Contexts :=
  let (outcome, store) := statement.evaluate (c.machine on) (c.place on) c.store
  (outcome, { c with store })

/-- Parse a statement and run it in a named context. -/
def evaluate (c : Contexts) (on text : String) : Traced (Option Value) × Contexts :=
  match parseStatement (c.machine on) text with
  | .error f => (.fail f, c)
  | .ok statement => c.execute on statement

/-- What a host does with a named context. -/
inductive Operation where
  | evaluate (text : String)
  | execute (statement : Statement)
  | bindValue (name : String) (v : Value)
  /-- Bind a text in the place of a function. -/
  | bindTag (name text : String)
  | push (target : String) (values : List (String × Value))
  | clone (target : String)
  | pickle (target : String)

structure Act where
  on : String
  operation : Operation

/-- What an act answers. -/
inductive Answer where
  | evaluated (outcome : Traced (Option Value))
  | bound (outcome : Except Error Unit)
  | opened (depth precision : Nat)
  | failed (f : Failure)

/-- Answer a binding. One that is refused leaves everything as it is. -/
def bound (c : Contexts) : Except Error Contexts → Answer × Contexts
  | .ok after => (.bound (.ok ()), after)
  | .error e => (.bound (.error e), c)

/-- Answer with the depth and the precision of a context that has a name now. -/
def opened (c : Contexts) (target : String) : Answer × Contexts :=
  (.opened (c.depth target) (c.context target).precision, c)

/-- Answer a copy. One that fails leaves everything as it is. -/
def copied (c : Contexts) (target : String) : Except Failure Contexts → Answer × Contexts
  | .ok after => after.opened target
  | .error f => (.failed f, c)

def perform (c : Contexts) (act : Act) : Answer × Contexts :=
  match act.operation with
  | .evaluate text => (c.evaluate act.on text).map .evaluated id
  | .execute statement => (c.execute act.on statement).map .evaluated id
  | .bindValue name v => c.bound (c.bindValue act.on name v)
  | .bindTag name text => c.bound (c.bindFunction act.on name (.tagged text))
  | .push target values => (c.push act.on target values).opened target
  | .clone target => c.copied target (c.clone act.on target)
  | .pickle target => c.copied target (c.pickle act.on target)

/-- The answers to some acts, and the scopes after them. -/
def performAll (c : Contexts) : List Act → List Answer × Contexts
  | [] => ([], c)
  | act :: rest =>
    let (answer, after) := c.perform act
    let (answers, last) := performAll after rest
    (answer :: answers, last)

end Contexts

end Reckoner
