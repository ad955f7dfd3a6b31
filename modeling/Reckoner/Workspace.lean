import Reckoner.Session

/-!
Workspaces: sessions under names over one frame store. A session starts empty or as a copy of another,
and a name that is given again stands for the new session from then on.
-/

namespace Reckoner

/-- What a session is asked for. -/
inductive Request where
  | run (text : String)
  | runAll (text : String)
  /-- Parse a statement and evaluate it, keeping its value. -/
  | execute (text : String)
  /-- Evaluate a statement that is there as a tree. -/
  | perform (statement : Statement)

/-- What a session answers. -/
inductive Answer where
  | text (result : String)
  | texts (results : List String)
  | value (result : Option Value)
  deriving DecidableEq

/-- Carry out a request. -/
def Session.respond (s : Session) : Request → Computation Answer
  | .run text => .text <$> s.run text
  | .runAll text => .texts <$> s.runAll text
  | .execute text => .value <$> s.executeText text
  | .perform statement => .value <$> s.execute statement

structure Workspace where
  /-- The calls that the stack has room for on which all sessions run. -/
  stack : Nat
  store : Store
  sessions : List (String × Session)

/-- A step in a workspace. -/
inductive Step where
  /-- Start an empty session. -/
  | create (target : String) (settings : Settings)
  | ask (source : String) (request : Request)
  /-- Copy a session with its settings. -/
  | fork (source target : String)
  /-- Copy a session and give the copy other settings. -/
  | transfer (source target : String) (settings : Settings)

/-- What a step gives. -/
inductive Reply where
  | answered (outcome : Traced Answer)
  | opened (session : Session)
  | refused (why : Refusal)
  /-- No session has the name. -/
  | unknown

namespace Workspace

def empty (stack : Nat) : Workspace :=
  ⟨stack, .empty, []⟩

def find? (w : Workspace) (name : String) : Option Session :=
  w.sessions.lookup name

/-- Let a name stand for a session over a store that may have grown. -/
def put (w : Workspace) (name : String) (opened : Session × Store) : Workspace :=
  { w with store := opened.2, sessions := (name, opened.1) :: w.sessions.filter (·.1 ≠ name) }

/-- Let a name stand for a session that could be opened. -/
def putIfOpened (w : Workspace) (name : String) :
    Except Refusal (Session × Store) → Reply × Workspace
  | .ok opened => (.opened opened.1, w.put name opened)
  | .error why => (.refused why, w)

/-- Carry out a step. -/
def perform (w : Workspace) : Step → Reply × Workspace
  | .create target settings => w.putIfOpened target (Session.create w.stack settings w.store)
  | .ask source request =>
    match w.find? source with
    | none => (.unknown, w)
    | some s =>
      let (outcome, store) := s.respond request w.store
      (.answered outcome, { w with store })
  | .fork source target =>
    match w.find? source with
    | none => (.unknown, w)
    | some s => w.putIfOpened target (s.fork w.store)
  | .transfer source target settings =>
    match w.find? source with
    | none => (.unknown, w)
    | some s => w.putIfOpened target (s.transfer settings w.store)

/-- The workspace after some steps. -/
def performAll (w : Workspace) (steps : List Step) : Workspace :=
  steps.foldl (fun w step => (w.perform step).2) w

end Workspace

end Reckoner
