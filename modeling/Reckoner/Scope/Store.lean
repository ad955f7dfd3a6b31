import Reckoner.Failure
import Reckoner.Scope.Basic

/-!
Frame stores: all frames there are, each known by its place. A scope is a frame with its ancestors, and
is given by the place of its innermost frame. Names are looked up along the chain of frames and bound in
the innermost one, once. Frames are added and bindings are added to them, but nothing is taken away.
-/

namespace Reckoner

/-- Every parent stands before its children. -/
structure Store where
  frames : Array Frame
  ordered : ∀ (i : Nat) (frame : Frame) (q : Nat), frames[i]? = some frame → frame.parent = some q → q < i

namespace Store

def empty : Store where
  frames := #[]
  ordered := by simp

/-- The number of frames, which is also the place of the next one. -/
def size (s : Store) : Nat :=
  s.frames.size

/-- The frame at a place. -/
def frameAt (s : Store) (i : Nat) : Frame :=
  s.frames[i]?.getD {}

/-- Add a frame on top of one of the store. -/
def add (s : Store) (frame : Frame) : Store where
  frames := s.frames.push { frame with parent := frame.parent.filter (· < s.frames.size) }
  ordered := by
    intro i f q h hq
    rw [Array.getElem?_push] at h
    split at h
    · obtain rfl := Option.some.inj h
      simp only [Option.filter_eq_some_iff, decide_eq_true_eq] at hq
      omega
    · exact s.ordered i f q h hq

/-- Change the bindings of the frame at a place. -/
def rebind (s : Store) (i : Nat) (change : Frame → Frame) : Store where
  frames := s.frames.modify i fun frame => { change frame with parent := frame.parent }
  ordered := by
    intro j f q h hq
    rw [Array.getElem?_modify] at h
    split at h
    · obtain ⟨old, hold, rfl⟩ := Option.map_eq_some_iff.1 h
      exact s.ordered j old q hold hq
    · exact s.ordered j f q h hq

/-- The frames of a scope, innermost first. -/
def chain (s : Store) (i : Nat) : List Frame :=
  match h : s.frames[i]? with
  | none => []
  | some frame =>
    frame ::
      match hq : frame.parent with
      | none => []
      | some q =>
        have : q < i := s.ordered i frame q h hq
        chain s q
termination_by i

def depth (s : Store) (i : Nat) : Nat :=
  (s.chain i).length

/-- The value of a name in the first of the frames that binds it. -/
def lookupValue (name : String) (i : Nat) (s : Store) : Except Error Value :=
  match (s.chain i).findSome? (·.values.lookup name) with
  | some v => .ok v
  | none => .error (.unbound name)

/-- Functions of the frames come before the builtins. -/
def lookupFunction (name : String) (i : Nat) (s : Store) : Except Error Callable :=
  match (s.chain i).findSome? (·.functions.lookup name) with
  | some f => .ok (.function f)
  | none =>
    match Builtin.ofName? name with
    | some f => .ok (.builtin f)
    | none => .error (.unbound name)

/-- Bind a value that the innermost frame does not have yet. -/
def bindValue (name : String) (v : Value) (i : Nat) (s : Store) : Except Error Store :=
  if ((s.frameAt i).values.lookup name).isSome then .error (.alreadyBound name)
  else .ok (s.rebind i fun frame => { frame with values := (name, v) :: frame.values })

/-- Bind a function that neither the builtins nor the innermost frame have yet. -/
def bindFunction (name : String) (f : Function) (i : Nat) (s : Store) : Except Error Store :=
  if (Builtin.ofName? name).isSome || ((s.frameAt i).functions.lookup name).isSome then
    .error (.alreadyBound name)
  else .ok (s.rebind i fun frame => { frame with functions := (name, f) :: frame.functions })

theorem bindValue_eq_ok_iff {name : String} {v : Value} {i : Nat} {s t : Store} :
    bindValue name v i s = .ok t ↔ (s.frameAt i).values.lookup name = none ∧
      s.rebind i (fun frame => { frame with values := (name, v) :: frame.values }) = t := by
  unfold bindValue
  cases (s.frameAt i).values.lookup name <;> simp

theorem bindFunction_eq_ok_iff {name : String} {f : Function} {i : Nat} {s t : Store} :
    bindFunction name f i s = .ok t ↔
      Builtin.ofName? name = none ∧ (s.frameAt i).functions.lookup name = none ∧
      s.rebind i (fun frame => { frame with functions := (name, f) :: frame.functions }) = t := by
  unfold bindFunction
  cases Builtin.ofName? name <;> cases (s.frameAt i).functions.lookup name <;> simp

/-- Places with all that can be reached from them in at most so many steps. -/
def closeUnderLinks (s : Store) : Nat → List Nat → List Nat
  | 0, places => places
  | n + 1, places =>
    let further := ((places.flatMap fun i => (s.frameAt i).links).filter (· ∉ places)).eraseDups
    if further.isEmpty then places else closeUnderLinks s n (places ++ further)

/-- The places that can be reached from a place, in ascending order. -/
def reachable (s : Store) (i : Nat) : List Nat :=
  let places := s.closeUnderLinks s.size [i]
  (List.range s.size).filter (· ∈ places)

/-- Where a frame stands in the copy of a scope. -/
def placeInCopy (s : Store) (i j : Nat) : Nat :=
  s.size + (s.reachable i).idxOf j

/-- Add a copy of a scope: all frames that can be reached from its innermost frame, referring to one
another in place of the frames that they are copies of. -/
def copy (s : Store) (i : Nat) : Store :=
  (s.reachable i).foldl (fun t j => t.add ((s.frameAt j).relocate (s.placeInCopy i))) s

/-- The calls that a copier has open at the deepest place of a scope. It goes from each frame on to the parent. -/
def copyDepth (c : Copier) (i : Nat) (s : Store) : Nat :=
  (s.chain i).foldr (fun frame below => max (frame.copyDepth c) (c.parent + below)) 0

/-- Add a copy of a scope, unless the copier needs more calls than are left. -/
def copyWithin (c : Copier) (calls i : Nat) (s : Store) : Except Failure Store :=
  if s.copyDepth c i ≤ calls then .ok (s.copy i) else .error .tooDeep

end Store

namespace Context

/-- Copy a context together with its scope. -/
def cloneWithin (calls : Nat) (c : Context) (s : Store) : Except Failure (Context × Store) := do
  let copied ← s.copyWithin .cloning calls c.frame
  return (c.clone (s.placeInCopy c.frame), copied)

/-- Write a context down together with its scope and read both again. -/
def pickleWithin (calls : Nat) (c : Context) (s : Store) : Except Failure (Context × Store) := do
  let copied ← s.copyWithin .pickling calls c.frame
  return (c.pickle (s.placeInCopy c.frame), copied)

end Context

end Reckoner
