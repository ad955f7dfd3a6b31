import Reckoner.Builtin
import Reckoner.Syntax.Copy

/-!
Frames: layers of bindings. A frame knows its parent, and a function knows the frame in whose scope its
body runs; both are places in a store of frames. A context is a scope with its number context.
-/

namespace Reckoner

/-- A function as a frame stores it. -/
inductive Function where
  /-- A function of the language. Its body runs on top of the frame at its home. -/
  | closure (name : String) (params : List String) (body : Expr) (home : Nat)
  /-- A text that stands for a function but cannot be called. -/
  | tagged (text : String)

/-- The frame that a function captured. -/
def Function.home? : Function → Option Nat
  | closure _ _ _ home => some home
  | tagged _ => none

/-- A function made anew over moved frames. -/
def Function.relocate (place : Nat → Nat) : Function → Function
  | closure name params body home => closure name params body.rebuild (place home)
  | tagged text => tagged text

/-- The calls that a copier has open at the deepest place of a function, counted from its frame. What the function
captured is the frame itself, which the copier has met before. -/
def Function.copyDepth (c : Copier) : Function → Nat
  | closure _ _ body _ => c.body + body.copyDepth c
  | tagged _ => 0

/-- One layer of bindings. Values and functions have separate names. -/
structure Frame where
  values : List (String × Value) := []
  functions : List (String × Function) := []
  parent : Option Nat := none

namespace Frame

/-- The frames that a frame refers to: its parent, and those that its functions captured. -/
def links (frame : Frame) : List Nat :=
  frame.parent.toList ++ frame.functions.filterMap (·.2.home?)

/-- A frame made anew over moved frames. -/
def relocate (place : Nat → Nat) (frame : Frame) : Frame where
  values := frame.values.map fun (name, v) => (name, v.rebuild)
  functions := frame.functions.map fun (name, f) => (name, f.relocate place)
  parent := frame.parent.map place

theorem values_relocate (place : Nat → Nat) (frame : Frame) : (frame.relocate place).values = frame.values :=
  List.map_id _

/-- The calls that a copier has open at the deepest place among the functions of a frame. -/
def copyDepth (c : Copier) (frame : Frame) : Nat :=
  frame.functions.foldr (fun (_, f) depth => max (f.copyDepth c) depth) 0

end Frame

/-- A scope with its number context: the precision of that and the place of the innermost frame. -/
structure Context where
  precision : Nat
  frame : Nat
  deriving DecidableEq

namespace Context

/-- What is written down of a context. The builtins are not; they are made anew for the precision. -/
structure State where
  precision : Nat
  frame : Nat

def state (c : Context) : State :=
  ⟨c.precision, c.frame⟩

/-- The context that a state was written down for. -/
def ofState (s : State) : Context :=
  ⟨s.precision, s.frame⟩

/-- A context over moved frames, with the same number context. -/
def clone (place : Nat → Nat) (c : Context) : Context :=
  { c with frame := place c.frame }

/-- A context that was written down and read again over moved frames. -/
def pickle (place : Nat → Nat) (c : Context) : Context :=
  ofState { c.state with frame := place c.frame }

@[simp]
theorem pickle_eq_clone (place : Nat → Nat) (c : Context) : c.pickle place = c.clone place :=
  rfl

end Context

/-- What a call can reach. -/
inductive Callable where
  | builtin (f : Builtin)
  | function (f : Function)

end Reckoner
