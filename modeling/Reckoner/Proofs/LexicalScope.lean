import Reckoner.Proofs.FrameExtension

/-! Scopes as values. A function belongs to the layer that holds it, and that layer with those around it
is the scope in which its body runs, so a scope mentions no place. In a linked store, where every function
has the frame that stores it for its home, nothing is lost: the scope of a frame tells all that can be
looked up from it. -/

namespace Reckoner
namespace Lexical

/-- A function as a layer holds it. -/
inductive Lambda where
  | abstraction (params : List String) (body : Expr)
  | tagged (text : String)

structure Layer where
  values : List (String × Value) := []
  functions : List (String × Lambda) := []

@[ext]
structure Scope where
  innermost : Layer
  enclosing : List Layer

/-- A builtin, or a function with the scope of its layer. -/
inductive Callee where
  | builtin (f : Builtin)
  | function (f : Lambda) (home : Scope)

namespace Scope

def layers (s : Scope) : List Layer :=
  s.innermost :: s.enclosing

def depth (s : Scope) : Nat :=
  s.layers.length

/-- A new innermost layer with the given values. -/
def push (s : Scope) (values : List (String × Value)) : Scope :=
  ⟨{ values }, s.layers⟩

def lookupValue (name : String) (s : Scope) : Except Error Value :=
  match s.layers.findSome? (·.values.lookup name) with
  | some v => .ok v
  | none => .error (.unbound name)

/-- The first function of a name along the layers, with the scope that starts at its layer. -/
def functionAlong? (name : String) : List Layer → Option (Lambda × Scope)
  | [] => none
  | layer :: enclosing =>
    match layer.functions.lookup name with
    | some f => some (f, ⟨layer, enclosing⟩)
    | none => functionAlong? name enclosing

def lookupFunction (name : String) (s : Scope) : Except Error Callee :=
  match functionAlong? name s.layers with
  | some (f, home) => .ok (.function f home)
  | none =>
    match Builtin.ofName? name with
    | some f => .ok (.builtin f)
    | none => .error (.unbound name)

def bindValue (name : String) (v : Value) (s : Scope) : Except Error Scope :=
  if (s.innermost.values.lookup name).isSome then .error (.alreadyBound name)
  else .ok { s with innermost.values := (name, v) :: s.innermost.values }

def bindFunction (name : String) (f : Lambda) (s : Scope) : Except Error Scope :=
  if (Builtin.ofName? name).isSome || (s.innermost.functions.lookup name).isSome then
    .error (.alreadyBound name)
  else .ok { s with innermost.functions := (name, f) :: s.innermost.functions }

end Scope

end Lexical

/-- What remains of a function without its home. -/
def Function.lambda : Function → Lexical.Lambda
  | closure _ params body _ => .abstraction params body
  | tagged text => .tagged text

/-- What remains of a frame without its places. -/
def Frame.layer (frame : Frame) : Lexical.Layer where
  values := frame.values
  functions := frame.functions.map fun (name, f) => (name, f.lambda)

namespace Store
open Lexical

/-- The scope of a frame as a value. -/
def scope (s : Store) (i : Nat) : Scope where
  innermost := (s.frameAt i).layer
  enclosing := (s.chain i).tail.map Frame.layer

/-- Every function of a frame has that frame for its home, and the name under which it is bound. -/
def Linked (s : Store) : Prop :=
  ∀ (i : Nat) (frame : Frame) (name ownName : String) (params : List String) (body : Expr) (home : Nat),
    s.frames[i]? = some frame → (name, Function.closure ownName params body home) ∈ frame.functions →
      ownName = name ∧ home = i

end Store

/-- A callable of the store and the callee that it is among scopes, when called by a name. -/
inductive Callable.Means (s : Store) (name : String) : Callable → Lexical.Callee → Prop where
  | builtin (f : Builtin) : Means s name (.builtin f) (.builtin f)
  | tagged (text : String) (home : Lexical.Scope) :
    Means s name (.function (.tagged text)) (.function (.tagged text) home)
  | closure (params : List String) (body : Expr) (place : Nat) (h : place < s.size) :
    Means s name (.function (.closure name params body place))
      (.function (.abstraction params body) (s.scope place))

namespace Store
open Lexical

theorem layers_scope {s : Store} {i : Nat} (hi : i < s.size) :
    (s.scope i).layers = (s.chain i).map Frame.layer := by
  rw [Scope.layers, scope, chain_eq s i hi]
  rfl

theorem scope_congr {s t : Store} {i j : Nat} (hf : (t.frameAt j).layer = (s.frameAt i).layer)
    (hc : (t.chain j).map Frame.layer = (s.chain i).map Frame.layer) : t.scope j = s.scope i := by
  simp only [scope, hf, List.map_tail, hc]

theorem scope_of_chain {s t : Store} {i j : Nat} (hi : i < s.size) (hj : j < t.size)
    (h : t.chain j = s.chain i) : t.scope j = s.scope i := by
  have hl : (t.scope j).layers = (s.scope i).layers := by rw [layers_scope hi, layers_scope hj, h]
  obtain ⟨hin, hen⟩ := List.cons.inj hl
  exact Scope.ext hin hen

theorem Keeps.scope {s t : Store} (h : s.Keeps t) {i : Nat} (hi : i < s.size) :
    t.scope i = s.scope i :=
  scope_congr (by rw [h.frameAt hi]) (by rw [h.chain hi])

theorem depth_scope {s : Store} {i : Nat} (hi : i < s.size) : (s.scope i).depth = s.depth i := by
  rw [Scope.depth, layers_scope hi, List.length_map, depth]

theorem lookupValue_scope {s : Store} {i : Nat} (hi : i < s.size) (name : String) :
    (s.scope i).lookupValue name = s.lookupValue name i := by
  rw [Scope.lookupValue, layers_scope hi, List.findSome?_map, Store.lookupValue]
  rfl

theorem linked_empty : Linked .empty := by
  intro i frame name ownName params body home h
  simp [empty] at h

theorem Linked.add {s : Store} (hs : s.Linked) (values : List (String × Value)) (parent : Option Nat) :
    (s.add { values, parent }).Linked := by
  intro i frame name ownName params body home h hm
  simp only [Store.add, Array.getElem?_push] at h
  split at h
  · obtain rfl := Option.some.inj h
    cases hm
  · exact hs i frame name ownName params body home h hm

theorem frames_rebind {s : Store} {i j : Nat} {change : Frame → Frame} {frame : Frame}
    (h : (s.rebind i change).frames[j]? = some frame) :
    s.frames[j]? = some frame ∨ j = i ∧ ∃ old, s.frames[i]? = some old ∧
      frame = { change old with parent := old.parent } := by
  simp only [rebind, Array.getElem?_modify] at h
  split at h
  · rename_i hij
    subst hij
    obtain ⟨old, hold, rfl⟩ := Option.map_eq_some_iff.1 h
    exact .inr ⟨rfl, old, hold, rfl⟩
  · exact .inl h

theorem Linked.bindValue {s t : Store} (hs : s.Linked) {name : String} {v : Value} {i : Nat}
    (h : Store.bindValue name v i s = .ok t) : t.Linked := by
  obtain ⟨-, rfl⟩ := bindValue_eq_ok_iff.1 h
  intro j frame key ownName params body home hj hm
  rcases frames_rebind hj with hj | ⟨rfl, old, hold, rfl⟩
  · exact hs j frame key ownName params body home hj hm
  · exact hs j old key ownName params body home hold hm

theorem Linked.bindFunction {s t : Store} (hs : s.Linked) {name : String} {params : List String}
    {body : Expr} {i : Nat} (h : Store.bindFunction name (.closure name params body i) i s = .ok t) :
    t.Linked := by
  obtain ⟨-, -, rfl⟩ := bindFunction_eq_ok_iff.1 h
  intro j frame key ownName params' body' home hj hm
  rcases frames_rebind hj with hj | ⟨rfl, old, hold, rfl⟩
  · exact hs j frame key ownName params' body' home hj hm
  · rcases List.mem_cons.1 hm with he | hm
    · cases he
      exact ⟨rfl, rfl⟩
    · exact hs j old key ownName params' body' home hold hm

theorem lookup_map {α β : Type} (f : α → β) (name : String) (bindings : List (String × α)) :
    (bindings.map fun (key, a) => (key, f a)).lookup name = (bindings.lookup name).map f := by
  induction bindings with
  | nil => rfl
  | cons binding rest ih =>
    obtain ⟨key, a⟩ := binding
    rw [List.map_cons, List.lookup_cons, List.lookup_cons, ih]
    split <;> rfl

/-- The last entry of a name takes the place of those before it. -/
theorem lookup_put {α : Type} (name : String) (a : α) (entries : List (String × α)) (other : String) :
    ((name, a) :: entries.filter (·.1 ≠ name)).lookup other =
      if other = name then some a else entries.lookup other := by
  rw [List.lookup_cons]
  by_cases h : other = name
  · rw [if_pos h, beq_iff_eq.2 h]
  · rw [if_neg h, beq_eq_false_iff_ne.2 h]
    change (entries.filter (·.1 ≠ name)).lookup other = entries.lookup other
    induction entries with
    | nil => rfl
    | cons entry rest ih =>
      obtain ⟨key, b⟩ := entry
      by_cases hk : key = name
      · subst hk
        rw [List.filter_cons_of_neg (by simp), List.lookup_cons, beq_eq_false_iff_ne.2 h, ih]
      · rw [List.filter_cons_of_pos (by simpa using hk), List.lookup_cons, List.lookup_cons, ih]

/-- Looking up a function finds the same function along the frames and along the layers. -/
theorem functionAlong_scope {s : Store} (hs : s.Linked) (name : String) {i : Nat} (hi : i < s.size) :
    match (s.chain i).findSome? (·.functions.lookup name) with
    | some f => ∃ lambda home, Scope.functionAlong? name (s.scope i).layers = some (lambda, home) ∧
        Callable.Means s name (.function f) (.function lambda home)
    | none => Scope.functionAlong? name (s.scope i).layers = none := by
  induction i using Nat.strongRecOn with
  | ind i ih =>
    have hl : (s.frameAt i).layer.functions.lookup name =
        ((s.frameAt i).functions.lookup name).map Function.lambda := lookup_map ..
    rw [layers_scope hi, chain_eq s i hi, List.findSome?_cons, List.map_cons, Scope.functionAlong?, hl]
    cases hf : (s.frameAt i).functions.lookup name with
    | some f =>
      refine ⟨f.lambda, s.scope i, ?_, ?_⟩
      · simp only [Option.map_some, scope, chain_eq s i hi, List.tail_cons]
      · cases f with
        | tagged text => exact .tagged text _
        | closure ownName params body place =>
          obtain ⟨before, after, hmem, -⟩ := List.lookup_eq_some_iff.1 hf
          obtain ⟨rfl, rfl⟩ := hs i _ name ownName params body place (getElem?_frameAt hi)
            (by rw [hmem]; simp)
          exact .closure params body place hi
    | none =>
      simp only [Option.map_none]
      cases hq : (s.frameAt i).parent with
      | none => rfl
      | some q =>
        have hlt := parent_lt hq
        have hq' := ih q hlt (by omega)
        rw [layers_scope (by omega)] at hq'
        exact hq'

theorem lookupFunction_scope {s : Store} (hs : s.Linked) (name : String) {i : Nat} (hi : i < s.size) :
    match s.lookupFunction name i with
    | .ok callable => ∃ callee, (s.scope i).lookupFunction name = .ok callee ∧
        callable.Means s name callee
    | .error e => (s.scope i).lookupFunction name = .error e := by
  have h := functionAlong_scope hs name hi
  rw [Store.lookupFunction, Scope.lookupFunction]
  cases hf : (s.chain i).findSome? (·.functions.lookup name) with
  | some f =>
    rw [hf] at h
    obtain ⟨lambda, home, hs, hm⟩ := h
    rw [hs]
    exact ⟨_, rfl, hm⟩
  | none =>
    rw [hf] at h
    rw [h]
    cases Builtin.ofName? name with
    | some f => exact ⟨_, rfl, .builtin f⟩
    | none => rfl

/-- A changed frame is the innermost layer of its own scope, and those around it stay. -/
theorem scope_rebind {s : Store} {i : Nat} (hi : i < s.size) (change : Frame → Frame) :
    (s.rebind i change).scope i = ⟨(change (s.frameAt i)).layer, (s.scope i).enclosing⟩ := by
  have hf : (s.rebind i change).frameAt i =
      { change (s.frameAt i) with parent := (s.frameAt i).parent } := by
    rw [frameAt, getElem?_rebind hi, Option.getD_some]
  have hc : (s.rebind i change).chain i =
      (s.rebind i change).frameAt i :: (s.chain i).tail := by
    rw [chain_eq _ i (by rwa [size_rebind]), chain_eq s i hi, hf]
    cases hq : (s.frameAt i).parent with
    | none => rfl
    | some q =>
      have hlt := parent_lt hq
      simp only [Option.elim_some, List.tail_cons, List.cons.injEq, true_and]
      exact chain_congr (by omega) fun j hj =>
        keepsExcept_rebind s i change j (by omega) (by omega)
  rw [scope, hc, hf]
  rfl

theorem bindValue_scope {s : Store} {i : Nat} (hi : i < s.size) (name : String) (v : Value) :
    (s.scope i).bindValue name v = (Store.bindValue name v i s).map (·.scope i) := by
  have hl : (s.scope i).innermost.values = (s.frameAt i).values := rfl
  rw [Scope.bindValue, Store.bindValue, hl]
  cases (s.frameAt i).values.lookup name with
  | some w => rfl
  | none =>
    exact congrArg Except.ok
      (scope_rebind hi fun frame => { frame with values := (name, v) :: frame.values }).symm

theorem bindFunction_scope {s : Store} {i : Nat} (hi : i < s.size) (name : String) (f : Function) :
    (s.scope i).bindFunction name f.lambda = (Store.bindFunction name f i s).map (·.scope i) := by
  have hl : (s.scope i).innermost.functions.lookup name =
      ((s.frameAt i).functions.lookup name).map Function.lambda := lookup_map ..
  rw [Scope.bindFunction, Store.bindFunction, hl]
  cases Builtin.ofName? name with
  | some g => rfl
  | none =>
    cases (s.frameAt i).functions.lookup name with
    | some g => rfl
    | none =>
      exact congrArg Except.ok
        (scope_rebind hi fun frame => { frame with functions := (name, f) :: frame.functions }).symm

theorem frameAt_add {s : Store} {i : Nat} (hi : i < s.size) (values : List (String × Value)) :
    (s.add { values, parent := some i }).frameAt s.size = { values, parent := some i } := by
  have hi' : i < s.frames.size := hi
  simp [frameAt, add, size, hi']

/-- A frame added on top of another one extends its scope. -/
theorem scope_add {s : Store} {i : Nat} (hi : i < s.size) (values : List (String × Value)) :
    (s.add { values, parent := some i }).scope s.size = (s.scope i).push values := by
  have hc : (s.add { values, parent := some i }).chain i = s.chain i := (s.keeps_add _).chain hi
  rw [scope, chain_eq _ _ (by rw [size_add]; omega), frameAt_add hi]
  simp only [Option.elim_some, List.tail_cons, hc, Scope.push, layers_scope hi]
  rfl

/-- The scope of a frame with no parent is its own layer. -/
theorem scope_of_root {s : Store} {i : Nat} (hi : i < s.size) (h : (s.frameAt i).parent = none) :
    s.scope i = ⟨(s.frameAt i).layer, []⟩ := by
  rw [scope, chain_eq s i hi, h]
  rfl

end Store

end Reckoner
