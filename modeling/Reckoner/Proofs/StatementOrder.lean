import Reckoner.Proofs.SessionGrowth

/-! The order of statements. A function sees what is bound after it, so the bindings that a statement
finds depend on its place; but if statements succeed in two orders, each of them gives the same value in
both, and the two sessions end with the same bindings. -/

namespace Reckoner
open Lexical (Layer Leads Settled)

/-- A callable without the frame that a function captured. -/
def Callable.bare : Callable → Builtin ⊕ Lexical.Lambda
  | .builtin f => .inl f
  | .function f => .inr f.lambda

namespace Store
variable {s t : Store} {i j : Nat}

theorem Alone.chain (h : s.Alone i) : s.chain i = [s.frameAt i] := by
  rw [chain_eq s i h.lt, h.root, Option.elim_none]

theorem Alone.lookupValue (h : s.Alone i) (name : String) :
    s.lookupValue name i =
      match (s.frameAt i).layer.values.lookup name with
      | some v => .ok v
      | none => .error (.unbound name) := by
  rw [← lookupValue_scope h.lt, h.scope]
  exact Lexical.Scope.lookupValue_alone ..

private theorem Alone.lookupFunction (h : s.Alone i) (name : String) :
    (s.lookupFunction name i).map Callable.bare =
      match (s.frameAt i).layer.functions.lookup name with
      | some f => .ok (.inr f)
      | none =>
        match Builtin.ofName? name with
        | some f => .ok (.inl f)
        | none => .error (.unbound name) := by
  have hl : (s.frameAt i).layer.functions.lookup name =
      ((s.frameAt i).functions.lookup name).map Function.lambda := lookup_map ..
  rw [Store.lookupFunction, h.chain, List.findSome?_cons, hl]
  cases (s.frameAt i).functions.lookup name with
  | some f => rfl
  | none => cases Builtin.ofName? name <;> rfl

end Store

/-- The copies of a session over a store: what is put aside of it, and what is made of it. -/
inductive Session.CopyOf (s : Session) (store : Store) : Session → Store → Prop where
  | aside : CopyOf s store s store
  | fork {opened : Session × Store} (h : s.fork store = .ok opened) : CopyOf s store opened.1 opened.2
  | transfer {settings : Settings} {opened : Session × Store} (h : s.transfer settings store = .ok opened) :
    CopyOf s store opened.1 opened.2

namespace Session
variable {a s : Session} {store t : Store}

/-- A session over a copy of the scope has a frame of its own with the same layer. -/
theorem copied_alone (h : store.Alone s.frame) (settings : Settings) :
    (s.copied settings store).2.Alone (s.copied settings store).1.frame ∧
      ((s.copied settings store).2.frameAt (s.copied settings store).1.frame).layer =
        (store.frameAt s.frame).layer := by
  have hmem : s.frame ∈ store.places s.frame := Store.mem_places_self
  have hf : (s.copied settings store).2.frameAt (s.copied settings store).1.frame = _ :=
    Store.frameAt_copy h.linked h.lt hmem
  refine ⟨⟨h.linked.copy h.lt, Store.placeInCopy_lt ((Store.mem_reachable h.linked h.lt).2 hmem), ?_⟩, ?_⟩
  · rw [hf, Frame.relocate, h.root]
    rfl
  · rw [hf, Store.layer_relocate]

theorem CopyOf.alone (h : s.CopyOf store a t) (hs : store.Alone s.frame) :
    t.Alone a.frame ∧ (t.frameAt a.frame).layer = (store.frameAt s.frame).layer ∧ a.machine = s.machine := by
  cases h with
  | aside => exact ⟨hs, rfl, rfl⟩
  | fork h =>
    rw [fork_eq] at h
    obtain ⟨-, -, rfl⟩ := copyBy_eq_ok_iff.1 h
    obtain ⟨halone, hlayer⟩ := copied_alone hs s.settings
    exact ⟨halone, hlayer, rfl⟩
  | @transfer settings _ h =>
    rw [transfer_eq] at h
    obtain ⟨-, -, rfl⟩ := copyBy_eq_ok_iff.1 h
    obtain ⟨halone, hlayer⟩ := copied_alone hs settings
    exact ⟨halone, hlayer, rfl⟩

/-- Statements that a copy executes lead from the layer of its original. -/
theorem CopyOf.leads_executeAll (h : s.CopyOf store a t) (hs : store.Alone s.frame) {statements : List Statement}
    {values : List (Option Value)} (hv : (a.executeAll statements t).1.result = .ok values) :
    (a.executeAll statements t).2.Alone a.frame ∧
      Leads s.machine (store.frameAt s.frame).layer statements values
        ((a.executeAll statements t).2.frameAt a.frame).layer := by
  obtain ⟨halone, hlayer, hmachine⟩ := h.alone hs
  have hleads := Session.leads_executeAll halone hv
  rw [hmachine, hlayer] at hleads
  exact ⟨(a.growing_executeAll statements t halone).alone, hleads⟩

end Session

/-- A statement of two lists that lead from the same layer has the same value in both, if the second
layer extends the first. -/
theorem Lexical.Leads.exists_value {machine : Machine} {l m n : Layer} {statements statements' : List Statement}
    {values values' : List (Option Value)} (h : Leads machine l statements values m)
    (h' : Leads machine l statements' values' n) (hmn : m.ExtendedBy n) {i j : Nat} {statement : Statement}
    (hi : statements[i]? = some statement) (hj : statements'[j]? = some statement) :
    ∃ value, values[i]? = some value ∧ values'[j]? = some value := by
  obtain ⟨hi', rfl⟩ := List.getElem?_eq_some_iff.1 hi
  obtain ⟨hj', he⟩ := List.getElem?_eq_some_iff.1 hj
  have hvi : i < values.length := h.settled.length_eq ▸ hi'
  have hvj : j < values'.length := h'.settled.length_eq ▸ hj'
  have hs : Settled machine n statements[i] values[i] := (h.settled.get hi' hvi).mono hmn
  have hs' : Settled machine n statements'[j] values'[j] := h'.settled.get hj' hvj
  rw [he] at hs'
  exact ⟨values[i], List.getElem?_eq_getElem hvi, hs.unique hs' ▸ List.getElem?_eq_getElem hvj⟩

/-- The order of statements makes no difference. If statements succeed in two orders, each run in a copy
of a session, then each of them gives the same value in both, and the copies end with the same names bound
to the same numbers and to functions of the same parameters and bodies, and evaluate everything alike. -/
theorem statement_order_makes_no_difference {w : Workspace} (hw : w.Reachable) {name : String}
    {s : Session} (hs : w.find? name = some s) {statements permuted : List Statement}
    (hp : statements.Perm permuted) {a b : Session} {t u : Store} (ha : s.CopyOf w.store a t)
    (hb : s.CopyOf w.store b u) {one other : Traced (List (Option Value)) × Store}
    (hone : a.executeAll statements t = one) (hother : b.executeAll permuted u = other)
    {values values' : List (Option Value)} (hv : one.1.result = .ok values)
    (hv' : other.1.result = .ok values') :
    (∀ (i j : Nat) (statement : Statement), statements[i]? = some statement →
      permuted[j]? = some statement → ∃ value, values[i]? = some value ∧ values'[j]? = some value) ∧
    (∀ key, one.2.lookupValue key a.frame = other.2.lookupValue key b.frame) ∧
    (∀ key, (one.2.lookupFunction key a.frame).map Callable.bare =
      (other.2.lookupFunction key b.frame).map Callable.bare) ∧
    ∀ e, (a.execute (.expression e) one.2).1.result = (b.execute (.expression e) other.2).1.result := by
  subst hone hother
  have halone := hw.alone hs
  obtain ⟨-, -, hmachine⟩ := ha.alone halone
  obtain ⟨-, -, hmachine'⟩ := hb.alone halone
  obtain ⟨haloneA, hl⟩ := ha.leads_executeAll halone hv
  obtain ⟨haloneB, hl'⟩ := hb.leads_executeAll halone hv'
  have hmn := hl.extendedBy hl' fun statement => hp.mem_iff.1
  have hnm := hl'.extendedBy hl fun statement => hp.mem_iff.2
  refine ⟨fun i j statement => hl.exists_value hl' hmn, fun key => ?_, fun key => ?_, fun e => ?_⟩
  · rw [haloneA.lookupValue, haloneB.lookupValue, hmn.values_eq hnm]
  · rw [haloneA.lookupFunction, haloneB.lookupFunction, hmn.functions_eq hnm]
  · rw [Session.execute_expression haloneA, Session.execute_expression haloneB, hmachine, hmachine',
      Lexical.evaluate_eq_of_extendedBy hmn hnm]

/-- A function and the value that its body refers to, defined in either order before it is called: in a fork, and in
what was put aside. -/
theorem late_binding_in_either_order :
    let s : Session := ⟨⟨128, 0⟩, {}, 1000⟩
    let w := ((Workspace.empty 1000).perform (.create "main" {})).2
    let one : Value := ⟨.one, 128⟩
    let define : Statement := .define "f" [] (.symbol "b")
    let assign : Statement := .assign "b" (.number one)
    let call : Statement := .assign "c" (.call "f" [])
    let copy := s.copied {} w.store
    let first := copy.1.executeAll [define, assign, call] copy.2
    let second := s.executeAll [assign, define, call] w.store
    w.Reachable ∧ w.find? "main" = some s ∧ [define, assign, call].Perm [assign, define, call] ∧
      s.fork w.store = .ok copy ∧
      first.1.result = .ok [none, some one, some one] ∧ second.1.result = .ok [some one, none, some one] ∧
      (∀ key, first.2.lookupValue key copy.1.frame = second.2.lookupValue key s.frame) ∧
      ∀ e, (copy.1.execute (.expression e) first.2).1.result = (s.execute (.expression e) second.2).1.result := by
  intro s w one define assign call copy first second
  have hw : w.Reachable := (Workspace.Reachable.empty 1000).performed (.create "main" {})
  have hs : w.find? "main" = some s := rfl
  have hp : [define, assign, call].Perm [assign, define, call] := .swap ..
  have hfits : w.store.copyDepth .cloning 0 ≤ s.machine.copyingCalls := by decide +kernel
  have hfork : s.fork w.store = .ok copy :=
    (s.fork_eq w.store).trans (Session.copyBy_eq_ok_iff.2 ⟨hfits, by decide, rfl⟩)
  have hv : first.1.result = .ok [none, some one, some one] := by decide +kernel
  have hv' : second.1.result = .ok [some one, none, some one] := by decide +kernel
  have hfirst : copy.1.executeAll [define, assign, call] copy.2 = first := rfl
  have hsecond : s.executeAll [assign, define, call] w.store = second := rfl
  obtain ⟨-, hvalues, -, halike⟩ :=
    statement_order_makes_no_difference hw hs hp (.fork hfork) .aside hfirst hsecond hv hv'
  exact ⟨hw, hs, hp, hfork, hv, hv', hvalues, halike⟩

end Reckoner
