import Mathlib.Data.List.Forall2
import Reckoner.Proofs.ScopeInvariants

/-! Scopes that correspond. Frames of two stores correspond if they bind the same values, and functions that are
alike under the same names, and if their parents correspond. Where evaluation treats such scopes alike, whatever is
evaluated, bound, pushed and copied in them is answered alike and leaves them corresponding. -/

namespace Reckoner

/-- The same events, with values or with failures that are related. -/
inductive Traced.Corresponds {α β : Type} (failures : Failure → Failure → Prop) (r : α → β → Prop) :
    Traced α → Traced β → Prop where
  | ok {a : α} {b : β} {trace : List Event} (h : r a b) : Corresponds failures r ⟨.ok a, trace⟩ ⟨.ok b, trace⟩
  | error {e f : Failure} {trace : List Event} (h : failures e f) :
    Corresponds failures r ⟨.error e, trace⟩ ⟨.error f, trace⟩

namespace Traced.Corresponds
variable {α β γ δ : Type} {failures : Failure → Failure → Prop} {r : α → β → Prop} {r' : γ → δ → Prop}

theorem refl (hf : ∀ e, failures e e) {r : α → α → Prop} (hr : ∀ a, r a a) (x : Traced α) :
    x.Corresponds failures r x := by
  obtain ⟨result, trace⟩ := x
  cases result with
  | ok a => exact .ok (hr a)
  | error e => exact .error (hf e)

theorem eq {x y : Traced α} (h : x.Corresponds Eq Eq y) : x = y := by
  cases h with
  | ok h => rw [h]
  | error h => rw [h]

theorem bind {x : Traced α} {y : Traced β} {f : α → Traced γ} {g : β → Traced δ} (h : x.Corresponds failures r y)
    (hf : ∀ a b, r a b → (f a).Corresponds failures r' (g b)) :
    (x >>= f).Corresponds failures r' (y >>= g) := by
  cases h with
  | error h => exact .error h
  | @ok a b trace h =>
    rw [bind_of_ok, bind_of_ok]
    have hlater := hf a b h
    generalize f a = x, g b = y at hlater
    cases hlater with
    | ok h => exact .ok h
    | error h => exact .error h

theorem mono {r' : α → β → Prop} {x : Traced α} {y : Traced β} (h : x.Corresponds failures r y)
    (hr : ∀ a b, r a b → r' a b) : x.Corresponds failures r' y := by
  cases h with
  | ok h => exact .ok (hr _ _ h)
  | error h => exact .error h

end Traced.Corresponds

/-- Where two lists have related entries under the same names, so do lookups of a name. -/
theorem lookup_of_forall₂ {α β : Type} {r : α → β → Prop} {l : List (String × α)} {m : List (String × β)}
    (h : List.Forall₂ (fun a b => a.1 = b.1 ∧ r a.2 b.2) l m) (name : String) :
    Option.Rel r (l.lookup name) (m.lookup name) := by
  induction h with
  | nil => exact .none
  | @cons a b _ _ hab _ ih =>
    obtain ⟨key, a⟩ := a
    obtain ⟨key', b⟩ := b
    obtain ⟨hkey, hab⟩ := hab
    obtain rfl : key = key' := hkey
    rw [List.lookup_cons, List.lookup_cons]
    split
    · exact .some hab
    · exact ih

theorem isSome_lookup_of_forall₂ {α β : Type} {r : α → β → Prop} {l : List (String × α)} {m : List (String × β)}
    (h : List.Forall₂ (fun a b => a.1 = b.1 ∧ r a.2 b.2) l m) (name : String) :
    (l.lookup name).isSome = (m.lookup name).isSome := by
  have hrel := lookup_of_forall₂ h name
  generalize l.lookup name = x, m.lookup name = y at hrel
  cases hrel <;> rfl

namespace Lexical

/-- Layers with the same values, and with related functions under the same names. -/
structure Layer.Corresponds (functions : Lambda → Lambda → Prop) (l m : Layer) : Prop where
  values : l.values = m.values
  functions : List.Forall₂ (fun a b => a.1 = b.1 ∧ functions a.2 b.2) l.functions m.functions

theorem Layer.Corresponds.refl {functions : Lambda → Lambda → Prop} (hf : ∀ f, functions f f) (l : Layer) :
    l.Corresponds functions l :=
  ⟨rfl, List.forall₂_same.2 fun _ _ => ⟨rfl, hf _⟩⟩

def Scope.Corresponds (functions : Lambda → Lambda → Prop) (s t : Scope) : Prop :=
  List.Forall₂ (Layer.Corresponds functions) s.layers t.layers

/-- The calls that a copier has open at the deepest place of a function, counted from its frame. -/
def Lambda.copyDepth (c : Copier) : Lambda → Nat
  | .abstraction _ body => c.body + body.copyDepth c
  | .tagged _ => 0

def Layer.copyDepth (c : Copier) (l : Layer) : Nat :=
  l.functions.foldr (fun (_, f) depth => max (f.copyDepth c) depth) 0

def Scope.copyDepth (c : Copier) (s : Scope) : Nat :=
  s.layers.foldr (fun layer below => max (layer.copyDepth c) (c.parent + below)) 0

/-- Functions that are alike, and failures, such that a statement does alike in scopes with alike functions and
a copier goes as deep in the one as in the other. -/
structure Likeness where
  functions : Lambda → Lambda → Prop
  failures : Failure → Failure → Prop
  tagged (text : String) : functions (.tagged text) (.tagged text)
  refl (e : Failure) : failures e e
  copyDepth (c : Copier) {f g : Lambda} (h : functions f g) : f.copyDepth c = g.copyDepth c
  evaluated (m : Machine) {s t : Scope} (h : s.Corresponds functions t) (statement : Statement) :
    (run (evaluate m) s statement).Corresponds failures
      (fun a b => a.1 = b.1 ∧ a.2.Corresponds functions b.2) (run (evaluate m) t statement)

variable {L : Likeness} {l m : Layer} {s t : Scope}

private theorem Layer.Corresponds.copyDepth_eq (h : l.Corresponds L.functions m) (c : Copier) :
    l.copyDepth c = m.copyDepth c := by
  obtain ⟨-, hfunctions⟩ := h
  rw [Layer.copyDepth, Layer.copyDepth]
  generalize l.functions = x, m.functions = y at hfunctions ⊢
  induction hfunctions with
  | nil => rfl
  | cons hfg _ ih => simp only [List.foldr_cons, L.copyDepth c hfg.2, ih]

private theorem Scope.Corresponds.copyDepth_eq (h : s.Corresponds L.functions t) (c : Copier) :
    s.copyDepth c = t.copyDepth c := by
  rw [Scope.copyDepth, Scope.copyDepth]
  rw [Scope.Corresponds] at h
  generalize s.layers = x, t.layers = y at h ⊢
  induction h with
  | nil => rfl
  | cons hlayer _ ih => rw [List.foldr_cons, List.foldr_cons, hlayer.copyDepth_eq, ih]

end Lexical

open Lexical (Likeness Scope)
variable {L : Likeness}

namespace Store
variable {r new : Nat → Nat → Prop} {s s' t t' : Store} {i j : Nat}

/-- Each frame has at most one that corresponds to it, with a layer that corresponds and a corresponding parent. -/
structure Mirrors (L : Likeness) (r : Nat → Nat → Prop) (s t : Store) : Prop where
  linked : s.Linked
  linked' : t.Linked
  lt {a b : Nat} (h : r a b) : a < s.size
  lt' {a b : Nat} (h : r a b) : b < t.size
  unique {a b b' : Nat} (h : r a b) (h' : r a b') : b = b'
  unique' {a a' b : Nat} (h : r a b) (h' : r a' b) : a = a'
  layer {a b : Nat} (h : r a b) : (s.frameAt a).layer.Corresponds L.functions (t.frameAt b).layer
  parent {a b : Nat} (h : r a b) : Option.Rel r (s.frameAt a).parent (t.frameAt b).parent

theorem Mirrors.parent_cases (h : s.Mirrors L r t) (hij : r i j) :
    (s.frameAt i).parent = none ∧ (t.frameAt j).parent = none ∨
      ∃ q q', (s.frameAt i).parent = some q ∧ (t.frameAt j).parent = some q' ∧ r q q' := by
  have hparent := h.parent hij
  generalize (s.frameAt i).parent = x, (t.frameAt j).parent = y at hparent ⊢
  cases hparent with
  | none => exact .inl ⟨rfl, rfl⟩
  | some hr => exact .inr ⟨_, _, rfl, rfl, hr⟩

theorem Mirrors.scope (h : s.Mirrors L r t) (hij : r i j) :
    (s.scope i).Corresponds L.functions (t.scope j) := by
  rw [Scope.Corresponds, layers_scope (h.lt hij), layers_scope (h.lt' hij)]
  induction i using Nat.strongRecOn generalizing j with
  | ind i ih =>
    rw [chain_eq s i (h.lt hij), chain_eq t j (h.lt' hij)]
    refine .cons (h.layer hij) ?_
    rcases h.parent_cases hij with ⟨hq, hq'⟩ | ⟨q, q', hq, hq', hr⟩
    · rw [hq, hq']
      exact .nil
    · rw [hq, hq']
      exact ih q (parent_lt hq) hr

private theorem copyDepth_layer (c : Copier) (frame : Frame) : frame.layer.copyDepth c = frame.copyDepth c := by
  have hfunction (f : Function) : f.lambda.copyDepth c = f.copyDepth c := by
    cases f <;> rfl
  rw [Frame.layer, Lexical.Layer.copyDepth, Frame.copyDepth, List.foldr_map]
  simp only [hfunction]

theorem copyDepth_scope (hi : i < s.size) (c : Copier) : (s.scope i).copyDepth c = s.copyDepth c i := by
  rw [Lexical.Scope.copyDepth, layers_scope hi, copyDepth, List.foldr_map]
  simp only [copyDepth_layer]

private theorem Mirrors.copyDepth (h : s.Mirrors L r t) (hij : r i j) (c : Copier) :
    s.copyDepth c i = t.copyDepth c j := by
  rw [← copyDepth_scope (h.lt hij), ← copyDepth_scope (h.lt' hij)]
  exact (h.scope hij).copyDepth_eq c

private theorem Mirrors.depth (h : s.Mirrors L r t) (hij : r i j) : s.depth i = t.depth j := by
  rw [← depth_scope (h.lt hij), ← depth_scope (h.lt' hij)]
  exact (h.scope hij).length_eq

/-- Where corresponding frames change and nothing else does, the stores correspond as before if these do. -/
theorem Mirrors.within (h : s.Mirrors L r t) (hij : r i j) (hs : s.Within i s') (ht : t.Within j t')
    (hl : s'.Linked) (hl' : t'.Linked)
    (hlayer : (s'.frameAt i).layer.Corresponds L.functions (t'.frameAt j).layer) : s'.Mirrors L r t' := by
  refine ⟨hl, hl', fun hr => Nat.lt_of_lt_of_le (h.lt hr) hs.size_le,
    fun hr => Nat.lt_of_lt_of_le (h.lt' hr) ht.size_le, h.unique, h.unique', fun {a b} hr => ?_,
    fun {a b} hr => ?_⟩
  · by_cases ha : a = i
    · subst ha
      obtain rfl := h.unique hij hr
      exact hlayer
    · have hb : b ≠ j := fun he => ha (h.unique' (he ▸ hr) hij)
      rw [hs.frameAt (h.lt hr) ha, ht.frameAt (h.lt' hr) hb]
      exact h.layer hr
  · rw [hs.parent_frameAt (h.lt hr), ht.parent_frameAt (h.lt' hr)]
    exact h.parent hr

/-- A statement does alike in corresponding frames, and leaves the stores corresponding as before. -/
theorem Mirrors.evaluate (h : s.Mirrors L r t) (hij : r i j) (m : Machine) (statement : Statement) :
    (statement.evaluate m i s).1.Corresponds L.failures Eq (statement.evaluate m j t).1 ∧
      (statement.evaluate m i s).2.Mirrors L r (statement.evaluate m j t).2 := by
  have hrun := L.evaluated m (h.scope hij) statement
  have hs := statement.lands_evaluate_statement m h.linked (h.lt hij)
  have ht := statement.lands_evaluate_statement m h.linked' (h.lt' hij)
  have hleaves : statement.Leaves i s (statement.evaluate m i s) :=
    Statement.leaves_run (Expr.keeping_evaluate m) (h.lt hij) statement
  have hleaves' : statement.Leaves j t (statement.evaluate m j t) :=
    Statement.leaves_run (Expr.keeping_evaluate m) (h.lt' hij) statement
  have hwithin := statement.within_evaluate m (h.lt hij)
  have hwithin' := statement.within_evaluate m (h.lt' hij)
  generalize statement.evaluate m i s = x, statement.evaluate m j t = y at *
  generalize Lexical.run (Lexical.evaluate m) (s.scope i) statement = x',
    Lexical.run (Lexical.evaluate m) (t.scope j) statement = y' at *
  cases hrun with
  | ok hab =>
    cases hs with
    | ok hl =>
      cases ht with
      | ok hl' =>
        obtain ⟨hab, hscope⟩ := hab
        exact ⟨.ok hab, h.within hij hwithin hwithin' hl hl' (List.forall₂_cons.1 hscope).1⟩
  | error hef =>
    cases hs with
    | error hl =>
      cases ht with
      | error hl' =>
        refine ⟨.error hef, h.within hij hwithin hwithin' hl hl' ?_⟩
        rw [(hleaves.keeps_of_error rfl).frameAt (h.lt hij), (hleaves'.keeps_of_error rfl).frameAt (h.lt' hij)]
        exact h.layer hij

/-- The outcome of a binding in two stores: refused alike, or carried out in corresponding stores. -/
def BoundAlike (L : Likeness) (r : Nat → Nat → Prop) : Except Error Store → Except Error Store → Prop
  | .ok u, .ok v => u.Mirrors L r v
  | .error e, .error f => e = f
  | _, _ => False

theorem Mirrors.rebind (h : s.Mirrors L r t) (hij : r i j) {change change' : Frame → Frame}
    (hl : (s.rebind i change).Linked) (hl' : (t.rebind j change').Linked)
    (hlayer : (change (s.frameAt i)).layer.Corresponds L.functions (change' (t.frameAt j)).layer) :
    (s.rebind i change).Mirrors L r (t.rebind j change') := by
  refine h.within hij (within_rebind (h.lt hij) change) (within_rebind (h.lt' hij) change') hl hl' ?_
  have hs : ((s.rebind i change).frameAt i).layer = (change (s.frameAt i)).layer :=
    congrArg Scope.innermost (scope_rebind (h.lt hij) change)
  have ht : ((t.rebind j change').frameAt j).layer = (change' (t.frameAt j)).layer :=
    congrArg Scope.innermost (scope_rebind (h.lt' hij) change')
  rw [hs, ht]
  exact hlayer

private theorem Mirrors.bindValue (h : s.Mirrors L r t) (hij : r i j) (name : String) (v : Value) :
    BoundAlike L r (s.bindValue name v i) (t.bindValue name v j) := by
  obtain ⟨hvalues, hfunctions⟩ := h.layer hij
  have hlookup : (s.frameAt i).values.lookup name = (t.frameAt j).values.lookup name :=
    congrArg (List.lookup name) hvalues
  cases hname : (s.frameAt i).values.lookup name with
  | some w =>
    simp only [Store.bindValue, ← hlookup, hname]
    rfl
  | none =>
    have hs := (bindValue_eq_ok_iff (v := v)).2 ⟨hname, rfl⟩
    have ht := (bindValue_eq_ok_iff (v := v)).2 ⟨hlookup.symm.trans hname, rfl⟩
    rw [hs, ht]
    exact h.rebind hij (h.linked.bindValue hs) (h.linked'.bindValue ht)
      ⟨congrArg ((name, v) :: ·) hvalues, hfunctions⟩

private theorem Mirrors.bindTag (h : s.Mirrors L r t) (hij : r i j) (name text : String) :
    BoundAlike L r (s.bindFunction name (.tagged text) i) (t.bindFunction name (.tagged text) j) := by
  obtain ⟨hvalues, hfunctions⟩ := h.layer hij
  have hlookup : ((s.frameAt i).functions.lookup name).isSome = ((t.frameAt j).functions.lookup name).isSome := by
    have hsome := isSome_lookup_of_forall₂ hfunctions name
    rw [Frame.layer, Frame.layer, lookup_map, lookup_map, Option.isSome_map, Option.isSome_map] at hsome
    exact hsome
  by_cases hname : (Builtin.ofName? name).isSome || ((s.frameAt i).functions.lookup name).isSome
  · rw [Store.bindFunction, Store.bindFunction, ← hlookup, if_pos hname, if_pos hname]
    rfl
  · have hs : s.bindFunction name (.tagged text) i = _ := if_neg hname
    have ht : t.bindFunction name (.tagged text) j = _ := if_neg (hlookup ▸ hname)
    rw [hs, ht]
    exact h.rebind hij (h.linked.bindTag hs) (h.linked'.bindTag ht)
      ⟨hvalues, .cons ⟨rfl, L.tagged text⟩ hfunctions⟩

/-- Frames that are added correspond if their layers do, and their parents, be they new or old. -/
theorem Mirrors.extend (h : s.Mirrors L r t) (hs : s.Keeps s') (ht : t.Keeps t') (hl : s'.Linked)
    (hl' : t'.Linked)
    (hplaces : ∀ a b, new a b → (s.size ≤ a ∧ a < s'.size) ∧ t.size ≤ b ∧ b < t'.size)
    (hunique : ∀ a b b', new a b → new a b' → b = b') (hunique' : ∀ a a' b, new a b → new a' b → a = a')
    (hlayer : ∀ a b, new a b → (s'.frameAt a).layer.Corresponds L.functions (t'.frameAt b).layer)
    (hparent : ∀ a b, new a b →
      Option.Rel (fun a b => r a b ∨ new a b) (s'.frameAt a).parent (t'.frameAt b).parent) :
    s'.Mirrors L (fun a b => r a b ∨ new a b) t' := by
  refine ⟨hl, hl', ?_, ?_, ?_, ?_, ?_, ?_⟩
  · rintro a b (hr | hn)
    · exact Nat.lt_of_lt_of_le (h.lt hr) hs.size_le
    · exact (hplaces a b hn).1.2
  · rintro a b (hr | hn)
    · exact Nat.lt_of_lt_of_le (h.lt' hr) ht.size_le
    · exact (hplaces a b hn).2.2
  · rintro a b b' (hr | hn) (hr' | hn')
    · exact h.unique hr hr'
    · exact absurd (h.lt hr) (Nat.not_lt.2 (hplaces a b' hn').1.1)
    · exact absurd (h.lt hr') (Nat.not_lt.2 (hplaces a b hn).1.1)
    · exact hunique a b b' hn hn'
  · rintro a a' b (hr | hn) (hr' | hn')
    · exact h.unique' hr hr'
    · exact absurd (h.lt' hr) (Nat.not_lt.2 (hplaces a' b hn').2.1)
    · exact absurd (h.lt' hr') (Nat.not_lt.2 (hplaces a b hn).2.1)
    · exact hunique' a a' b hn hn'
  · rintro a b (hr | hn)
    · rw [hs.frameAt (h.lt hr), ht.frameAt (h.lt' hr)]
      exact h.layer hr
    · exact hlayer a b hn
  · rintro a b (hr | hn)
    · rw [hs.frameAt (h.lt hr), ht.frameAt (h.lt' hr)]
      rcases h.parent_cases hr with ⟨hq, hq'⟩ | ⟨q, q', hq, hq', hparent⟩
      · rw [hq, hq']
        exact .none
      · rw [hq, hq']
        exact .some (.inl hparent)
    · exact hparent a b hn

/-- A new frame on top of a frame corresponds to one on top of the corresponding frame. -/
theorem Mirrors.push (h : s.Mirrors L r t) (hij : r i j) (values : List (String × Value)) :
    (s.add { values, parent := some i }).Mirrors L (fun a b => r a b ∨ a = s.size ∧ b = t.size)
      (t.add { values, parent := some j }) := by
  refine h.extend (s.keeps_add _) (t.keeps_add _) (h.linked.add values _) (h.linked'.add values _)
    ?_ ?_ ?_ ?_ ?_
  · rintro _ _ ⟨rfl, rfl⟩
    simp only [size_add]
    omega
  · rintro _ _ _ ⟨-, rfl⟩ ⟨-, rfl⟩
    rfl
  · rintro _ _ _ ⟨rfl, -⟩ ⟨rfl, -⟩
    rfl
  · rintro _ _ ⟨rfl, rfl⟩
    rw [frameAt_add (h.lt hij), frameAt_add (h.lt' hij)]
    exact ⟨rfl, .nil⟩
  · rintro _ _ ⟨rfl, rfl⟩
    rw [frameAt_add (h.lt hij), frameAt_add (h.lt' hij)]
    exact .some (.inl hij)

theorem placeInCopy_inj {k m : Nat} (hk : k ∈ s.reachable i) (h : s.placeInCopy i k = s.placeInCopy i m) :
    k = m :=
  (List.idxOf_inj hk).1 (Nat.add_left_cancel h)

private theorem Mirrors.mem_places (h : s.Mirrors L r t) (hij : r i j) {a b : Nat} (hab : r a b) (ha : a ∈ s.places i) :
    b ∈ t.places j := by
  induction i using Nat.strongRecOn generalizing j with
  | ind i ih =>
    rw [places_eq] at ha
    rcases List.mem_cons.1 ha with rfl | ha
    · exact h.unique hij hab ▸ mem_places_self
    · rcases h.parent_cases hij with ⟨hq, -⟩ | ⟨q, q', hq, hq', hr⟩
      · rw [hq] at ha
        cases ha
      · rw [hq] at ha
        rw [places_eq, hq']
        exact List.mem_cons_of_mem _ (ih q (parent_lt hq) hr ha)

/-- The copies of corresponding scopes correspond, frame by frame. -/
theorem Mirrors.copy (h : s.Mirrors L r t) (hij : r i j) :
    (s.copy i).Mirrors L (fun a b => r a b ∨ ∃ a' b', r a' b' ∧ a' ∈ s.places i ∧ s.placeInCopy i a' = a ∧
      t.placeInCopy j b' = b) (t.copy j) := by
  have hs {a : Nat} (ha : a ∈ s.places i) : a ∈ s.reachable i := (mem_reachable h.linked (h.lt hij)).2 ha
  have ht {a b : Nat} (hab : r a b) (ha : a ∈ s.places i) : b ∈ t.reachable j :=
    (mem_reachable h.linked' (h.lt' hij)).2 (h.mem_places hij hab ha)
  refine h.extend (s.keeps_copy i) (t.keeps_copy j) (h.linked.copy (h.lt hij)) (h.linked'.copy (h.lt' hij))
    ?_ ?_ ?_ ?_ ?_
  · rintro _ _ ⟨a, b, hab, ha, rfl, rfl⟩
    exact ⟨⟨Nat.le_add_right _ _, placeInCopy_lt (hs ha)⟩, Nat.le_add_right _ _, placeInCopy_lt (ht hab ha)⟩
  · rintro _ _ _ ⟨a, b, hab, ha, rfl, rfl⟩ ⟨a', b', hab', ha', he, rfl⟩
    obtain rfl := placeInCopy_inj (hs ha') he
    rw [h.unique hab hab']
  · rintro _ _ _ ⟨a, b, hab, ha, rfl, rfl⟩ ⟨a', b', hab', ha', rfl, he⟩
    obtain rfl := placeInCopy_inj (ht hab' ha') he
    rw [h.unique' hab hab']
  · rintro _ _ ⟨a, b, hab, ha, rfl, rfl⟩
    rw [frameAt_copy h.linked (h.lt hij) ha, frameAt_copy h.linked' (h.lt' hij) (h.mem_places hij hab ha),
      layer_relocate, layer_relocate]
    exact h.layer hab
  · rintro _ _ ⟨a, b, hab, ha, rfl, rfl⟩
    rw [frameAt_copy h.linked (h.lt hij) ha, frameAt_copy h.linked' (h.lt' hij) (h.mem_places hij hab ha)]
    rw [Frame.relocate, Frame.relocate]
    rcases h.parent_cases hab with ⟨hq, hq'⟩ | ⟨q, q', hq, hq', hr⟩
    · rw [hq, hq']
      exact .none
    · rw [hq, hq']
      exact .some (.inr ⟨q, q', hr, parent_mem_places ha hq, rfl, rfl⟩)

end Store

namespace Contexts
variable {named named' : String → Prop} {c d : Contexts}

/-- Outcomes of evaluation that correspond, or the same answer. -/
inductive Answer.Corresponds (failures : Failure → Failure → Prop) : Answer → Answer → Prop where
  | evaluated {x y : Traced (Option Value)} (h : x.Corresponds failures Eq y) :
    Corresponds failures (.evaluated x) (.evaluated y)
  | bound (outcome : Except Error Unit) : Corresponds failures (.bound outcome) (.bound outcome)
  | opened (depth precision : Nat) : Corresponds failures (.opened depth precision) (.opened depth precision)
  | failed (f : Failure) : Corresponds failures (.failed f) (.failed f)

/-- Two contexts have the same precision and corresponding frames. -/
def Pairs (r : Nat → Nat → Prop) (context context' : Context) : Prop :=
  context.precision = context'.precision ∧ r context.frame context'.frame

/-- On the same stack, the contexts of some names have the same precisions and corresponding frames. -/
structure Mirrors (L : Likeness) (named : String → Prop) (c d : Contexts) : Prop where
  stack : c.stack = d.stack
  frames : ∃ r, c.store.Mirrors L r d.store ∧ ∀ name, named name → Pairs r (c.context name) (d.context name)

theorem Mirrors.mono (h : c.Mirrors L named d) (hnamed : ∀ name, named' name → named name) :
    c.Mirrors L named' d := by
  obtain ⟨hstack, r, hr, hnames⟩ := h
  exact ⟨hstack, r, hr, fun name hname => hnames name (hnamed name hname)⟩

theorem Mirrors.machine (h : c.Mirrors L named d) {on : String} (hon : named on) : c.machine on = d.machine on := by
  obtain ⟨r, -, hnames⟩ := h.frames
  rw [Contexts.machine, Contexts.machine, h.stack, (hnames on hon).1]

/-- The names that an operation gives to scopes in any case. A copy may fail. -/
def Operation.pushes : Operation → List String
  | .push target _ => [target]
  | _ => []

/-- An act in corresponding scopes is answered alike and leaves corresponding scopes. -/
def ActsAlike (L : Likeness) (named : String → Prop) (x y : Answer × Contexts) : Prop :=
  x.1.Corresponds L.failures y.1 ∧ x.2.Mirrors L named y.2

theorem ActsAlike.mono {x y : Answer × Contexts} (h : ActsAlike L named x y)
    (hnamed : ∀ name, named' name → named name) : ActsAlike L named' x y :=
  ⟨h.1, h.2.mono hnamed⟩

private theorem Mirrors.execute (h : c.Mirrors L named d) {on : String} (hon : named on) (statement : Statement) :
    ActsAlike L named ((c.execute on statement).map .evaluated id) ((d.execute on statement).map .evaluated id) := by
  have hmachine := h.machine hon
  obtain ⟨r, hr, hnames⟩ := h.frames
  obtain ⟨houtcome, hafter⟩ := hr.evaluate (hnames on hon).2 (c.machine on) statement
  rw [execute_eq, execute_eq, ← hmachine]
  exact ⟨.evaluated houtcome, h.stack, r, hafter, hnames⟩

private theorem Mirrors.bound (h : c.Mirrors L named d) {x y : Except Error Store}
    (hxy : ∀ r, c.store.Mirrors L r d.store → (∀ name, named name → Pairs r (c.context name) (d.context name)) →
      Store.BoundAlike L r x y) :
    ActsAlike L named (c.bound (do return { c with store := ← x })) (d.bound (do return { d with store := ← y })) := by
  obtain ⟨r, hr, hnames⟩ := h.frames
  have halike := hxy r hr hnames
  rw [bound_store, bound_store]
  cases x <;> cases y
  · obtain rfl := halike
    exact ⟨.bound _, h⟩
  · exact halike.elim
  · exact halike.elim
  · exact ⟨.bound _, h.stack, r, halike, hnames⟩

/-- A name that is given to contexts in a pair names corresponding scopes, of the same depth. -/
theorem actsAlike_rename (context context' : Context) {r : Nat → Nat → Prop} {store store' : Store}
    (hstack : c.stack = d.stack) (hr : store.Mirrors L r store')
    (hnames : ∀ name, named name → Pairs r (c.context name) (d.context name)) (hpair : Pairs r context context')
    (target : String) :
    ActsAlike L (fun name => name ∈ [target] ∨ named name) ((c.rename target context store).opened target)
      ((d.rename target context' store').opened target) := by
  have hdepth : (c.rename target context store).depth target = (d.rename target context' store').depth target := by
    rw [depth, depth, place_rename, place_rename, if_pos rfl, if_pos rfl]
    exact hr.depth hpair.2
  refine ⟨?_, hstack, r, hr, fun name hname => ?_⟩
  · rw [opened, opened, hdepth, context_rename, context_rename, if_pos rfl, if_pos rfl, hpair.1]
    exact .opened _ _
  · rw [opened, opened, context_rename, context_rename]
    split
    · exact hpair
    · rename_i hne
      exact hnames name (hname.resolve_left fun hmem => hne (List.mem_singleton.1 hmem))

/-- Corresponding scopes are copied or not alike. -/
theorem Mirrors.copied (h : c.Mirrors L named d) {on : String} (hon : named on) (copier : Copier) (target : String) :
    ActsAlike L named (c.copied target (c.copyBy copier on target)) (d.copied target (d.copyBy copier on target)) := by
  have hmachine := h.machine hon
  obtain ⟨r, hr, hnames⟩ := h.frames
  obtain ⟨hprecision, hij⟩ := hnames on hon
  have hij : r (c.place on) (d.place on) := hij
  rw [copyBy, copyBy, ← hr.copyDepth hij, ← hmachine]
  split
  · refine (actsAlike_rename ⟨(c.context on).precision, c.store.placeInCopy (c.place on) (c.place on)⟩
      ⟨(d.context on).precision, d.store.placeInCopy (d.place on) (d.place on)⟩ h.stack (hr.copy hij)
      (fun name hname => ?_) ⟨hprecision, ?_⟩ target).mono fun _ hname => .inr hname
    · exact ⟨(hnames name hname).1, .inl (hnames name hname).2⟩
    · exact .inr ⟨_, _, hij, Store.mem_places_self, rfl, rfl⟩
  · exact ⟨.failed _, h⟩

theorem Mirrors.perform (h : c.Mirrors L named d) {act : Act} (hon : named act.on) :
    ActsAlike L (fun name => name ∈ act.operation.pushes ∨ named name) (c.perform act) (d.perform act) := by
  have hall {x y : Answer × Contexts} (hxy : ActsAlike L named x y) :
      ActsAlike L (fun name => name ∈ [] ∨ named name) x y :=
    hxy.mono fun name hname => hname.resolve_left List.not_mem_nil
  obtain ⟨on, operation⟩ := act
  obtain ⟨r, hr, hnames⟩ := h.frames
  have hmachine := h.machine hon
  obtain ⟨hprecision, hij⟩ := hnames on hon
  cases operation with
  | evaluate text =>
    change ActsAlike L _ ((c.evaluate on text).map .evaluated id) ((d.evaluate on text).map .evaluated id)
    cases hp : parseStatement (c.machine on) text with
    | error f =>
      rw [evaluate_of_error hp, evaluate_of_error (hmachine ▸ hp)]
      exact hall ⟨.evaluated (.error (L.refl f)), h⟩
    | ok statement =>
      rw [evaluate_of_ok hp, evaluate_of_ok (hmachine ▸ hp)]
      exact hall (h.execute hon statement)
  | execute statement => exact hall (h.execute hon statement)
  | bindValue name v => exact hall (h.bound fun r hr hnames => hr.bindValue (hnames on hon).2 name v)
  | bindTag name text => exact hall (h.bound fun r hr hnames => hr.bindTag (hnames on hon).2 name text)
  | push target values =>
    exact actsAlike_rename ⟨(c.context on).precision, c.store.size⟩ ⟨(d.context on).precision, d.store.size⟩
      h.stack (hr.push hij values) (fun name hname => ⟨(hnames name hname).1, .inl (hnames name hname).2⟩)
      ⟨hprecision, .inr ⟨rfl, rfl⟩⟩ target
  | clone target =>
    rw [perform_clone, perform_clone]
    exact hall (h.copied hon .cloning target)
  | pickle target =>
    rw [perform_pickle, perform_pickle]
    exact hall (h.copied hon .pickling target)

/-- Where all scopes correspond, all acts are answered alike. -/
theorem Mirrors.performAll (h : c.Mirrors L (fun _ => True) d) (acts : List Act) :
    List.Forall₂ (Answer.Corresponds L.failures) (c.performAll acts).1 (d.performAll acts).1 := by
  induction acts generalizing c d with
  | nil => exact .nil
  | cons act rest ih =>
    have hact : ActsAlike L (fun name => name ∈ act.operation.pushes ∨ True) (c.perform act) (d.perform act) :=
      h.perform trivial
    obtain ⟨hanswer, hafter⟩ := hact
    exact .cons hanswer (ih (hafter.mono fun _ _ => .inr trivial))

end Contexts

end Reckoner
