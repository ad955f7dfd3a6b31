import Reckoner.Proofs.StoreChanges
import Reckoner.Scope.Contexts

/-! Invariants of scopes. Whatever a host does with scopes and their copies, no function hides a builtin, the
parameters of a function differ, a function has the frame that stores it for its home, and every chain of
frames comes to an end. -/

namespace Reckoner

/-- A function may be bound under a name: the name is that of no builtin, and its parameters differ. -/
structure Function.Admissible (name : String) (f : Function) : Prop where
  name : Builtin.ofName? name = none
  params : (Session.paramsOf f).Nodup

namespace Store
variable {s t : Store} {i : Nat} {name : String}

/-- Every function is admissible under its name, and has the frame that stores it for its home. -/
structure Sound (s : Store) : Prop where
  linked : s.Linked
  admissible : ∀ (i : Nat) (frame : Frame) (name : String) (f : Function), s.frames[i]? = some frame →
    (name, f) ∈ frame.functions → f.Admissible name

theorem Sound.add (hs : s.Sound) (values : List (String × Value)) (parent : Option Nat) :
    (s.add { values, parent }).Sound := by
  refine ⟨hs.linked.add values parent, fun j frame key f h hm => ?_⟩
  simp only [Store.add, Array.getElem?_push] at h
  split at h
  · obtain rfl := Option.some.inj h
    cases hm
  · exact hs.admissible j frame key f h hm

theorem sound_empty : Store.empty.Sound :=
  ⟨linked_empty, fun i frame name f h => by simp [empty] at h⟩

theorem Sound.bindValue (hs : s.Sound) {v : Value} (h : Store.bindValue name v i s = .ok t) : t.Sound := by
  refine ⟨hs.linked.bindValue h, fun j frame key f hj hm => ?_⟩
  obtain ⟨-, rfl⟩ := bindValue_eq_ok_iff.1 h
  rcases frames_rebind hj with hj | ⟨rfl, old, hold, rfl⟩
  · exact hs.admissible j frame key f hj hm
  · exact hs.admissible j old key f hold hm

/-- A builtin keeps its name, as a function under it is refused. -/
theorem Sound.bindFunction (hs : s.Sound) {f : Function} (h : Store.bindFunction name f i s = .ok t)
    (hl : t.Linked) (hparams : (Session.paramsOf f).Nodup) : t.Sound := by
  refine ⟨hl, fun j frame key g hj hm => ?_⟩
  obtain ⟨hname, -, rfl⟩ := bindFunction_eq_ok_iff.1 h
  rcases frames_rebind hj with hj | ⟨rfl, old, hold, rfl⟩
  · exact hs.admissible j frame key g hj hm
  · rcases List.mem_cons.1 hm with he | hm
    · cases he
      exact ⟨hname, hparams⟩
    · exact hs.admissible j old key g hold hm

theorem Sound.change (hs : s.Sound) (h : s.Change t) : t.Sound := by
  cases h with
  | pushed values parent => exact hs.add values (some parent)
  | boundValue h => exact hs.bindValue h
  | defined hparams h => exact hs.bindFunction h (hs.linked.bindFunction h) hparams

/-- The frames of a copy have the functions of their originals, moved. -/
theorem Sound.copy (hs : s.Sound) (hi : i < s.size) : (s.copy i).Sound := by
  refine ⟨hs.linked.copy hi, fun m frame key f hm hf => ?_⟩
  by_cases hms : m < s.size
  · rw [keeps_copy s i m hms] at hm
    exact hs.admissible m frame key f hm hf
  · have hmc : m < (s.copy i).size := (Array.getElem?_eq_some_iff.1 hm).1
    obtain ⟨j, hj, rfl⟩ := exists_original (Nat.not_lt.1 hms) hmc
    have hjp := (mem_reachable hs.linked hi).1 hj
    rw [getElem?_frameAt hmc, frameAt_copy hs.linked hi hjp] at hm
    obtain rfl := Option.some.inj hm
    obtain ⟨⟨_, g⟩, hmem, he⟩ := List.mem_map.1 hf
    cases he
    have hjs : j < s.size := Nat.lt_of_le_of_lt (le_of_mem_places hjp) hi
    have hg := hs.admissible j _ key g (getElem?_frameAt hjs) hmem
    refine ⟨hg.name, ?_⟩
    cases g <;> exact hg.params

theorem Reachable.sound (h : s.Reachable) : s.Sound := by
  induction h with
  | empty => exact sound_empty
  | opened _ ih => exact ih.add [] none
  | @pushed _ _ i _ values ih => exact ih.add values (some i)
  | copied _ hi ih => exact ih.copy hi
  | boundValue _ ht ih => exact ih.bindValue ht
  | boundTag _ ht ih => exact ih.bindFunction ht (ih.linked.bindTag ht) .nil
  | evaluated _ p _ statement ih => exact (statement.changing_evaluate p _ _).preserve (fun _ _ => .change) ih

theorem size_bindValue {v : Value} (h : Store.bindValue name v i s = .ok t) : t.size = s.size := by
  obtain ⟨-, rfl⟩ := bindValue_eq_ok_iff.1 h
  exact size_rebind ..

theorem size_bindFunction {f : Function} (h : Store.bindFunction name f i s = .ok t) : t.size = s.size := by
  obtain ⟨-, -, rfl⟩ := bindFunction_eq_ok_iff.1 h
  exact size_rebind ..

private theorem Changes.size_le (h : s.Changes t) : s.size ≤ t.size := by
  refine h.preserve (P := fun u => s.size ≤ u.size) (fun u v hu hchange => ?_) (Nat.le_refl _)
  cases hchange with
  | pushed values parent => exact Nat.le_trans hu (keeps_add u _).size_le
  | boundValue h => exact le_of_le_of_eq hu (size_bindValue h).symm
  | defined _ h => exact le_of_le_of_eq hu (size_bindFunction h).symm

theorem exists_of_mem_chain {frame : Frame} (h : frame ∈ s.chain i) : ∃ j : Nat, s.frames[j]? = some frame := by
  by_cases hi : i < s.size
  · rw [chain_eq_map_places hi] at h
    obtain ⟨j, hj, rfl⟩ := List.mem_map.1 h
    exact ⟨j, getElem?_frameAt (Nat.lt_of_le_of_lt (le_of_mem_places hj) hi)⟩
  · have hn : s.frames[i]? = none := Array.getElem?_eq_none (Nat.not_lt.1 hi)
    rw [chain] at h
    split at h
    · cases h
    · rename_i hsome
      rw [hn] at hsome
      cases hsome

/-- No function comes before a builtin. -/
theorem Sound.lookupFunction (hs : s.Sound) (f : Builtin) (i : Nat) :
    s.lookupFunction f.name i = .ok (.builtin f) := by
  have hnone : (s.chain i).findSome? (·.functions.lookup f.name) = none := by
    refine List.findSome?_eq_none_iff.2 fun frame hframe => List.lookup_eq_none_iff.2 fun ⟨key, g⟩ hmem => ?_
    obtain ⟨j, hj⟩ := exists_of_mem_chain hframe
    have hkey := (hs.admissible j frame key g hj hmem).name
    refine bne_iff_ne.2 ?_
    rintro rfl
    rw [Builtin.ofName?_name] at hkey
    cases hkey
  rw [Store.lookupFunction, hnone, Builtin.ofName?_name]

/-- From a place, the parents lead past these places to a frame that has none. -/
inductive Ascends (s : Store) : Nat → List Nat → Prop where
  | root {i : Nat} (h : (s.frameAt i).parent = none) : Ascends s i [i]
  | step {i q : Nat} {places : List Nat} (h : (s.frameAt i).parent = some q) (hrest : Ascends s q places) :
    Ascends s i (i :: places)

private theorem ascends_places (s : Store) (i : Nat) : s.Ascends i (s.places i) := by
  induction i using Nat.strongRecOn with
  | ind i ih =>
    rw [places_eq]
    cases hq : (s.frameAt i).parent with
    | none => exact .root hq
    | some q => exact .step hq (ih q (parent_lt hq))

theorem length_places (hi : i < s.size) : (s.places i).length = s.depth i := by
  rw [depth, chain_eq_map_places hi, List.length_map]

private theorem depth_add (hi : i < s.size) (values : List (String × Value)) :
    (s.add { values, parent := some i }).depth s.size = s.depth i + 1 := by
  rw [← depth_scope (by simp), scope_add hi, ← depth_scope hi]
  rfl

end Store

namespace Contexts
variable {c : Contexts} {store : Store}

theorem context_rename (c : Contexts) (target : String) (context : Context) (store : Store) (name : String) :
    (c.rename target context store).context name = if name = target then context else c.context name := by
  rw [Contexts.context, rename, Store.lookup_put]
  split <;> rfl

theorem place_rename (c : Contexts) (target : String) (context : Context) (store : Store) (name : String) :
    (c.rename target context store).place name = if name = target then context.frame else c.place name := by
  rw [place, context_rename]
  split <;> rfl

theorem place_push (c : Contexts) (on target : String) (values : List (String × Value)) (name : String) :
    (c.push on target values).place name = if name = target then c.store.size else c.place name :=
  c.place_rename ..

/-- A name stands for a copy of a context, in the same number context. -/
def copyTo (c : Contexts) (on target : String) : Contexts :=
  c.rename target ⟨(c.context on).precision, c.store.placeInCopy (c.place on) (c.place on)⟩
    (c.store.copy (c.place on))

/-- A name stands for the copy that a copier makes of a context. -/
def copyBy (c : Contexts) (copier : Copier) (on target : String) : Except Failure Contexts :=
  if c.store.copyDepth copier (c.place on) ≤ (c.machine on).copyingCalls then .ok (c.copyTo on target)
  else .error .tooDeep

theorem clone_eq (c : Contexts) (on target : String) : c.clone on target = c.copyBy .cloning on target := by
  rw [clone, adopt, Context.cloneWithin, Store.copyWithin, copyBy, place]
  split <;> rfl

/-- What is written down and read again is the context itself over the copied frames. -/
theorem pickle_eq (c : Contexts) (on target : String) : c.pickle on target = c.copyBy .pickling on target := by
  rw [pickle, adopt, Context.pickleWithin, Store.copyWithin, copyBy, place]
  split <;> rfl

private theorem copyBy_eq_ok_iff {copier : Copier} {on target : String} {copied : Contexts} :
    c.copyBy copier on target = .ok copied ↔
      c.store.copyDepth copier (c.place on) ≤ (c.machine on).copyingCalls ∧ c.copyTo on target = copied := by
  rw [copyBy]
  split
  · rename_i hfits
    exact ⟨fun h => ⟨hfits, Except.ok.inj h⟩, fun h => congrArg Except.ok h.2⟩
  · rename_i hfits
    exact ⟨nofun, fun h => absurd h.1 hfits⟩

theorem perform_clone (c : Contexts) (on target : String) :
    c.perform ⟨on, .clone target⟩ = c.copied target (c.copyBy .cloning on target) :=
  congrArg (c.copied target) (c.clone_eq on target)

theorem perform_pickle (c : Contexts) (on target : String) :
    c.perform ⟨on, .pickle target⟩ = c.copied target (c.copyBy .pickling on target) :=
  congrArg (c.copied target) (c.pickle_eq on target)

theorem place_copyTo (c : Contexts) (on target name : String) :
    (c.copyTo on target).place name =
      if name = target then c.store.placeInCopy (c.place on) (c.place on) else c.place name :=
  c.place_rename ..

theorem execute_eq (c : Contexts) (on : String) (statement : Statement) :
    c.execute on statement = ((statement.evaluate (c.machine on) (c.place on) c.store).1,
      { c with store := (statement.evaluate (c.machine on) (c.place on) c.store).2 }) :=
  rfl

theorem evaluate_of_ok {on text : String} {statement : Statement}
    (h : parseStatement (c.machine on) text = .ok statement) : c.evaluate on text = c.execute on statement := by
  unfold evaluate execute
  generalize parseStatement (c.machine on) text = parsed at h
  subst h
  dsimp only

theorem evaluate_of_error {on text : String} {f : Failure} (h : parseStatement (c.machine on) text = .error f) :
    c.evaluate on text = (.fail f, c) := by
  unfold evaluate
  generalize parseStatement (c.machine on) text = parsed at h
  subst h
  rfl

/-- The store is sound, and every name stands for one of its frames. -/
structure Sound (c : Contexts) : Prop where
  store : c.store.Sound
  placed : ∀ name, c.place name < c.store.size

theorem sound_create (stack p : Nat) : (create stack p).Sound := by
  refine ⟨Store.sound_empty.add [] none, fun name => ?_⟩
  rw [place, context, create]
  rw [List.lookup_cons]
  split <;> exact Nat.zero_lt_one

theorem Sound.withStore (h : c.Sound) (hs : store.Sound) (hsize : c.store.size ≤ store.size) :
    Contexts.Sound { c with store } :=
  ⟨hs, fun name => Nat.lt_of_lt_of_le (h.placed name) hsize⟩

theorem Sound.rename (h : c.Sound) (hs : store.Sound) (hsize : c.store.size ≤ store.size) (target : String)
    {context : Context} (hi : context.frame < store.size) : (c.rename target context store).Sound := by
  refine ⟨hs, fun name => ?_⟩
  rw [place_rename]
  split
  · exact hi
  · exact Nat.lt_of_lt_of_le (h.placed name) hsize

private theorem Sound.execute (h : c.Sound) (on : String) (statement : Statement) :
    (c.execute on statement).2.Sound := by
  have hchanges := statement.changing_evaluate (c.machine on) (c.place on) c.store
  exact h.withStore (hchanges.preserve (fun _ _ => .change) h.store) hchanges.size_le

/-- A binding that is refused leaves everything as it is. -/
theorem bound_store (c : Contexts) (result : Except Error Store) :
    c.bound (do return { c with store := ← result }) =
      match result with
      | .ok store => (.bound (.ok ()), { c with store })
      | .error e => (.bound (.error e), c) := by
  cases result <;> rfl

private theorem Sound.bound (h : c.Sound) {result : Except Error Store}
    (hresult : ∀ store, result = .ok store → store.Sound ∧ store.size = c.store.size) :
    (c.bound (do return { c with store := ← result })).2.Sound := by
  rw [bound_store]
  cases result with
  | error e => exact h
  | ok store =>
    obtain ⟨hs, hsize⟩ := hresult store rfl
    exact h.withStore hs (Nat.le_of_eq hsize.symm)

theorem Sound.push (h : c.Sound) (on target : String) (values : List (String × Value)) :
    (c.push on target values).Sound := by
  refine h.rename (h.store.add values _) (c.store.keeps_add _).size_le target ?_
  rw [Store.size_add]
  exact Nat.lt_succ_self _

theorem Sound.copyTo (h : c.Sound) (on target : String) : (c.copyTo on target).Sound := by
  have hreach := (Store.mem_reachable h.store.linked (h.placed on)).2 Store.mem_places_self
  exact h.rename (h.store.copy (h.placed on)) (c.store.keeps_copy _).size_le target (Store.placeInCopy_lt hreach)

/-- A copy that fails leaves everything as it is. -/
theorem Sound.copied (h : c.Sound) (copier : Copier) (on target : String) :
    (c.copied target (c.copyBy copier on target)).2.Sound := by
  cases hcopy : c.copyBy copier on target with
  | error f => exact h
  | ok copied =>
    obtain ⟨-, rfl⟩ := copyBy_eq_ok_iff.1 hcopy
    exact h.copyTo on target

private theorem Sound.perform (h : c.Sound) (act : Act) : (c.perform act).2.Sound := by
  obtain ⟨on, operation⟩ := act
  cases operation with
  | evaluate text =>
    change (c.evaluate on text).2.Sound
    cases hp : parseStatement (c.machine on) text with
    | error f => rw [evaluate_of_error hp]; exact h
    | ok statement => rw [evaluate_of_ok hp]; exact h.execute on statement
  | execute statement => exact h.execute on statement
  | bindValue name v => exact h.bound fun _ hs => ⟨h.store.bindValue hs, Store.size_bindValue hs⟩
  | bindTag name text =>
    exact h.bound fun _ hs =>
      ⟨h.store.bindFunction hs (h.store.linked.bindTag hs) .nil, Store.size_bindFunction hs⟩
  | push target values => exact h.push on target values
  | clone target => exact c.perform_clone on target ▸ h.copied .cloning on target
  | pickle target => exact c.perform_pickle on target ▸ h.copied .pickling on target

private theorem Sound.performAll (h : c.Sound) (acts : List Act) : (c.performAll acts).2.Sound := by
  induction acts generalizing c with
  | nil => exact h
  | cons act rest ih => exact ih (h.perform act)

theorem sound_reached (stack p : Nat) (acts : List Act) : ((create stack p).performAll acts).2.Sound :=
  (sound_create stack p).performAll acts

private theorem Sound.depth_push (h : c.Sound) (on target : String) (values : List (String × Value)) :
    (c.push on target values).depth target = c.depth on + 1 := by
  rw [depth, place_push, if_pos rfl]
  exact Store.depth_add (h.placed on) values

/-- A scope is as deep as before when another one is put on top of it. -/
theorem Sound.depth_of_push (h : c.Sound) {on target : String} (hne : on ≠ target)
    (values : List (String × Value)) : (c.push on target values).depth on = c.depth on := by
  rw [depth, place_push, if_neg hne]
  exact congrArg List.length ((c.store.keeps_add _).chain (h.placed on))

end Contexts

/-- The invariants of scopes. After whatever was evaluated, bound, pushed and copied in whatever scopes, in every
frame there is: a function has a name that no builtin has, so that the name of a builtin finds the builtin from
everywhere; a function of the language has parameters that differ, and the scope that it captured starts
at the frame that stores it; and the parents of the frame come to an end. A scope that is pushed is one deeper
than the one below it, which stays as deep as it was. -/
theorem scope_chain_invariants (stack p : Nat) (acts : List Contexts.Act) :
    let c := ((Contexts.create stack p).performAll acts).2
    (∀ (i : Nat) (frame : Frame) (name : String) (f : Function), c.store.frames[i]? = some frame →
      (name, f) ∈ frame.functions → Builtin.ofName? name = none ∧
        ∀ ownName params body home, f = .closure ownName params body home →
          ownName = name ∧ params.Nodup ∧ home = i) ∧
    (∀ (f : Builtin) (i : Nat), c.store.lookupFunction f.name i = .ok (.builtin f)) ∧
    (∀ on, c.place on < c.store.size) ∧
    (∀ i, i < c.store.size →
      ∃ places, c.store.Ascends i places ∧ (∀ j, j ∈ places → j ≤ i) ∧ places.length = c.store.depth i) ∧
    ∀ (on target : String) (values : List (String × Value)),
      let pushed := c.push on target values
      pushed.depth target = c.depth on + 1 ∧ (on ≠ target → pushed.depth on = c.depth on) := by
  intro c
  have h : c.Sound := Contexts.sound_reached stack p acts
  refine ⟨fun i frame name f hi hf => ?_, h.store.lookupFunction, h.placed, fun i hi => ?_,
    fun on target values => ⟨h.depth_push on target values, fun hne => h.depth_of_push hne values⟩⟩
  · obtain ⟨hname, hparams⟩ := h.store.admissible i frame name f hi hf
    refine ⟨hname, fun ownName params body home he => ?_⟩
    subst he
    obtain ⟨hown, hhome⟩ := h.store.linked i frame name ownName params body home hi hf
    exact ⟨hown, hparams, hhome⟩
  · exact ⟨c.store.places i, c.store.ascends_places i, fun _ => Store.le_of_mem_places, Store.length_places hi⟩

/-- In a copy, a function has the copied frame for its home. -/
theorem copied_function_has_copied_home :
    let acts : List Contexts.Act := [⟨"root", .execute (.define "f" ["x"] (.symbol "x"))⟩,
      ⟨"root", .push "inner" []⟩, ⟨"inner", .execute (.define "g" ["y"] (.call "f" [.symbol "y"]))⟩,
      ⟨"inner", .pickle "copied"⟩]
    let c := ((Contexts.create 1000 128).performAll acts).2
    ∃ frame ownName params body home, c.store.frames[3]? = some frame ∧
      ("g", .closure ownName params body home) ∈ frame.functions ∧
      Builtin.ofName? "g" = none ∧ ownName = "g" ∧ params.Nodup ∧ home = 3 := by
  intro acts c
  have hshape : (c.store.frames[3]?.map fun frame => frame.functions.map fun binding =>
      (binding.1, binding.2.home?)) = some [("g", some 3)] := by
    decide +kernel
  obtain ⟨frame, hframe, hfunctions⟩ := Option.map_eq_some_iff.1 hshape
  obtain ⟨⟨name, f⟩, hf, he⟩ := List.mem_map.1 (hfunctions ▸ List.mem_cons_self : ("g", some 3) ∈ _)
  cases f with
  | tagged text => cases he
  | closure ownName params body home =>
    obtain ⟨rfl, -⟩ := Prod.mk.inj he
    obtain ⟨hname, hclosure⟩ := (scope_chain_invariants 1000 128 acts).1 3 frame _ _ hframe hf
    exact ⟨frame, _, _, _, _, hframe, hf, hname, hclosure _ _ _ _ rfl⟩

end Reckoner
