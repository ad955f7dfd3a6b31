import Reckoner.Proofs.CorrespondingScopes

/-! Copies of scopes under names. A scope and its copy have the same layers, so what is evaluated, bound, pushed and
copied from one of them on is answered as from the other. A copier goes down the frames of a scope one below another,
so a chain of many frames is not copied on a small stack. -/

namespace Reckoner

namespace Lexical

private theorem Layer.Corresponds.eq {l m : Layer} (h : l.Corresponds Eq m) : l = m := by
  obtain ⟨values, functions⟩ := l
  obtain ⟨hvalues, hfunctions⟩ := h
  obtain rfl : values = _ := hvalues
  have hentries : functions = m.functions :=
    List.forall₂_eq_eq_eq ▸ hfunctions.imp fun _ _ hentry => Prod.ext hentry.1 hentry.2
  rw [hentries]

private theorem Scope.Corresponds.eq {s t : Scope} (h : s.Corresponds Eq t) : s = t := by
  have hlayers : s.layers = t.layers := List.forall₂_eq_eq_eq ▸ h.imp fun _ _ => Layer.Corresponds.eq
  obtain ⟨hin, hen⟩ := List.cons.inj hlayers
  exact Scope.ext hin hen

/-- Scopes that are the same. -/
def sameness : Likeness where
  functions := Eq
  failures := Eq
  tagged _ := rfl
  refl _ := rfl
  copyDepth c _ _ h := congrArg (Lambda.copyDepth c) h
  evaluated m s t h statement := by
    rw [h.eq]
    exact .refl (fun _ => rfl) (fun a => ⟨rfl, List.forall₂_same.2 fun l _ => .refl (fun _ => rfl) l⟩) _

end Lexical

open Lexical (sameness)

namespace Store
variable {s : Store} {i : Nat}

/-- The frames of a scope correspond to those of its copy. -/
theorem mirrors_copy (hs : s.Linked) (hi : i < s.size) :
    s.Mirrors sameness (fun a b => a ∈ s.places i ∧ s.placeInCopy i a = b) (s.copy i) := by
  have hreach {a : Nat} (ha : a ∈ s.places i) : a ∈ s.reachable i := (mem_reachable hs hi).2 ha
  refine ⟨hs, hs.copy hi, ?_, ?_, ?_, ?_, ?_, ?_⟩
  · rintro a _ ⟨ha, rfl⟩
    exact Nat.lt_of_le_of_lt (le_of_mem_places ha) hi
  · rintro a _ ⟨ha, rfl⟩
    exact placeInCopy_lt (hreach ha)
  · rintro a b _ ⟨-, h⟩ ⟨-, rfl⟩
    exact h.symm
  · rintro a a' _ ⟨ha, rfl⟩ ⟨-, he⟩
    exact placeInCopy_inj (hreach ha) he.symm
  · rintro a _ ⟨ha, rfl⟩
    rw [frameAt_copy hs hi ha, layer_relocate]
    exact .refl (fun _ => rfl) _
  · rintro a _ ⟨ha, rfl⟩
    rw [frameAt_copy hs hi ha, Frame.relocate]
    cases hq : (s.frameAt a).parent with
    | none => exact .none
    | some q => exact .some ⟨parent_mem_places ha hq, rfl⟩

end Store

/-- The same function with another home. -/
def Function.withHome (home : Nat) : Function → Function
  | .closure name params body _ => .closure name params body home
  | .tagged text => .tagged text

private theorem Function.relocate_eq_withHome {f : Function} {j : Nat} (h : f.withHome j = f) (place : Nat → Nat) :
    f.relocate place = f.withHome (place j) := by
  cases f with
  | tagged text => rfl
  | closure name params body home =>
    obtain rfl : j = home := (Function.closure.inj h).2.2.2
    rw [Function.relocate, Expr.rebuild_eq, withHome]

/-- In a linked store, a function captured the frame that stores it. -/
theorem Store.Linked.withHome {s : Store} (hs : s.Linked) {j : Nat} (hj : j < s.size) {name : String} {f : Function}
    (hf : (name, f) ∈ (s.frameAt j).functions) : f.withHome j = f := by
  cases f with
  | tagged text => rfl
  | closure ownName params body home =>
    obtain ⟨-, rfl⟩ := hs j _ name ownName params body home (Store.getElem?_frameAt hj) hf
    rfl

namespace Contexts
variable {names : List String} {c d : Contexts} {on target : String}

/-- Acts in scopes of some names and in those that are pushed on top of them. -/
inductive Confined : List String → List Act → Prop where
  | nil {names : List String} : Confined names []
  | cons {names : List String} {act : Act} {rest : List Act} (hon : act.on ∈ names)
    (hrest : Confined (act.operation.pushes ++ names) rest) : Confined names (act :: rest)

private theorem Answer.Corresponds.eq {x y : Answer} (h : x.Corresponds Eq y) : x = y := by
  cases h with
  | evaluated h => rw [h.eq]
  | bound outcome => rfl
  | opened depth precision => rfl
  | failed f => rfl

private theorem Mirrors.performConfined (h : c.Mirrors sameness (· ∈ names) d) {acts : List Act}
    (hacts : Confined names acts) : (c.performAll acts).1 = (d.performAll acts).1 := by
  induction hacts generalizing c d with
  | nil => rfl
  | @cons names act rest hon _ ih =>
    obtain ⟨hanswer, hafter⟩ := h.perform hon
    exact congrArg₂ List.cons hanswer.eq (ih (hafter.mono fun name hname => List.mem_append.1 hname))

private theorem Sound.mirrors_copyTo (h : c.Sound) (on target : String) :
    (c.rename target (c.context on) c.store).Mirrors sameness (· ∈ [target]) (c.copyTo on target) := by
  refine ⟨rfl, _, Store.mirrors_copy h.store.linked (h.placed on), fun name hname => ?_⟩
  rw [Contexts.copyTo, context_rename, context_rename, if_pos (List.mem_singleton.1 hname),
    if_pos (List.mem_singleton.1 hname)]
  exact ⟨rfl, Store.mem_places_self, rfl⟩

/-- A copy of a scope. It has the precision of its original and its depth. Level by level, its frames bind the same
names to the same numbers, and to the same functions with the frames of their own level captured, as those of the
original captured theirs. No frame is part of both. Acts from the copy on are answered as they would be from the
original on. -/
structure Copies (c : Contexts) (on target : String) (copied : Contexts) : Prop where
  precision : (copied.context target).precision = (c.context on).precision
  depth : copied.depth target = c.depth on
  places : copied.store.places (copied.place target) =
    (c.store.places (c.place on)).map (c.store.placeInCopy (c.place on))
  values {j : Nat} (hj : j ∈ c.store.places (c.place on)) :
    (copied.store.frameAt (c.store.placeInCopy (c.place on) j)).values = (c.store.frameAt j).values
  functions {j : Nat} (hj : j ∈ c.store.places (c.place on)) :
    (copied.store.frameAt (c.store.placeInCopy (c.place on) j)).functions =
      (c.store.frameAt j).functions.map fun (name, f) => (name, f.withHome (c.store.placeInCopy (c.place on) j))
  home {j : Nat} (hj : j ∈ c.store.places (c.place on)) {name : String} {f : Function}
    (hf : (name, f) ∈ (c.store.frameAt j).functions) : f.withHome j = f
  disjoint {i : Nat} (hcopy : i ∈ copied.store.reachable (copied.place target)) :
    i ∉ copied.store.reachable (c.place on)
  answers {later : List Act} (hlater : Confined [target] later) :
    (copied.performAll later).1 = ((c.rename target (c.context on) c.store).performAll later).1

private theorem Sound.copies_copyTo (h : c.Sound) (on target : String) : c.Copies on target (c.copyTo on target) := by
  have hl := h.store.linked
  have hi := h.placed on
  have hcopied := h.copyTo on target
  have hplace : (c.copyTo on target).place target = c.store.placeInCopy (c.place on) (c.place on) := by
    rw [place_copyTo, if_pos rfl]
  have hplaces : (c.copyTo on target).store.places ((c.copyTo on target).place target) =
      (c.store.places (c.place on)).map (c.store.placeInCopy (c.place on)) :=
    hplace ▸ Store.places_copy hl hi Store.mem_places_self
  have hlt {j : Nat} (hj : j ∈ c.store.places (c.place on)) : j < c.store.size :=
    Nat.lt_of_le_of_lt (Store.le_of_mem_places hj) hi
  have hframe {j : Nat} (hj : j ∈ c.store.places (c.place on)) :
      (c.copyTo on target).store.frameAt (c.store.placeInCopy (c.place on) j) =
        (c.store.frameAt j).relocate (c.store.placeInCopy (c.place on)) :=
    Store.frameAt_copy hl hi hj
  refine ⟨?_, ?_, hplaces, fun hj => ?_, fun {j} hj => ?_, fun hj _ _ hf => hl.withHome (hlt hj) hf, fun hm hm' => ?_,
    fun hlater => ((h.mirrors_copyTo on target).performConfined hlater).symm⟩
  · rw [Contexts.copyTo, context_rename, if_pos rfl]
  · rw [Contexts.depth, Contexts.depth, ← Store.length_places (hcopied.placed target), hplaces, List.length_map,
      Store.length_places hi]
  · rw [hframe hj, Frame.values_relocate]
  · rw [hframe hj]
    refine List.map_congr_left ?_
    rintro ⟨name, f⟩ hf
    exact congrArg (Prod.mk name) (Function.relocate_eq_withHome (hl.withHome (hlt hj) hf) _)
  · -- The places of the copy are new, those of the original are old.
    rw [Store.mem_reachable hcopied.store.linked (hcopied.placed target), hplaces] at hm
    obtain ⟨j, -, rfl⟩ := List.mem_map.1 hm
    have hold := Store.le_of_mem_places ((Store.mem_reachable hcopied.store.linked
      (Nat.lt_of_lt_of_le hi (c.store.keeps_copy _).size_le)).1 hm')
    exact Nat.lt_irrefl _ (Nat.lt_of_le_of_lt (Nat.le_trans (Nat.le_add_right _ _) hold) hi)

/-- A copier makes a copy exactly where the stack has room for its calls, and otherwise goes too deep. -/
def CopiesWithRoom (c : Contexts) (copier : Copier) (on target : String) (made : Except Failure Contexts) : Prop :=
  if c.store.copyDepth copier (c.place on) ≤ (c.machine on).copyingCalls then
    ∃ copied, made = .ok copied ∧ c.Copies on target copied
  else made = .error .tooDeep

private theorem Sound.copiesWithRoom (h : c.Sound) (copier : Copier) (on target : String) :
    c.CopiesWithRoom copier on target (c.copyBy copier on target) := by
  rw [CopiesWithRoom, copyBy]
  split
  · exact ⟨_, rfl, h.copies_copyTo on target⟩
  · rfl

/-- A copier goes down a frame more for every scope that is pushed. -/
theorem Sound.copyDepth_push (h : c.Sound) (copier : Copier) (on target : String) (values : List (String × Value)) :
    (c.push on target values).store.copyDepth copier ((c.push on target values).place target) =
      copier.parent + c.store.copyDepth copier (c.place on) := by
  have hlt : (c.push on target values).place target < (c.push on target values).store.size :=
    (h.push on target values).placed target
  rw [← Store.copyDepth_scope hlt, ← Store.copyDepth_scope (h.placed on), place_push, if_pos rfl]
  exact (congrArg (Lexical.Scope.copyDepth copier) (Store.scope_add (h.placed on) values)).trans (Nat.zero_max _)

/-- One scope on top of another, so many times. -/
def tower (n : Nat) : List Act :=
  List.replicate n ⟨"top", .push "top" []⟩

private theorem Sound.copyDepth_tower (h : c.Sound) (copier : Copier) (n : Nat) :
    (c.performAll (tower n)).2.store.copyDepth copier ((c.performAll (tower n)).2.place "top") =
      n * copier.parent + c.store.copyDepth copier (c.place "top") := by
  induction n generalizing c with
  | zero =>
    rw [Nat.zero_mul, Nat.zero_add]
    rfl
  | succ n ih =>
    have hnext := ih (h.push "top" "top" [])
    rw [h.copyDepth_push, ← Nat.add_assoc, ← Nat.succ_mul] at hnext
    exact hnext

private theorem stack_tower (c : Contexts) (n : Nat) : (c.performAll (tower n)).2.stack = c.stack := by
  induction n generalizing c with
  | zero => rfl
  | succ n ih => exact ih (c.push "top" "top" [])

/-- A copier goes too deep exactly where its calls for so many scopes and the first one do not fit. -/
theorem copyBy_tower_eq_error_iff (copier : Copier) (stack p n : Nat) (target : String) :
    ((create stack p).performAll (tower n)).2.copyBy copier "top" target = .error .tooDeep ↔
      stack - 7 < (n + 1) * copier.parent := by
  have hroot : (create stack p).store.copyDepth copier ((create stack p).place "top") = copier.parent := by
    rw [Store.copyDepth, Store.chain]
    exact Nat.zero_max _
  rw [copyBy, (sound_create stack p).copyDepth_tower, hroot, Contexts.machine, Machine.copyingCalls, stack_tower,
    ← Nat.succ_mul]
  split
  · rename_i hroom
    exact iff_of_false (by simp) (Nat.not_lt.2 hroom)
  · rename_i hroom
    exact iff_of_true rfl (Nat.lt_of_not_le hroom)

end Contexts

end Reckoner
