import Reckoner.Computation
import Reckoner.Scope.Listing

/-! Growth of a store. Frames are only added, so a frame that stays unchanged keeps its whole scope:
its ancestors stand before it and are old frames as well. -/

namespace Reckoner
namespace Store

/-- Every frame of the store, with its bindings and its parent, stands unchanged in the other one. -/
def Keeps (s t : Store) : Prop :=
  ∀ i, i < s.size → t.frames[i]? = s.frames[i]?

/-- All frames but one stand unchanged in the other store. -/
def KeepsExcept (s : Store) (i : Nat) (t : Store) : Prop :=
  ∀ j, j < s.size → j ≠ i → t.frames[j]? = s.frames[j]?

theorem Keeps.refl (s : Store) : s.Keeps s :=
  fun _ _ => rfl

theorem Keeps.size_le {s t : Store} (h : s.Keeps t) : s.size ≤ t.size := by
  refine Nat.not_lt.1 fun hlt => ?_
  have hn := (h t.size hlt).symm
  rw [show t.frames[t.size]? = none from Array.getElem?_eq_none (Nat.le_refl _),
    Array.getElem?_eq_none_iff] at hn
  exact Nat.not_lt.2 hn hlt

theorem Keeps.trans {s t u : Store} (h : s.Keeps t) (h' : t.Keeps u) : s.Keeps u := by
  intro i hi
  rw [h' i (Nat.lt_of_lt_of_le hi h.size_le), h i hi]

theorem Keeps.except {s t : Store} (h : s.Keeps t) (i : Nat) : s.KeepsExcept i t :=
  fun j hj _ => h j hj

theorem Keeps.frameAt {s t : Store} (h : s.Keeps t) {i : Nat} (hi : i < s.size) :
    t.frameAt i = s.frameAt i := by
  simp only [Store.frameAt, h i hi]

theorem getElem?_frameAt {s : Store} {i : Nat} (hi : i < s.size) :
    s.frames[i]? = some (s.frameAt i) := by
  unfold Store.size at hi
  simp [Store.frameAt, hi]

@[simp] theorem size_add (s : Store) (frame : Frame) : (s.add frame).size = s.size + 1 := by
  simp [size, add]

@[simp] theorem size_rebind (s : Store) (i : Nat) (change : Frame → Frame) :
    (s.rebind i change).size = s.size := by
  simp [size, rebind]

theorem keeps_add (s : Store) (frame : Frame) : s.Keeps (s.add frame) := by
  intro i hi
  unfold size at hi
  simp [add, Array.getElem?_push, Nat.ne_of_lt hi]

theorem keepsExcept_rebind (s : Store) (i : Nat) (change : Frame → Frame) :
    s.KeepsExcept i (s.rebind i change) := by
  intro j _ hj
  simp [rebind, Array.getElem?_modify, Ne.symm hj]

theorem getElem?_rebind {s : Store} {i : Nat} (hi : i < s.size) (change : Frame → Frame) :
    (s.rebind i change).frames[i]? =
      some { change (s.frameAt i) with parent := (s.frameAt i).parent } := by
  simp [rebind, Array.getElem?_modify, getElem?_frameAt hi]

/-- Changing a frame that a smaller store does not have changes none of its frames. -/
theorem Keeps.rebind {s t : Store} (h : s.Keeps t) {i : Nat} (hi : s.size ≤ i)
    (change : Frame → Frame) : s.Keeps (t.rebind i change) := by
  intro j hj
  rw [keepsExcept_rebind t i change j (Nat.lt_of_lt_of_le hj h.size_le) (by omega), h j hj]

theorem chain_eq (s : Store) (i : Nat) (hi : i < s.size) :
    s.chain i = s.frameAt i :: ((s.frameAt i).parent.elim [] s.chain) := by
  rw [chain]
  split
  · rename_i h
    rw [getElem?_frameAt hi] at h
    cases h
  · rename_i frame h
    obtain rfl := Option.some.inj ((getElem?_frameAt hi).symm.trans h)
    split <;> simp_all

theorem parent_lt {s : Store} {i q : Nat} (h : (s.frameAt i).parent = some q) : q < i := by
  by_cases hi : i < s.size
  · exact s.ordered i _ q (getElem?_frameAt hi) h
  · have hn : s.frames[i]? = none := by
      unfold size at hi
      simpa using hi
    simp [frameAt, hn] at h

/-- A scope lies in the frames up to its innermost one. -/
theorem chain_congr {s t : Store} {i : Nat} (hi : i < s.size)
    (h : ∀ j, j ≤ i → t.frames[j]? = s.frames[j]?) : t.chain i = s.chain i := by
  induction i using Nat.strongRecOn with
  | ind i ih =>
    have ht : i < t.size := by
      have hs := h i (Nat.le_refl i)
      rw [getElem?_frameAt hi] at hs
      exact (Array.getElem?_eq_some_iff.1 hs).1
    have hf : t.frameAt i = s.frameAt i := by
      simp only [frameAt, h i (Nat.le_refl i)]
    rw [chain_eq t i ht, chain_eq s i hi, hf]
    cases hq : (s.frameAt i).parent with
    | none => rfl
    | some q =>
      have hlt := parent_lt hq
      simp only [Option.elim_some, List.cons.injEq, true_and]
      exact ih q hlt (by omega) fun j hj => h j (by omega)

theorem Keeps.chain {s t : Store} (h : s.Keeps t) {i : Nat} (hi : i < s.size) :
    t.chain i = s.chain i :=
  chain_congr hi fun j hj => h j (by omega)

end Store

/-- From a store that keeps the frames of the given one, a computation goes to such a store again,
whether it fails or not. -/
def Computation.Keeping {α : Type} (s : Store) (c : Computation α) : Prop :=
  ∀ t, s.Keeps t → s.Keeps (c t).2

namespace Computation
variable {α β : Type} {s : Store}

theorem keeping_lift (t : Traced α) : Keeping s (lift t) :=
  fun _ h => h

theorem keeping_pure (a : α) : Keeping s (pure a : Computation α) :=
  fun _ h => h

theorem keeping_read (look : Store → Except Error α) : Keeping s (read look) :=
  fun _ h => h

theorem Keeping.bind {c : Computation α} {f : α → Computation β} (hc : Keeping s c)
    (hf : ∀ a, Keeping s (f a)) : Keeping s (c >>= f) := by
  intro t ht
  have hu := hc t ht
  cases h : c t with
  | mk outcome u =>
    rw [h] at hu
    obtain ⟨result, trace⟩ := outcome
    cases result with
    | error e => rw [bind_of_error h]; exact hu
    | ok a => rw [bind_of_ok h]; exact hf a u hu

/-- A new frame stands behind all frames of the smaller store. -/
theorem keeping_push_bind (parent : Nat) (values : List (String × Value)) {f : Nat → Computation β}
    (hf : ∀ i, s.size ≤ i → Keeping s (f i)) : Keeping s (push parent values >>= f) := by
  intro t ht
  rw [bind_of_ok (c := push parent values) (s := t) (a := t.size) rfl]
  exact hf t.size ht.size_le _ (ht.trans (t.keeps_add _))

/-- Only a frame that the smaller store does not have is changed. -/
theorem keeping_update {change : Store → Except Error Store}
    (h : ∀ t u, s.Keeps t → change t = .ok u → s.Keeps u) : Keeping s (update change) := by
  intro t ht
  cases hc : change t with
  | ok u => rw [update_of_ok hc]; exact h t u ht hc
  | error e => rw [update_of_error hc]; exact ht

theorem keeping_bindValue {i : Nat} (hi : s.size ≤ i) (name : String) (v : Value) :
    Keeping s (update (Store.bindValue name v i)) := by
  refine keeping_update fun t u ht h => ?_
  obtain ⟨-, rfl⟩ := Store.bindValue_eq_ok_iff.1 h
  exact ht.rebind hi _

theorem keeping_bindFunction {i : Nat} (hi : s.size ≤ i) (name : String) (f : Function) :
    Keeping s (update (Store.bindFunction name f i)) := by
  refine keeping_update fun t u ht h => ?_
  obtain ⟨-, -, rfl⟩ := Store.bindFunction_eq_ok_iff.1 h
  exact ht.rebind hi _

end Computation

end Reckoner
