import Reckoner.Proofs.LexicalScope

/-! Copies of scopes. In a linked store a frame reaches exactly the frames of its own scope, and a copy
has one new frame for each of them, at the same level, with the same bindings, and with functions whose
home is their own new frame. The old frames stay as they are, and the copy refers to none of them. -/

namespace Reckoner
namespace Store
variable {s : Store} {i j : Nat}

/-- The places of the frames of a scope, innermost first. -/
def places (s : Store) (i : Nat) : List Nat :=
  i ::
    match h : (s.frameAt i).parent with
    | none => []
    | some q =>
      have : q < i := parent_lt h
      places s q
termination_by i

theorem places_eq (s : Store) (i : Nat) :
    s.places i = i :: (s.frameAt i).parent.elim [] s.places := by
  rw [places]
  split <;> simp_all

theorem mem_places_self : i ∈ s.places i := by
  rw [places_eq]
  exact List.mem_cons_self

theorem le_of_mem_places (h : j ∈ s.places i) : j ≤ i := by
  induction i using Nat.strongRecOn with
  | ind i ih =>
    rw [places_eq] at h
    rcases List.mem_cons.1 h with rfl | h
    · exact Nat.le_refl _
    · cases hq : (s.frameAt i).parent with
      | none => simp [hq] at h
      | some q =>
        have hlt := parent_lt hq
        rw [hq] at h
        exact Nat.le_trans (ih q hlt h) (Nat.le_of_lt hlt)

/-- The frames of a scope stand at its places. -/
theorem chain_eq_map_places (hi : i < s.size) : s.chain i = (s.places i).map s.frameAt := by
  induction i using Nat.strongRecOn with
  | ind i ih =>
    rw [chain_eq s i hi, places_eq]
    cases hq : (s.frameAt i).parent with
    | none => rfl
    | some q =>
      have hlt := parent_lt hq
      exact congrArg _ (ih q hlt (Nat.lt_trans hlt hi))

/-- The scope of an ancestor is part of the scope. -/
theorem parent_mem_places {q : Nat} (h : j ∈ s.places i) (hq : (s.frameAt j).parent = some q) :
    q ∈ s.places i := by
  induction i using Nat.strongRecOn with
  | ind i ih =>
    rw [places_eq] at h ⊢
    rcases List.mem_cons.1 h with rfl | h
    · rw [hq]
      exact List.mem_cons_of_mem _ mem_places_self
    · cases hp : (s.frameAt i).parent with
      | none => simp [hp] at h
      | some r =>
        rw [hp] at h
        exact List.mem_cons_of_mem _ (ih r (parent_lt hp) h)

private theorem mem_places_trans {m : Nat} (hj : j ∈ s.places i) (hm : m ∈ s.places j) : m ∈ s.places i := by
  induction j using Nat.strongRecOn with
  | ind j ih =>
    rw [places_eq] at hm
    rcases List.mem_cons.1 hm with rfl | hm
    · exact hj
    · cases hq : (s.frameAt j).parent with
      | none => simp [hq] at hm
      | some q =>
        rw [hq] at hm
        exact ih q (parent_lt hq) (parent_mem_places hj hq) hm

/-- In a linked store a frame refers to itself and to its parent only. -/
theorem Linked.eq_or_parent (hs : s.Linked) {l : Nat} (h : l ∈ (s.frameAt j).links) :
    l = j ∨ (s.frameAt j).parent = some l := by
  rcases List.mem_append.1 h with h | h
  · exact .inr (Option.mem_toList.1 h)
  · obtain ⟨⟨name, f⟩, hm, hf⟩ := List.mem_filterMap.1 h
    cases f with
    | tagged text => cases hf
    | closure ownName params body home =>
      obtain rfl := Option.some.inj hf
      have hj : s.frames[j]? = some (s.frameAt j) := by
        by_cases hj : j < s.size
        · exact getElem?_frameAt hj
        · have hn : s.frames[j]? = none := by
            unfold size at hj
            simpa using hj
          simp [frameAt, hn] at hm
      exact .inl (hs j _ name ownName params body home hj hm).2

private theorem eraseDups_of_forall_eq {q : Nat} {l : List Nat} (hq : q ∈ l) (h : ∀ a, a ∈ l → a = q) :
    l.eraseDups = [q] := by
  cases l with
  | nil => cases hq
  | cons a rest =>
    obtain rfl := h a List.mem_cons_self
    have hr : rest.filter (fun b => !(b == a)) = [] := by
      rw [List.filter_eq_nil_iff]
      intro b hb
      simp [h b (List.mem_cons_of_mem _ hb)]
    rw [List.eraseDups_cons, hr]
    rfl

/-- The links of some frames were followed, all of which stand behind a frame, and led to none but these frames and
that one. -/
structure Followed (s : Store) (visited : List Nat) (j : Nat) : Prop where
  lt {d : Nat} (hd : d ∈ visited) : j < d
  mem {d l : Nat} (hd : d ∈ visited) (hl : l ∈ (s.frameAt d).links) : l ∈ visited ++ [j]

private theorem followed_nil (s : Store) (j : Nat) : s.Followed [] j :=
  ⟨nofun, nofun⟩

variable {visited : List Nat}

/-- It is the parent that is found next. -/
theorem Followed.mem_further_iff (h : s.Followed visited j) (hs : s.Linked) {l : Nat} :
    l ∈ ((visited ++ [j]).flatMap fun i => (s.frameAt i).links).filter (· ∉ visited ++ [j]) ↔
      (s.frameAt j).parent = some l := by
  simp only [List.mem_filter, List.mem_flatMap, decide_eq_true_eq]
  constructor
  · rintro ⟨⟨d, hd, hld⟩, hnew⟩
    rcases List.mem_append.1 hd with hd | hd
    · exact absurd (h.mem hd hld) hnew
    · obtain rfl := List.mem_singleton.1 hd
      exact (hs.eq_or_parent hld).resolve_left fun he => hnew (he ▸ List.mem_append_right _ List.mem_cons_self)
  · intro hp
    have hlt := parent_lt hp
    refine ⟨⟨j, by simp, by simp [Frame.links, hp]⟩, fun hmem => ?_⟩
    rcases List.mem_append.1 hmem with hd | hd
    · exact Nat.lt_asymm hlt (h.lt hd)
    · exact Nat.ne_of_lt hlt (List.mem_singleton.1 hd)

private theorem Followed.further_eq (h : s.Followed visited j) (hs : s.Linked) :
    (((visited ++ [j]).flatMap fun i => (s.frameAt i).links).filter (· ∉ visited ++ [j])).eraseDups =
      (s.frameAt j).parent.toList := by
  cases hq : (s.frameAt j).parent with
  | none =>
    refine congrArg List.eraseDups (List.eq_nil_iff_forall_not_mem.2 fun l hl => ?_)
    cases hq.symm.trans ((h.mem_further_iff hs).1 hl)
  | some q =>
    exact eraseDups_of_forall_eq ((h.mem_further_iff hs).2 hq) fun a ha =>
      Option.some.inj (((h.mem_further_iff hs).1 ha).symm.trans hq)

private theorem Followed.parent (h : s.Followed visited j) (hs : s.Linked) {q : Nat}
    (hq : (s.frameAt j).parent = some q) : s.Followed (visited ++ [j]) q where
  lt hd := by
    rcases List.mem_append.1 hd with hd | hd
    · exact Nat.lt_trans (parent_lt hq) (h.lt hd)
    · exact List.mem_singleton.1 hd ▸ parent_lt hq
  mem hd hl := by
    rcases List.mem_append.1 hd with hd | hd
    · exact List.mem_append_left _ (h.mem hd hl)
    · obtain rfl := List.mem_singleton.1 hd
      rcases hs.eq_or_parent hl with rfl | hp
      · simp
      · simp [Option.some.inj (hp.symm.trans hq)]

/-- Following links from a frame, when those of the frames before it are followed already, goes up to
its ancestors one by one. -/
theorem Followed.closeUnderLinks_eq (h : s.Followed visited j) (hs : s.Linked) {n : Nat} (hn : j ≤ n) :
    s.closeUnderLinks n (visited ++ [j]) = visited ++ s.places j := by
  induction n generalizing j visited with
  | zero =>
    obtain rfl : j = 0 := Nat.le_zero.1 hn
    have hp : (s.frameAt 0).parent = none :=
      Option.eq_none_iff_forall_ne_some.2 fun q hq => absurd (parent_lt hq) (Nat.not_lt_zero q)
    rw [closeUnderLinks, places_eq, hp]
    rfl
  | succ n ih =>
    rw [closeUnderLinks, places_eq, h.further_eq hs]
    cases hq : (s.frameAt j).parent with
    | none => rfl
    | some q =>
      have hlt := parent_lt hq
      refine (ih (h.parent hs hq) (by omega)).trans ?_
      rw [List.append_assoc]
      rfl

theorem mem_reachable (hs : s.Linked) (hi : i < s.size) : j ∈ s.reachable i ↔ j ∈ s.places i := by
  have hc := (s.followed_nil i).closeUnderLinks_eq hs (Nat.le_of_lt hi)
  simp only [List.nil_append] at hc
  simp only [reachable, hc, List.mem_filter, List.mem_range, decide_eq_true_eq]
  exact ⟨And.right, fun h => ⟨Nat.lt_of_le_of_lt (le_of_mem_places h) hi, h⟩⟩

theorem ascending_reachable (s : Store) (i : Nat) : (s.reachable i).Pairwise (· < ·) :=
  List.pairwise_lt_range.filter _

/-- Frames that are added one after another stand behind the old ones, in their order. -/
theorem foldl_add (f : Nat → Frame) (js : List Nat) (s : Store) :
    let t := js.foldl (fun t j => t.add (f j)) s
    s.Keeps t ∧ t.size = s.size + js.length ∧ ∀ (k : Nat) (hk : k < js.length),
      t.frames[s.size + k]? =
        some { f js[k] with parent := (f js[k]).parent.filter (· < s.size + k) } := by
  induction js generalizing s with
  | nil => exact ⟨.refl s, rfl, nofun⟩
  | cons j rest ih =>
    obtain ⟨hkeep, hsize, hframe⟩ := ih (s.add (f j))
    rw [size_add] at hsize hframe
    rw [List.foldl_cons]
    refine ⟨(s.keeps_add (f j)).trans hkeep, by rw [List.length_cons]; omega, fun k hk => ?_⟩
    cases k with
    | zero =>
      rw [hkeep (s.size + 0) (by rw [size_add]; omega)]
      exact Array.getElem?_push_size
    | succ k =>
      have h := hframe k (Nat.lt_of_succ_lt_succ hk)
      rw [Nat.add_right_comm, Nat.add_assoc] at h
      exact h

theorem keeps_copy (s : Store) (i : Nat) : s.Keeps (s.copy i) :=
  (foldl_add _ _ s).1

theorem size_copy (s : Store) (i : Nat) : (s.copy i).size = s.size + (s.reachable i).length :=
  (foldl_add _ _ s).2.1

theorem placeInCopy_lt (hj : j ∈ s.reachable i) : s.placeInCopy i j < (s.copy i).size := by
  rw [size_copy, placeInCopy]
  exact Nat.add_lt_add_left (List.idxOf_lt_length_of_mem hj) _

/-- Every new frame is the copy of a frame that can be reached. -/
theorem exists_original {m : Nat} (hm : s.size ≤ m) (h : m < (s.copy i).size) :
    ∃ j, j ∈ s.reachable i ∧ s.placeInCopy i j = m := by
  rw [size_copy] at h
  have hk : m - s.size < (s.reachable i).length := by omega
  refine ⟨(s.reachable i)[m - s.size], List.getElem_mem hk, ?_⟩
  have hn : (s.reachable i).Nodup := (ascending_reachable s i).imp Nat.ne_of_lt
  rw [placeInCopy, hn.idxOf_getElem]
  omega

/-- The copy has its frames in the order of their originals. -/
theorem placeInCopy_lt_placeInCopy {q : Nat} (hq : q ∈ s.reachable i) (hj : j ∈ s.reachable i)
    (h : q < j) : s.placeInCopy i q < s.placeInCopy i j := by
  refine Nat.add_lt_add_left (Nat.lt_of_not_le fun hle => ?_) _
  have hqj := List.pairwise_iff_getElem.1 (ascending_reachable s i)
  have hq' := List.idxOf_lt_length_of_mem hq
  have hj' := List.idxOf_lt_length_of_mem hj
  rcases Nat.lt_or_eq_of_le hle with hlt | heq
  · have := hqj _ _ hj' hq' hlt
    rw [List.getElem_idxOf hj', List.getElem_idxOf hq'] at this
    omega
  · have : (s.reachable i)[(s.reachable i).idxOf j] = (s.reachable i)[(s.reachable i).idxOf q] := by
      simp only [heq]
    rw [List.getElem_idxOf hj', List.getElem_idxOf hq'] at this
    omega

/-- Each frame of a scope has its copy in the copied scope, between the copies of its neighbours. -/
theorem frameAt_copy (hs : s.Linked) (hi : i < s.size) (hj : j ∈ s.places i) :
    (s.copy i).frameAt (s.placeInCopy i j) = (s.frameAt j).relocate (s.placeInCopy i) := by
  have hr := (mem_reachable hs hi).2 hj
  have hk := List.idxOf_lt_length_of_mem hr
  have hf := (foldl_add (fun j => (s.frameAt j).relocate (s.placeInCopy i)) (s.reachable i) s).2.2 _ hk
  rw [List.getElem_idxOf hk] at hf
  have hp : ((s.frameAt j).relocate (s.placeInCopy i)).parent.filter (· < s.placeInCopy i j) =
      ((s.frameAt j).relocate (s.placeInCopy i)).parent := by
    cases hq : (s.frameAt j).parent with
    | none => simp [Frame.relocate, hq]
    | some q =>
      have hlt := placeInCopy_lt_placeInCopy ((mem_reachable hs hi).2 (parent_mem_places hj hq)) hr
        (parent_lt hq)
      simp [Frame.relocate, hq, hlt]
  rw [frameAt, show (s.copy i).frames[s.placeInCopy i j]? = _ from hf]
  simp only [Option.getD_some]
  exact congrArg (fun parent => { (s.frameAt j).relocate (s.placeInCopy i) with parent }) hp

theorem layer_relocate (frame : Frame) (place : Nat → Nat) :
    (frame.relocate place).layer = frame.layer := by
  have h (f : Function) : (f.relocate place).lambda = f.lambda := by
    cases f <;> simp [Function.relocate, Function.lambda]
  rw [Frame.layer, Frame.layer, frame.values_relocate]
  simp [Frame.relocate, h]

/-- A copied scope has the places of its original, level by level. -/
theorem places_copy (hs : s.Linked) (hi : i < s.size) (hj : j ∈ s.places i) :
    (s.copy i).places (s.placeInCopy i j) = (s.places j).map (s.placeInCopy i) := by
  induction j using Nat.strongRecOn with
  | ind j ih =>
    rw [places_eq, places_eq s j, frameAt_copy hs hi hj, List.map_cons]
    cases hq : (s.frameAt j).parent with
    | none => simp [Frame.relocate, hq]
    | some q =>
      have hrest := ih q (parent_lt hq) (parent_mem_places hj hq)
      simp only [Frame.relocate, hq, Option.map_some, Option.elim_some]
      rw [hrest]

/-- A copied scope has the frames of its original, level by level. -/
theorem chain_copy (hs : s.Linked) (hi : i < s.size) (hj : j ∈ s.places i) :
    (s.copy i).chain (s.placeInCopy i j) =
      (s.chain j).map (Frame.relocate (s.placeInCopy i)) := by
  have hjs : j < s.size := Nat.lt_of_le_of_lt (le_of_mem_places hj) hi
  rw [chain_eq_map_places (placeInCopy_lt ((mem_reachable hs hi).2 hj)), places_copy hs hi hj,
    chain_eq_map_places hjs, List.map_map, List.map_map]
  exact List.map_congr_left fun m hm => frameAt_copy hs hi (mem_places_trans hj hm)

theorem scope_copy (hs : s.Linked) (hi : i < s.size) (hj : j ∈ s.places i) :
    (s.copy i).scope (s.placeInCopy i j) = s.scope j := by
  refine scope_congr ?_ ?_
  · rw [frameAt_copy hs hi hj, layer_relocate]
  · rw [chain_copy hs hi hj, List.map_map]
    exact List.map_congr_left fun frame _ => layer_relocate frame _

theorem Linked.copy (hs : s.Linked) (hi : i < s.size) : (s.copy i).Linked := by
  intro m frame name ownName params body home hm hf
  by_cases hms : m < s.size
  · rw [keeps_copy s i m hms] at hm
    exact hs m frame name ownName params body home hm hf
  · have hmc : m < (s.copy i).size := (Array.getElem?_eq_some_iff.1 hm).1
    obtain ⟨j, hj, rfl⟩ := exists_original (Nat.not_lt.1 hms) hmc
    have hjp := (mem_reachable hs hi).1 hj
    rw [getElem?_frameAt hmc, frameAt_copy hs hi hjp] at hm
    obtain rfl := Option.some.inj hm
    obtain ⟨⟨key, f⟩, hmem, he⟩ := List.mem_map.1 hf
    cases f with
    | tagged text => cases he
    | closure ownName' params' body' home' =>
      have hjs : j < s.size := Nat.lt_of_le_of_lt (le_of_mem_places hjp) hi
      obtain ⟨rfl, rfl⟩ := hs j _ key ownName' params' body' home' (getElem?_frameAt hjs) hmem
      cases he
      exact ⟨rfl, rfl⟩

end Store

end Reckoner
