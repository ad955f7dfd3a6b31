import Reckoner.Proofs.ScopeInvariants
import Reckoner.Scope.Listing

/-! Listed names. What a scope lists are the bindings that lookups in it find: in a list that is ordered by name
stands the innermost binding of each name, and no function comes before the builtin of its name. -/

namespace Reckoner

section Bindings
variable {α : Type} {name : String} {a : α} {listed : List (String × α)}

/-- Each name comes once, in order. -/
def ByName (listed : List (String × α)) : Prop :=
  listed.Pairwise (·.1 < ·.1)

private theorem mem_insertNew {binding : String × α} (h : binding ∈ insertNew name a listed) :
    binding = (name, a) ∨ binding ∈ listed := by
  induction listed with
  | nil => exact .inl (List.mem_singleton.1 h)
  | cons first rest ih =>
    rw [insertNew] at h
    split at h
    · exact List.mem_cons.1 h
    · split at h
      · exact .inr h
      · rcases List.mem_cons.1 h with rfl | h
        · exact .inr List.mem_cons_self
        · exact (ih h).imp_right (List.mem_cons_of_mem _)

private theorem ByName.insertNew (h : ByName listed) (name : String) (a : α) : ByName (insertNew name a listed) := by
  induction listed with
  | nil => exact List.pairwise_singleton ..
  | cons first rest ih =>
    obtain ⟨hfirst, hrest⟩ := List.pairwise_cons.1 h
    rw [Reckoner.insertNew]
    split
    · rename_i hlt
      refine List.pairwise_cons.2 ⟨List.forall_mem_cons.2 ⟨hlt, fun other hother => ?_⟩, h⟩
      exact String.lt_trans hlt (hfirst other hother)
    · rename_i hnot
      split
      · exact h
      · rename_i hne
        refine List.pairwise_cons.2 ⟨fun other hother => ?_, ih hrest⟩
        rcases mem_insertNew hother with rfl | hother
        · exact ((Std.lt_trichotomy name first.1).resolve_left hnot).resolve_left hne
        · exact hfirst other hother

theorem lookup_eq_none_of_lt (h : ∀ binding, binding ∈ listed → name < binding.1) : listed.lookup name = none :=
  List.lookup_eq_none_iff.2 fun binding hmem =>
    bne_iff_ne.2 fun he => String.lt_irrefl name (he ▸ h binding hmem)

theorem lookup_cons_of_ne {key : String} (h : name ≠ key) (a : α) (listed : List (String × α)) :
    ((key, a) :: listed).lookup name = listed.lookup name := by
  rw [List.lookup_cons, beq_eq_false_iff_ne.2 h]

/-- To lookups, a binding that is inserted stands behind those that are there. -/
theorem ByName.lookup_insertNew (h : ByName listed) (name : String) (a : α) (other : String) :
    (Reckoner.insertNew name a listed).lookup other = (listed ++ [(name, a)]).lookup other := by
  induction listed with
  | nil => rfl
  | cons first rest ih =>
    obtain ⟨hfirst, hrest⟩ := List.pairwise_cons.1 h
    obtain ⟨key, b⟩ := first
    rw [Reckoner.insertNew]
    split
    · rename_i hlt
      rw [List.lookup_append]
      by_cases he : other = name
      · subst he
        have hnone : ((key, b) :: rest).lookup other = none := lookup_eq_none_of_lt <|
          List.forall_mem_cons.2 ⟨hlt, fun binding hmem => String.lt_trans hlt (hfirst binding hmem)⟩
        rw [hnone, List.lookup_cons_self, List.lookup_cons_self, Option.none_or]
      · rw [lookup_cons_of_ne he, lookup_cons_of_ne he, List.lookup_nil, Option.or_none]
    · split
      · rename_i he
        subst he
        rw [List.lookup_append]
        by_cases he : other = name
        · subst he
          rw [List.lookup_cons_self, Option.some_or]
        · rw [lookup_cons_of_ne he _ [], List.lookup_nil, Option.or_none]
      · rw [List.lookup_cons, ih hrest, List.cons_append, List.lookup_cons]

private theorem ByName.mem_iff (h : ByName listed) : (name, a) ∈ listed ↔ listed.lookup name = some a := by
  induction listed with
  | nil => simp
  | cons first rest ih =>
    obtain ⟨key, b⟩ := first
    obtain ⟨hfirst, hrest⟩ := List.pairwise_cons.1 h
    rw [List.mem_cons, ih hrest]
    by_cases he : name = key
    · subst he
      rw [lookup_eq_none_of_lt hfirst, List.lookup_cons_self]
      simp [eq_comm]
    · simp [lookup_cons_of_ne he, he]

theorem byName_foldl (bindings : List (String × α)) (h : ByName listed) :
    ByName (bindings.foldl (fun listed (name, a) => insertNew name a listed) listed) ∧
      ∀ other, (bindings.foldl (fun listed (name, a) => insertNew name a listed) listed).lookup other =
        (listed ++ bindings).lookup other := by
  induction bindings generalizing listed with
  | nil => exact ⟨h, fun other => by rw [List.append_nil]; rfl⟩
  | cons binding bindings ih =>
    obtain ⟨name, a⟩ := binding
    obtain ⟨hordered, hlookup⟩ := ih (h.insertNew name a)
    refine ⟨hordered, fun other => (hlookup other).trans ?_⟩
    rw [List.lookup_append, h.lookup_insertNew, ← List.lookup_append, List.append_assoc, List.singleton_append]

theorem byName_orderByName (bindings : List (String × α)) : ByName (orderByName bindings) :=
  (byName_foldl bindings .nil).1

/-- Of several bindings of a name, the first is listed. -/
theorem mem_orderByName_iff {bindings : List (String × α)} :
    (name, a) ∈ orderByName bindings ↔ bindings.lookup name = some a := by
  rw [(byName_orderByName bindings).mem_iff]
  exact iff_of_eq (congrArg (· = some a) ((byName_foldl bindings .nil).2 name))

private theorem lookup_flatMap {β : Type} (parts : β → List (String × α)) (bs : List β) (name : String) :
    (bs.flatMap parts).lookup name = bs.findSome? fun b => (parts b).lookup name := by
  induction bs with
  | nil => rfl
  | cons b bs ih =>
    rw [List.flatMap_cons, List.lookup_append, ih, List.findSome?_cons]
    cases (parts b).lookup name <;> rfl

end Bindings

namespace Store
variable {s : Store} {i : Nat} {name : String}

private theorem lookupValue_eq_ok_iff {v : Value} :
    s.lookupValue name i = .ok v ↔ (s.chain i).findSome? (·.values.lookup name) = some v := by
  unfold lookupValue
  cases (s.chain i).findSome? (·.values.lookup name) <;> simp

private theorem lookupFunction_eq_function_iff {f : Function} :
    s.lookupFunction name i = .ok (.function f) ↔
      (s.chain i).findSome? (·.functions.lookup name) = some f := by
  unfold lookupFunction
  cases (s.chain i).findSome? (·.functions.lookup name) <;> cases Builtin.ofName? name <;> simp

end Store

/-- Listings agree with lookups. In every scope, as deep as it may be, the values and the functions are listed in
order, each name once; a value stands under a name exactly if looking the name up finds it, and a function
exactly if looking the name up finds it and no builtin has the name. -/
theorem listings_agree_with_lookups {s : Store} (hs : s.Reachable) (i : Nat) :
    ((s.visibleValues i).Pairwise (·.1 < ·.1) ∧
      ∀ name v, (name, v) ∈ s.visibleValues i ↔ s.lookupValue name i = .ok v) ∧
    (s.visibleFunctions i).Pairwise (·.1 < ·.1) ∧
      ∀ name f, (name, f) ∈ s.visibleFunctions i ↔
        s.lookupFunction name i = .ok (.function f) ∧ Builtin.ofName? name = none := by
  refine ⟨⟨byName_orderByName _, fun name v => ?_⟩, byName_orderByName _, fun name f => ?_⟩
  · rw [Store.visibleValues, mem_orderByName_iff, lookup_flatMap, Store.lookupValue_eq_ok_iff]
  · rw [Store.visibleFunctions, mem_orderByName_iff, lookup_flatMap, Store.lookupFunction_eq_function_iff]
    refine iff_self_and.2 fun hfound => ?_
    obtain ⟨frame, hframe, hf⟩ := List.exists_of_findSome?_eq_some hfound
    obtain ⟨j, hj⟩ := Store.exists_of_mem_chain hframe
    obtain ⟨before, after, hsplit, -⟩ := List.lookup_eq_some_iff.1 hf
    exact (hs.sound.admissible j frame name f hj (hsplit ▸ List.mem_append_right _ List.mem_cons_self)).name

/-- Two frames up, a value and a function are hidden by others of their names. -/
theorem hidden_bindings_are_not_listed :
    let m : Machine := ⟨53, 1000⟩
    let zero : Value := ⟨.zero, 53⟩
    let one : Value := ⟨.one, 53⟩
    let outer := ((Statement.define "f" ["a"] (.symbol "x")).evaluate m 0
      ((Statement.assign "x" (.number one)).evaluate m 0 (Store.empty.add {})).2).2
    let middle := outer.add { values := [("y", one), ("x", zero)], parent := some 0 }
    let s := ((Statement.define "f" [] (.symbol "y")).evaluate m 2 (middle.add { parent := some 1 })).2
    s.Reachable ∧ s.visibleValues 2 = [("x", zero), ("y", one)] ∧ s.lookupValue "x" 2 = .ok zero ∧
      ∃ f, (s.visibleFunctions 2).map Prod.fst = ["f"] ∧ s.lookupFunction "f" 2 = .ok (.function f) ∧
        Session.paramsOf f = [] := by
  intro m zero one outer middle s
  have houter : outer.Reachable := .evaluated (.evaluated (.opened .empty) m (by decide) _) m (by decide) _
  have hs : s.Reachable :=
    .evaluated (.pushed (.pushed houter (by decide +kernel) _) (by decide +kernel) []) m (by decide +kernel) _
  have hvalues : s.visibleValues 2 = [("x", zero), ("y", one)] := by decide +kernel
  have hfunctions : (s.visibleFunctions 2).map (fun listed => (listed.1, Session.paramsOf listed.2)) =
      [("f", [])] := by
    decide +kernel
  obtain ⟨⟨-, hfound⟩, -, hfound'⟩ := listings_agree_with_lookups hs 2
  have hx : ("x", zero) ∈ s.visibleValues 2 := hvalues ▸ List.mem_cons_self
  obtain ⟨⟨name, f⟩, hlisted, he⟩ := List.map_eq_singleton_iff.1 hfunctions
  have hname : name = "f" := congrArg Prod.fst he
  subst hname
  have hf : ("f", f) ∈ s.visibleFunctions 2 := hlisted ▸ List.mem_cons_self
  exact ⟨hs, hvalues, (hfound _ _).1 hx, f, congrArg (List.map Prod.fst) hlisted, ((hfound' _ _).1 hf).1,
    congrArg Prod.snd he⟩

end Reckoner
