import Reckoner.Proofs.Reachability
import Reckoner.Proofs.ScopeSimulation

/-! Growth of a scope that consists of one layer. Names are bound once, so what succeeds in such a scope
goes on to succeed in the same way as bindings are added, and the scope that statements leave behind is
the least one with the old bindings in which each of them has its effect. -/

namespace Reckoner

theorem Traced.exists_of_bind {α β : Type} {x : Traced α} {f : α → Traced β} {b : β}
    (h : (x >>= f).result = .ok b) : ∃ a, x.result = .ok a ∧ (f a).result = .ok b := by
  rcases x with ⟨e | a, trace⟩
  · cases h
  · exact ⟨a, rfl, h⟩

theorem Traced.result_ofExcept {α : Type} {x : Except Error α} {a : α} :
    (Traced.ofExcept x).result = .ok a ↔ x = .ok a := by
  cases x <;> simp [Traced.ofExcept, Failure.lift]

namespace Lexical

/-- The scope of a layer that has none around it. -/
def Scope.alone (l : Layer) : Scope :=
  ⟨l, []⟩

namespace Layer

/-- All bindings of a layer are bindings of another one, which binds no function of a builtin's name
besides. -/
structure ExtendedBy (l m : Layer) : Prop where
  values {name : String} {v : Value} (h : l.values.lookup name = some v) :
    m.values.lookup name = some v
  functions {name : String} {f : Lambda} (h : l.functions.lookup name = some f) :
    m.functions.lookup name = some f
  builtins {name : String} (h : (Builtin.ofName? name).isSome) :
    m.functions.lookup name = l.functions.lookup name

variable {l m n : Layer}

theorem ExtendedBy.refl (l : Layer) : l.ExtendedBy l :=
  ⟨id, id, fun _ => rfl⟩

theorem ExtendedBy.trans (h : l.ExtendedBy m) (h' : m.ExtendedBy n) : l.ExtendedBy n :=
  ⟨fun hv => h'.values (h.values hv), fun hf => h'.functions (h.functions hf),
    fun hb => (h'.builtins hb).trans (h.builtins hb)⟩

theorem ExtendedBy.values_eq (h : l.ExtendedBy m) (h' : m.ExtendedBy l) (name : String) :
    m.values.lookup name = l.values.lookup name :=
  Option.ext fun _ => ⟨h'.values, h.values⟩

theorem ExtendedBy.functions_eq (h : l.ExtendedBy m) (h' : m.ExtendedBy l) (name : String) :
    m.functions.lookup name = l.functions.lookup name :=
  Option.ext fun _ => ⟨h'.functions, h.functions⟩

theorem lookup_cons_iff {α : Type} {name key : String} {a b : α} {bindings : List (String × α)}
    (hn : bindings.lookup name = none) :
    ((name, a) :: bindings).lookup key = some b ↔
      key = name ∧ a = b ∨ bindings.lookup key = some b := by
  rw [List.lookup_cons]
  by_cases h : key = name
  · subst h
    simp [hn]
  · simp [h, beq_eq_false_iff_ne.2 h]

end Layer

namespace Scope
variable (l : Layer) (name : String)

theorem lookupValue_alone :
    (alone l).lookupValue name =
      match l.values.lookup name with
      | some v => .ok v
      | none => .error (.unbound name) := by
  rw [lookupValue, show (alone l).layers = [l] from rfl, List.findSome?_cons]
  cases l.values.lookup name <;> rfl

private theorem lookupFunction_alone :
    (alone l).lookupFunction name =
      match l.functions.lookup name with
      | some f => .ok (.function f (alone l))
      | none =>
        match Builtin.ofName? name with
        | some f => .ok (.builtin f)
        | none => .error (.unbound name) := by
  rw [lookupFunction, show (alone l).layers = [l] from rfl, functionAlong?]
  cases l.functions.lookup name <;> rfl

end Scope

/-- A layer is extended. Failures are the same only if nothing was added. -/
def growth (failures : Prop) : Simulation where
  failures
  hidden _ := False
  base s t := ∃ l m : Layer, s = .alone l ∧ t = .alone m ∧ l.ExtendedBy m ∧ (failures → m.ExtendedBy l)
  lookupValue := by
    rintro _ _ ⟨l, m, rfl, rfl, h, h'⟩ name -
    rw [Scope.lookupValue_alone, Scope.lookupValue_alone]
    cases hv : l.values.lookup name with
    | some v => exact .of_eq (by rw [h.values hv]) fun _ => rfl
    | none =>
      refine .of_error rfl fun hf => ?_
      rw [h.values_eq (h' hf), hv]
      rfl
  lookupFunction := by
    rintro _ _ ⟨l, m, rfl, rfl, h, h'⟩ name
    rw [Scope.lookupFunction_alone, Scope.lookupFunction_alone]
    cases hf : l.functions.lookup name with
    | some f =>
      rw [h.functions hf]
      refine .of_ok rfl rfl (.moved f ?_ (.base ⟨l, m, rfl, rfl, h, h'⟩))
      cases f with
      | abstraction params body => exact fun _ _ => id
      | tagged text => trivial
    | none =>
      cases hb : Builtin.ofName? name with
      | some f =>
        rw [h.builtins (by rw [hb]; rfl), hf]
        exact .of_eq rfl .same
      | none =>
        refine .of_error rfl fun hfail => ?_
        rw [h.functions_eq (h' hfail), hf]
        rfl

variable {machine : Machine} {l m n : Layer}

theorem evaluate_of_extendedBy (h : l.ExtendedBy m) {e : Expr} {v : Value}
    (hv : (evaluate machine (.alone l) e).result = .ok v) : (evaluate machine (.alone m) e).result = .ok v := by
  obtain ⟨w, hw, rfl⟩ := ((growth False).respected_evaluate machine _ _ e
    (.base ⟨l, m, rfl, rfl, h, False.elim⟩) fun _ _ => id).ok v hv
  exact hw

/-- Scopes of layers with the same bindings, in whatever order, evaluate everything alike. -/
theorem evaluate_eq_of_extendedBy (h : l.ExtendedBy m) (h' : m.ExtendedBy l) (e : Expr) :
    (evaluate machine (.alone l) e).result = (evaluate machine (.alone m) e).result :=
  ((growth True).respected_evaluate machine _ _ e (.base ⟨l, m, rfl, rfl, h, fun _ => h'⟩)
    fun _ _ => id).result_eq

/-- In the scope of a layer a statement has its effect, with the given value: its expression has that
value there, and what it binds is bound. -/
def Settled (machine : Machine) (l : Layer) : Statement → Option Value → Prop
  | .assign name e, value => ∃ v, value = some v ∧ (evaluate machine (.alone l) e).result = .ok v ∧
      l.values.lookup name = some v
  | .define name params body, value => value = none ∧
      l.functions.lookup name = some (.abstraction params body)
  | .expression e, value => ∃ v, value = some v ∧ (evaluate machine (.alone l) e).result = .ok v
  | .misplaced _, _ => False

theorem Settled.mono {statement : Statement} {value : Option Value} (hs : Settled machine l statement value)
    (h : l.ExtendedBy m) : Settled machine m statement value := by
  cases statement with
  | assign name e =>
    obtain ⟨v, hv, he, hb⟩ := hs
    exact ⟨v, hv, evaluate_of_extendedBy h he, h.values hb⟩
  | define name params body => exact ⟨hs.1, h.functions hs.2⟩
  | expression e =>
    obtain ⟨v, hv, he⟩ := hs
    exact ⟨v, hv, evaluate_of_extendedBy h he⟩
  | misplaced e => exact hs

theorem Settled.unique {statement : Statement} {value value' : Option Value}
    (h : Settled machine l statement value) (h' : Settled machine l statement value') : value = value' := by
  cases statement with
  | assign name e =>
    obtain ⟨v, rfl, -, hb⟩ := h
    obtain ⟨w, rfl, -, hb'⟩ := h'
    exact hb.symm.trans hb'
  | define name params body => exact h.1.trans h'.1.symm
  | expression e =>
    obtain ⟨v, rfl, he⟩ := h
    obtain ⟨w, rfl, he'⟩ := h'
    rw [Except.ok.inj (he.symm.trans he')]
  | misplaced e => exact h.elim

/-- Statements lead from one layer to another: to its least extension in which each of them has its
effect, with the given values. -/
structure Leads (machine : Machine) (l : Layer) (statements : List Statement) (values : List (Option Value))
    (m : Layer) : Prop where
  grows : l.ExtendedBy m
  settled : List.Forall₂ (Settled machine m) statements values
  least {n : Layer} (h : l.ExtendedBy n) (hs : ∀ statement ∈ statements, ∃ v, Settled machine n statement v) :
    m.ExtendedBy n

theorem Leads.nil (l : Layer) : Leads machine l [] [] l :=
  ⟨.refl l, .nil, fun h _ => h⟩

theorem Leads.cons {statement : Statement} {value : Option Value} {statements : List Statement}
    {values : List (Option Value)} (h : Leads machine l [statement] [value] m)
    (h' : Leads machine m statements values n) : Leads machine l (statement :: statements) (value :: values) n := by
  obtain ⟨hs, -⟩ := List.forall₂_cons.1 h.settled
  refine ⟨h.grows.trans h'.grows, .cons (hs.mono h'.grows) h'.settled, fun hn hall => ?_⟩
  refine h'.least (h.least hn fun other ho => ?_) fun other ho => hall other (List.mem_cons_of_mem _ ho)
  exact hall other (List.mem_singleton.1 ho ▸ List.mem_cons_self)

/-- Of two lists with the same statements each leads to a layer that extends the other's. -/
theorem Leads.extendedBy {statements statements' : List Statement} {values values' : List (Option Value)}
    (h : Leads machine l statements values m) (h' : Leads machine l statements' values' n)
    (hsub : ∀ statement ∈ statements, statement ∈ statements') : m.ExtendedBy n := by
  refine h.least h'.grows fun statement hm => ?_
  obtain ⟨i, hi, rfl⟩ := List.getElem_of_mem (hsub statement hm)
  exact ⟨_, List.Forall₂.get h'.settled hi (h'.settled.length_eq ▸ hi)⟩

/-- A value that is bound in the scope where its expression has it. -/
theorem leads_assign {name : String} {e : Expr} {v : Value}
    (he : (evaluate machine (.alone l) e).result = .ok v) (hn : l.values.lookup name = none) :
    Leads machine l [.assign name e] [some v] { l with values := (name, v) :: l.values } := by
  have hb : ((name, v) :: l.values).lookup name = some v := (Layer.lookup_cons_iff hn).2 (.inl ⟨rfl, rfl⟩)
  have hg : l.ExtendedBy { l with values := (name, v) :: l.values } :=
    ⟨fun h => (Layer.lookup_cons_iff hn).2 (.inr h), id, fun _ => rfl⟩
  refine ⟨hg, .cons ⟨v, rfl, evaluate_of_extendedBy hg he, hb⟩ .nil, fun {n} h hs => ?_⟩
  obtain ⟨_, w, rfl, hw, hbound⟩ := hs _ (List.mem_singleton_self _)
  obtain rfl : w = v := Except.ok.inj (hw.symm.trans (evaluate_of_extendedBy h he))
  refine ⟨fun {key _} hk => ?_, h.functions, h.builtins⟩
  rcases (Layer.lookup_cons_iff hn).1 hk with ⟨rfl, rfl⟩ | hk
  · exact hbound
  · exact h.values hk

private theorem leads_define {name : String} {params : List String} {body : Expr}
    (hb : Builtin.ofName? name = none) (hn : l.functions.lookup name = none) :
    Leads machine l [.define name params body] [none]
      { l with functions := (name, .abstraction params body) :: l.functions } := by
  have hother {key : String} (hk : (Builtin.ofName? key).isSome) :
      ((name, Lambda.abstraction params body) :: l.functions).lookup key = l.functions.lookup key := by
    have hne : key ≠ name := by
      rintro rfl
      simp [hb] at hk
    rw [List.lookup_cons, beq_eq_false_iff_ne.2 hne]
  refine ⟨⟨id, fun h => (Layer.lookup_cons_iff hn).2 (.inr h), hother⟩,
    .cons ⟨rfl, (Layer.lookup_cons_iff hn).2 (.inl ⟨rfl, rfl⟩)⟩ .nil, fun {n} h hs => ?_⟩
  obtain ⟨_, rfl, hbound⟩ := hs _ (List.mem_singleton_self _)
  refine ⟨h.values, fun {key _} hk => ?_, fun hk => (h.builtins hk).trans (hother hk).symm⟩
  rcases (Layer.lookup_cons_iff hn).1 hk with ⟨rfl, rfl⟩ | hk
  · exact hbound
  · exact h.functions hk

/-- What a statement that succeeds binds is all that it adds. -/
theorem leads_of_run {statement : Statement} {value : Option Value} {t : Scope}
    (h : (run (evaluate machine) (.alone l) statement).result = .ok (value, t)) :
    ∃ m, t = .alone m ∧ Leads machine l [statement] [value] m := by
  cases statement with
  | assign name e =>
    obtain ⟨v, he, h⟩ := Traced.exists_of_bind h
    obtain ⟨u, hu, h⟩ := Traced.exists_of_bind h
    cases h
    simp only [Traced.result_ofExcept, Scope.bindValue] at hu
    split at hu
    · cases hu
    · rename_i hn
      cases hu
      exact ⟨_, rfl, leads_assign he (Option.not_isSome_iff_eq_none.1 hn)⟩
  | define name params body =>
    rw [run] at h
    cases hr : firstRepeated? [] params with
    | some param => rw [hr] at h; cases h
    | none =>
      rw [hr] at h
      obtain ⟨u, hu, h⟩ := Traced.exists_of_bind h
      cases h
      simp only [Traced.result_ofExcept, Scope.bindFunction] at hu
      split at hu
      · cases hu
      · rename_i hn
        cases hu
        simp only [Bool.or_eq_true, not_or, Option.not_isSome_iff_eq_none] at hn
        exact ⟨_, rfl, leads_define hn.1 hn.2⟩
  | expression e =>
    obtain ⟨v, he, h⟩ := Traced.exists_of_bind h
    cases h
    exact ⟨l, rfl, .refl l, .cons ⟨v, rfl, he⟩ .nil, fun h _ => h⟩
  | misplaced e => cases h

end Lexical

end Reckoner
