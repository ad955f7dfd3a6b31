import Mathlib.Logic.Relation
import Reckoner.Proofs.Reachability

/-! Changes of a store. Evaluation changes a store in three ways only: it adds a frame on top of another one,
it binds a value, and it binds a function whose parameters differ and whose home is the frame that it is bound
in. So what these preserve holds after every evaluation, in the frames of blocks and calls as well. -/

namespace Reckoner

private theorem firstRepeated?_eq_none_iff {seen names : List String} :
    firstRepeated? seen names = none ↔ names.Nodup ∧ ∀ name, name ∈ names → name ∉ seen := by
  induction names generalizing seen with
  | nil => simp [firstRepeated?]
  | cons name rest ih =>
    rw [firstRepeated?]
    by_cases h : name ∈ seen
    · simp [h]
    · rw [if_neg h, ih, List.nodup_cons, List.forall_mem_cons]
      constructor
      · rintro ⟨hrest, hseen⟩
        exact ⟨⟨fun hmem => hseen name hmem List.mem_cons_self, hrest⟩, h,
          fun other hmem hother => hseen other hmem (List.mem_cons_of_mem _ hother)⟩
      · rintro ⟨⟨hname, hrest⟩, -, hseen⟩
        refine ⟨hrest, fun other hmem hother => ?_⟩
        rcases List.mem_cons.1 hother with rfl | hother
        · exact hname hmem
        · exact hseen other hmem hother

namespace Store

/-- One change of a store. -/
inductive Change (s : Store) : Store → Prop where
  | pushed (values : List (String × Value)) (parent : Nat) : Change s (s.add { values, parent := some parent })
  | boundValue {t : Store} {name : String} {v : Value} {i : Nat} (h : bindValue name v i s = .ok t) : Change s t
  | defined {t : Store} {name : String} {params : List String} {body : Expr} {i : Nat} (hparams : params.Nodup)
    (h : bindFunction name (.closure name params body i) i s = .ok t) : Change s t

abbrev Changes : Store → Store → Prop :=
  Relation.ReflTransGen Change

/-- What every change preserves, many changes preserve. -/
theorem Changes.preserve {P : Store → Prop} (hstep : ∀ s t, P s → s.Change t → P t) {s t : Store}
    (h : s.Changes t) (hs : P s) : P t := by
  induction h with
  | refl => exact hs
  | tail _ hchange ih => exact hstep _ _ ih hchange

end Store

/-- A computation does nothing to a store but such changes. -/
abbrev Computation.Changing {α : Type} (c : Computation α) : Prop :=
  Advances Store.Changes c

namespace Computation
variable {α β : Type}

theorem changing_lift (t : Traced α) : Changing (lift t) :=
  fun _ => .refl

private theorem changing_read (look : Store → Except Error α) : Changing (read look) :=
  fun _ => .refl

theorem Changing.bind {c : Computation α} {f : α → Computation β} (hc : Changing c)
    (hf : ∀ a, Changing (f a)) : Changing (c >>= f) :=
  Advances.bind (fun _ _ _ => .trans) hc hf

theorem changing_push (parent : Nat) (values : List (String × Value)) : Changing (push parent values) :=
  fun _ => .single (.pushed values parent)

private theorem changing_update {change : Store → Except Error Store}
    (h : ∀ s t, change s = .ok t → s.Change t) : Changing (update change) := by
  intro s
  cases hc : change s with
  | ok t => rw [update_of_ok hc]; exact .single (h s t hc)
  | error e => rw [update_of_error hc]

end Computation
open Computation

def Evaluator.Changing (evaluate : Evaluator) : Prop :=
  ∀ (i : Nat) (e : Expr), Computation.Changing (evaluate i e)

namespace Statement
variable {evaluate : Evaluator}

theorem changing_run (h : evaluate.Changing) (i : Nat) (statement : Statement) :
    Computation.Changing (statement.run evaluate i) := by
  cases statement with
  | assign name e =>
    exact (h i e).bind fun v =>
      (changing_update fun _ _ => .boundValue).bind fun _ => changing_lift (pure (some v))
  | define name params body =>
    rw [run]
    cases hparams : firstRepeated? [] params with
    | some param => exact changing_lift _
    | none =>
      have hdiffer := (firstRepeated?_eq_none_iff.1 hparams).1
      exact (changing_update fun _ _ => .defined hdiffer).bind fun _ =>
        (changing_lift (.record _)).bind fun _ => changing_lift (pure none)
  | expression e => exact (h i e).bind fun v => changing_lift (pure (some v))
  | misplaced e => exact changing_lift _

private theorem changing_runAll (h : evaluate.Changing) (i : Nat) (statements : List Statement) :
    Computation.Changing (runAll evaluate i statements) := by
  induction statements with
  | nil => exact changing_lift (pure ())
  | cons statement rest ih => exact (changing_run h i statement).bind fun _ => ih

end Statement

namespace Expr

private theorem changing_evaluateArgs {evaluate : Evaluator} (h : evaluate.Changing) (i : Nat) (args : List Expr) :
    Computation.Changing (evaluateArgs evaluate i args) := by
  induction args with
  | nil => exact changing_lift (pure [])
  | cons e rest ih => exact (h i e).bind fun v => ih.bind fun vs => changing_lift (pure (v :: vs))

private theorem changing_applyCallable {evaluate : Evaluator} (h : evaluate.Changing) (p : Nat) (name : String)
    (args : List Value) (callable : Callable) :
    Computation.Changing (applyCallable p evaluate name args callable) := by
  cases callable with
  | builtin f =>
    simp only [applyCallable]
    split <;> exact changing_lift _
  | function f =>
    cases f with
    | tagged text => exact changing_lift _
    | closure ownName params body home =>
      simp only [applyCallable]
      split
      · exact (changing_push home _).bind fun inner => (changing_lift (.record _)).bind fun _ => h inner body
      · exact changing_lift _

private theorem changing_evaluateOver (p : Nat) {below : Nat → Evaluator} (h : ∀ k, (below k).Changing) :
    (evaluateOver p below).Changing := by
  intro i e
  refine (changing_lift (.record _)).bind fun _ => ?_
  cases e with
  | number v => exact changing_lift (pure v)
  | symbol name => exact changing_read _
  | unary op operand => exact (h 0 i operand).bind fun _ => changing_lift _
  | binary op lhs rhs => exact (h 0 i lhs).bind fun _ => (h 0 i rhs).bind fun _ => changing_lift _
  | call name args =>
    exact (changing_read _).bind fun callable =>
      (changing_evaluateArgs (h 2) i args).bind fun values => changing_applyCallable (h 2) p name values callable
  | block statements final =>
    exact (changing_push i []).bind fun inner => (changing_read _).bind fun _ =>
      (changing_lift (.record _)).bind fun _ =>
        (Statement.changing_runAll (h 2) inner statements).bind fun _ => h 1 inner final
  | misplaced statement => exact changing_lift _
  | foreign text => exact changing_lift _

private theorem changing_evaluateWithin (p n k : Nat) : (evaluateWithin p n k).Changing :=
  withCalls_induction (fun _ _ => changing_lift _) (fun _ h => changing_evaluateOver p h) n k

end Expr

theorem Statement.changing_evaluate (m : Machine) (i : Nat) (statement : Statement) :
    Computation.Changing (statement.evaluate m i) :=
  changing_run (Expr.changing_evaluateWithin m.precision m.evaluationCalls 0) i statement

end Reckoner
