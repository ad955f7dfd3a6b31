import Reckoner.Proofs.LexicalEvaluation

/-! Evaluation on a smaller stack: it has the same result, unless the calls run out. -/

namespace Reckoner

/-- The first outcome is that of a computation that goes too deep, or both have the same result. -/
def Traced.Approximates {α : Type} (x y : Traced α) : Prop :=
  x.result = .error .tooDeep ∨ x.result = y.result

namespace Traced
variable {α β : Type} {x y : Traced α}

theorem approximates_refl (x : Traced α) : x.Approximates x :=
  .inr rfl

private theorem approximates_tooDeep (y : Traced α) : (Traced.fail .tooDeep).Approximates y :=
  .inl rfl

theorem Approximates.bind {f g : α → Traced β} (h : x.Approximates y) (hf : ∀ a, (f a).Approximates (g a)) :
    (x >>= f).Approximates (y >>= g) := by
  obtain ⟨result, trace⟩ := x
  obtain ⟨result', trace'⟩ := y
  rcases h with hdeep | hsame
  · obtain rfl : result = .error .tooDeep := hdeep
    exact .inl rfl
  · obtain rfl : result = result' := hsame
    cases result with
    | error e => exact .inr rfl
    | ok a => exact hf a

end Traced

open Traced (approximates_refl approximates_tooDeep)

namespace Lexical
variable {below below' : Nat → Evaluator} {s : Scope}

/-- An evaluator has the results of another one, or goes too deep. -/
def Evaluator.Approximates (evaluate evaluate' : Evaluator) : Prop :=
  ∀ s e, (evaluate s e).Approximates (evaluate' s e)

section
variable {evaluate evaluate' : Evaluator}

private theorem Evaluator.Approximates.run (h : evaluate.Approximates evaluate') (s : Scope) (statement : Statement) :
    (run evaluate s statement).Approximates (run evaluate' s statement) := by
  cases statement with
  | assign name e => exact (h s e).bind fun v => approximates_refl _
  | define name params body => exact approximates_refl _
  | expression e => exact (h s e).bind fun v => approximates_refl _
  | misplaced e => exact approximates_refl _

theorem Evaluator.Approximates.runAll (h : evaluate.Approximates evaluate') (s : Scope)
    (statements : List Statement) : (runAll evaluate s statements).Approximates (runAll evaluate' s statements) := by
  induction statements generalizing s with
  | nil => exact approximates_refl _
  | cons statement rest ih => exact (h.run s statement).bind fun (_, t) => ih t

private theorem Evaluator.Approximates.evaluateArgs (h : evaluate.Approximates evaluate') (s : Scope)
    (args : List Expr) :
    (evaluateArgs evaluate s args).Approximates (evaluateArgs evaluate' s args) := by
  induction args with
  | nil => exact approximates_refl _
  | cons e rest ih => exact (h s e).bind fun v => ih.bind fun values => approximates_refl _

private theorem Evaluator.Approximates.applyCallee (h : evaluate.Approximates evaluate') (p : Nat) (name : String)
    (args : List Value) (callee : Callee) :
    (applyCallee p evaluate name args callee).Approximates (applyCallee p evaluate' name args callee) := by
  cases callee with
  | builtin f => exact approximates_refl _
  | function f home =>
    cases f with
    | tagged text => exact approximates_refl _
    | abstraction params body =>
      rw [Lexical.applyCallee, Lexical.applyCallee]
      split
      · exact (approximates_refl _).bind fun _ => h _ body
      · exact approximates_refl _

end

private theorem approximates_evaluateOver (h : ∀ k, (below k).Approximates (below' k)) (p : Nat) :
    (evaluateOver p below).Approximates (evaluateOver p below') := by
  intro s e
  refine (approximates_refl _).bind fun _ => ?_
  cases e with
  | unary op operand => exact (h 0 s operand).bind fun v => approximates_refl _
  | binary op l r => exact (h 0 s l).bind fun a => (h 0 s r).bind fun b => approximates_refl _
  | call name args =>
    refine (approximates_refl _).bind fun callee => ?_
    exact ((h 2).evaluateArgs s args).bind fun values => (h 2).applyCallee p name values callee
  | block statements final =>
    refine (approximates_refl _).bind fun _ => ?_
    exact ((h 2).runAll (s.push []) statements).bind fun inner => h 1 inner final
  | _ => exact approximates_refl _

theorem approximates_evaluateWithin (p : Nat) {n n' : Nat} (h : n ≤ n') (k : Nat) :
    (evaluateWithin p n k).Approximates (evaluateWithin p n' k) :=
  withCalls_relation_of_le (fun _ _ _ => approximates_tooDeep _) (fun _ _ hbelow => approximates_evaluateOver hbelow p)
    h k

/-- Calls that are used up make evaluation go too deep, or no difference. -/
theorem approximates_of_used (p n : Nat) {k k' : Nat} (h : k' ≤ k) :
    (evaluateWithin p n k).Approximates (evaluateWithin p n k') := by
  have hused (k : Nat) : evaluateWithin p n k = evaluateWithin p (n - k) 0 := withCalls_eq n k
  rw [hused k, hused k']
  exact approximates_evaluateWithin p (Nat.sub_le_sub_left h n) 0

/-- On a larger stack, an expression has the same result unless it goes too deep on the smaller one. -/
theorem approximates_evaluate {m m' : Machine} (hprecision : m.precision = m'.precision)
    (hstack : m.stack ≤ m'.stack) : (evaluate m).Approximates (evaluate m') := by
  rw [evaluate, evaluate, hprecision]
  exact approximates_evaluateWithin _ (Nat.sub_le_sub_right hstack 9) 0

end Lexical

end Reckoner
