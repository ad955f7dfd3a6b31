import Reckoner.Proofs.NumberIndependence
import Reckoner.Proofs.Reachability

/-! Traces of evaluation. What an expression goes through is told by the frames around it without their
numbers: where these frames are alike, two evaluations of it go through the same events, one perhaps not as
far as the other. -/

namespace Reckoner
open Lexical (Scope)
open Traced (InStep)

/-- The same names have values, and the same functions are bound to the same names. A function is told by its
parameters and its body; in a reachable store, it has captured the frame that binds it. -/
structure Frame.AlikeButNumbers (f g : Frame) : Prop where
  values (name : String) : (f.values.lookup name).isSome = (g.values.lookup name).isSome
  functions (name : String) :
    (f.functions.lookup name).map Function.lambda = (g.functions.lookup name).map Function.lambda

/-- Two scopes of as many frames, which are alike but for their numbers, from the innermost outwards. -/
def Store.AlikeButNumbers (s : Store) (i : Nat) (t : Store) (j : Nat) : Prop :=
  List.Forall₂ Frame.AlikeButNumbers (s.chain i) (t.chain j)

private theorem Frame.AlikeButNumbers.shape {f g : Frame} (h : f.AlikeButNumbers g) :
    f.layer.shape = g.layer.shape := by
  refine Prod.ext (funext h.values) (funext fun name => ?_)
  have hlookup (frame : Frame) : frame.layer.functions.lookup name =
      (frame.functions.lookup name).map Function.lambda := Store.lookup_map ..
  exact (hlookup f).trans ((h.functions name).trans (hlookup g).symm)

private theorem Store.AlikeButNumbers.shape {s t : Store} {i j : Nat} (h : s.AlikeButNumbers i t j)
    (hi : i < s.size) (hj : j < t.size) : (s.scope i).shape = (t.scope j).shape := by
  rw [Scope.shape, Scope.shape, layers_scope hi, layers_scope hj]
  rw [AlikeButNumbers] at h
  generalize s.chain i = fs at h ⊢
  generalize t.chain j = gs at h ⊢
  induction h with
  | nil => rfl
  | cons hframe _ ih => exact List.cons_eq_cons.2 ⟨hframe.shape, ih⟩

private theorem Traced.InStep.comparable {α β : Type} {r : α → β → Prop} {x : Traced α} {y : Traced β}
    (h : InStep r x y) : x.trace <+: y.trace ∨ y.trace <+: x.trace := by
  cases h with
  | ok _ trace => exact .inl (List.prefix_refl trace)
  | left _ _ hp => exact .inl hp
  | right _ _ hp => exact .inr hp

/-- Numbers do not steer control flow. In contexts that are alike but for their numbers, an expression goes
through the same events, at whatever precisions and with whatever budgets: one trace begins with the other,
and they are equal if both evaluations come to a number. -/
theorem numbers_do_not_steer_evaluation {s t : Store} (hs : s.Reachable) (ht : t.Reachable) {i j : Nat}
    (hi : i < s.size) (hj : j < t.size) (h : s.AlikeButNumbers i t j) (p q n m : Nat) (e : Expr) :
    let x := (Expr.evaluateWithin p n 0 i e s).1
    let y := (Expr.evaluateWithin q m 0 j e t).1
    (x.trace <+: y.trace ∨ y.trace <+: x.trace) ∧
      ∀ v w, x.result = .ok v → y.result = .ok w → x.trace = y.trace := by
  intro x y
  have hx : x = Lexical.evaluateWithin p n 0 (s.scope i) e :=
    (Expr.agrees_evaluateWithin p n 0 s i e hs.linked hi s hs.linked (.refl s)).1
  have hy : y = Lexical.evaluateWithin q m 0 (t.scope j) e :=
    (Expr.agrees_evaluateWithin q m 0 t j e ht.linked hj t ht.linked (.refl t)).1
  have hstep : InStep (fun _ _ => True) x y :=
    by
    rw [hx, hy]
    exact Lexical.inStep_evaluateWithin p q n m 0 0 _ _ e (h.shape hi hj)
  exact ⟨hstep.comparable, fun _ _ hv hw => (hstep.of_ok hv hw).2⟩

/-- A quotient that fails in one of two scopes, on the way to a sum: the same names have been bound there in
another order, and to other numbers. -/
theorem reciprocal_traces_are_comparable :
    let root := Store.empty.add {}
    let f : Statement := .define "f" ["a"] (.block [.assign "y" (.symbol "a")]
      (.binary "/" (.number ⟨.one, 128⟩) (.symbol "y")))
    let e : Expr := .binary "+" (.call "f" [.symbol "x"]) (.symbol "x")
    let s := (f.evaluate ⟨128, 1000⟩ 1
      (root.add { values := [("x", ⟨.zero, 128⟩), ("z", ⟨.one, 128⟩)], parent := some 0 })).2
    let t := (f.evaluate ⟨53, 1000⟩ 1
      (root.add { values := [("z", ⟨.zero, 53⟩), ("x", ⟨.one, 53⟩)], parent := some 0 })).2
    let x := (Expr.evaluateWithin 128 20 0 1 e s).1
    let y := (Expr.evaluateWithin 53 30 0 1 e t).1
    s.Reachable ∧ t.Reachable ∧ 1 < s.size ∧ 1 < t.size ∧ s.AlikeButNumbers 1 t 1 ∧
      x.result = .error (.error .divisionByZero) ∧ y.result.isOk = true ∧
      x.trace.length < y.trace.length ∧
      (x.trace <+: y.trace ∨ y.trace <+: x.trace) ∧
      ∀ v w, x.result = .ok v → y.result = .ok w → x.trace = y.trace := by
  intro root f e s t x y
  have hroot : root.Reachable := .opened .empty
  have hs : s.Reachable := .evaluated (.pushed hroot (by decide) _) ⟨128, 1000⟩ (by decide) f
  have ht : t.Reachable := .evaluated (.pushed hroot (by decide) _) ⟨53, 1000⟩ (by decide) f
  have hi : 1 < s.size := by decide
  have hj : 1 < t.size := by decide
  have hf (m : Machine) (values : List (String × Value)) :
      f.evaluate m 1 (root.add { values, parent := some 0 }) = _ :=
    Statement.run_define (by decide) (by decide) rfl _
  have halike : s.AlikeButNumbers 1 t 1 := by
    have hs : s = _ := congrArg Prod.snd (hf ⟨128, 1000⟩ [("x", ⟨.zero, 128⟩), ("z", ⟨.one, 128⟩)])
    have ht : t = _ := congrArg Prod.snd (hf ⟨53, 1000⟩ [("z", ⟨.zero, 53⟩), ("x", ⟨.one, 53⟩)])
    rw [Store.AlikeButNumbers, hs, ht, Store.chain_eq _ 1 (by decide), Store.chain_eq _ 1 (by decide)]
    refine .cons ⟨fun name => ?_, fun name => rfl⟩ ?_
    · rw [Scope.isSome_lookup, Scope.isSome_lookup]
      show decide (name ∈ ["x", "z"]) = decide (name ∈ ["z", "x"])
      simp [or_comm]
    · show List.Forall₂ _ (Store.chain _ 0) (Store.chain _ 0)
      rw [Store.chain_eq _ 0 (by decide), Store.chain_eq _ 0 (by decide)]
      exact .cons ⟨fun name => rfl, fun name => rfl⟩ .nil
  exact ⟨hs, ht, hi, hj, halike, by decide +kernel, by decide +kernel, by decide +kernel,
    numbers_do_not_steer_evaluation hs ht hi hj halike 128 53 20 30 e⟩

end Reckoner
