import Reckoner.Proofs.Reachability
import Reckoner.Proofs.ScopeSimulation

/-! Values that an expression does not refer to make no difference to it, whatever they are called in the
functions that it calls: the body of a function runs in the scope that it captured, not in its caller's. -/

namespace Reckoner
theorem lookup_eq_none_iff_not_mem {α : Type} {name : String} {bindings : List (String × α)} :
    bindings.lookup name = none ↔ name ∉ bindings.map Prod.fst := by
  rw [List.lookup_eq_none_iff, List.mem_map]
  refine ⟨fun h ⟨entry, hm, he⟩ => bne_iff_ne.1 (h entry hm) he.symm, fun h entry hm => bne_iff_ne.2 ?_⟩
  exact fun he => h ⟨entry, hm, he.symm⟩

namespace Lexical

/-- One scope has a layer of values on top of the other. -/
def unreferenced (values : List (String × Value)) : Simulation where
  failures := True
  hidden name := name ∈ values.map Prod.fst
  base s t := t = s.push values
  lookupValue := by
    rintro s _ rfl name hn
    refine .of_eq ?_ fun _ => rfl
    rw [Scope.push, Scope.lookupValue_layer, lookup_eq_none_iff_not_mem.2 hn]
  lookupFunction := by
    rintro s _ rfl name
    refine .of_eq ?_ .same
    rw [Scope.push, Scope.lookupFunction_layer]
    rfl

private theorem evaluate_push (m : Machine) (s : Scope) (e : Expr) (values : List (String × Value))
    (hv : ∀ name ∈ values.map Prod.fst, name ∉ e.references) :
    (evaluate m (s.push values) e).result = (evaluate m s e).result :=
  ((unreferenced values).respected_evaluate m s (s.push values) e (.base rfl)
    fun name hn hm => hv name hm hn).result_eq.symm

end Lexical

open Computation

/-- Scopes are lexical. On top of any scope, values under names that an expression does not refer to leave
its result as it is, be it a number or a failure, also where they shadow names that the functions it
calls, at whatever depth, do refer to. -/
theorem unreferenced_values_make_no_difference {s : Store} (hs : s.Reachable) {i : Nat} (hi : i < s.size)
    (m : Machine) (e : Expr) (values : List (String × Value))
    (hv : ∀ name ∈ values.map Prod.fst, name ∉ e.references) :
    ((do let inner ← push i values; Expr.evaluate m inner e : Computation Value) s).1.result =
      (Expr.evaluate m i e s).1.result := by
  have hl := hs.linked
  have hpushed : ((push i values >>= fun inner => Expr.evaluate m inner e) s).1 =
      Lexical.evaluate m ((s.scope i).push values) e := by
    rw [bind_of_ok (c := push i values) (s := s) (a := s.size) rfl, ← Store.scope_add hi]
    have hin : s.size < (s.add { values, parent := some i }).size := by rw [Store.size_add]; omega
    rw [← Expr.outcome_evaluate m (hl.add values (some i)) hin]
    rfl
  rw [hpushed, Lexical.evaluate_push m _ e values hv, Expr.outcome_evaluate m hl hi]

/-- A function answers with the value of its own scope to a caller who has another one of that name. -/
theorem callers_value_stays_outside :
    let s := ((Statement.define "f" [] (.symbol "a")).evaluate ⟨128, 1000⟩ 0
      ((Statement.assign "a" (.number ⟨.one, 128⟩)).evaluate ⟨128, 1000⟩ 0 (Store.empty.add {})).2).2
    s.Reachable ∧ 0 < s.size ∧ (∀ name ∈ [("a", (⟨.zero, 128⟩ : Value))].map Prod.fst,
        name ∉ (Expr.call "f" []).references) ∧
      ((do let inner ← push 0 [("a", ⟨.zero, 128⟩)]; Expr.evaluate ⟨128, 1000⟩ inner (.call "f" [])) s).1.result =
        .ok ⟨.one, 128⟩ := by
  intro s
  have hs : s.Reachable := ((Store.Reachable.empty.opened).evaluated ⟨128, 1000⟩ (by decide) _).evaluated ⟨128, 1000⟩
    (by decide) _
  have hv : ∀ name ∈ [("a", (⟨.zero, 128⟩ : Value))].map Prod.fst, name ∉ (Expr.call "f" []).references := by
    decide
  have hf : (Expr.evaluate ⟨128, 1000⟩ 0 (.call "f" []) s).1.result = .ok ⟨.one, 128⟩ := by decide +kernel
  exact ⟨hs, by decide, hv, (unreferenced_values_make_no_difference hs (by decide) ⟨128, 1000⟩ _ _ hv).trans hf⟩

end Reckoner
