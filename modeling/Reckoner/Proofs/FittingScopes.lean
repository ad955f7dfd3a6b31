import Reckoner.Proofs.LexicalEvaluation
import Reckoner.Proofs.RoundedNumbers

/-! Scopes of a precision. If every number that is bound in a scope, and every literal in a function of it or in the
tree at hand, belongs to a context of the precision and has no more bits, then evaluation gives only such numbers, and
leaves a scope of that kind. -/

namespace Reckoner
open Lexical

mutual

/-- Every literal in a tree belongs to a context of the precision and has no more bits. -/
inductive Expr.Fits (p : Nat) : Expr → Prop where
  | number {v : Value} (h : v.Fits p) : Expr.Fits p (.number v)
  | symbol (name : String) : Expr.Fits p (.symbol name)
  | unary (op : String) {e : Expr} (h : Expr.Fits p e) : Expr.Fits p (.unary op e)
  | binary (op : String) {lhs rhs : Expr} (hl : Expr.Fits p lhs) (hr : Expr.Fits p rhs) :
    Expr.Fits p (.binary op lhs rhs)
  | call (name : String) {args : List Expr} (h : ∀ e, e ∈ args → Expr.Fits p e) :
    Expr.Fits p (.call name args)
  | block {statements : List Statement} {final : Expr}
    (h : ∀ s, s ∈ statements → Statement.Fits p s) (hf : Expr.Fits p final) :
    Expr.Fits p (.block statements final)
  | misplaced {s : Statement} (h : Statement.Fits p s) : Expr.Fits p (.misplaced s)
  | foreign (text : String) : Expr.Fits p (.foreign text)

inductive Statement.Fits (p : Nat) : Statement → Prop where
  | assign (name : String) {e : Expr} (h : Expr.Fits p e) : Statement.Fits p (.assign name e)
  | define (name : String) (params : List String) {body : Expr} (h : Expr.Fits p body) :
    Statement.Fits p (.define name params body)
  | expression {e : Expr} (h : Expr.Fits p e) : Statement.Fits p (.expression e)
  | misplaced {e : Expr} (h : Expr.Fits p e) : Statement.Fits p (.misplaced e)

end

/-- Numbers and literals in a layer belong to a context of the precision and have no more bits. -/
structure Lexical.Layer.Fits (p : Nat) (layer : Layer) : Prop where
  value : ∀ name v, (name, v) ∈ layer.values → v.Fits p
  body : ∀ name params body, (name, Lambda.abstraction params body) ∈ layer.functions → body.Fits p

def Lexical.Scope.Fits (p : Nat) (s : Scope) : Prop :=
  ∀ layer, layer ∈ s.layers → layer.Fits p

def Lexical.Callee.Fits (p : Nat) : Callee → Prop
  | .builtin _ => True
  | .function f home => (∀ params body, f = .abstraction params body → body.Fits p) ∧ home.Fits p

/-- What comes out, if anything does, has a property. -/
def Traced.Gives {α : Type} (P : α → Prop) (t : Traced α) : Prop :=
  ∀ a, t.result = .ok a → P a

namespace Traced
variable {α β : Type} {P : α → Prop} {Q : β → Prop}

theorem gives_pure {a : α} (h : P a) : Gives P (pure a) := by
  rintro _ ⟨⟩
  exact h

theorem gives_record (e : Event) : Gives (fun _ => True) (record e) :=
  fun _ _ => trivial

theorem gives_fail (f : Failure) : Gives P (fail f) :=
  nofun

theorem gives_ofExcept {x : Except Error α} (h : ∀ a, x = .ok a → P a) : Gives P (ofExcept x) := by
  intro a ha
  cases x with
  | error e => cases ha
  | ok b =>
    cases ha
    exact h a rfl

theorem Gives.bind {t : Traced α} {f : α → Traced β} (ht : Gives P t) (hf : ∀ a, P a → Gives Q (f a)) :
    Gives Q (t >>= f) := by
  intro b hb
  obtain ⟨result, trace⟩ := t
  cases result with
  | error e => cases hb
  | ok a => exact hf a (ht a rfl) b hb

end Traced
open Traced

namespace Lexical
variable {p : Nat} {s : Scope} {name : String}

namespace Layer

theorem Fits.of_values {values : List (String × Value)} (h : ∀ name v, (name, v) ∈ values → v.Fits p) :
    Layer.Fits p { values } :=
  ⟨h, fun _ _ _ hf => absurd hf List.not_mem_nil⟩

theorem Fits.addValue {layer : Layer} (h : layer.Fits p) {v : Value} (hv : v.Fits p) :
    Layer.Fits p { layer with values := (name, v) :: layer.values } := by
  refine ⟨fun key w hw => ?_, h.body⟩
  rcases List.mem_cons.1 hw with he | hw
  · cases he
    exact hv
  · exact h.value key w hw

theorem Fits.addFunction {layer : Layer} (h : layer.Fits p) {params : List String} {body : Expr}
    (hb : body.Fits p) :
    Layer.Fits p { layer with functions := (name, .abstraction params body) :: layer.functions } := by
  refine ⟨h.value, fun key params body hf => ?_⟩
  rcases List.mem_cons.1 hf with he | hf
  · cases he
    exact hb
  · exact h.body key params body hf

end Layer

namespace Scope

theorem Fits.withInnermost (h : s.Fits p) {layer : Layer} (hl : layer.Fits p) :
    Scope.Fits p { s with innermost := layer } :=
  List.forall_mem_cons.2 ⟨hl, (List.forall_mem_cons.1 h).2⟩

theorem Fits.push (h : s.Fits p) {values : List (String × Value)}
    (hv : ∀ name v, (name, v) ∈ values → v.Fits p) : (s.push values).Fits p :=
  List.forall_mem_cons.2 ⟨.of_values hv, h⟩

theorem Fits.lookupValue (h : s.Fits p) (name : String) :
    Gives (·.Fits p) (ofExcept (s.lookupValue name)) := by
  refine gives_ofExcept fun v hv => ?_
  unfold Scope.lookupValue at hv
  split at hv <;> cases hv
  rename_i hfind
  obtain ⟨before, layer, after, hlayers, hl, -⟩ := List.findSome?_eq_some_iff.1 hfind
  obtain ⟨front, back, hvalues, -⟩ := List.lookup_eq_some_iff.1 hl
  exact (h layer (by rw [hlayers]; simp)).value name v (by rw [hvalues]; simp)

theorem fits_of_functionAlong? {layers : List Layer} (h : ∀ layer, layer ∈ layers → layer.Fits p)
    {f : Lambda} {home : Scope} (hf : functionAlong? name layers = some (f, home)) :
    (Callee.function f home).Fits p := by
  induction layers with
  | nil => cases hf
  | cons layer enclosing ih =>
    rw [functionAlong?] at hf
    split at hf
    · rename_i hl
      cases hf
      obtain ⟨front, back, hfunctions, -⟩ := List.lookup_eq_some_iff.1 hl
      refine ⟨fun params body he => ?_, h⟩
      exact (h layer List.mem_cons_self).body name params body (by rw [hfunctions, he]; simp)
    · exact ih (fun layer hm => h layer (List.mem_cons_of_mem _ hm)) hf

theorem Fits.lookupFunction (h : s.Fits p) (name : String) :
    Gives (Callee.Fits p) (ofExcept (s.lookupFunction name)) := by
  refine gives_ofExcept fun callee hc => ?_
  unfold Scope.lookupFunction at hc
  split at hc
  · rename_i hf
    cases hc
    exact fits_of_functionAlong? h hf
  · split at hc <;> cases hc
    trivial

theorem Fits.bindValue (h : s.Fits p) {v : Value} (hv : v.Fits p) (name : String) :
    Gives (Scope.Fits p) (ofExcept (s.bindValue name v)) := by
  refine gives_ofExcept fun t ht => ?_
  unfold Scope.bindValue at ht
  split at ht <;> cases ht
  exact h.withInnermost ((h _ List.mem_cons_self).addValue hv)

theorem Fits.bindFunction (h : s.Fits p) {params : List String} {body : Expr} (hb : body.Fits p)
    (name : String) : Gives (Scope.Fits p) (ofExcept (s.bindFunction name (.abstraction params body))) := by
  refine gives_ofExcept fun t ht => ?_
  unfold Scope.bindFunction at ht
  split at ht <;> cases ht
  exact h.withInnermost ((h _ List.mem_cons_self).addFunction hb)

end Scope

/-- In scopes of the precision, the evaluator gives numbers of the precision. -/
def Evaluator.Fits (p : Nat) (evaluate : Evaluator) : Prop :=
  ∀ (s : Scope) (e : Expr), s.Fits p → e.Fits p → Gives (·.Fits p) (evaluate s e)

/-- A value of a statement, if it has one, with the scope that is left. -/
def FitsOutcome (p : Nat) (outcome : Option Value × Scope) : Prop :=
  (∀ v, outcome.1 = some v → v.Fits p) ∧ outcome.2.Fits p

section Statements
variable {evaluate : Evaluator}

theorem gives_run (h : evaluate.Fits p) (hs : s.Fits p) {statement : Statement} (hst : statement.Fits p) :
    Gives (FitsOutcome p) (run evaluate s statement) := by
  cases hst with
  | assign name he =>
    refine (h s _ hs he).bind fun v hv => (hs.bindValue hv name).bind fun t ht => gives_pure ⟨?_, ht⟩
    rintro _ ⟨⟩
    exact hv
  | @define name params body hb =>
    have hbind : Gives (FitsOutcome p) (do
        let t ← ofExcept (s.bindFunction name (.abstraction params body))
        record (.defined name)
        return (none, t)) :=
      (hs.bindFunction hb name).bind fun t ht => (gives_record _).bind fun _ _ => gives_pure ⟨nofun, ht⟩
    rw [run]
    cases firstRepeated? [] params with
    | none => exact hbind
    | some param => exact gives_fail _
  | expression he =>
    refine (h s _ hs he).bind fun v hv => gives_pure ⟨?_, hs⟩
    rintro _ ⟨⟩
    exact hv
  | misplaced => exact gives_fail _

theorem gives_runAll (h : evaluate.Fits p) {statements : List Statement} (hs : s.Fits p)
    (hst : ∀ t, t ∈ statements → t.Fits p) : Gives (Scope.Fits p) (runAll evaluate s statements) := by
  induction statements generalizing s with
  | nil => exact gives_pure hs
  | cons statement rest ih =>
    obtain ⟨hstatement, hrest⟩ := List.forall_mem_cons.1 hst
    exact (gives_run h hs hstatement).bind fun _ ht => ih ht.2 hrest

theorem gives_evaluateArgs (h : evaluate.Fits p) (hs : s.Fits p) {args : List Expr}
    (ha : ∀ e, e ∈ args → e.Fits p) :
    Gives (fun values => ∀ v, v ∈ values → v.Fits p) (evaluateArgs evaluate s args) := by
  induction args with
  | nil => exact gives_pure nofun
  | cons e rest ih =>
    obtain ⟨he, hrest⟩ := List.forall_mem_cons.1 ha
    exact (h s e hs he).bind fun v hv => (ih hrest).bind fun values hvs =>
      gives_pure (List.forall_mem_cons.2 ⟨hv, hvs⟩)

theorem gives_applyCallee (hp : 1 ≤ p) (h : evaluate.Fits p) (name : String) {args : List Value}
    (ha : ∀ v, v ∈ args → v.Fits p) {callee : Callee} (hc : callee.Fits p) :
    Gives (·.Fits p) (applyCallee p evaluate name args callee) := by
  cases callee with
  | builtin f =>
    simp only [applyCallee]
    split
    · refine gives_ofExcept fun v hv => ?_
      cases hn : f.apply p _ with
      | error e =>
        rw [hn] at hv
        cases hv
      | ok n =>
        rw [hn] at hv
        cases hv
        exact ⟨rfl, Builtin.fits_apply hp f _ n hn⟩
    · exact gives_fail _
  | function f home =>
    obtain ⟨hbody, hhome⟩ := hc
    cases f with
    | tagged text => exact gives_fail _
    | abstraction params body =>
      simp only [applyCallee]
      split
      · refine (gives_record _).bind fun _ _ => h _ body (hhome.push fun key v hv => ?_) (hbody _ _ rfl)
        exact ha v (List.of_mem_zip hv).2
      · exact gives_fail _

end Statements

theorem fits_evaluateOver (hp : 1 ≤ p) {below : Nat → Evaluator} (h : ∀ k, (below k).Fits p) :
    (evaluateOver p below).Fits p := by
  intro s e hs he
  refine (gives_record _).bind fun _ _ => ?_
  cases he with
  | number hv => exact gives_pure hv
  | symbol name => exact hs.lookupValue name
  | unary op he => exact (h 0 s _ hs he).bind fun a ha _ hv => fits_applyUnary hp ha.precision hv
  | binary op hl hr =>
    exact (h 0 s _ hs hl).bind fun a ha => (h 0 s _ hs hr).bind fun b _ _ hv =>
      fits_applyBinary hp ha.precision hv
  | call name hargs =>
    exact (hs.lookupFunction name).bind fun callee hc =>
      (gives_evaluateArgs (h 2) hs hargs).bind fun values hv => gives_applyCallee hp (h 2) name hv hc
  | block hst hf =>
    exact (gives_record _).bind fun _ _ =>
      (gives_runAll (h 2) (hs.push fun _ _ hv => absurd hv List.not_mem_nil) hst).bind fun inner hi => h 1 inner _ hi hf
  | misplaced => exact gives_fail _
  | foreign => exact gives_fail _

theorem fits_evaluateWithin (hp : 1 ≤ p) (n k : Nat) : (evaluateWithin p n k).Fits p :=
  withCalls_induction (fun _ _ _ _ => gives_fail _) (fun _ h => fits_evaluateOver hp h) n k

theorem gives_run_evaluate {m : Machine} (hp : 1 ≤ m.precision) (hs : s.Fits m.precision) {statement : Statement}
    (hst : statement.Fits m.precision) : Gives (FitsOutcome m.precision) (run (evaluate m) s statement) :=
  gives_run (fits_evaluateWithin hp _ _) hs hst

end Lexical

end Reckoner
