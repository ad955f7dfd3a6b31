import Mathlib.Logic.Relation
import Reckoner.Proofs.NumberIndependence
import Reckoner.Proofs.ScopeGrowth
import Reckoner.Proofs.Reachability

/-! Calls that run at once. The evaluation of an expression starts that of its parts and enters the bodies
of the functions that it calls, and a call runs while its body is evaluated. A function that is entered
again while a call of it runs is in the situation of that call, except for its arguments, and numbers do
not steer evaluation: had both calls come to values, they would have gone through the same events,
although the outer call has those of the inner one and more. So the outer call comes to no value. -/

namespace Reckoner
open Computation Lexical Relation

/-- An expression that is to be evaluated, with the levels that are left. -/
structure Evaluation where
  levels : Nat
  place : Nat
  expr : Expr
  store : Store

/-- A call as its body is entered: the function, which is known by the frame that holds it and by its name
there, the arguments, the levels that are left, and the store. -/
structure Call where
  home : Nat
  name : String
  params : List String
  body : Expr
  args : List Value
  levels : Nat
  store : Store

/-- The expression that a statement evaluates. -/
def Statement.expression? : Statement → Option Expr
  | .assign _ e | .expression e => some e
  | .define .. | .misplaced _ => none

namespace Evaluation
open Expr (evaluateWithin)

def outcome (p : Nat) (t : Evaluation) : Traced Value × Store :=
  evaluateWithin p t.levels 0 t.place t.expr t.store

/-- The first evaluation starts the second one, for a part of its expression: what is evaluated before that part
came to values. -/
inductive Starts (p : Nat) : Evaluation → Evaluation → Prop where
  | operand {n i : Nat} {op : String} {e : Expr} {s : Store} :
    Starts p ⟨n + 1, i, .unary op e, s⟩ ⟨n, i, e, s⟩
  | lhs {n i : Nat} {op : String} {l r : Expr} {s : Store} :
    Starts p ⟨n + 1, i, .binary op l r, s⟩ ⟨n, i, l, s⟩
  | rhs {n i : Nat} {op : String} {l r : Expr} {s t : Store} {v : Value} {trace : List Event}
    (hl : evaluateWithin p n 0 i l s = (⟨.ok v, trace⟩, t)) :
    Starts p ⟨n + 1, i, .binary op l r, s⟩ ⟨n, i, r, t⟩
  | argument {n i : Nat} {name : String} {before after : List Expr} {e : Expr} {s t : Store}
    {callable : Callable} {values : List Value} {trace : List Event}
    (hf : s.lookupFunction name i = .ok callable)
    (hb : Expr.evaluateArgs (evaluateWithin p n 2) i before s = (⟨.ok values, trace⟩, t)) :
    Starts p ⟨n + 1, i, .call name (before ++ e :: after), s⟩ ⟨n - 2, i, e, t⟩
  | statement {n i : Nat} {before after : List Statement} {statement : Statement} {final e : Expr}
    {s t : Store} {trace : List Event}
    (hb : Statement.runAll (evaluateWithin p n 2) s.size before (s.add { parent := some i }) =
      (⟨.ok (), trace⟩, t))
    (he : statement.expression? = some e) :
    Starts p ⟨n + 1, i, .block (before ++ statement :: after) final, s⟩ ⟨n - 2, s.size, e, t⟩
  | final {n i : Nat} {statements : List Statement} {final : Expr} {s t : Store} {trace : List Event}
    (hb : Statement.runAll (evaluateWithin p n 2) s.size statements (s.add { parent := some i }) =
      (⟨.ok (), trace⟩, t)) :
    Starts p ⟨n + 1, i, .block statements final, s⟩ ⟨n - 1, s.size, final, t⟩

/-- It enters the body of the function that its expression calls. -/
inductive Enters (p : Nat) : Evaluation → Call → Prop where
  | call {n i home : Nat} {name ownName : String} {args : List Expr} {params : List String} {body : Expr}
    {s t : Store} {values : List Value} {trace : List Event}
    (hf : s.lookupFunction name i = .ok (.function (.closure ownName params body home)))
    (ha : Expr.evaluateArgs (evaluateWithin p n 2) i args s = (⟨.ok values, trace⟩, t))
    (hl : values.length = params.length) :
    Enters p ⟨n + 1, i, .call name args, s⟩ ⟨home, ownName, params, body, values, n - 2, t⟩

/-- It comes to a call, not in the body of another one. -/
def Makes (p : Nat) (t : Evaluation) (c : Call) : Prop :=
  ∃ u, ReflTransGen (Starts p) t u ∧ u.Enters p c

end Evaluation

namespace Call

/-- The function that is called. -/
def function (c : Call) : Function :=
  .closure c.name c.params c.body c.home

/-- The evaluation of the body, in a new frame that binds the parameters. -/
def evaluation (c : Call) : Evaluation where
  levels := c.levels
  place := c.store.size
  expr := c.body
  store := c.store.add { values := c.params.zip c.args, parent := some c.home }

/-- Both are calls of one function. -/
def Same (c d : Call) : Prop :=
  c.home = d.home ∧ c.name = d.name

/-- The second call is made by the body of the first one. -/
def Within (p : Nat) (c d : Call) : Prop :=
  c.evaluation.Makes p d

end Call

/-- The evaluation comes to a call, be it in the bodies of other calls. -/
def Evaluation.Occurs (p : Nat) (t : Evaluation) (c : Call) : Prop :=
  ∃ first, t.Makes p first ∧ ReflTransGen (Call.Within p) first c

/-- A statement that is run with a budget of levels comes to a call. -/
def Statement.Occurs (p n i : Nat) (statement : Statement) (s : Store) (c : Call) : Prop :=
  ∃ e, statement.expression? = some e ∧ (⟨n, i, e, s⟩ : Evaluation).Occurs p c

/-- A function that looking up a name finds is held by the frame of its home, under that name. -/
theorem Store.lookupFunction_closure {s : Store} (hs : s.Linked) {name ownName : String} {i home : Nat}
    {params : List String} {body : Expr} (hi : i < s.size)
    (h : s.lookupFunction name i = .ok (.function (.closure ownName params body home))) :
    ownName = name ∧ home < s.size ∧
      (s.frameAt home).functions.lookup name = some (.closure name params body home) := by
  have hf : (s.chain i).findSome? (·.functions.lookup name) =
      some (.closure ownName params body home) := by
    rw [lookupFunction] at h
    split at h
    · rename_i f hf
      cases h
      exact hf
    · split at h <;> cases h
  clear h
  induction i using Nat.strongRecOn with
  | ind i ih =>
    rw [chain_eq s i hi, List.findSome?_cons] at hf
    split at hf
    · rename_i f hl
      obtain rfl := Option.some.inj hf
      obtain ⟨before, after, hmem, -⟩ := List.lookup_eq_some_iff.1 hl
      obtain ⟨rfl, rfl⟩ := hs i _ name ownName params body home (getElem?_frameAt hi)
        (by rw [hmem]; simp)
      exact ⟨rfl, hi, hl⟩
    · cases hq : (s.frameAt i).parent with
      | none => rw [hq] at hf; cases hf
      | some q =>
        rw [hq] at hf
        have hlt := parent_lt hq
        exact ih q hlt (by omega) hf

/-- A computation of two parts that comes to a value goes through the events of both parts. -/
theorem Traced.ok_of_bind {α β : Type} {x : Traced α} {f : α → Traced β} {b : β} {trace : List Event}
    (h : x >>= f = ⟨.ok b, trace⟩) :
    ∃ a first last, x = ⟨.ok a, first⟩ ∧ f a = ⟨.ok b, last⟩ ∧ trace = first ++ last := by
  obtain ⟨result, first⟩ := x
  cases result with
  | error e => cases h
  | ok a =>
    rw [bind_of_ok] at h
    rcases hf : f a with ⟨result, last⟩
    rw [hf] at h
    cases h
    exact ⟨a, first, last, rfl, hf, rfl⟩

namespace Lexical
variable {f : Evaluator} {s t : Scope} {trace : List Event}

private theorem ok_of_mem_args {args : List Expr} {values : List Value}
    (h : evaluateArgs f s args = ⟨.ok values, trace⟩) {e : Expr} (he : e ∈ args) :
    ∃ v part, f s e = ⟨.ok v, part⟩ ∧ part.length ≤ trace.length := by
  induction args generalizing values trace with
  | nil => cases he
  | cons e' rest ih =>
    obtain ⟨v, first, last, hv, hr, rfl⟩ := Traced.ok_of_bind h
    rcases List.mem_cons.1 he with rfl | he
    · exact ⟨v, first, hv, by simp⟩
    · obtain ⟨vs, middle, _, hvs, hp, rfl⟩ := Traced.ok_of_bind hr
      obtain ⟨w, part, hw, hl⟩ := ih hvs he
      refine ⟨w, part, hw, ?_⟩
      simp only [List.length_append]
      omega

theorem ok_of_expression {statement : Statement} {e : Expr} (he : statement.expression? = some e)
    {r : Option Value × Scope} (h : run f s statement = ⟨.ok r, trace⟩) :
    ∃ v part, f s e = ⟨.ok v, part⟩ ∧ part.length ≤ trace.length := by
  cases statement with
  | assign name e' | expression e' =>
    cases he
    obtain ⟨v, first, last, hv, -, rfl⟩ := Traced.ok_of_bind h
    exact ⟨v, first, hv, by simp⟩
  | define name params body => cases he
  | misplaced e' => cases he

private theorem ok_of_runAll_append {before after : List Statement} {statement : Statement}
    (h : runAll f s (before ++ statement :: after) = ⟨.ok t, trace⟩) :
    ∃ u r first part, runAll f s before = ⟨.ok u, first⟩ ∧ run f u statement = ⟨.ok r, part⟩ ∧
      part.length ≤ trace.length := by
  induction before generalizing s trace with
  | nil =>
    obtain ⟨r, part, last, hr, -, rfl⟩ := Traced.ok_of_bind h
    exact ⟨s, r, [], part, rfl, hr, by simp⟩
  | cons earlier rest ih =>
    obtain ⟨⟨v, s'⟩, first, last, hr, hrest, rfl⟩ := Traced.ok_of_bind h
    obtain ⟨u, r', middle, part, hu, hs, hl⟩ := ih hrest
    refine ⟨u, r', first ++ middle, part, ?_, hs, ?_⟩
    · simp only [runAll, hr, Traced.bind_of_ok, hu]
    · simp only [List.length_append]
      omega

/-- What an expression needs to come to a value, behind the event that it starts with. -/
theorem ok_of_evaluateOver {p : Nat} {below : Nat → Evaluator} {e : Expr} {v : Value}
    (h : evaluateOver p below s e = ⟨.ok v, trace⟩) :
    match e with
    | .unary _ operand => ∃ a part, below 0 s operand = ⟨.ok a, part⟩ ∧ part.length < trace.length
    | .binary _ l r => ∃ a b first second, below 0 s l = ⟨.ok a, first⟩ ∧ below 0 s r = ⟨.ok b, second⟩ ∧
        first.length + second.length < trace.length
    | .call name args => ∃ callee values first second, s.lookupFunction name = .ok callee ∧
        evaluateArgs (below 2) s args = ⟨.ok values, first⟩ ∧
        applyCallee p (below 2) name values callee = ⟨.ok v, second⟩ ∧
        first.length + second.length < trace.length
    | .block statements final => ∃ inner first second,
        runAll (below 2) (s.push []) statements = ⟨.ok inner, first⟩ ∧
        below 1 inner final = ⟨.ok v, second⟩ ∧ first.length + second.length < trace.length
    | _ => True := by
  obtain ⟨_, _, rest, hrecord, hrest, rfl⟩ := Traced.ok_of_bind h
  cases hrecord
  cases e with
  | unary op operand =>
    obtain ⟨a, first, _, ha, -, rfl⟩ := Traced.ok_of_bind hrest
    refine ⟨a, first, ha, ?_⟩
    simp only [List.length_append, List.length_cons, List.length_nil]
    omega
  | binary op l r =>
    obtain ⟨a, first, _, ha, hlater, rfl⟩ := Traced.ok_of_bind hrest
    obtain ⟨b, second, _, hb, -, rfl⟩ := Traced.ok_of_bind hlater
    refine ⟨a, b, first, second, ha, hb, ?_⟩
    simp only [List.length_append, List.length_cons, List.length_nil]
    omega
  | call name args =>
    obtain ⟨callee, _, _, hcallee, hlater, rfl⟩ := Traced.ok_of_bind hrest
    obtain ⟨values, first, second, hvalues, happly, rfl⟩ := Traced.ok_of_bind hlater
    have hc := Traced.result_ofExcept.1 (congrArg Traced.result hcallee)
    refine ⟨callee, values, first, second, hc, hvalues, happly, ?_⟩
    simp only [List.length_append, List.length_cons, List.length_nil]
    omega
  | block statements final =>
    obtain ⟨_, _, _, -, hlater, rfl⟩ := Traced.ok_of_bind hrest
    obtain ⟨inner, first, second, hinner, hfinal, rfl⟩ := Traced.ok_of_bind hlater
    refine ⟨inner, first, second, hinner, hfinal, ?_⟩
    simp only [List.length_append, List.length_cons, List.length_nil]
    omega
  | _ => trivial

/-- Statements that succeed in scopes of the same shape leave scopes of the same shape. -/
theorem shape_of_runAll {p n m : Nat} {s' t' : Scope} {trace' : List Event} {statements : List Statement}
    (hs : s.shape = s'.shape) (h : runAll (evaluateWithin p n 2) s statements = ⟨.ok t, trace⟩)
    (h' : runAll (evaluateWithin p m 2) s' statements = ⟨.ok t', trace'⟩) : t.shape = t'.shape := by
  have hstep := inStep_runAll (inStep_evaluateWithin p p n m 2 2) hs statements
  rw [h, h'] at hstep
  exact (hstep.of_ok rfl rfl).1

end Lexical

namespace Evaluation

/-- The place is one of a linked store. -/
structure Proper (t : Evaluation) : Prop where
  linked : t.store.Linked
  lt : t.place < t.store.size

/-- In some scope that differs from its own in numbers only, and with some budget, the
expression comes to a value after so many events. -/
def Takes (p : Nat) (t : Evaluation) (count : Nat) : Prop :=
  ∃ (n : Nat) (scope : Scope) (v : Value) (trace : List Event),
    scope.shape = (t.store.scope t.place).shape ∧
    Lexical.evaluateWithin p n 0 scope t.expr = ⟨.ok v, trace⟩ ∧ trace.length = count

variable {p : Nat} {t u : Evaluation} {c : Call}

/-- The second evaluation happens within the first one: the frames are kept, and if the first one comes to
a value, then so does the second one, after fewer events. -/
structure Outlasts (p : Nat) (t u : Evaluation) : Prop where
  keeps : t.store.Keeps u.store
  takes {count : Nat} (h : t.Takes p count) : ∃ fewer, u.Takes p fewer ∧ fewer < count

theorem Outlasts.trans {p : Nat} {t u w : Evaluation} (h : t.Outlasts p u) (h' : u.Outlasts p w) :
    t.Outlasts p w := by
  refine ⟨h.keeps.trans h'.keeps, fun hcount => ?_⟩
  obtain ⟨fewer, hfewer, hlt⟩ := h.takes hcount
  obtain ⟨fewest, hfewest, hlt'⟩ := h'.takes hfewer
  exact ⟨fewest, hfewest, by omega⟩

/-- The count depends on the shape of the scope only. -/
theorem takes_unique (he : t.expr = u.expr)
    (hs : (t.store.scope t.place).shape = (u.store.scope u.place).shape) {a b : Nat} (ha : t.Takes p a)
    (hb : u.Takes p b) : a = b := by
  obtain ⟨n, s, v, trace, hshape, hr, rfl⟩ := ha
  obtain ⟨m, s', v', trace', hshape', hr', rfl⟩ := hb
  have hstep := inStep_evaluateWithin p p n m 0 0 s s' t.expr (hshape.trans (hs.trans hshape'.symm))
  rw [hr, he, hr'] at hstep
  exact congrArg List.length (hstep.of_ok rfl rfl).2

/-- What an evaluation leaves behind on the way to its next part. -/
theorem proper_of_outcome (h : t.Proper) {v : Value} {trace : List Event} {after : Store}
    (ho : t.outcome p = (⟨.ok v, trace⟩, after)) : after.Linked ∧ t.store.Keeps after := by
  have hy := (Expr.agrees_evaluateWithin p t.levels 0 t.store t.place t.expr h.linked h.lt) t.store
    h.linked (.refl _)
  rw [show Expr.evaluateWithin p t.levels 0 t.place t.expr t.store = _ from ho] at hy
  exact hy.2

theorem proper_of_args (h : t.Proper) {n : Nat} {args : List Expr} {values : List Value}
    {trace : List Event} {after : Store}
    (ha : Expr.evaluateArgs (Expr.evaluateWithin p n 2) t.place args t.store =
      (⟨.ok values, trace⟩, after)) :
    Lexical.evaluateArgs (Lexical.evaluateWithin p n 2) (t.store.scope t.place) args =
      ⟨.ok values, trace⟩ ∧ after.Linked ∧ t.store.Keeps after := by
  have hy := Expr.yields_evaluateArgs (Expr.agrees_evaluateWithin p n 2) h.linked h.lt args t.store
    h.linked (.refl _)
  rw [ha] at hy
  exact ⟨hy.1.symm, hy.2⟩

/-- What statements of a block leave behind. -/
theorem proper_of_runAll (h : t.Proper) {n : Nat} {statements : List Statement} {trace : List Event}
    {after : Store}
    (hb : Statement.runAll (Expr.evaluateWithin p n 2) t.store.size statements
      (t.store.add { parent := some t.place }) = (⟨.ok (), trace⟩, after)) :
    Lexical.runAll (Lexical.evaluateWithin p n 2) ((t.store.scope t.place).push []) statements =
      ⟨.ok (after.scope t.store.size), trace⟩ ∧
    after.Linked ∧ t.store.size < after.size ∧ t.store.Keeps after := by
  have hl := Statement.lands_runAll (Expr.agrees_evaluateWithin p n 2) (h.linked.add [] (some t.place))
    (i := t.store.size) (by simp) statements
  have hk := Statement.keeping_runAll (Expr.keeping_evaluateWithin p n 2) (Nat.le_refl t.store.size)
    statements _ (t.store.keeps_add { parent := some t.place })
  rw [hb] at hk
  rw [hb, Store.scope_add h.lt] at hl
  generalize hr : (Lexical.runAll _ _ _ >>= fun scope => pure ((), scope)) = r at hl
  cases hl with
  | ok hl hlt =>
    obtain ⟨scope, first, last, hfirst, hlast, rfl⟩ := Traced.ok_of_bind hr
    cases hlast
    rw [List.append_nil]
    exact ⟨hfirst, hl, hlt, hk⟩

/-- A value takes one level at least, and the event that evaluation starts with. -/
theorem Takes.over {count : Nat} (h : t.Takes p count) :
    ∃ (n : Nat) (scope : Scope) (v : Value) (trace : List Event),
      scope.shape = (t.store.scope t.place).shape ∧
      Lexical.evaluateOver p (Lexical.evaluateWithin p n) scope t.expr = ⟨.ok v, trace⟩ ∧
      trace.length = count := by
  obtain ⟨n, scope, v, trace, hshape, hr, hcount⟩ := h
  cases n with
  | zero => cases hr
  | succ n => exact ⟨n, scope, v, trace, hshape, hr, hcount⟩

theorem takes_of_skip {n k : Nat} {scope : Scope} {v : Value} {trace : List Event}
    (hshape : scope.shape = (t.store.scope t.place).shape)
    (hr : Lexical.evaluateWithin p n k scope t.expr = ⟨.ok v, trace⟩) : t.Takes p trace.length := by
  rw [Lexical.evaluateWithin, withCalls_eq] at hr
  exact ⟨n - k, scope, v, trace, hshape, hr, rfl⟩

private theorem Starts.proper (hs : Starts p t u) (h : t.Proper) : u.Proper ∧ t.Outlasts p u := by
  cases hs with
  | operand =>
    refine ⟨⟨h.linked, h.lt⟩, .refl _, fun hc => ?_⟩
    obtain ⟨n, scope, v, trace, hshape, hr, rfl⟩ := hc.over
    obtain ⟨a, part, ha, hlt⟩ := ok_of_evaluateOver hr
    exact ⟨part.length, takes_of_skip hshape ha, hlt⟩
  | lhs =>
    refine ⟨⟨h.linked, h.lt⟩, .refl _, fun hc => ?_⟩
    obtain ⟨n, scope, v, trace, hshape, hr, rfl⟩ := hc.over
    obtain ⟨a, b, first, second, ha, -, hlt⟩ := ok_of_evaluateOver hr
    exact ⟨first.length, takes_of_skip hshape ha, by omega⟩
  | @rhs n i op l r s after w trace hl =>
    obtain ⟨hlinked, hk⟩ := proper_of_outcome (t := ⟨n, i, l, s⟩) ⟨h.linked, h.lt⟩ hl
    refine ⟨⟨hlinked, Nat.lt_of_lt_of_le h.lt hk.size_le⟩, hk, fun hc => ?_⟩
    obtain ⟨n, scope, v, trace, hshape, hr, rfl⟩ := hc.over
    obtain ⟨a, b, first, second, -, hb, hlt⟩ := ok_of_evaluateOver hr
    exact ⟨second.length, takes_of_skip (hk.scope h.lt ▸ hshape) hb, by omega⟩
  | @argument n i name before after e s t' callable values trace hf hb =>
    obtain ⟨-, hlinked, hk⟩ := proper_of_args h hb
    refine ⟨⟨hlinked, Nat.lt_of_lt_of_le h.lt hk.size_le⟩, hk, fun hc => ?_⟩
    obtain ⟨n, scope, v, trace, hshape, hr, rfl⟩ := hc.over
    obtain ⟨callee, vs, first, second, -, hvs, -, hlt⟩ := ok_of_evaluateOver hr
    have hmem : e ∈ before ++ e :: after := List.mem_append_cons_self
    obtain ⟨w, part, hw, hle⟩ := ok_of_mem_args hvs hmem
    exact ⟨part.length, takes_of_skip (hk.scope h.lt ▸ hshape) hw, by omega⟩
  | @statement n i before after st final e s t' trace hb he =>
    obtain ⟨hbefore, hlinked, hlt, hk⟩ := proper_of_runAll h hb
    refine ⟨⟨hlinked, hlt⟩, hk, fun hc => ?_⟩
    obtain ⟨m, scope, v, trace, hshape, hr, rfl⟩ := hc.over
    obtain ⟨inner, first, second, hinner, -, hlt⟩ := ok_of_evaluateOver hr
    obtain ⟨middle, r, _, part, hmiddle, hst, hle⟩ := ok_of_runAll_append hinner
    obtain ⟨w, part', hw, hle'⟩ := ok_of_expression he hst
    have hs := shape_of_runAll (Scope.shape_push hshape rfl) hmiddle hbefore
    exact ⟨part'.length, takes_of_skip hs hw, by omega⟩
  | @final n i statements final s t' trace hb =>
    obtain ⟨hbefore, hlinked, hlt, hk⟩ := proper_of_runAll h hb
    refine ⟨⟨hlinked, hlt⟩, hk, fun hc => ?_⟩
    obtain ⟨m, scope, v, trace, hshape, hr, rfl⟩ := hc.over
    obtain ⟨inner, first, second, hinner, hfinal, hlt⟩ := ok_of_evaluateOver hr
    have hs := shape_of_runAll (Scope.shape_push hshape rfl) hinner hbefore
    exact ⟨second.length, takes_of_skip hs hfinal, by omega⟩

end Evaluation

namespace Call
variable {p : Nat} {c d : Call}

/-- The function is held by the frame of its home, in a linked store, and takes that many arguments. -/
structure Proper (c : Call) : Prop where
  linked : c.store.Linked
  lt : c.home < c.store.size
  held : (c.store.frameAt c.home).functions.lookup c.name = some c.function
  arity : c.args.length = c.params.length

private theorem Proper.evaluation (h : c.Proper) : c.evaluation.Proper :=
  ⟨h.linked.add _ _, by simp [Call.evaluation]⟩

/-- The scope of the body, without numbers, is that of the function with the names of the parameters. -/
theorem Proper.shape (h : c.Proper) {scope : Scope} {values : List Value}
    (hs : scope.shape = (c.store.scope c.home).shape) (hl : values.length = c.params.length) :
    (scope.push (c.params.zip values)).shape =
      (c.evaluation.store.scope c.evaluation.place).shape := by
  rw [Call.evaluation, Store.scope_add h.lt]
  exact Scope.shape_push hs (by rw [map_fst_zip hl, map_fst_zip h.arity])

end Call

private theorem Evaluation.Enters.proper {p : Nat} {t : Evaluation} {c : Call} (hc : t.Enters p c)
    (h : t.Proper) : c.Proper ∧ t.Outlasts p c.evaluation := by
  cases hc with
  | @call n i home name ownName args params body s after values trace hf ha hl =>
    obtain ⟨-, hlinked, hk⟩ := proper_of_args h ha
    obtain ⟨rfl, hlt, hheld⟩ := Store.lookupFunction_closure h.linked h.lt hf
    have hproper : Call.Proper ⟨home, ownName, params, body, values, n - 2, after⟩ :=
      ⟨hlinked, Nat.lt_of_lt_of_le hlt hk.size_le, hk.frameAt hlt ▸ hheld, hl⟩
    refine ⟨hproper, hk.trans (after.keeps_add _), fun hc => ?_⟩
    obtain ⟨m, scope, v, trace, hshape, hr, rfl⟩ := hc.over
    obtain ⟨callee, vs, first, second, hcallee, -, happly, hcount⟩ := ok_of_evaluateOver hr
    have hlook := Store.lookupFunction_scope h.linked ownName h.lt
    simp only at hf hlook
    rw [hf] at hlook
    obtain ⟨callee', hcallee', hmeans⟩ := hlook
    cases hmeans with
    | closure _ _ _ hp =>
      have hstep := Scope.inStep_lookupFunction hshape ownName
      rw [hcallee, hcallee'] at hstep
      obtain ⟨halike, -⟩ := hstep.of_ok rfl rfl
      cases halike with
      | function f hs =>
        rw [applyCallee] at happly
        split at happly
        · rename_i hvs
          obtain ⟨_, _, part, -, hbody, rfl⟩ := Traced.ok_of_bind happly
          refine ⟨part.length, takes_of_skip (hproper.shape (hs.trans ?_) hvs) hbody, ?_⟩
          · exact congrArg Scope.shape (hk.scope hlt).symm
          · simp only [List.length_append] at hcount
            omega
        · cases happly

theorem Evaluation.Makes.proper {p : Nat} {t : Evaluation} {c : Call} (hm : t.Makes p c)
    (h : t.Proper) : c.Proper ∧ t.Outlasts p c.evaluation := by
  obtain ⟨u, htu, hc⟩ := hm
  induction htu using ReflTransGen.head_induction_on with
  | refl => exact hc.proper h
  | head hs _ ih =>
    obtain ⟨hu, htu⟩ := hs.proper h
    obtain ⟨hproper, huc⟩ := ih hu
    exact ⟨hproper, htu.trans huc⟩

namespace Call
variable {p : Nat} {c d : Call}

private theorem Within.proper (hw : c.Within p d) (h : c.Proper) :
    d.Proper ∧ c.evaluation.Outlasts p d.evaluation :=
  Evaluation.Makes.proper hw h.evaluation

theorem proper_of_transGen (hw : TransGen (Within p) c d) (h : c.Proper) :
    d.Proper ∧ c.evaluation.Outlasts p d.evaluation := by
  induction hw with
  | single hw => exact hw.proper h
  | tail _ hw ih =>
    obtain ⟨hb, hcb⟩ := ih
    obtain ⟨hd, hbd⟩ := hw.proper hb
    exact ⟨hd, hcb.trans hbd⟩

/-- A function that is entered while a call of it runs is the same, and so are the names that its body has
around it. -/
theorem Same.situation (hs : c.Same d) (hc : c.Proper) (hd : d.Proper)
    (hk : c.evaluation.store.Keeps d.evaluation.store) :
    c.body = d.body ∧ (c.evaluation.store.scope c.evaluation.place).shape =
      (d.evaluation.store.scope d.evaluation.place).shape := by
  obtain ⟨hhome, hname⟩ := hs
  have hkeeps : c.store.Keeps d.evaluation.store := (c.store.keeps_add _).trans hk
  have hkeeps' : d.store.Keeps d.evaluation.store := d.store.keeps_add _
  have hheld := hd.held
  rw [← hkeeps'.frameAt hd.lt, ← hhome, ← hname, hkeeps.frameAt hc.lt, hc.held] at hheld
  obtain ⟨-, hparams, hbody, -⟩ := Function.closure.inj (Option.some.inj hheld)
  have hscope : (c.store.scope c.home).shape = (d.store.scope d.home).shape := by
    rw [← hkeeps'.scope hd.lt, ← hhome, hkeeps.scope hc.lt]
  have hshape := hd.shape hscope (hparams ▸ hc.arity)
  rw [← hparams] at hshape
  exact ⟨hbody, (hc.shape rfl hc.arity).symm.trans hshape⟩

/-- A call during which its function is entered again comes to no value, whatever its arguments are. -/
theorem not_takes_of_same (h : c.Proper) (hw : TransGen (Within p) c d) (hs : c.Same d) (count : Nat) :
    ¬ c.evaluation.Takes p count := by
  intro hcount
  obtain ⟨hd, hcd⟩ := proper_of_transGen hw h
  obtain ⟨fewer, hfewer, hlt⟩ := hcd.takes hcount
  obtain ⟨hbody, hshape⟩ := hs.situation h hd hcd.keeps
  exact absurd (Evaluation.takes_unique hbody hshape hcount hfewer) (by omega)

/-- The budget and the arguments that a call comes to a value with do not matter. -/
theorem takes_of_applyCallable (h : c.Proper) {m : Nat} {args : List Value} {v : Value}
    (hv : (Expr.applyCallable p (Expr.evaluateWithin p m 0) c.name args (.function c.function)
      c.store).1.result = .ok v) : ∃ count, c.evaluation.Takes p count := by
  have hm : Callable.Means c.store c.name (.function c.function)
    (.function (.abstraction c.params c.body) (c.store.scope c.home)) := .closure _ _ _ h.lt
  obtain ⟨hr, -⟩ := Expr.yields_applyCallable (Expr.agrees_evaluateWithin p m 0) p c.name args hm c.store
    h.linked (.refl _)
  rcases ho : Lexical.applyCallee p (Lexical.evaluateWithin p m 0) c.name args
    (.function (.abstraction c.params c.body) (c.store.scope c.home)) with ⟨result, trace⟩
  rw [hr, ho] at hv
  subst hv
  rw [applyCallee] at ho
  split at ho
  · rename_i hl
    obtain ⟨_, _, part, -, hbody, -⟩ := Traced.ok_of_bind ho
    exact ⟨part.length, Evaluation.takes_of_skip (h.shape rfl hl) hbody⟩
  · cases ho

end Call

/-- If a statement comes to a result with some budget, then so do the calls that it comes to with any
budget. -/
theorem Statement.Occurs.takes {p n m i : Nat} {statement : Statement} {s : Store} {c : Call}
    (h : statement.Occurs p n i s c) (hs : s.Linked) (hi : i < s.size) :
    c.Proper ∧ ∀ value, (statement.run (Expr.evaluateWithin p m 0) i s).1.result = .ok value →
      ∃ count, c.evaluation.Takes p count := by
  obtain ⟨e, he, first, hfirst, hw⟩ := h
  obtain ⟨hproper, hef⟩ := hfirst.proper ⟨hs, hi⟩
  have hfc : c.Proper ∧ ∀ count, first.evaluation.Takes p count → ∃ fewer, c.evaluation.Takes p fewer := by
    rcases reflTransGen_iff_eq_or_transGen.1 hw with rfl | hw
    · exact ⟨hproper, fun count hcount => ⟨count, hcount⟩⟩
    · obtain ⟨hc, hfc⟩ := Call.proper_of_transGen hw hproper
      exact ⟨hc, fun count hcount => (hfc.takes hcount).imp fun _ h => h.1⟩
  refine ⟨hfc.1, fun value hv => ?_⟩
  have hl := Statement.lands_run (Expr.agrees_evaluateWithin p m 0) hs hi statement
  rcases hr : Lexical.run (Lexical.evaluateWithin p m 0) (s.scope i) statement with ⟨result, trace⟩
  rw [hr] at hl
  rw [hl.outcome.1] at hv
  cases result with
  | error f => cases hv
  | ok r =>
    obtain ⟨v, part, hpart, -⟩ := ok_of_expression he hr
    obtain ⟨fewer, hfewer, -⟩ := hef.takes (Evaluation.takes_of_skip (t := ⟨n, i, e, s⟩) rfl hpart)
    exact hfc.2 fewer hfewer

theorem Computation.mem_trace_bind {α β : Type} {c : Computation α} {f : α → Computation β} {s : Store}
    {event : Event} (h : event ∈ ((c >>= f) s).1.trace) :
    event ∈ (c s).1.trace ∨ ∃ a trace t, c s = (⟨.ok a, trace⟩, t) ∧ event ∈ (f a t).1.trace := by
  rcases hc : c s with ⟨⟨e | a, trace⟩, t⟩
  · rw [bind_of_error hc] at h
    exact .inl h
  · rw [bind_of_ok hc] at h
    rcases List.mem_append.1 h with h | h
    · exact .inl h
    · exact .inr ⟨a, trace, t, rfl, h⟩

private theorem Computation.trace_update (change : Store → Except Error Store) (s : Store) :
    (update change s).1.trace = [] := by
  unfold update
  split <;> rfl

/-- A call among the events of arguments is among those of one of them. -/
theorem Expr.calling_of_args {f : Evaluator} {i count : Nat} {name : String} {args : List Expr}
    {s : Store} (h : .calling name count ∈ (evaluateArgs f i args s).1.trace) :
    ∃ before e after values trace t, args = before ++ e :: after ∧
      evaluateArgs f i before s = (⟨.ok values, trace⟩, t) ∧ .calling name count ∈ (f i e t).1.trace := by
  induction args generalizing s with
  | nil => cases h
  | cons e rest ih =>
    rcases mem_trace_bind h with h | ⟨v, trace, t, hv, h⟩
    · exact ⟨[], e, rest, [], [], s, rfl, rfl, h⟩
    · rcases mem_trace_bind h with h | ⟨_, _, _, _, h⟩
      · obtain ⟨before, e', after, values, trace', t', rfl, hb, h⟩ := ih h
        refine ⟨e :: before, e', after, v :: values, trace ++ (trace' ++ []), t', rfl, ?_, h⟩
        rw [evaluateArgs, bind_of_ok hv, bind_of_ok hb]
        rfl
      · cases h

theorem Statement.calling_of_run {f : Evaluator} {i count : Nat} {name : String} {statement : Statement}
    {s : Store} (h : .calling name count ∈ (statement.run f i s).1.trace) :
    ∃ e, statement.expression? = some e ∧ .calling name count ∈ (f i e s).1.trace := by
  cases statement with
  | assign key e =>
    rcases mem_trace_bind h with h | ⟨v, trace, t, hv, h⟩
    · exact ⟨e, rfl, h⟩
    · rcases mem_trace_bind h with h | ⟨_, _, _, _, h⟩
      · rw [trace_update] at h
        cases h
      · cases h
  | define key params body =>
    rw [run] at h
    cases hr : firstRepeated? [] params with
    | some param => rw [hr] at h; cases h
    | none =>
      rw [hr] at h
      rcases mem_trace_bind h with h | ⟨_, _, _, _, h⟩
      · rw [trace_update] at h
        cases h
      · simp [record, lift, Traced.record, bind, pure] at h
  | expression e =>
    rcases mem_trace_bind h with h | ⟨_, _, _, _, h⟩
    · exact ⟨e, rfl, h⟩
    · cases h
  | misplaced e => cases h

/-- A call among the events of statements is among those of an expression that one of them evaluates. -/
theorem Statement.calling_of_runAll {f : Evaluator} {i count : Nat} {name : String}
    {statements : List Statement} {s : Store}
    (h : .calling name count ∈ (runAll f i statements s).1.trace) :
    ∃ before statement after e trace t, statements = before ++ statement :: after ∧
      runAll f i before s = (⟨.ok (), trace⟩, t) ∧ statement.expression? = some e ∧
      .calling name count ∈ (f i e t).1.trace := by
  induction statements generalizing s with
  | nil => cases h
  | cons statement rest ih =>
    rcases mem_trace_bind h with h | ⟨v, trace, t, hv, h⟩
    · obtain ⟨e, he, h⟩ := calling_of_run h
      exact ⟨[], statement, rest, e, [], s, rfl, rfl, he, h⟩
    · obtain ⟨before, statement', after, e, trace', t', rfl, hb, he, h⟩ := ih h
      refine ⟨statement :: before, statement', after, e, trace ++ trace', t', rfl, ?_, he, h⟩
      rw [runAll, bind_of_ok hv, hb]

/-- A call among the events of a call is that call, or is among the events of the body. -/
theorem Expr.calling_of_applyCallable {p count : Nat} {f : Evaluator} {name key : String}
    {args : List Value} {callable : Callable} {s : Store}
    (h : .calling name count ∈ (applyCallable p f key args callable s).1.trace) :
    ∃ ownName params body home, callable = .function (.closure ownName params body home) ∧
      args.length = params.length ∧ (ownName = name ∧ args.length = count ∨
        .calling name count ∈
          (f s.size body (s.add { values := params.zip args, parent := some home })).1.trace) := by
  cases callable with
  | builtin b =>
    match args with
    | [a] => cases h
    | [] | _ :: _ :: _ => cases h
  | function g =>
    cases g with
    | tagged text => cases h
    | closure ownName params body home =>
      rw [applyCallable] at h
      split at h
      · rename_i hl
        refine ⟨ownName, params, body, home, rfl, hl, ?_⟩
        rcases mem_trace_bind h with h | ⟨_, _, _, hpush, h⟩
        · cases h
        cases hpush
        rcases mem_trace_bind h with h | ⟨_, _, _, hrecord, h⟩
        · simp only [record, lift, Traced.record, List.mem_singleton, Event.calling.injEq] at h
          exact .inl ⟨h.1.symm, h.2.symm⟩
        · cases hrecord
          exact .inr h
      · cases h

namespace Evaluation
variable {p : Nat} {t u : Evaluation} {c d : Call}

private theorem Occurs.of_starts (hs : Starts p t u) (h : u.Occurs p c) : t.Occurs p c := by
  obtain ⟨first, ⟨w, huw, hw⟩, hc⟩ := h
  exact ⟨first, ⟨w, huw.head hs, hw⟩, hc⟩

private theorem Enters.occurs (h : t.Enters p c) : t.Occurs p c :=
  ⟨c, ⟨t, .refl, h⟩, .refl⟩

private theorem Occurs.of_enters (hc : t.Enters p c) (h : c.evaluation.Occurs p d) : t.Occurs p d := by
  obtain ⟨first, hfirst, hd⟩ := h
  exact ⟨c, ⟨t, .refl, hc⟩, hd.head hfirst⟩

private theorem Starts.levels_lt (h : Starts p t u) : u.levels < t.levels := by
  cases h <;> simp only <;> omega

private theorem Enters.levels_lt (h : t.Enters p c) : c.evaluation.levels < t.levels := by
  cases h
  simp only [Call.evaluation]
  omega

/-- A call among the events of an evaluation is one that it enters, or it is among the events of the body of that
one, or of an evaluation that is started. -/
theorem starts_or_enters_of_calling {name : String} {count : Nat}
    (h : .calling name count ∈ (t.outcome p).1.trace) :
    (∃ u, Starts p t u ∧ .calling name count ∈ (u.outcome p).1.trace) ∨
    ∃ c, t.Enters p c ∧ (c.name = name ∧ c.args.length = count ∨
      .calling name count ∈ (c.evaluation.outcome p).1.trace) := by
  obtain ⟨_ | n, i, e, s⟩ := t
  · cases h
  rcases mem_trace_bind h with h | ⟨_, _, _, hrecord, h⟩
  · simp [record, lift, Traced.record] at h
  cases hrecord
  cases e with
  | number v => cases h
  | symbol key => cases h
  | unary op operand =>
    rcases mem_trace_bind h with h | ⟨_, _, _, -, h⟩
    · exact .inl ⟨_, .operand, h⟩
    · cases h
  | binary op l r =>
    rcases mem_trace_bind h with h | ⟨_, _, _, hl, h⟩
    · exact .inl ⟨_, .lhs, h⟩
    · rcases mem_trace_bind h with h | ⟨_, _, _, -, h⟩
      · exact .inl ⟨_, .rhs hl, h⟩
      · cases h
  | call key args =>
    rcases mem_trace_bind h with h | ⟨callable, _, _, hread, h⟩
    · cases h
    obtain ⟨hf, rfl⟩ := Prod.mk.inj hread
    replace hf := Traced.result_ofExcept.1 (congrArg Traced.result hf)
    rcases mem_trace_bind h with h | ⟨values, _, after, hvalues, h⟩
    · obtain ⟨before, e, after, values, _, t, rfl, hb, h⟩ := Expr.calling_of_args h
      rw [withCalls_eq n 2] at h
      exact .inl ⟨_, .argument hf hb, h⟩
    · obtain ⟨ownName, params, body, home, rfl, hl, h⟩ := Expr.calling_of_applyCallable h
      rw [withCalls_eq n 2] at h
      exact .inr ⟨_, .call hf hvalues hl, h⟩
  | block statements final =>
    rcases mem_trace_bind h with h | ⟨_, _, _, hpush, h⟩
    · cases h
    cases hpush
    rcases mem_trace_bind h with h | ⟨_, _, _, hdepth, h⟩
    · cases h
    cases hdepth
    rcases mem_trace_bind h with h | ⟨_, _, _, hrecord, h⟩
    · simp [record, lift, Traced.record] at h
    cases hrecord
    rcases mem_trace_bind h with h | ⟨_, _, t, hb, h⟩
    · obtain ⟨before, statement, after, e, _, t, rfl, hb, he, h⟩ := Statement.calling_of_runAll h
      rw [withCalls_eq n 2] at h
      exact .inl ⟨_, .statement hb he, h⟩
    · rw [withCalls_eq n 1] at h
      exact .inl ⟨_, .final hb, h⟩
  | misplaced statement => cases h
  | foreign text => cases h

/-- Every call that is among the events of an evaluation is one that it comes to. -/
theorem occurs_of_calling {name : String} {count : Nat}
    (h : .calling name count ∈ (t.outcome p).1.trace) :
    ∃ c, t.Occurs p c ∧ c.name = name ∧ c.args.length = count := by
  induction hn : t.levels using Nat.strongRecOn generalizing t with
  | ind n ih =>
    subst hn
    rcases starts_or_enters_of_calling h with ⟨u, hstarts, h⟩ | ⟨c, henters, ⟨rfl, rfl⟩ | h⟩
    · obtain ⟨d, hd, hcall⟩ := ih u.levels hstarts.levels_lt h rfl
      exact ⟨d, .of_starts hstarts hd, hcall⟩
    · exact ⟨c, henters.occurs, rfl, rfl⟩
    · obtain ⟨d, hd, hcall⟩ := ih c.evaluation.levels henters.levels_lt h rfl
      exact ⟨d, .of_enters henters hd, hcall⟩

end Evaluation

/-- Recursion never yields a value. If a statement comes to a result, then no function was entered while a
call of it was running. If with some budget a function is entered while a call of it runs, then with no
budget whatever the statement comes to a result, nor does that call with any arguments. The calls meant
are those that the trace shows. -/
theorem recursion_never_yields_a_value (p : Nat) {s : Store} (hs : s.Reachable) {i : Nat}
    (hi : i < s.size) (statement : Statement) :
    (∀ stack value, (statement.evaluate ⟨p, stack⟩ i s).1.result = .ok value →
      ∀ c d, statement.Occurs p (Machine.mk p stack).evaluationCalls i s c →
        TransGen (Call.Within p) c d → ¬ c.Same d) ∧
    (∀ n c d, statement.Occurs p n i s c → TransGen (Call.Within p) c d → c.Same d → ∀ m,
      (∀ value, (statement.run (Expr.evaluateWithin p m 0) i s).1.result ≠ .ok value) ∧
      ∀ args v, (Expr.applyCallable p (Expr.evaluateWithin p m 0) c.name args (.function c.function)
        c.store).1.result ≠ .ok v) ∧
    ∀ n name count, .calling name count ∈ (statement.run (Expr.evaluateWithin p n 0) i s).1.trace →
      ∃ c, statement.Occurs p n i s c ∧ c.name = name ∧ c.args.length = count := by
  refine ⟨fun stack value hv c d hc hw hsame => ?_, fun n c d hc hw hsame m => ?_, fun n name count h => ?_⟩
  · obtain ⟨hproper, htakes⟩ := hc.takes (m := (Machine.mk p stack).evaluationCalls) hs.linked hi
    obtain ⟨count, hcount⟩ := htakes value hv
    exact Call.not_takes_of_same hproper hw hsame count hcount
  · obtain ⟨hproper, htakes⟩ := hc.takes (m := m) hs.linked hi
    refine ⟨fun value hv => ?_, fun args v hv => ?_⟩
    · obtain ⟨count, hcount⟩ := htakes value hv
      exact Call.not_takes_of_same hproper hw hsame count hcount
    · obtain ⟨count, hcount⟩ := Call.takes_of_applyCallable hproper hv
      exact Call.not_takes_of_same hproper hw hsame count hcount
  · obtain ⟨e, he, h⟩ := Statement.calling_of_run h
    obtain ⟨c, hc, hcall⟩ := Evaluation.occurs_of_calling (t := ⟨n, i, e, s⟩) h
    exact ⟨c, ⟨e, he, hc⟩, hcall⟩

private theorem Traced.eq_of_result {α : Type} {x : Traced α × Store} {a : α} (h : x.1.result = .ok a) :
    x = (⟨.ok a, x.1.trace⟩, x.2) := by
  rw [← h]

/-- A recursion that an error stops at some arguments: no argument and no budget give it a value. -/
theorem reciprocal_recursion_has_no_value :
    let one : Value := ⟨.one, 128⟩
    let body : Expr := .call "h" [.binary "/" (.number one) (.symbol "x")]
    let s := ((Statement.define "h" ["x"] body).evaluate ⟨128, 1000⟩ 0 (Store.empty.add {})).2
    s.Reachable ∧ 0 < s.size ∧ ∀ m,
      (∀ value, ((Statement.expression (.call "h" [.number one])).run (Expr.evaluateWithin 128 m 0) 0
        s).1.result ≠ .ok value) ∧
      ∀ args v, (Expr.applyCallable 128 (Expr.evaluateWithin 128 m 0) "h" args
        (.function (.closure "h" ["x"] body 0)) s).1.result ≠ .ok v := by
  intro one body s
  have hs : s.Reachable := .evaluated (.opened .empty) ⟨128, 1000⟩ (by decide) _
  have hi : 0 < s.size := by decide
  refine ⟨hs, hi, fun m => ?_⟩
  let c : Call := ⟨0, "h", ["x"], body, [one], 7, s⟩
  have hfound : s.lookupFunction "h" 0 = .ok (.function (.closure "h" ["x"] body 0)) := by
    rw [Store.lookupFunction, Store.chain_eq s 0 hi]
    rfl
  have harg : Expr.evaluateArgs (Expr.evaluateWithin 128 9 2) 0 [.number one] s =
      (⟨.ok [one], [.evaluating "AtomExpr"]⟩, s) := rfl
  have hc : Evaluation.Enters 128 ⟨10, 0, .call "h" [.number one], s⟩ c := .call hfound harg rfl
  have hlook : c.evaluation.store.lookupFunction "h" 1 =
      .ok (.function (.closure "h" ["x"] body 0)) := by
    have hp : (c.evaluation.store.frameAt 1).parent = some 0 := rfl
    rw [Store.lookupFunction, Store.chain_eq c.evaluation.store 1 (by decide), hp, Option.elim_some,
      Store.chain_eq c.evaluation.store 0 (by decide)]
    rfl
  have hargs : (Expr.evaluateArgs (Expr.evaluateWithin 128 6 2) 1
      [.binary "/" (.number one) (.symbol "x")] c.evaluation.store).1.result = .ok [one] := by
    decide +kernel
  have hd := Evaluation.Enters.call hlook (Traced.eq_of_result hargs) rfl
  exact (recursion_never_yields_a_value 128 hs hi _).2.1 10 c _
    ⟨_, rfl, c, ⟨_, .refl, hc⟩, .refl⟩ (.single ⟨_, .refl, hd⟩) ⟨rfl, rfl⟩ m

end Reckoner
