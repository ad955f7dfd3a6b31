import Reckoner.Proofs.ScopeInvariants
import Reckoner.Proofs.StackRoom
import Reckoner.Proofs.UnreferencedValues

/-! Calls and the blocks that they stand for. A call evaluates its arguments in the scope of its caller and binds
all of them at once; a block that assigns them evaluates each one above those before it, and binds the last one
first. Where no argument refers to a parameter, neither makes a difference. But the body of a function takes one call
more than the final expression of a block. -/

namespace Reckoner

/-- The block that a call stands for: it assigns the arguments to the parameters and ends in the body. -/
def Expr.inlined (params : List String) (args : List Expr) (body : Expr) : Expr :=
  .block (List.zipWith .assign params args) body

/-- Where names differ, their order does not tell what they are bound to. -/
theorem lookup_reverse {α : Type} {bindings : List (String × α)} (h : (bindings.map Prod.fst).Nodup)
    (name : String) : bindings.reverse.lookup name = bindings.lookup name := by
  induction bindings with
  | nil => rfl
  | cons binding rest ih =>
    obtain ⟨key, a⟩ := binding
    obtain ⟨hkey, hrest⟩ := List.nodup_cons.1 h
    rw [List.reverse_cons, List.lookup_append, ih hrest, List.lookup_cons, List.lookup_cons, List.lookup_nil]
    cases hname : name == key with
    | false => exact Option.or_none
    | true =>
      obtain rfl := beq_iff_eq.1 hname
      rw [lookup_eq_none_iff_not_mem.2 hkey, Option.none_or]

namespace Lexical

/-- Both scopes have a layer of values on top of the same scope, and the layers have the same values. -/
def reordered : Simulation where
  failures := True
  hidden _ := False
  base s t := ∃ (u : Scope) (values values' : List (String × Value)),
    (∀ name, values.lookup name = values'.lookup name) ∧ s = u.push values ∧ t = u.push values'
  lookupValue := by
    rintro _ _ ⟨u, values, values', h, rfl, rfl⟩ name -
    refine .of_eq ?_ fun _ => rfl
    rw [Scope.push, Scope.push, Scope.lookupValue_layer, Scope.lookupValue_layer, h]
  lookupFunction := by
    rintro _ _ ⟨u, values, values', h, rfl, rfl⟩ name
    refine .of_eq ?_ .same
    rw [Scope.push, Scope.push, Scope.lookupFunction_layer, Scope.lookupFunction_layer]
    rfl

variable {evaluate : Evaluator} {s : Scope} {params : List String} {args : List Expr}

private theorem lookupFunction_innermost {name : String} {f : Lambda} (h : s.innermost.functions.lookup name = some f) :
    s.lookupFunction name = .ok (.function f s) := by
  rw [Scope.lookupFunction, Scope.layers, Scope.functionAlong?, h]

/-- Assignments of arguments, above values that they do not refer to, bind what the arguments yield in the scope
below. -/
theorem carries_runAll_assignments (hev : ∀ values, (unreferenced values).Respected evaluate)
    (hlength : args.length = params.length) (hparams : params.Nodup) {bound : List (String × Value)}
    (hnew : ∀ param ∈ params, param ∉ bound.map Prod.fst)
    (hargs : ∀ name ∈ exprsReferences args, name ∉ params ∧ name ∉ bound.map Prod.fst) :
    (evaluateArgs evaluate s args).Carries True
      (fun values t => values.length = params.length ∧ t = s.push ((params.zip values).reverse ++ bound))
      (runAll evaluate (s.push bound) (List.zipWith .assign params args)) := by
  induction args generalizing params bound with
  | nil =>
    obtain rfl := List.length_eq_zero_iff.1 hlength.symm
    exact .pure ⟨rfl, rfl⟩
  | cons e rest ih =>
    cases params with
    | nil => cases hlength
    | cons param params =>
      obtain ⟨hparam, hparams⟩ := List.nodup_cons.1 hparams
      obtain ⟨hnewest, hnew⟩ := List.forall_mem_cons.1 hnew
      simp only [exprsReferences, List.mem_append] at hargs
      have hbind (v : Value) :
          (s.push bound).bindValue param v = .ok (s.push ((param, v) :: bound)) := by
        simp only [Scope.bindValue, Scope.push, lookup_eq_none_iff_not_mem.2 hnewest]
        rfl
      simp only [List.zipWith_cons_cons, runAll, run, evaluateArgs, bind_assoc, pure_bind, hbind]
      have he := hev bound s (s.push bound) e (.base rfl) fun name hn => (hargs name (.inl hn)).2
      refine he.bind fun v w hvw => ?_
      subst hvw
      have hlater (other : String) (hm : other ∈ params) : other ∉ ((param, v) :: bound).map Prod.fst := by
        intro hbound
        rcases List.mem_cons.1 hbound with rfl | hbound
        · exact hparam hm
        · exact hnew other hm hbound
      have hrest (name : String) (hn : name ∈ exprsReferences rest) :
          name ∉ params ∧ name ∉ ((param, v) :: bound).map Prod.fst := by
        obtain ⟨hname, hbound⟩ := hargs name (.inr hn)
        refine ⟨fun hm => hname (List.mem_cons_of_mem _ hm), fun hm => ?_⟩
        rcases List.mem_cons.1 hm with rfl | hm
        · exact hname List.mem_cons_self
        · exact hbound hm
      change Traced.Carries True _ _ (runAll evaluate (s.push ((param, v) :: bound)) (List.zipWith .assign params rest))
      rw [← bind_pure (runAll evaluate _ _)]
      refine (ih (Nat.succ.inj hlength) hparams hlater hrest).bind fun values t hbound => ?_
      obtain ⟨hl, rfl⟩ := hbound
      exact .pure ⟨congrArg (· + 1) hl, by simp⟩

theorem evaluateOver_call (p : Nat) (below : Nat → Evaluator) {name : String} {body : Expr}
    (hf : s.innermost.functions.lookup name = some (.abstraction params body)) :
    (evaluateOver p below s (.call name args)).result =
      (evaluateArgs (below 2) s args >>= fun values =>
        applyCallee p (below 2) name values (.function (.abstraction params body) s)).result := by
  change (Traced.ofExcept (s.lookupFunction name) >>= fun callee => _).result = _
  rw [lookupFunction_innermost hf]
  rfl

/-- The parts of a block are given one after another: its statements, and its final expression. -/
theorem evaluateOver_block (p : Nat) (below : Nat → Evaluator) (s : Scope) (statements : List Statement)
    (final : Expr) : (evaluateOver p below s (.block statements final)).result =
      (runAll (below 2) (s.push []) statements >>= fun t => below 1 t final).result :=
  rfl

/-- A call of a function of the innermost layer yields what its body does above the assignments of the arguments, as
many calls further down. -/
theorem evaluateOver_call_eq (p : Nat) (below : Nat → Evaluator) (hev : ∀ S : Simulation, S.Respected (below 2))
    {name : String} {body : Expr} (hf : s.innermost.functions.lookup name = some (.abstraction params body))
    (hparams : params.Nodup) (hlength : args.length = params.length)
    (hargs : ∀ param ∈ params, param ∉ exprsReferences args) :
    (evaluateOver p below s (.call name args)).result =
      (runAll (below 2) (s.push []) (List.zipWith .assign params args) >>= fun t => below 2 t body).result := by
  have hassign : (evaluateArgs (below 2) s args).Carries True
      (fun values t => values.length = params.length ∧ t = s.push ((params.zip values).reverse ++ []))
      (runAll (below 2) (s.push []) (List.zipWith .assign params args)) :=
    carries_runAll_assignments (fun values => hev (unreferenced values)) hlength hparams
      (fun _ _ => List.not_mem_nil) fun name hn => ⟨fun hm => hargs name hm hn, List.not_mem_nil⟩
  rw [evaluateOver_call p below hf]
  refine Traced.Carries.result_eq (hassign.bind fun values t hbound => ?_)
  obtain ⟨hl, rfl⟩ := hbound
  have hkeys : ((params.zip values).map Prod.fst).Nodup := by rwa [List.map_fst_zip (Nat.le_of_eq hl.symm)]
  rw [applyCallee, if_pos hl]
  refine .of_eq ?_ fun _ => rfl
  refine (hev reordered (s.push (params.zip values)) _ body (.base ?_) fun _ _ => id).result_eq
  exact ⟨s, _, _, fun name => by rw [List.append_nil, lookup_reverse hkeys], rfl, rfl⟩

/-- With one call fewer, the block has the result of the call unless it goes too deep, and the call has that of the
block with as many. -/
theorem approximates_inlined (p n : Nat) {name : String} {body : Expr}
    (hf : s.innermost.functions.lookup name = some (.abstraction params body)) (hparams : params.Nodup)
    (hlength : args.length = params.length) (hargs : ∀ param ∈ params, param ∉ exprsReferences args) :
    (evaluateWithin p (n - 1) 0 s (.inlined params args body)).Approximates
        (evaluateWithin p n 0 s (.call name args)) ∧
      (evaluateWithin p n 0 s (.call name args)).Approximates
        (evaluateWithin p n 0 s (.inlined params args body)) := by
  cases n with
  | zero => exact ⟨.inl rfl, .inl rfl⟩
  | succ n =>
    have hcall : (evaluateWithin p (n + 1) 0 s (.call name args)).result =
        (runAll (evaluateWithin p n 2) (s.push []) (List.zipWith .assign params args) >>=
          fun t => evaluateWithin p n 2 t body).result :=
      evaluateOver_call_eq p (evaluateWithin p n) (fun S => S.respected_evaluateWithin p _ 2) hf hparams hlength hargs
    constructor
    · cases n with
      | zero => exact .inl rfl
      | succ n =>
        have hassign := (approximates_of_used p n (Nat.le_succ 1)).runAll (s.push [])
          (List.zipWith Statement.assign params args)
        have hblock := hassign.bind fun t => Traced.approximates_refl (evaluateWithin p n 1 t body)
        rw [Traced.Approximates, hcall]
        exact hblock
    · have hblock := (Traced.approximates_refl
        (runAll (evaluateWithin p n 2) (s.push []) (List.zipWith .assign params args))).bind
        fun t => approximates_of_used p n (Nat.le_succ 1) t body
      rw [Traced.Approximates, hcall]
      exact hblock

end Lexical

/-- Calls are inlined blocks, up to a call on the stack. In a scope of a reachable store whose innermost frame has a
function, take a call of it in which no argument refers to a parameter, and the block that assigns the arguments to
its parameters and ends in its body. Both have the same result, be it a number or a failure, unless the call goes too
deep; it does so only where the block goes too deep with one call to spare. Neither of them changes the scope or any
other frame there is. -/
theorem calls_are_inlined_blocks {s : Store} (hs : s.Reachable) {i : Nat} (hi : i < s.size) (m : Machine)
    {name ownName : String} {params : List String} {body : Expr} {home : Nat}
    (hf : (s.frameAt i).functions.lookup name = some (.closure ownName params body home)) {args : List Expr}
    (hlength : args.length = params.length) (hargs : ∀ param ∈ params, param ∉ exprsReferences args) :
    let call := Expr.evaluate m i (.call name args) s
    let block := Expr.evaluate m i (.inlined params args body) s
    let spared := Expr.evaluate (m.sparing 1) i (.inlined params args body) s
    (call.1.result ≠ .error .tooDeep → call.1.result = block.1.result) ∧
      (spared.1.result ≠ .error .tooDeep → call.1.result = spared.1.result ∧ call.1.result = block.1.result) ∧
      call.2.chain i = s.chain i ∧ block.2.chain i = s.chain i ∧ s.Keeps call.2 ∧ s.Keeps block.2 := by
  intro call block spared
  have hl := hs.linked
  have hkeeps (e : Expr) : s.Keeps (Expr.evaluate m i e s).2 := Expr.keeping_evaluate m s i e s (.refl s)
  have hparams : params.Nodup := by
    obtain ⟨before, after, hmem, -⟩ := List.lookup_eq_some_iff.1 hf
    exact (hs.sound.admissible i _ name (.closure ownName params body home) (Store.getElem?_frameAt hi)
      (by rw [hmem]; simp)).params
  have hinnermost : (s.scope i).innermost.functions.lookup name = some (.abstraction params body) :=
    (Store.lookup_map ..).trans (congrArg (Option.map Function.lambda) hf)
  have hcalls : (m.sparing 1).evaluationCalls = m.evaluationCalls - 1 := Nat.sub_right_comm m.stack 1 9
  obtain ⟨hspared, hcall⟩ := Lexical.approximates_inlined m.precision m.evaluationCalls hinnermost hparams hlength hargs
  rw [← hcalls] at hspared
  change (Lexical.evaluate (m.sparing 1) (s.scope i) _).Approximates (Lexical.evaluate m (s.scope i) _) at hspared
  change (Lexical.evaluate m (s.scope i) _).Approximates (Lexical.evaluate m (s.scope i) _) at hcall
  rw [← Expr.outcome_evaluate _ hl hi, ← Expr.outcome_evaluate _ hl hi] at hspared hcall
  have hsame (h : call.1.result ≠ .error .tooDeep) : call.1.result = block.1.result := hcall.resolve_left h
  refine ⟨hsame, fun h => ?_, (hkeeps _).chain hi, (hkeeps _).chain hi, hkeeps _, hkeeps _⟩
  have hfits : spared.1.result = call.1.result := hspared.resolve_left h
  exact ⟨hfits.symm, hsame (hfits ▸ h)⟩

/-- The second argument defines a function with a parameter named as one of the function that is called, and the
body binds a value that is named as one outside. -/
theorem call_with_block_is_inlined :
    let m : Machine := ⟨128, 1000⟩
    let body : Expr := .block [.assign "a" (.symbol "x")] (.binary "-" (.symbol "y") (.symbol "a"))
    let args : List Expr :=
      [.number ⟨.zero, 128⟩, .block [.define "g" ["x"] (.symbol "a")] (.call "g" [.number ⟨.zero, 128⟩])]
    let s := ((Statement.define "f" ["x", "y"] body).evaluate m 0
      ((Statement.assign "a" (.number ⟨.one, 128⟩)).evaluate m 0 (Store.empty.add {})).2).2
    s.Reachable ∧ 0 < s.size ∧
      (s.frameAt 0).functions.lookup "f" = some (.closure "f" ["x", "y"] body 0) ∧
      args.length = ["x", "y"].length ∧ (∀ param ∈ ["x", "y"], param ∉ exprsReferences args) ∧
      (Expr.evaluate m 0 (.call "f" args) s).1.result = .ok ⟨.one, 128⟩ ∧
      (Expr.evaluate m 0 (.inlined ["x", "y"] args body) s).1.result = .ok ⟨.one, 128⟩ ∧
      (Expr.evaluate m 0 (.inlined ["x", "y"] args body) s).2.chain 0 = s.chain 0 := by
  intro m body args s
  have hs : s.Reachable := ((Store.Reachable.empty.opened).evaluated m (by decide) _).evaluated m
    (by decide) _
  have hf : (s.frameAt 0).functions.lookup "f" = some (.closure "f" ["x", "y"] body 0) := rfl
  have hargs : ∀ param ∈ ["x", "y"], param ∉ exprsReferences args := by decide
  have hcall : (Expr.evaluate m 0 (.call "f" args) s).1.result = .ok ⟨.one, 128⟩ := by decide +kernel
  obtain ⟨hresult, -, -, hchain, -⟩ := calls_are_inlined_blocks hs (by decide) m hf rfl hargs
  have hblock : (Expr.evaluate m 0 (.call "f" args) s).1.result ≠ .error .tooDeep := by
    rw [hcall]
    exact nofun
  exact ⟨hs, by decide, hf, rfl, hargs, hcall, (hresult hblock).symm.trans hcall, hchain⟩

/-- A zero under so many minuses. -/
def negated : Nat → Expr
  | 0 => .number ⟨.zero, 128⟩
  | n + 1 => .unary negation (negated n)

/-- Every minus takes a call. -/
theorem Lexical.evaluateWithin_negated (p n j : Nat) (s : Scope) :
    (evaluateWithin p n 0 s (negated j)).result = if j < n then .ok ⟨.zero, 128⟩ else .error .tooDeep := by
  induction n generalizing j with
  | zero => rfl
  | succ n ih =>
    cases j with
    | zero => rfl
    | succ j =>
      have hinner := ih j
      change (evaluateWithin p n 0 s (negated j) >>= fun v => ⟨applyUnary negation v, []⟩).result = _
      generalize evaluateWithin p n 0 s (negated j) = x at hinner ⊢
      obtain ⟨result, trace⟩ := x
      obtain rfl : result = _ := hinner
      by_cases h : j < n
      · rw [if_pos h, if_pos (Nat.succ_lt_succ h)]
        rfl
      · rw [if_neg h, if_neg (mt Nat.lt_of_succ_lt_succ h)]
        rfl

namespace Lexical
variable {s : Scope} {name : String} {body : Expr}

/-- The body of a function without parameters has three calls fewer than the call. -/
theorem evaluateWithin_call (p n : Nat) (hf : s.innermost.functions.lookup name = some (.abstraction [] body)) :
    (evaluateWithin p (n + 3) 0 s (.call name [])).result = (evaluateWithin p n 0 (s.push []) body).result :=
  evaluateOver_call p (evaluateWithin p (n + 2)) hf

/-- The final expression of a block has two calls fewer than the block. -/
theorem evaluateWithin_inlined (p n : Nat) (s : Scope) (body : Expr) :
    (evaluateWithin p (n + 2) 0 s (.inlined [] [] body)).result = (evaluateWithin p n 0 (s.push []) body).result :=
  evaluateOver_block p (evaluateWithin p (n + 1)) s [] body

end Lexical

/-- Under so many minuses the body of a function goes too deep on the usual stack, while the block that ends in it
comes to a number. -/
theorem call_goes_deeper_than_block :
    let m : Machine := ⟨128, 1000⟩
    let s := ((Statement.define "f" [] (negated 988)).evaluate m 0 (Store.empty.add {})).2
    (Expr.evaluate m 0 (.call "f" []) s).1.result = .error .tooDeep ∧
      (Expr.evaluate m 0 (.inlined [] [] (negated 988)) s).1.result = .ok ⟨.zero, 128⟩ := by
  generalize hbody : negated 988 = body
  intro m s
  have hl : s.Linked := ((Store.Reachable.empty.opened).evaluated m (by decide) _).linked
  have hf : (s.scope 0).innermost.functions.lookup "f" = some (.abstraction [] body) := rfl
  rw [Expr.outcome_evaluate m hl Nat.zero_lt_one, Expr.outcome_evaluate m hl Nat.zero_lt_one]
  constructor
  · refine (Lexical.evaluateWithin_call 128 988 hf).trans ?_
    rw [← hbody, Lexical.evaluateWithin_negated, if_neg (Nat.lt_irrefl 988)]
  · refine (Lexical.evaluateWithin_inlined 128 989 _ body).trans ?_
    rw [← hbody, Lexical.evaluateWithin_negated, if_pos (Nat.lt_succ_self 988)]

end Reckoner
