import Reckoner.Proofs.ScopeGrowth

/-! Growth of sessions. The scope of a session is a single layer that only grows, so what a session has
answered without an error it answers again, and the order in which it takes statements that succeed makes
no difference. -/

namespace Reckoner
open Lexical (Scope Layer Leads)

namespace Store
variable {s t : Store} {i j : Nat}

/-- A frame of a linked store that has no other frame in its scope. -/
structure Alone (s : Store) (i : Nat) : Prop where
  linked : s.Linked
  lt : i < s.size
  root : (s.frameAt i).parent = none

theorem Alone.scope (h : s.Alone i) : s.scope i = .alone (s.frameAt i).layer :=
  scope_of_root h.lt h.root

private theorem Alone.of_frame (h : s.Alone i) (hl : t.Linked) (hsize : s.size ≤ t.size)
    (hf : t.frames[i]? = s.frames[i]?) : t.Alone i ∧ t.frameAt i = s.frameAt i := by
  have he : t.frameAt i = s.frameAt i := by simp only [frameAt, hf]
  exact ⟨⟨hl, Nat.lt_of_lt_of_le h.lt hsize, he ▸ h.root⟩, he⟩

/-- A store grows at a frame: nothing else changes, and nothing that the frame has bound is lost. -/
structure GrowsAt (i : Nat) (s t : Store) : Prop where
  alone : t.Alone i
  within : s.Within i t
  extended : (s.frameAt i).layer.ExtendedBy (t.frameAt i).layer

theorem GrowsAt.refl (h : s.Alone i) : s.GrowsAt i s :=
  ⟨h, .refl s i, .refl _⟩

theorem GrowsAt.trans {u : Store} (h : s.GrowsAt i t) (h' : t.GrowsAt i u) : s.GrowsAt i u :=
  ⟨h'.alone, h.within.trans h'.within, h.extended.trans h'.extended⟩

theorem growsAt_trans (i : Nat) (s t u : Store) (h : s.Alone i → s.GrowsAt i t)
    (h' : t.Alone i → t.GrowsAt i u) (hs : s.Alone i) : s.GrowsAt i u :=
  (h hs).trans (h' (h hs).alone)

end Store

theorem Computation.exists_of_bind {α β : Type} {c : Computation α} {f : α → Computation β} {s : Store}
    {b : β} (h : ((c >>= f) s).1.result = .ok b) :
    ∃ a, (c s).1.result = .ok a ∧ (f a (c s).2).1.result = .ok b ∧
      ((c >>= f) s).2 = (f a (c s).2).2 := by
  rcases hc : c s with ⟨⟨e | a, trace⟩, t⟩
  · rw [bind_of_error hc] at h
    cases h
  · rw [bind_of_ok hc] at h ⊢
    exact ⟨a, rfl, h, rfl⟩

/-- From a store in which the frame is alone, the computation makes the store grow there. -/
abbrev Computation.Growing {α : Type} (i : Nat) (c : Computation α) : Prop :=
  Advances (fun s t => s.Alone i → s.GrowsAt i t) c

namespace Statement
variable {s : Store} {i : Nat} {statement : Statement} {value : Option Value}

/-- A statement that succeeds leads from the layer of its frame to the layer afterwards. -/
theorem leads_evaluate (m : Machine) (h : s.Alone i)
    (hv : (statement.evaluate m i s).1.result = .ok value) :
    Leads m (s.frameAt i).layer [statement] [value] ((statement.evaluate m i s).2.frameAt i).layer := by
  have hl := statement.lands_evaluate_statement m h.linked h.lt
  rw [hl.outcome.1] at hv
  obtain ⟨⟨_, scope⟩, hr, hv⟩ := Traced.exists_of_bind hv
  cases hv
  have hscope := hl.scope_of_ok hr
  rw [h.scope] at hr
  obtain ⟨layer, rfl, hleads⟩ := Lexical.leads_of_run hr
  obtain rfl : ((statement.evaluate m i s).2.frameAt i).layer = layer := congrArg Scope.innermost hscope
  exact hleads

theorem growing_evaluate (m : Machine) (i : Nat) (statement : Statement) :
    Computation.Growing i (statement.evaluate m i) := by
  intro s h
  have hw := within_evaluate m h.lt statement
  obtain ⟨-, hl, hlt⟩ := (statement.lands_evaluate_statement m h.linked h.lt).outcome
  refine ⟨⟨hl, hlt, hw.parent.trans h.root⟩, hw, ?_⟩
  cases hr : (statement.evaluate m i s).1.result with
  | ok value => exact (leads_evaluate m h hr).grows
  | error f =>
    have hk := (leaves_run (Expr.keeping_evaluate m) h.lt statement).keeps_of_error hr
    exact (hk.frameAt h.lt).symm ▸ .refl _

end Statement

namespace Session
open Computation
variable {s : Session} {store : Store}

/-- The store after some requests, whether they succeed or fail. -/
def meet (s : Session) : Store → List Request → Store
  | store, [] => store
  | store, request :: rest => s.meet (s.respond request store).2 rest

/-- Execute statements one after another, up to the first that fails. -/
def executeAll (s : Session) : List Statement → Computation (List (Option Value))
  | [] => pure []
  | statement :: rest => do
    let value ← s.execute statement
    return value :: (← s.executeAll rest)

theorem growing_execute (s : Session) (statement : Statement) : Growing s.frame (s.execute statement) :=
  statement.growing_evaluate s.machine s.frame

theorem growing_respond (s : Session) (request : Request) : Growing s.frame (s.respond request) :=
  advances_respond (fun _ => .refl) (Store.growsAt_trans s.frame)
    fun statement _ => statement.growing_evaluate s.machine s.frame

theorem growing_run (s : Session) (text : String) : Growing s.frame (s.run text) := by
  intro store h
  have hgrows := s.growing_respond (.run text) store h
  rwa [show (s.respond (.run text) store).2 = (s.run text store).2 from bind_lift_store ..] at hgrows

theorem growsAt_meet (h : store.Alone s.frame) (requests : List Request) :
    store.GrowsAt s.frame (s.meet store requests) := by
  induction requests generalizing store with
  | nil => exact .refl h
  | cons request rest ih =>
    have hg := s.growing_respond request store h
    exact hg.trans (ih hg.alone)

theorem evaluate_of_execute {statement : Statement} {value : Option Value}
    (h : (s.execute statement store).1.result = .ok value) :
    (statement.evaluate s.machine s.frame store).1.result = .ok value := by
  change (statement.evaluate s.machine s.frame store).1.result.mapError limited = .ok value at h
  cases hr : (statement.evaluate s.machine s.frame store).1.result with
  | ok v => rw [hr] at h; exact h
  | error f => rw [hr] at h; cases h

/-- Executing an expression statement is evaluating the expression in the layer of the session. -/
theorem execute_expression (h : store.Alone s.frame) (e : Expr) :
    (s.execute (.expression e) store).1.result =
      ((Lexical.evaluate s.machine (.alone (store.frameAt s.frame).layer) e).result.map some).mapError
        limited := by
  have hl := ((Statement.expression e).lands_evaluate_statement s.machine h.linked h.lt).outcome.1
  change (((Statement.expression e).evaluate s.machine s.frame store).1.result.mapError limited) = _
  rw [hl, h.scope, Lexical.run]
  rcases Lexical.evaluate s.machine (.alone (store.frameAt s.frame).layer) e with ⟨f | v, trace⟩ <;> rfl

/-- Without debug mode nothing is shown of what is parsed. -/
theorem parse_of_not_debug {text : String} {statement : Statement} (hd : s.settings.debug = false)
    (h : parseStatement s.machine text = .ok statement) : (s.parse text).result = .ok statement := by
  unfold parse
  simp only [h, hd]
  rfl

/-- A text whose statement succeeds gives the text of its value, if there is one. -/
theorem run_of_value {text : String} {statement : Statement} {value : Option Value}
    (hp : (s.parse text).result = .ok statement)
    (hv : (s.execute statement store).1.result = .ok value) :
    (s.run text store).1.result = s.resultText statement value := by
  rcases hparse : s.parse text with ⟨_, parsing⟩
  rcases hexecute : s.execute statement store with ⟨⟨_, trace⟩, t⟩
  rw [hparse] at hp
  rw [hexecute] at hv
  cases hp
  cases hv
  have ha : s.answer statement store = (⟨s.resultText statement value, trace ++ []⟩, t) := by
    rw [answer, bind_of_ok hexecute]
    rfl
  have hr : (do
      let statement ← lift (s.parse text)
      s.answer statement : Computation String) store =
        (⟨s.resultText statement value, parsing ++ (trace ++ [])⟩, t) := by
    rw [bind_of_ok (c := lift (s.parse text)) (a := statement) (t := store) (by rw [lift, hparse]), ha]
  rw [run, recover, hr]
  cases ht : s.resultText statement value with
  | ok shown => rfl
  | error f =>
    obtain ⟨fault, rfl⟩ := exists_fault_of_resultText ht
    rfl

theorem growing_executeAll (s : Session) (statements : List Statement) :
    Growing s.frame (s.executeAll statements) := by
  have htrans := Store.growsAt_trans s.frame
  induction statements with
  | nil => exact advances_lift (fun _ => .refl) (pure [])
  | cons statement rest ih =>
    exact Advances.bind htrans (s.growing_execute statement) fun _ =>
      Advances.bind htrans ih fun _ => advances_lift (fun _ => .refl) (pure _)

/-- Statements that succeed one after another lead from the layer of the session to the one afterwards. -/
theorem leads_executeAll (h : store.Alone s.frame) {statements : List Statement}
    {values : List (Option Value)} (hv : (s.executeAll statements store).1.result = .ok values) :
    Leads s.machine (store.frameAt s.frame).layer statements values
      ((s.executeAll statements store).2.frameAt s.frame).layer := by
  induction statements generalizing store values with
  | nil =>
    cases hv
    exact .nil _
  | cons statement rest ih =>
    obtain ⟨value, hvalue, hrest, hstore⟩ := exists_of_bind hv
    obtain ⟨values, hvalues, hv, hstore'⟩ := exists_of_bind hrest
    cases hv
    have hg := s.growing_execute statement store h
    rw [show (s.executeAll (statement :: rest) store).2 = _ from hstore.trans hstore']
    exact (Statement.leads_evaluate s.machine h (evaluate_of_execute hvalue)).cons
      (ih hg.alone hvalues)

/-- An expression that has a value keeps it while the session grows. -/
theorem execute_of_growsAt {after : Store} (h : store.Alone s.frame) (hg : store.GrowsAt s.frame after)
    {e : Expr} {value : Option Value}
    (hv : (s.execute (.expression e) store).1.result = .ok value) :
    (s.execute (.expression e) after).1.result = .ok value := by
  rw [execute_expression h] at hv
  rw [execute_expression hg.alone]
  cases hr : (Lexical.evaluate s.machine (.alone (store.frameAt s.frame).layer) e).result with
  | error f => rw [hr] at hv; cases hv
  | ok v =>
    rw [hr] at hv
    rw [Lexical.evaluate_of_extendedBy hg.extended hr]
    exact hv

end Session

theorem Workspace.Reachable.alone {w : Workspace} (hw : w.Reachable) {name : String} {s : Session}
    (hs : w.find? name = some s) : w.store.Alone s.frame :=
  ⟨hw.rooted.reachable.linked, hw.rooted.lt hs, hw.rooted.root hs⟩

/-- Answers are stable. A session that evaluates an expression without an error shows its value by the same
text again after whatever else it was asked, whether that succeeded or failed. -/
theorem answers_are_stable {w : Workspace} (hw : w.Reachable) {name : String} {s : Session}
    (hs : w.find? name = some s) {text : String} {e : Expr} {value : Option Value}
    (hp : (s.parse text).result = .ok (.expression e))
    (hv : (s.execute (.expression e) w.store).1.result = .ok value) (requests : List Request) :
    let answer := s.resultText (.expression e) value
    let first := s.run text w.store
    first.1.result = answer ∧ (s.run text (s.meet first.2 requests)).1.result = answer := by
  intro answer first
  have h := hw.alone hs
  have hfirst : w.store.GrowsAt s.frame first.2 := s.growing_run text w.store h
  have hlater := hfirst.trans (s.growsAt_meet hfirst.alone requests)
  exact ⟨Session.run_of_value hp hv, Session.run_of_value hp (Session.execute_of_growsAt h hlater hv)⟩

/-- A function whose body refers to a name of the session answers the same after that name was bound
otherwise by a block, a parameter and a statement that fails. -/
theorem function_answers_the_same :
    let s : Session := ⟨⟨128, 0⟩, {}, 1000⟩
    let e : Expr := .call "f" []
    let two : Value := ⟨.finite 2, 128⟩
    let w := (Workspace.empty 1000).performAll [.create "main" {},
      .ask "main" (.perform (.define "f" [] (.symbol "b"))), .ask "main" (.perform (.assign "b" (.number two)))]
    w.Reachable ∧ w.find? "main" = some s ∧ (s.parse "f();").result = .ok (.expression e) ∧
      (s.execute (.expression e) w.store).1.result = .ok (some two) ∧
      (s.run "f();" (s.meet (s.run "f();" w.store).2 [.run "b = 3;",
        .perform (.define "g" ["b"] (.block [.assign "b" (.number two)] e)),
        .runAll "c = g(4); d = c / 0;"])).1.result = .ok "2" := by
  intro s e two w
  have hw : w.Reachable := (((Workspace.Reachable.empty 1000).performed _).performed _).performed _
  have hs : w.find? "main" = some s := rfl
  have hp : (s.parse "f();").result = .ok (.expression e) :=
    Session.parse_of_not_debug rfl (rfl : parseStatement ⟨128, 1000⟩ "f();" = .ok (.expression e))
  have hv : (s.execute (.expression e) w.store).1.result = .ok (some two) := by decide +kernel
  have ht : s.resultText (.expression e) (some two) = .ok "2" := by decide +kernel
  refine ⟨hw, hs, hp, hv, ?_⟩
  exact ht ▸ (answers_are_stable hw hs hp hv _).2

end Reckoner
