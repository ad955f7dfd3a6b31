import Reckoner.Proofs.SessionIsolation

/-! Reachable states. A store is reachable if contexts come to it by being opened, pushed, copied, bound
in and evaluated in; a workspace, if its steps lead to it. A reachable store is linked, and a session of a
reachable workspace has a frame without a parent. -/

namespace Reckoner

namespace Store

/-- Stores that contexts come to. -/
inductive Reachable : Store → Prop where
  | empty : Reachable .empty
  | opened {s : Store} (h : Reachable s) : Reachable (s.add {})
  | pushed {s : Store} (h : Reachable s) {i : Nat} (hi : i < s.size) (values : List (String × Value)) :
    Reachable (s.add { values, parent := some i })
  | copied {s : Store} (h : Reachable s) {i : Nat} (hi : i < s.size) : Reachable (s.copy i)
  | boundValue {s t : Store} (h : Reachable s) {name : String} {v : Value} {i : Nat}
    (ht : bindValue name v i s = .ok t) : Reachable t
  | boundTag {s t : Store} (h : Reachable s) {name text : String} {i : Nat}
    (ht : bindFunction name (.tagged text) i s = .ok t) : Reachable t
  | evaluated {s : Store} (h : Reachable s) (m : Machine) {i : Nat} (hi : i < s.size)
    (statement : Statement) : Reachable (statement.evaluate m i s).2

theorem Linked.bindTag {s t : Store} (hs : s.Linked) {name text : String} {i : Nat}
    (h : Store.bindFunction name (.tagged text) i s = .ok t) : t.Linked := by
  obtain ⟨-, -, rfl⟩ := bindFunction_eq_ok_iff.1 h
  intro j frame key ownName params body home hj hm
  rcases frames_rebind hj with hj | ⟨rfl, old, hold, rfl⟩
  · exact hs j frame key ownName params body home hj hm
  · rcases List.mem_cons.1 hm with he | hm
    · cases he
    · exact hs j old key ownName params body home hold hm

theorem Reachable.linked {s : Store} (h : s.Reachable) : s.Linked := by
  induction h with
  | empty => exact linked_empty
  | opened _ ih => exact ih.add [] none
  | @pushed _ _ i _ values ih => exact ih.add values (some i)
  | copied _ hi ih => exact ih.copy hi
  | boundValue _ ht ih => exact ih.bindValue ht
  | boundTag _ ht ih => exact ih.bindTag ht
  | evaluated _ m hi statement ih => exact (statement.lands_evaluate_statement m ih hi).outcome.2.1

end Store

/-- The statements that a request has a session evaluate: those that its text holds, or the one that it comes with. -/
inductive Request.Poses (m : Machine) (statement : Statement) : Request → Prop where
  | run {text : String} (h : parseStatement m text = .ok statement) : Poses m statement (.run text)
  | runAll {text : String} {statements : List Statement} (h : parseProgram m text = .ok statements)
    (hmem : statement ∈ statements) : Poses m statement (.runAll text)
  | execute {text : String} (h : parseStatement m text = .ok statement) : Poses m statement (.execute text)
  | perform : Poses m statement (.perform statement)

/-- A computation changes every store as a relation between stores admits. -/
def Computation.Advances {α : Type} (r : Store → Store → Prop) (c : Computation α) : Prop :=
  ∀ s, r s (c s).2

section Advances
variable {r : Store → Store → Prop} (hrefl : ∀ s, r s s) (htrans : ∀ s t u, r s t → r t u → r s u)

include hrefl in
theorem Computation.advances_lift {α : Type} (t : Traced α) : Advances r (lift t) :=
  fun s => hrefl s

include htrans in
theorem Computation.Advances.bind {α β : Type} {c : Computation α} {f : α → Computation β}
    (hc : Advances r c) (hf : ∀ a, Advances r (f a)) : Advances r (c >>= f) := by
  intro s
  have ht := hc s
  rcases h : c s with ⟨⟨result, trace⟩, t⟩
  rw [h] at ht
  cases result with
  | error e => rw [bind_of_error h]; exact ht
  | ok a => rw [bind_of_ok h]; exact htrans s t _ ht (hf a t)

include hrefl htrans in
theorem Computation.Advances.map {α β : Type} {c : Computation α} (hc : Advances r c) (f : α → β) :
    Advances r (f <$> c) :=
  Advances.bind htrans hc fun a => advances_lift hrefl (pure (f a))

include hrefl in
/-- What follows on a result needs to be as admitted for that result only. -/
theorem Computation.advances_lift_bind {α β : Type} {t : Traced α} {f : α → Computation β}
    (hf : ∀ a, t.result = .ok a → Advances r (f a)) : Advances r (lift t >>= f) := by
  intro s
  obtain ⟨result, trace⟩ := t
  cases result with
  | error e => exact hrefl s
  | ok a =>
    rw [bind_of_ok (c := lift ⟨.ok a, trace⟩) (s := s) rfl]
    exact hf a rfl s

namespace Session
open Computation
variable {s : Session}

omit hrefl htrans in
theorem parseStatement_of_parse {text : String} {statement : Statement}
    (h : (s.parse text).result = .ok statement) : parseStatement s.machine text = .ok statement := by
  unfold parse at h
  split at h
  · cases h
  · rename_i parsed hparsed
    rw [hparsed]
    split at h
    · split at h
      · exact h
      · cases h
    · exact h

omit hrefl htrans in
theorem parseProgram_of_parseAll {text : String} {statements : List Statement}
    (h : (s.parseAll text).result = .ok statements) :
    parseProgram s.machine text = .ok statements := by
  unfold parseAll at h
  split at h
  · cases h
  · rename_i hparsed
    rw [hparsed]
    exact h

omit hrefl htrans in
theorem advances_recover {c : Computation String} (hc : Advances r c) : Advances r (recover c) :=
  fun store => recover_store c store ▸ hc store

include hrefl htrans

theorem advances_answer {statement : Statement}
    (hs : Advances r (statement.evaluate s.machine s.frame)) : Advances r (s.answer statement) :=
  Advances.bind htrans (c := s.execute statement) hs fun _ => advances_lift hrefl _

private theorem advances_answerAll {statements : List Statement}
    (hs : ∀ statement, statement ∈ statements → Advances r (statement.evaluate s.machine s.frame)) :
    Advances r (s.answerAll statements) := by
  induction statements with
  | nil => exact advances_lift hrefl (pure [])
  | cons statement rest ih =>
    obtain ⟨hstatement, hrest⟩ := List.forall_mem_cons.1 hs
    exact Advances.bind htrans (advances_recover (advances_answer hrefl htrans hstatement)) fun _ =>
      Advances.bind htrans (ih hrest) fun _ => advances_lift hrefl (pure _)

/-- What the statements that a request poses do to the store, the request does. -/
theorem advances_respond {request : Request}
    (hs : ∀ statement, request.Poses s.machine statement → Advances r (statement.evaluate s.machine s.frame)) :
    Advances r (s.respond request) := by
  cases request with
  | run text =>
    have hrun : Advances r (s.run text) := advances_recover <| advances_lift_bind hrefl fun statement hp =>
      advances_answer hrefl htrans (hs statement (.run (parseStatement_of_parse hp)))
    exact Advances.map hrefl htrans hrun _
  | runAll text =>
    have hgo : Advances r (lift (s.parseAll text) >>= s.answerAll) :=
      advances_lift_bind hrefl fun statements hp => advances_answerAll hrefl htrans fun statement hmem =>
        hs statement (.runAll (parseProgram_of_parseAll hp) hmem)
    have hrun : Advances r (s.runAll text) := by
      unfold runAll
      generalize s.parseAll text = parsed at hgo ⊢
      rcases parsed with ⟨(e | _ | _ | _ | _) | statements, trace⟩
      · exact advances_lift hrefl _
      all_goals exact hgo
    exact Advances.map hrefl htrans hrun _
  | execute text =>
    have hexecute : Advances r (lift (s.parse text) >>= s.execute) :=
      advances_lift_bind hrefl fun statement hp => hs statement (.execute (parseStatement_of_parse hp))
    exact Advances.map hrefl htrans hexecute _
  | perform statement =>
    exact Advances.map hrefl htrans (c := s.execute statement) (hs statement .perform) _

end Session

end Advances

private theorem Session.reachable_respond (s : Session) (request : Request) {store : Store}
    (h : store.Reachable) (hs : s.frame < store.size) : (s.respond request store).2.Reachable := by
  refine (advances_respond (s := s)
    (r := fun t u => t.Reachable ∧ s.frame < t.size → u.Reachable ∧ s.frame < u.size)
    (fun _ h => h) (fun _ _ _ h h' ht => h' (h ht)) (fun statement _ t ht => ?_) store ⟨h, hs⟩).1
  exact ⟨ht.1.evaluated _ ht.2 statement,
    (statement.lands_evaluate_statement _ ht.1.linked ht.2).outcome.2.2⟩

namespace Workspace

/-- Workspaces that steps lead to. -/
inductive Reachable : Workspace → Prop where
  | empty (stack : Nat) : Reachable (.empty stack)
  | performed {w : Workspace} (h : Reachable w) (step : Step) : Reachable (w.perform step).2

/-- All that a step can do: nothing, or one of three things. -/
inductive Moves (w : Workspace) (step : Step) : Workspace → Prop where
  | stays : Moves w step w
  | starts (target : String) {settings : Settings} (hv : settings.Valid) :
    Moves w step (w.put target (Session.start w.stack settings w.store))
  | answers {name : String} {s : Session} (hs : w.find? name = some s) {request : Request}
    (hstep : step = .ask name request) : Moves w step { w with store := (s.respond request w.store).2 }
  | copies {name : String} {s : Session} (hs : w.find? name = some s) (target : String) {settings : Settings}
    (hv : settings.Valid) : Moves w step (w.put target (s.copied settings w.store))

private theorem moves_copyBy {w : Workspace} {name : String} {s : Session} (hs : w.find? name = some s)
    (copier : Copier)
    (settings : Settings) (target : String) (step : Step) :
    w.Moves step (w.putIfOpened target (s.copyBy copier settings w.store)).2 := by
  cases hcopy : s.copyBy copier settings w.store with
  | error why => exact .stays
  | ok copy =>
    obtain ⟨-, hvalid, rfl⟩ := Session.copyBy_eq_ok_iff.1 hcopy
    exact .copies hs target hvalid

theorem moves_perform (w : Workspace) (step : Step) : w.Moves step (w.perform step).2 := by
  cases step with
  | create target settings =>
    rw [perform]
    cases hcreate : Session.create w.stack settings w.store with
    | error why => exact .stays
    | ok opened =>
      obtain ⟨hvalid, rfl⟩ := Session.create_eq_ok_iff.1 hcreate
      exact .starts target hvalid
  | ask source request =>
    cases hs : w.find? source with
    | none => simpa only [perform, hs] using .stays
    | some s => exact perform_ask hs request ▸ .answers hs rfl
  | fork source target =>
    cases hs : w.find? source with
    | none => simpa only [perform, hs] using .stays
    | some s => exact perform_fork hs target ▸ moves_copyBy hs .cloning s.settings target _
  | transfer source target settings =>
    cases hs : w.find? source with
    | none => simpa only [perform, hs] using .stays
    | some s => exact perform_transfer hs target settings ▸ moves_copyBy hs .pickling settings target _

/-- The store is reachable, and every session has a frame of it that has no parent. -/
structure Rooted (w : Workspace) : Prop where
  reachable : w.store.Reachable
  lt {name : String} {s : Session} (hs : w.find? name = some s) : s.frame < w.store.size
  root {name : String} {s : Session} (hs : w.find? name = some s) :
    (w.store.frameAt s.frame).parent = none

variable {w : Workspace} {name : String} {s : Session}

private theorem rooted_empty (stack : Nat) : (empty stack).Rooted :=
  ⟨.empty, nofun, nofun⟩

theorem Rooted.put (h : w.Rooted) {opened : Session × Store} (hr : opened.2.Reachable)
    (hk : w.store.Keeps opened.2) (hlt : opened.1.frame < opened.2.size)
    (hroot : (opened.2.frameAt opened.1.frame).parent = none) (name : String) :
    (w.put name opened).Rooted := by
  refine ⟨hr, fun {other s} hs => ?_, fun {other s} hs => ?_⟩
  all_goals
    rw [find?_put] at hs
    split at hs
    · obtain rfl := Option.some.inj hs
      first | exact hlt | exact hroot
  · exact Nat.lt_of_lt_of_le (h.lt hs) hk.size_le
  · exact (congrArg Frame.parent (hk.frameAt (h.lt hs))).trans (h.root hs)

/-- No frame loses or gains a parent when one of them is changed within its scope. -/
theorem Rooted.within (h : w.Rooted) {i : Nat} {after : Store} (hr : after.Reachable)
    (hw : w.store.Within i after) : ({ w with store := after } : Workspace).Rooted :=
  ⟨hr, fun hs => Nat.lt_of_lt_of_le (h.lt hs) hw.size_le,
    fun hs => (hw.parent_frameAt (h.lt hs)).trans (h.root hs)⟩

private theorem Rooted.copy (h : w.Rooted) (hs : w.find? name = some s) (settings : Settings)
    (target : String) :
    (w.put target (s.copied settings w.store)).Rooted := by
  have hl := h.reachable.linked
  have hmem : s.frame ∈ w.store.places s.frame := Store.mem_places_self
  refine h.put (h.reachable.copied (h.lt hs)) (w.store.keeps_copy s.frame)
    (Store.placeInCopy_lt ((Store.mem_reachable hl (h.lt hs)).2 hmem)) ?_ target
  change ((w.store.copy s.frame).frameAt (w.store.placeInCopy s.frame s.frame)).parent = none
  rw [Store.frameAt_copy hl (h.lt hs) hmem, Frame.relocate, h.root hs]
  rfl

private theorem Rooted.move (h : w.Rooted) {step : Step} {after : Workspace} (hmove : w.Moves step after) :
    after.Rooted := by
  cases hmove with
  | stays => exact h
  | starts target hv =>
    refine h.put h.reachable.opened (w.store.keeps_add {}) ?_ ?_ target
    · exact (w.store.size_add {}).symm ▸ Nat.lt_succ_self _
    · change ((w.store.add {}).frameAt w.store.size).parent = none
      simp [Store.frameAt, Store.add, Store.size]
  | @answers name s hs request _ =>
    exact h.within (s.reachable_respond request h.reachable (h.lt hs))
      (s.respond_within request h.reachable.linked (h.lt hs)).2
  | copies hs target hv => exact h.copy hs _ target

theorem Reachable.rooted (h : w.Reachable) : w.Rooted := by
  induction h with
  | empty stack => exact rooted_empty stack
  | @performed w _ step ih => exact ih.move (w.moves_perform step)

end Workspace

end Reckoner
