import Reckoner.Proofs.SessionConduct

/-! Quiet sessions: those that show no events. A session does the same as it does in debug mode, and nothing is
shown. Only the outline of a statement is worked out for no other purpose than to be shown: where that fails, a
session in debug mode fails before it evaluates anything. -/

namespace Reckoner

/-- The same outcome without events. -/
def Traced.silent {α : Type} (x : Traced α) : Traced α :=
  ⟨x.result, []⟩

/-- The same computation without events. -/
def Computation.silent {α : Type} (c : Computation α) : Computation α := fun store =>
  ((c store).1.silent, (c store).2)

/-- The settings with debug mode off. -/
def Settings.quiet (s : Settings) : Settings :=
  { s with debug := false }

def Session.quiet (s : Session) : Session :=
  { s with settings := s.settings.quiet }

/-- The step, with debug mode off in the settings that it gives. -/
def Step.quiet : Step → Step
  | create target settings => create target settings.quiet
  | transfer source target settings => transfer source target settings.quiet
  | step => step

/-- What a reply says, apart from events and from debug mode. -/
def Reply.quiet : Reply → Reply
  | answered outcome => answered outcome.silent
  | opened session => opened session.quiet
  | reply => reply

def Workspace.quiet (w : Workspace) : Workspace :=
  { w with sessions := w.sessions.map fun (name, s) => (name, s.quiet) }

namespace Computation
variable {α β : Type}

theorem silent_bind (c : Computation α) (f : α → Computation β) :
    (c >>= f).silent = c.silent >>= fun a => (f a).silent := by
  funext store
  rcases hc : c store with ⟨⟨result, trace⟩, after⟩
  have hsilent : c.silent store = (⟨result, []⟩, after) := by rw [silent, hc]; rfl
  cases result with
  | error f => rw [silent, bind_of_error hc, bind_of_error hsilent]; rfl
  | ok a => rw [silent, bind_of_ok hc, bind_of_ok hsilent]; rfl

private theorem silent_map (f : α → β) (c : Computation α) : (f <$> c).silent = f <$> c.silent :=
  silent_bind c fun a => pure (f a)

private theorem map_of_error {f : α → β} {c : Computation α} {s t : Store} {e : Failure} {trace : List Event}
    (h : c s = (⟨.error e, trace⟩, t)) : (f <$> c) s = (⟨.error e, trace⟩, t) :=
  bind_of_error (f := fun a => pure (f a)) h

end Computation

namespace Session
open Computation
variable (s : Session)

@[simp] theorem quiet_machine : s.quiet.machine = s.machine :=
  rfl

@[simp] theorem quiet_frame : s.quiet.frame = s.frame :=
  rfl

@[simp] theorem quiet_shown (events : List Event) : s.quiet.shown events = [] :=
  rfl

/-- The outline that the session shows of a request, if it shows one, can be shown. -/
def CanShow (request : Request) : Prop :=
  s.settings.debug = true → request.Showable s.machine

private theorem canShow_quiet (request : Request) : s.quiet.CanShow request :=
  nofun

theorem silent_recover (c : Computation String) : (recover c).silent = recover c.silent := by
  funext store
  simp only [silent, recover]
  rcases c store with ⟨⟨result, trace⟩, after⟩
  cases result with
  | ok text => rfl
  | error f => cases f <;> rfl

theorem quiet_parse {text : String} (h : s.CanShow (.run text)) :
    s.quiet.parse text = (s.parse text).silent := by
  unfold parse
  rw [quiet_machine]
  cases hp : parseStatement s.machine text with
  | error f => rfl
  | ok statement =>
    cases hd : s.settings.debug with
    | false => rfl
    | true =>
      simp only [Statement.shownOutline_eq_ok_iff.2 ⟨h hd statement hp, rfl⟩]
      rfl

private theorem quiet_parseAll (text : String) : s.quiet.parseAll text = (s.parseAll text).silent := by
  unfold parseAll
  rw [quiet_machine]
  cases parseProgram s.machine text <;> rfl

theorem quiet_execute (statement : Statement) : s.quiet.execute statement = (s.execute statement).silent := by
  funext store
  rcases hx : statement.evaluate s.machine s.frame store with ⟨outcome, after⟩
  simp only [execute, silent, Traced.silent, quiet_machine, quiet_frame, quiet_shown, hx]

theorem quiet_answer (statement : Statement) : s.quiet.answer statement = (s.answer statement).silent := by
  rw [answer, answer, silent_bind, quiet_execute]
  rfl

private theorem quiet_answerAll (statements : List Statement) :
    s.quiet.answerAll statements = (s.answerAll statements).silent := by
  induction statements with
  | nil => rfl
  | cons statement rest ih =>
    rw [answerAll, answerAll, ih, quiet_answer, silent_bind, silent_recover]
    simp only [silent_bind]
    rfl

private theorem quiet_runAll (text : String) : s.quiet.runAll text = (s.runAll text).silent := by
  unfold runAll
  rw [quiet_parseAll]
  rcases s.parseAll text with ⟨result, trace⟩
  have hgo : (lift (Traced.mk result []) >>= s.quiet.answerAll) =
      (lift ⟨result, trace⟩ >>= s.answerAll).silent := by
    rw [silent_bind, funext s.quiet_answerAll]
    rfl
  rcases result with (e | _ | _ | _ | _) | statements
  · rfl
  all_goals exact hgo

private theorem quiet_run {text : String} (h : s.CanShow (.run text)) : s.quiet.run text = (s.run text).silent := by
  rw [run, run, silent_recover, silent_bind, quiet_parse s h, funext s.quiet_answer]
  rfl

private theorem quiet_executeText {text : String} (h : s.CanShow (.execute text)) :
    s.quiet.executeText text = (s.executeText text).silent := by
  rw [executeText, executeText, silent_bind, quiet_parse s h, funext s.quiet_execute]
  rfl

/-- A quiet session answers a request like the session in debug mode, if that one can show what it shows. -/
theorem quiet_respond {request : Request} (h : s.CanShow request) :
    s.quiet.respond request = (s.respond request).silent := by
  cases request with
  | run text => rw [respond, respond, silent_map, quiet_run s h]
  | runAll text => rw [respond, respond, silent_map, quiet_runAll]
  | execute text => rw [respond, respond, silent_map, quiet_executeText s h]
  | perform statement => rw [respond, respond, silent_map, quiet_execute]

/-- An outline that cannot be shown keeps its statement from being parsed in debug mode. -/
theorem parse_of_not_canShow {text : String} (h : ¬ s.CanShow (.run text)) :
    ∃ statement f, parseStatement s.machine text = .ok statement ∧ statement.FailsToShow s.machine f ∧
      s.parse text = .fail f := by
  simp only [CanShow, Request.Showable, Classical.not_imp, Classical.not_forall] at h
  obtain ⟨hd, statement, hp, h⟩ := h
  cases ho : statement.shownOutline s.machine with
  | ok outline => exact absurd (Statement.shownOutline_eq_ok_iff.1 ho).1 h
  | error f =>
    refine ⟨statement, f, hp, Statement.failsToShow_of_shownOutline ho, ?_⟩
    simp only [parse, hp, hd, if_true, ho]

/-- A session that cannot show the outline of a statement fails, and evaluates nothing. -/
theorem respond_of_not_canShow {request : Request} (h : ¬ s.CanShow request) :
    ∃ text statement f, (request = .run text ∨ request = .execute text) ∧
      parseStatement s.machine text = .ok statement ∧ statement.FailsToShow s.machine f ∧
      ∀ store, s.respond request store = (⟨.error f, []⟩, store) := by
  cases request with
  | runAll _ | perform _ => exact absurd (fun _ => trivial) h
  | run text =>
    obtain ⟨statement, f, hp, hf, hparse⟩ := s.parse_of_not_canShow h
    refine ⟨text, statement, f, .inl rfl, hp, hf, fun store => ?_⟩
    have hrun : s.run text store = (⟨.error f, []⟩, store) := by
      rw [run, hparse, recover, bind_of_error (c := lift (.fail f)) (by rfl)]
      obtain ⟨rfl, -⟩ | ⟨rfl, -⟩ := hf <;> rfl
    exact map_of_error hrun
  | execute text =>
    obtain ⟨statement, f, hp, hf, hparse⟩ := s.parse_of_not_canShow h
    refine ⟨text, statement, f, .inr rfl, hp, hf, fun store => ?_⟩
    have hexecute : s.executeText text store = (⟨.error f, []⟩, store) := by
      rw [executeText, hparse]
      exact bind_of_error rfl
    exact map_of_error hexecute

end Session

private theorem Settings.validate_quiet (s : Settings) : s.quiet.validate = s.validate.map Settings.quiet := by
  unfold validate quiet
  split
  · rfl
  split
  · rfl
  split <;> rfl

theorem Session.validated_quiet (settings : Settings) :
    validated settings.quiet = (validated settings).map Settings.quiet := by
  rw [validated, validated, Settings.validate_quiet]
  cases settings.validate <;> rfl

/-- A copy of a quiet session is made just when one of the session itself is. -/
theorem Session.quiet_copyBy (s : Session) (copier : Copier) (settings : Settings) (store : Store) :
    s.quiet.copyBy copier settings.quiet store =
      (s.copyBy copier settings store).map fun opened => (opened.1.quiet, opened.2) := by
  rw [copyBy, copyBy, validated_quiet, quiet_machine, quiet_frame]
  split
  · cases validated settings <;> rfl
  · rfl

instance (m : Machine) (statement : Statement) : Decidable (statement.Showable m) :=
  inferInstanceAs (Decidable (_ ∧ _))

instance (m : Machine) (request : Request) : Decidable (request.Showable m) :=
  match request with
  | .run text | .execute text =>
    match h : parseStatement m text with
    | .ok statement => decidable_of_iff (statement.Showable m) (by simp [Request.Showable, h])
    | .error f => isTrue (by simp [Request.Showable, h])
  | .runAll _ | .perform _ => isTrue trivial

instance (s : Session) (request : Request) : Decidable (s.CanShow request) :=
  inferInstanceAs (Decidable (_ → _))

namespace Workspace

theorem find?_quiet (w : Workspace) (name : String) :
    w.quiet.find? name = (w.find? name).map Session.quiet :=
  Store.lookup_map Session.quiet name w.sessions

private theorem quiet_put (w : Workspace) (name : String) (opened : Session × Store) :
    (w.put name opened).quiet = w.quiet.put name (opened.1.quiet, opened.2) := by
  simp only [put, quiet, List.map_cons, List.filter_map]
  rfl

private theorem quiet_putIfOpened (w : Workspace) (name : String) (opening : Except Refusal (Session × Store)) :
    w.quiet.putIfOpened name (opening.map fun opened => (opened.1.quiet, opened.2)) =
      ((w.putIfOpened name opening).1.quiet, (w.putIfOpened name opening).2.quiet) := by
  cases opening with
  | error why => rfl
  | ok opened => exact congrArg (Prod.mk _) (w.quiet_put name opened).symm

/-- The session that a step asks, if there is one, can show the outline that it shows. -/
def CanShow (w : Workspace) : Step → Prop
  | .ask source request => ∀ s, w.find? source = some s → s.CanShow request
  | _ => True

/-- A step does the same in a quiet workspace. -/
theorem quiet_perform {w : Workspace} {step : Step} (h : w.CanShow step) :
    w.quiet.perform step.quiet = ((w.perform step).1.quiet, (w.perform step).2.quiet) := by
  cases step with
  | create target settings =>
    rw [perform, ← quiet_putIfOpened]
    refine congrArg (w.quiet.putIfOpened target) ?_
    rw [Session.create, Session.create, Session.validated_quiet]
    cases Session.validated settings <;> rfl
  | ask source request =>
    simp only [Step.quiet, perform, find?_quiet]
    cases hs : w.find? source with
    | none => rfl
    | some s =>
      simp only [Option.map_some, Session.quiet_respond s (h s hs)]
      rfl
  | fork source target =>
    simp only [Step.quiet, perform, find?_quiet]
    cases hs : w.find? source with
    | none => rfl
    | some s =>
      rw [← quiet_putIfOpened]
      refine congrArg (w.quiet.putIfOpened target) ?_
      exact (s.quiet.fork_eq w.store).trans ((s.quiet_copyBy .cloning s.settings w.store).trans
        (congrArg (Except.map _) (s.fork_eq w.store).symm))
  | transfer source target settings =>
    simp only [Step.quiet, perform, find?_quiet]
    cases hs : w.find? source with
    | none => rfl
    | some s =>
      rw [← quiet_putIfOpened]
      refine congrArg (w.quiet.putIfOpened target) ?_
      exact (s.quiet.transfer_eq settings.quiet w.store).trans ((s.quiet_copyBy .pickling settings w.store).trans
        (congrArg (Except.map _) (s.transfer_eq settings w.store).symm))

/-- Whenever one of the steps asks a session, that one can show the outline that it shows. -/
def CanShowAll (w : Workspace) : List Step → Prop
  | [] => True
  | step :: rest => w.CanShow step ∧ (w.perform step).2.CanShowAll rest

instance (w : Workspace) (step : Step) : Decidable (w.CanShow step) :=
  match step with
  | .ask source request =>
    match h : w.find? source with
    | some s => decidable_of_iff (s.CanShow request) (by simp [CanShow, h])
    | none => isTrue (by simp [CanShow, h])
  | .create .. | .fork .. | .transfer .. => isTrue trivial

instance instDecidableCanShowAll (w : Workspace) : (steps : List Step) → Decidable (w.CanShowAll steps)
  | [] => isTrue trivial
  | step :: rest =>
    have := instDecidableCanShowAll (w.perform step).2 rest
    inferInstanceAs (Decidable (_ ∧ _))

/-- What the steps give, one after another. -/
def replies (w : Workspace) : List Step → List Reply
  | [] => []
  | step :: rest => (w.perform step).1 :: (w.perform step).2.replies rest

/-- Steps do the same in a quiet workspace. -/
theorem quiet_performAll {w : Workspace} {steps : List Step} (h : w.CanShowAll steps) :
    w.quiet.replies (steps.map Step.quiet) = (w.replies steps).map Reply.quiet ∧
      w.quiet.performAll (steps.map Step.quiet) = (w.performAll steps).quiet := by
  induction steps generalizing w with
  | nil => exact ⟨rfl, rfl⟩
  | cons step rest ih =>
    obtain ⟨hstep, hrest⟩ := h
    have hreply : (w.quiet.perform step.quiet).1 = (w.perform step).1.quiet :=
      congrArg Prod.fst (quiet_perform hstep)
    have hnext : (w.quiet.perform step.quiet).2 = (w.perform step).2.quiet :=
      congrArg Prod.snd (quiet_perform hstep)
    obtain ⟨hreplies, hafter⟩ := ih hrest
    rw [← hnext] at hreplies hafter
    refine ⟨?_, hafter⟩
    rw [List.map_cons, replies, hreply, hreplies]
    rfl

/-- A quiet session shows no outline, so there is none that it could not show. -/
theorem canShow_of_quiet {w : Workspace} (hw : w.quiet = w) (step : Step) : w.CanShow step := by
  cases step with
  | ask source request =>
    intro s hs
    have hquiet := w.find?_quiet source
    rw [hw, hs] at hquiet
    rw [Option.some.inj hquiet]
    exact s.canShow_quiet request
  | _ => trivial

theorem canShowAll_of_quiet {w : Workspace} {steps : List Step} (hw : w.quiet = w)
    (hsteps : steps.map Step.quiet = steps) : w.CanShowAll steps := by
  induction steps generalizing w with
  | nil => trivial
  | cons step rest ih =>
    obtain ⟨hstep, hrest⟩ := List.cons.inj hsteps
    refine ⟨canShow_of_quiet hw step, ih ?_ hrest⟩
    have hperform := quiet_perform (canShow_of_quiet hw step)
    rw [hw, hstep] at hperform
    exact (congrArg Prod.snd hperform).symm

/-- A workspace without debug mode shows no events. -/
theorem trace_of_mem_replies {w : Workspace} {steps : List Step} (hw : w.quiet = w)
    (hsteps : steps.map Step.quiet = steps) {outcome : Traced Answer}
    (h : .answered outcome ∈ w.replies steps) : outcome.trace = [] := by
  have hreplies := (quiet_performAll (canShowAll_of_quiet hw hsteps)).1
  rw [hw, hsteps] at hreplies
  rw [hreplies] at h
  obtain ⟨reply, -, hreply⟩ := List.mem_map.1 h
  cases reply <;> cases hreply
  rfl

/-- A session that is asked for an outline that it cannot show leaves everything as it was. -/
theorem perform_of_not_canShow {w : Workspace} {source : String} {request : Request} {s : Session}
    (hs : w.find? source = some s) (h : ¬ s.CanShow request) :
    ∃ text statement f, (request = .run text ∨ request = .execute text) ∧
      parseStatement s.machine text = .ok statement ∧ statement.FailsToShow s.machine f ∧
      w.perform (.ask source request) = (.answered ⟨.error f, []⟩, w) := by
  obtain ⟨text, statement, f, hrequest, hp, hf, hrespond⟩ := Session.respond_of_not_canShow s h
  refine ⟨text, statement, f, hrequest, hp, hf, ?_⟩
  simp only [perform, hs, hrespond]

end Workspace

/-- Debug mode shows events and does nothing else, as far as it can show them. Two workspaces that differ in
debug modes only, and do steps that differ in debug modes only, give the same replies but for events and come to
the same sessions and bindings, if each session that is asked in debug mode can show the outlines that it shows.
Without debug mode no event is shown. Where the outline of a statement cannot be shown, because it is too high or a
number in it cannot be written, the session fails before it evaluates the statement, and nothing is bound. -/
theorem tracing_is_inert {w w' : Workspace} {steps steps' : List Step} (hw : w.quiet = w'.quiet)
    (hsteps : steps.map Step.quiet = steps'.map Step.quiet) :
    (w.CanShowAll steps → w'.CanShowAll steps' →
      (w.replies steps).map Reply.quiet = (w'.replies steps').map Reply.quiet ∧
        (w.performAll steps).quiet = (w'.performAll steps').quiet) ∧
    (w'.quiet = w' → steps'.map Step.quiet = steps' →
      w'.CanShowAll steps' ∧ ∀ outcome, .answered outcome ∈ w'.replies steps' → outcome.trace = []) ∧
    ∀ source request s, w.find? source = some s → ¬ s.CanShow request →
      ∃ text statement f, (request = .run text ∨ request = .execute text) ∧
        parseStatement s.machine text = .ok statement ∧ statement.FailsToShow s.machine f ∧
        w.perform (.ask source request) = (.answered ⟨.error f, []⟩, w) := by
  refine ⟨fun h h' => ?_, fun hquiet hquiet' => ?_, fun source request s hs h => ?_⟩
  · obtain ⟨hreplies, hafter⟩ := Workspace.quiet_performAll h
    obtain ⟨hreplies', hafter'⟩ := Workspace.quiet_performAll h'
    rw [hw, hsteps] at hreplies hafter
    exact ⟨hreplies.symm.trans hreplies', hafter.symm.trans hafter'⟩
  · exact ⟨Workspace.canShowAll_of_quiet hquiet hquiet',
      fun _ => Workspace.trace_of_mem_replies hquiet hquiet'⟩
  · exact Workspace.perform_of_not_canShow hs h

/-- A copy of a session in debug mode calls the function that was defined there and misses another like a copy
of a quiet session. -/
theorem copy_in_debug_mode_calls_alike :
    let steps : List Step := [.create "main" { debug := true }, .ask "main" (.run "f(x) = x / 3;"),
      .fork "main" "copy", .ask "copy" (.runAll "f(1); g(2);")]
    let quiet := steps.map Step.quiet
    let w := Workspace.empty 1000
    steps.map Step.quiet = quiet.map Step.quiet ∧ w.CanShowAll steps ∧ w.CanShowAll quiet ∧
      (w.replies steps).map Reply.quiet = (w.replies quiet).map Reply.quiet ∧
      (w.performAll steps).quiet = (w.performAll quiet).quiet ∧
      ∀ outcome, .answered outcome ∈ w.replies quiet → outcome.trace = [] := by
  intro steps quiet w
  have hinert := @tracing_is_inert w w steps quiet rfl rfl
  have hsteps : w.CanShowAll steps := by decide +kernel
  obtain ⟨hquiet, htrace⟩ := hinert.2.1 rfl rfl
  obtain ⟨hreplies, hafter⟩ := hinert.1 hsteps hquiet
  exact ⟨rfl, hsteps, hquiet, hreplies, hafter, htrace⟩

end Reckoner
