import Mathlib.Data.List.Forall2
import Reckoner.CommandLine.Script
import Reckoner.Proofs.DocumentedFailures
import Reckoner.Proofs.LayoutVariants
import Reckoner.Proofs.SessionGrowth
import Reckoner.Proofs.StatementLists

/-! Batches and scripts. Statements that are run from one text, or from a script, give what they give when
they are run one at a time. -/

namespace Reckoner
open Computation

def Statement.isDefinition : Statement → Bool
  | .define .. => true
  | _ => false

/-- A text that was run: its statement, what executing that gave, the events shown, and the answer. -/
structure Turn where
  text : String
  statement : Statement
  outcome : Except Failure (Option Value)
  events : List Event
  answer : String

namespace Turn

def failed (t : Turn) : Bool :=
  match t.outcome with
  | .ok _ => false
  | .error _ => true

/-- The line of a script: the answer, with a word before it if a function was defined. -/
def line (t : Turn) : String :=
  (if t.statement.isDefinition && !t.failed then "Defined function: " else "") ++ t.answer ++ "\n"

end Turn

namespace Session

/-- The texts of the turns are run one after another, and lead from one store to another. -/
inductive Runs (s : Session) : Store → List Turn → Store → Prop where
  | nil (store : Store) : Runs s store [] store
  | cons {store after final : Store} {turn : Turn} {turns : List Turn}
    (hparse : (s.parse turn.text).result = .ok turn.statement)
    (hexecute : s.execute turn.statement store = (⟨turn.outcome, turn.events⟩, after))
    (hanswer : (s.run turn.text store).1.result = .ok turn.answer)
    (hafter : (s.run turn.text store).2 = after)
    (hrest : Runs s after turns final) : Runs s store (turn :: turns) final

/-- A session in which nothing is bound yet, with the precision that its settings ask for. -/
structure Fresh (s : Session) (store : Store) : Prop where
  precision : s.precision = s.settings.bits
  frame : store.frameAt s.frame = {}

/-- A session that was just started is fresh. -/
theorem fresh_start (stack : Nat) (settings : Settings) (store : Store) :
    (start stack settings store).1.Fresh (start stack settings store).2 := by
  refine ⟨rfl, ?_⟩
  simp [start, Store.frameAt, Store.add, Store.size]

end Session

/-- Statements that define a function are those without a value. -/
theorem Statement.isNone_of_run {evaluate : Evaluator} {i : Nat} {store : Store} {statement : Statement}
    {value : Option Value} (h : (statement.run evaluate i store).1.result = .ok value) :
    value.isNone = statement.isDefinition := by
  cases statement with
  | assign name e =>
    obtain ⟨v, -, h, -⟩ := exists_of_bind h
    obtain ⟨-, -, h, -⟩ := exists_of_bind h
    cases h
    rfl
  | define name params body =>
    have hbind {store : Store} (h : ((do
        update (Store.bindFunction name (.closure name params body i) i)
        record (.defined name)
        return none : Computation (Option Value)) store).1.result = .ok value) : value = none := by
      obtain ⟨-, -, h, -⟩ := exists_of_bind h
      obtain ⟨-, -, h, -⟩ := exists_of_bind h
      cases h
      rfl
    rw [run] at h
    cases hr : firstRepeated? [] params with
    | none =>
      rw [hr] at h
      rw [hbind h]
      rfl
    | some param =>
      rw [hr] at h
      cases h
  | expression e =>
    obtain ⟨v, -, h, -⟩ := exists_of_bind h
    cases h
    rfl
  | misplaced e => cases h

namespace Session
variable {s : Session} {store after final : Store} {statement : Statement} {text : String}

theorem recover_answer_of_value {value : Option Value} {trace : List Event}
    (h : s.execute statement store = (⟨.ok value, trace⟩, after)) :
    recover (s.answer statement) store = (⟨s.resultText statement value, trace⟩, after) := by
  have ha : s.answer statement store = (⟨s.resultText statement value, trace ++ []⟩, after) := by
    rw [answer, bind_of_ok h]
    rfl
  rw [recover, ha, List.append_nil]
  cases ht : s.resultText statement value with
  | ok shown => rfl
  | error f =>
    obtain ⟨fault, rfl⟩ := exists_fault_of_resultText ht
    rfl

theorem recover_answer_of_error {e : Error} {trace : List Event}
    (h : s.execute statement store = (⟨.error (.error e), trace⟩, after)) :
    recover (s.answer statement) store = (⟨.ok e.message, trace⟩, after) := by
  have ha : s.answer statement store = (⟨.error (.error e), trace⟩, after) := by
    rw [answer, bind_of_error h]
  rw [recover, ha]

private theorem message_of_recover {f : Failure} {trace : List Event} {message : String}
    (h : s.execute statement store = (⟨.error f, trace⟩, after))
    (hm : (recover (s.answer statement) store).1.result = .ok message) : f.message = message := by
  have ha : s.answer statement store = (⟨.error f, trace⟩, after) := by
    rw [answer, bind_of_error h]
  rw [recover, ha] at hm
  cases f with
  | error e => exact Except.ok.inj hm
  | _ => cases hm

/-- Running an accepted text is answering its statement. -/
theorem run_of_parse (hp : (s.parse text).result = .ok statement) (store : Store) :
    (s.run text store).1.result = (recover (s.answer statement) store).1.result ∧
      (s.run text store).2 = (recover (s.answer statement) store).2 := by
  rcases hparse : s.parse text with ⟨_, parsing⟩
  rw [hparse] at hp
  cases hp
  have hr : (do
      let statement ← lift (s.parse text)
      s.answer statement : Computation String) store =
        (⟨(s.answer statement store).1.result, parsing ++ (s.answer statement store).1.trace⟩,
          (s.answer statement store).2) :=
    bind_of_ok (by rw [lift, hparse])
  rw [run, recover, recover, hr]
  rcases s.answer statement store with ⟨⟨(e | _ | _ | _ | _) | text, trace⟩, after⟩ <;> exact ⟨rfl, rfl⟩

theorem Runs.value {value : Option Value} {events : List Event} {shown : String} {turns : List Turn}
    (hp : (s.parse text).result = .ok statement)
    (hx : s.execute statement store = (⟨.ok value, events⟩, after))
    (ht : s.resultText statement value = .ok shown) (h : s.Runs after turns final) :
    s.Runs store (⟨text, statement, .ok value, events, shown⟩ :: turns) final := by
  obtain ⟨hrun, hafter⟩ := run_of_parse hp store
  rw [recover_answer_of_value hx] at hrun hafter
  exact .cons hp hx (hrun.trans ht) hafter h

theorem Runs.error {e : Error} {events : List Event} {turns : List Turn}
    (hp : (s.parse text).result = .ok statement)
    (hx : s.execute statement store = (⟨.error (.error e), events⟩, after)) (h : s.Runs after turns final) :
    s.Runs store (⟨text, statement, .error (.error e), events, e.message⟩ :: turns) final := by
  obtain ⟨hrun, hafter⟩ := run_of_parse hp store
  rw [recover_answer_of_error hx] at hrun hafter
  exact .cons hp hx hrun hafter h

/-- A text is accepted and its statement evaluated, but the value is a number that no text can hold. -/
def Overflows (s : Session) (store : Store) (text : String) (fault : Decimal.Fault) : Prop :=
  ∃ statement value, (s.parse text).result = .ok statement ∧
    (s.execute statement store).1.result = .ok value ∧
    s.resultText statement value = .error (.unwritable fault)

private theorem Overflows.run {fault : Decimal.Fault} (h : s.Overflows store text fault) :
    (s.run text store).1.result = .error (.unwritable fault) := by
  obtain ⟨statement, value, hp, hvalue, hshown⟩ := h
  rw [run_of_value hp hvalue, hshown]

/-- Accepted texts can be run one after another, and each is answered, up to the first that overflows. -/
theorem exists_runs (hw : store.Written) {texts : List String}
    (h : ∀ text, text ∈ texts → ∃ statement, (s.parse text).result = .ok statement) :
    (∃ turns after, turns.map Turn.text = texts ∧ s.Runs store turns after) ∨
      ∃ turns after text rest fault, texts = turns.map Turn.text ++ text :: rest ∧
        s.Runs store turns after ∧ s.Overflows after text fault := by
  induction texts generalizing store with
  | nil => exact .inl ⟨[], store, rfl, .nil store⟩
  | cons text texts ih =>
    obtain ⟨⟨statement, hp⟩, hrest⟩ := List.forall_mem_cons.1 h
    have hregular := regular_of_parseStatement (parseStatement_of_parse hp)
    have herror (f : Failure) (hf : (s.execute statement store).1.result = .error f) : ∃ e, f = .error e :=
      error_of_execute hregular hw hf
    have hlater := ih (written_execute (s := s) hregular hw) hrest
    rcases hx : s.execute statement store with ⟨⟨outcome, events⟩, after⟩
    rw [hx] at hlater herror
    -- Once the first turn is known, the others follow it.
    have hgo (turn : Turn) (htext : turn.text = text)
        (hcons : ∀ turns final, s.Runs after turns final → s.Runs store (turn :: turns) final) :
        (∃ turns after, turns.map Turn.text = text :: texts ∧ s.Runs store turns after) ∨
          ∃ turns after later rest fault, text :: texts = turns.map Turn.text ++ later :: rest ∧
            s.Runs store turns after ∧ s.Overflows after later fault := by
      subst htext
      rcases hlater with ⟨turns, final, htexts, hruns⟩ | ⟨turns, final, later, rest, fault, htexts, hruns, hf⟩
      · exact .inl ⟨turn :: turns, final, by rw [List.map_cons, htexts], hcons turns final hruns⟩
      · exact .inr ⟨turn :: turns, final, later, rest, fault,
          by rw [List.map_cons, htexts, List.cons_append], hcons turns final hruns, hf⟩
    cases outcome with
    | error f =>
      obtain ⟨e, rfl⟩ := herror f rfl
      exact hgo _ rfl fun _ _ hruns => hruns.error hp hx
    | ok value =>
      cases ht : s.resultText statement value with
      | ok shown => exact hgo _ rfl fun _ _ hruns => hruns.value hp hx ht
      | error f =>
        obtain ⟨fault, rfl⟩ := exists_fault_of_resultText ht
        exact .inr ⟨[], store, text, texts, fault, rfl, .nil store, statement, value, hp, by rw [hx], ht⟩

/-- Answering statements in a row gives the answers of the turns, and then those of further statements. -/
theorem Runs.answerAll {turns : List Turn} (h : s.Runs store turns final) (rest : List Statement) :
    (s.answerAll (turns.map Turn.statement ++ rest) store).1.result =
        (turns.map Turn.answer ++ ·) <$> (s.answerAll rest final).1.result ∧
      (s.answerAll (turns.map Turn.statement ++ rest) store).2 = (s.answerAll rest final).2 := by
  induction h with
  | nil store =>
    rw [List.map_nil, List.nil_append]
    rcases (s.answerAll rest store).1.result with f | texts <;> exact ⟨rfl, rfl⟩
  | @cons store after final turn turns hparse hexecute hanswer hafter _ ih =>
    obtain ⟨hrun, hstore⟩ := run_of_parse hparse store
    rw [hanswer] at hrun
    rw [hafter] at hstore
    rcases hx : recover (s.answer turn.statement) store with ⟨⟨result, trace⟩, t⟩
    rw [hx] at hrun hstore
    obtain rfl : .ok turn.answer = result := hrun
    obtain rfl : after = t := hstore
    obtain ⟨hresults, hlast⟩ := ih
    rw [List.map_cons, List.cons_append, Session.answerAll, bind_of_ok hx]
    rcases hy : s.answerAll (turns.map Turn.statement ++ rest) after with ⟨⟨results, later⟩, u⟩
    rw [hy] at hresults hlast
    obtain rfl : results = _ := hresults
    rcases hz : (s.answerAll rest final).1.result with f | texts <;> rw [hz] at hy
    · rw [bind_of_error hy]
      exact ⟨rfl, hlast⟩
    · rw [bind_of_ok hy]
      exact ⟨rfl, hlast⟩

private theorem isNone_of_execute {value : Option Value}
    (h : (s.execute statement store).1.result = .ok value) : value.isNone = statement.isDefinition :=
  Statement.isNone_of_run (evaluate_of_execute h)

end Session

namespace CommandLine.Script
open Session
variable {s : Session} {store after final : Store} {statement : Statement}

/-- The line of a statement that came to its end is the answer to it, with a word before a definition. -/
theorem line_of_execute {value : Option Value} (h : (s.execute statement store).1.result = .ok value) :
    line s statement value = (fun shown => (if statement.isDefinition then "Defined function: " else "") ++
      shown ++ "\n") <$> s.resultText statement value := by
  have hdefinition := isNone_of_execute h
  cases value with
  | some v =>
    cases statement with
    | define => cases hdefinition
    | _ => rfl
  | none =>
    cases statement with
    | define name params body => rfl
    | _ => cases hdefinition

/-- A script shows the line of a turn before it goes on, and fails if the turn does. -/
theorem evaluate_turn {turn : Turn}
    (hexecute : s.execute turn.statement store = (⟨turn.outcome, turn.events⟩, after))
    (hanswer : (recover (s.answer turn.statement) store).1.result = .ok turn.answer) (rest : List Statement) :
    evaluate s store (turn.statement :: rest) =
      (fun others : Outcome => { others with
        shown := traceText turn.events ++ turn.line ++ others.shown
        status := if turn.failed then 1 else others.status }) <$> evaluate s after rest := by
  obtain ⟨text, statement, outcome, events, answer⟩ := turn
  dsimp only at hexecute hanswer
  rw [evaluate, hexecute]
  cases outcome with
  | ok value =>
    rw [recover_answer_of_value hexecute] at hanswer
    have hvalue : (s.execute statement store).1.result = .ok value := by rw [hexecute]
    simp only [line_of_execute hvalue, show s.resultText statement value = .ok answer from hanswer]
    rcases evaluate s after rest with abort | others
    · rfl
    · exact congrArg Except.ok (by simp [Turn.line, Turn.failed])
  | error f =>
    obtain rfl := message_of_recover hexecute hanswer
    dsimp only
    rcases evaluate s after rest with abort | others
    · rfl
    · exact congrArg Except.ok (by simp [Turn.line, Turn.failed, String.append_assoc])

/-- A script shows the lines of the turns before it goes on, and fails if one of them does. -/
theorem evaluate_of_runs {turns : List Turn} (h : s.Runs store turns final) (rest : List Statement) :
    evaluate s store (turns.map Turn.statement ++ rest) =
      (fun others : Outcome => { others with
        shown := String.join (turns.map fun t => traceText t.events ++ t.line) ++ others.shown
        status := if turns.any Turn.failed then 1 else others.status }) <$> evaluate s final rest := by
  induction h with
  | nil store =>
    rw [List.map_nil, List.nil_append]
    rcases evaluate s store rest with abort | others
    · rfl
    · exact congrArg Except.ok (by simp)
  | @cons store after final turn turns hparse hexecute hanswer _ _ ih =>
    rw [(run_of_parse hparse store).1] at hanswer
    rw [List.map_cons, List.cons_append, evaluate_turn hexecute hanswer, ih]
    rcases evaluate s final rest with abort | others
    · rfl
    · refine congrArg Except.ok ?_
      cases hf : turn.failed <;> simp [hf, String.join_cons, String.append_assoc]

private theorem evaluate_of_fault {value : Option Value} {fault : Decimal.Fault}
    (hvalue : (s.execute statement store).1.result = .ok value)
    (ht : s.resultText statement value = .error (.unwritable fault)) (rest : List Statement) :
    evaluate s store (statement :: rest) = .error (.failed (.unwritable fault)) := by
  rcases hx : s.execute statement store with ⟨⟨outcome, events⟩, after⟩
  rw [hx] at hvalue
  cases hvalue
  have hline : line s statement value = .error (.unwritable fault) := by
    rw [line_of_execute (by rw [hx]), ht]
    rfl
  rw [evaluate, hx]
  simp only [hline]
  rfl

/-- Over alike frames, a script does the same. -/
theorem evaluate_of_alike {a b : Session} (h : Akin True True a b) {store' : Store}
    (ha : store.Alike a.frame store' b.frame) (statements : List Statement) :
    evaluate a store statements = evaluate b store' statements := by
  induction statements generalizing store store' with
  | nil => rfl
  | cons statement rest ih =>
    obtain ⟨hx, ha', -⟩ := matches_execute h statement store store' ha (.inl trivial)
    have hline (value : Option Value) : line a statement value = line b statement value := by
      have hformat (n : Value) : a.format n = b.format n := by
        rw [Session.format, Session.format, h.precision, (h.format trivial).1, (h.format trivial).2]
      cases value with
      | none => cases statement <;> rfl
      | some v => exact congrArg (Functor.map (· ++ "\n")) (hformat v)
    rw [evaluate, evaluate]
    simp only [hx.eq trivial trivial, ih ha', hline]

/-- What is read from a file that holds a text. -/
theorem text_of_file {bytes : List UInt8} {text : String} (h : Text.Utf8.decode bytes = .ok text.toList)
    (path : String) :
    (Source.file bytes).text path = .ok (String.ofList (Text.unifyLineEnds text.toList)) := by
  rw [Source.text, h]

theorem sameKind_of_file (text : String) (m : Machine) :
    SameKind (parseProgram m text)
      (parseProgram m (String.ofList (Text.unifyLineEnds text.toList))) := by
  refine Relaid.parseProgram ?_ m
  rw [String.toList_ofList]
  exact relaid_unifyLineEnds _

/-- A script in a file does what a fresh session does. -/
theorem run_of_parseProgram {statements : List Statement} {text : String} {bytes : List UInt8}
    (hf : s.Fresh store) (ha : store.Alone s.frame)
    (hp : parseProgram s.machine text = .ok statements)
    (hb : Text.Utf8.decode bytes = .ok text.toList) (path : String) :
    run s.stack s.settings path (.file bytes) =
      (fun evaluated : Outcome => { evaluated with
        shown := traceText (s.shown [.parsedProgram statements.length]) ++ evaluated.shown }) <$>
        evaluate s store statements := by
  have hread := sameKind_of_file text s.machine
  rw [hp] at hread
  generalize hother : parseProgram s.machine (String.ofList (Text.unifyLineEnds text.toList)) = parsed
    at hread
  cases hread
  have hmachine : (Session.start s.stack s.settings .empty).1.machine = s.machine :=
    congrArg (Machine.mk · s.stack) hf.precision.symm
  have hakin : Akin True True (Session.start s.stack s.settings .empty).1 s :=
    ⟨hmachine, fun _ => ⟨rfl, rfl⟩, fun _ => rfl⟩
  have halike : (Session.start s.stack s.settings .empty).2.Alike 0 store s.frame := by
    have hlt : 0 < (Store.empty.add {}).size := by decide
    refine ⟨Store.linked_empty.add [] none, ha.linked, hlt, ha.lt, ?_⟩
    rw [ha.scope, hf.frame]
    exact Store.scope_of_root hlt rfl
  have hparsed : (Session.start s.stack s.settings .empty).1.parseAll
      (String.ofList (Text.unifyLineEnds text.toList)) =
        ⟨.ok statements, s.shown [.parsedProgram statements.length]⟩ := by
    unfold Session.parseAll
    rw [hmachine, hother]
    rfl
  rw [run, text_of_file hb path]
  simp only [hparsed, evaluate_of_alike hakin halike]
  rfl

/-- A script in a file does what a fresh session does turn by turn. -/
theorem run_of_runs {turns : List Turn} {text : String} {bytes : List UInt8} (hf : s.Fresh store)
    (ha : store.Alone s.frame) (hruns : s.Runs store turns final)
    (hp : parseProgram s.machine text = .ok (turns.map Turn.statement))
    (hb : Text.Utf8.decode bytes = .ok text.toList) (path : String) :
    run s.stack s.settings path (.file bytes) =
      .ok { shown := traceText (s.shown [.parsedProgram turns.length]) ++
              String.join (turns.map fun t => traceText t.events ++ t.line)
            status := if turns.any Turn.failed then 1 else 0 } := by
  have hevaluate := evaluate_of_runs hruns []
  rw [List.append_nil] at hevaluate
  rw [run_of_parseProgram hf ha hp hb path, hevaluate]
  simp [evaluate]

/-- A script whose text is rejected shows the error, and fails. -/
theorem run_of_error {stack : Nat} {settings : Settings} {text : String} {bytes : List UInt8} {e : Error}
    (hp : parseProgram ⟨settings.bits, stack⟩ text = .error (.error e))
    (hb : Text.Utf8.decode bytes = .ok text.toList) (path : String) :
    ∃ e' : Error, run stack settings path (.file bytes) =
      .ok { shown := s!"In '{path}':\n" ++ e'.message ++ "\n", status := 1 } := by
  have hread := sameKind_of_file text ⟨settings.bits, stack⟩
  rw [hp] at hread
  have herror : ∃ e', parseProgram ⟨settings.bits, stack⟩ (String.ofList (Text.unifyLineEnds text.toList)) =
      .error (.error e') := by
    generalize parseProgram ⟨settings.bits, stack⟩ (String.ofList (Text.unifyLineEnds text.toList)) = parsed
      at hread
    cases hread <;> exact ⟨_, rfl⟩
  obtain ⟨e', he'⟩ := herror
  refine ⟨e', ?_⟩
  have hparsed : (Session.start stack settings .empty).1.parseAll
      (String.ofList (Text.unifyLineEnds text.toList)) = .fail (.error e') := by
    have hmachine : (Session.start stack settings .empty).1.machine = ⟨settings.bits, stack⟩ := rfl
    unfold Session.parseAll
    rw [hmachine, he']
  rw [run, text_of_file hb path]
  simp only [hparsed, Traced.fail, refusal]
  rfl

end CommandLine.Script

namespace Session
variable {s : Session} {store final : Store} {text : String}

theorem Runs.parse {turns : List Turn} (h : s.Runs store turns final) :
    ParsedFrom s.machine (turns.map Turn.text) (turns.map Turn.statement) := by
  induction h with
  | nil => exact .nil
  | cons hparse _ _ _ _ ih => exact .cons (parseStatement_of_parse hparse) ih

/-- Events are shown in debug mode only. -/
theorem Runs.events {turns : List Turn} (h : s.Runs store turns final) (hd : s.settings.debug = false) :
    ∀ t, t ∈ turns → t.events = [] := by
  induction h with
  | nil => exact fun t ht => absurd ht List.not_mem_nil
  | @cons store after final turn turns _ hexecute _ _ _ ih =>
    have hevents : (s.execute turn.statement store).1.trace = [] := by
      simp [execute, shown, hd]
    rw [hexecute] at hevents
    exact List.forall_mem_cons.2 ⟨hevents, ih⟩

theorem runAll_of_parseProgram {statements : List Statement}
    (h : parseProgram s.machine text = .ok statements) (store : Store) :
    (s.runAll text store).1.result = (s.answerAll statements store).1.result ∧
      (s.runAll text store).2 = (s.answerAll statements store).2 := by
  have hparsed : s.parseAll text = ⟨.ok statements, s.shown [.parsedProgram statements.length]⟩ := by
    unfold parseAll
    rw [h]
  unfold Session.runAll
  rw [hparsed]
  exact ⟨rfl, rfl⟩

/-- Running the texts of the turns as one text gives the answers of the turns, if that leaves the calls that a list
takes. -/
theorem Runs.runAll {turns : List Turn} (h : s.Runs store turns final) (hne : turns ≠ [])
    (hspare : ParsedFrom (s.machine.sparing 3) (turns.map Turn.text) (turns.map Turn.statement)) :
    (s.runAll (String.join (turns.map Turn.text)) store).1.result = .ok (turns.map Turn.answer) ∧
      (s.runAll (String.join (turns.map Turn.text)) store).2 = final := by
  have hp := parseProgram_join (mt List.map_eq_nil_iff.1 hne) hspare
  obtain ⟨hresult, hstore⟩ := runAll_of_parseProgram hp store
  obtain ⟨hanswers, hfinal⟩ := h.answerAll []
  rw [List.append_nil] at hanswers hfinal
  exact ⟨(hresult.trans hanswers).trans (congrArg Except.ok (List.append_nil _)), hstore.trans hfinal⟩

/-- What goes too deep is not answered, and nothing of it is evaluated. -/
theorem runAll_of_tooDeep (h : parseProgram s.machine text = .error .tooDeep) (store : Store) :
    s.runAll text store = (.fail .tooDeep, store) := by
  have hparsed : s.parseAll text = .fail .tooDeep := by
    unfold parseAll
    rw [h]
  unfold Session.runAll
  rw [hparsed]
  rfl

private theorem exists_parsedFrom {texts : List String}
    (h : ∀ text, text ∈ texts → ∃ statement, (s.parse text).result = .ok statement) :
    ∃ statements, ParsedFrom s.machine texts statements := by
  induction texts with
  | nil => exact ⟨[], .nil⟩
  | cons text texts ih =>
    obtain ⟨⟨statement, hp⟩, hrest⟩ := List.forall_mem_cons.1 h
    obtain ⟨statements, hall⟩ := ih hrest
    exact ⟨statement :: statements, .cons (parseStatement_of_parse hp) hall⟩

/-- A batch breaks off where a text overflows, and so does a script. -/
theorem Runs.breaks_off {turns : List Turn} (h : s.Runs store turns final) {fault : Decimal.Fault}
    (ht : s.Overflows final text fault) {rest : List String}
    (hrest : ∀ text, text ∈ rest → ∃ statement, (s.parse text).result = .ok statement) {statements : List Statement}
    (hspare : ParsedFrom (s.machine.sparing 3) (turns.map Turn.text ++ text :: rest) statements) :
    let texts := turns.map Turn.text ++ text :: rest
    (s.runAll (String.join texts) store).1.result = .error (.unwritable fault) ∧
      (s.runAll (String.join texts) store).2 = (s.run text final).2 ∧
      (s.Fresh store → store.Alone s.frame → ∀ path bytes,
        Text.Utf8.decode bytes = .ok (String.join texts).toList →
        CommandLine.Script.run s.stack s.settings path (.file bytes) = .error (.failed (.unwritable fault))) := by
  intro texts
  obtain ⟨statement, value, hp, hvalue, hshown⟩ := ht
  obtain ⟨others, hothers⟩ := exists_parsedFrom hrest
  obtain rfl : statements = turns.map Turn.statement ++ statement :: others :=
    hspare.of_sparing.unique (List.rel_append h.parse (.cons (parseStatement_of_parse hp) hothers))
  have hprogram : parseProgram s.machine (String.join texts) =
      .ok (turns.map Turn.statement ++ statement :: others) :=
    parseProgram_join (List.append_ne_nil_of_right_ne_nil _ nofun) hspare
  obtain ⟨hrun, hafter⟩ := run_of_parse hp final
  have hanswer : (recover (s.answer statement) final).1.result = .error (.unwritable fault) := by
    rw [← hrun, run_of_value hp hvalue, hshown]
  have hrecover : recover (s.answer statement) final = (⟨.error (.unwritable fault),
      (recover (s.answer statement) final).1.trace⟩, (recover (s.answer statement) final).2) :=
    Prod.ext (congrArg (Traced.mk · _) hanswer) rfl
  obtain ⟨hresult, hstore⟩ := runAll_of_parseProgram hprogram store
  obtain ⟨hanswers, hlast⟩ := h.answerAll (statement :: others)
  rw [Session.answerAll, bind_of_error hrecover] at hanswers hlast
  refine ⟨hresult.trans hanswers, (hstore.trans hlast).trans hafter.symm, ?_⟩
  intro hfresh ha path bytes hb
  rw [CommandLine.Script.run_of_parseProgram hfresh ha hprogram hb path,
    CommandLine.Script.evaluate_of_runs h, CommandLine.Script.evaluate_of_fault hvalue hshown]
  rfl

private theorem parseAll_of_error {f : Failure} (h : (s.parseAll text).result = .error f) :
    parseProgram s.machine text = .error f ∧ s.parseAll text = .fail f ∧
      ((∃ e, f = .error e) ∨ f = .tooDeep) := by
  unfold parseAll at h ⊢
  cases hp : parseProgram s.machine text with
  | ok statements =>
    rw [hp] at h
    cases h
  | error g =>
    rw [hp] at h
    cases h
    refine ⟨rfl, rfl, ?_⟩
    cases rejects_of_parseWith hp with
    | tooDeep => exact .inr rfl
    | _ => exact .inl ⟨_, rfl⟩

end Session

section TooDeep
open Grammar Reader

/-- Each opening parenthesis takes twenty-six of the calls that are left, and readers give up when none is. -/
theorem operandWithin_opened (p : Nat) {n m : Nat} (h : n ≤ 26 * m) :
    operandWithin p n 0 (List.replicate m '(') = .abandoned .tooDeep := by
  induction m generalizing n with
  | zero =>
    obtain rfl := Nat.le_zero.1 h
    rfl
  | succ m ih =>
    cases n with
    | zero => rfl
    | succ n =>
      have hbelow : deeper (operandWithin p n) 25 = operandWithin p (n - 25) := deeper_operandWithin p n 25
      have hexpression : expressionOf (operandWithin p (n - 25)) (List.replicate m '(') = .abandoned .tooDeep :=
        bind_of_abandoned (bind_of_abandoned (ih (n := n - 25) (by omega)))
      have hprimary : primaryOf p (operandWithin p n) ('(' :: List.replicate m '(') = .abandoned .tooDeep := by
        have hparenthesized : parenthesizedOf (operandWithin p (n - 25)) ('(' :: List.replicate m '(') =
            .abandoned .tooDeep :=
          (bind_of_matched rfl).trans (bind_of_abandoned hexpression)
        simp only [primaryOf, either, hbelow, hparenthesized]
      have hnegation : negationOf (operandWithin p n 9) ('(' :: List.replicate m '(') =
          .mismatched ⟨'(' :: List.replicate m '(', .token '-'⟩ :=
        bind_of_mismatched rfl
      have hpower : powerOf p (operandWithin p n) ('(' :: List.replicate m '(') = .abandoned .tooDeep :=
        bind_of_abandoned hprimary
      rw [List.replicate_succ]
      simp only [operandWithin_succ, operandOf, orExpect, either, hnegation, hpower]

private theorem clauseOf_opened (p : Nat) {n m : Nat} (h : n ≤ 26 * (m + 1)) :
    clauseOf (operandWithin p n) (List.replicate (m + 1) '(') = .abandoned .tooDeep := by
  have hname : name (List.replicate (m + 1) '(') = .mismatched ⟨List.replicate (m + 1) '(', .name⟩ := rfl
  have hexpression : expressionOf (operandWithin p n) (List.replicate (m + 1) '(') = .abandoned .tooDeep :=
    bind_of_abandoned (bind_of_abandoned (operandWithin_opened p h))
  have hstatement : (do return .expression (← expressionOf (operandWithin p n)) : Reader Statement)
      (List.replicate (m + 1) '(') = .abandoned .tooDeep :=
    bind_of_abandoned hexpression
  simp only [clauseOf, orExpect, either, definitionOf, assignmentOf, bind_of_mismatched hname, hstatement]

private theorem parseProgram_opened {machine : Machine} {m : Nat} (hm : m ≠ 0)
    (h : (machine.sparing 3).readingCalls ≤ 26 * m) :
    parseProgram machine (String.ofList (List.replicate m '(')) = .error .tooDeep := by
  have htabs (column : Nat) : Text.expandTabsFrom column (List.replicate m '(') = List.replicate m '(' := by
    clear h hm
    induction m generalizing column with
    | zero => rfl
    | succ m ih => simp [List.replicate_succ, Text.expandTabsFrom, ih]
  obtain ⟨m, rfl⟩ := Nat.exists_eq_add_one_of_ne_zero hm
  have hprogram : program machine (List.replicate (m + 1) '(') = .abandoned .tooDeep :=
    bind_of_abandoned (bind_of_abandoned (clauseOf_opened machine.precision h))
  rw [parseProgram, parseWith, String.toList_ofList, Text.expandTabs, htabs, hprogram]

end TooDeep

end Reckoner
