import Reckoner.Proofs.RenderedText
import Reckoner.Proofs.SpelledNames
import Reckoner.Proofs.StatementOrder

/-! Names read back. What a text binds in a session can be got back by the spelling that bound it, also after
whatever else the session was asked, unless the spelling is mistaken for a negation or a numeral. -/

namespace Reckoner
open Text
open Lexical (Settled)

namespace Store
variable {s : Store} {i : Nat}

/-- A function that the layer of a frame has is found there with that frame for its home. -/
theorem Alone.lookupFunction_abstraction (h : s.Alone i) {name : String} {params : List String} {body : Expr}
    (hf : (s.frameAt i).layer.functions.lookup name = some (.abstraction params body)) :
    s.lookupFunction name i = .ok (.function (.closure name params body i)) := by
  have hl : (s.frameAt i).layer.functions.lookup name =
      ((s.frameAt i).functions.lookup name).map Function.lambda := lookup_map ..
  rw [hl] at hf
  obtain ⟨f, hlookup, hf⟩ := Option.map_eq_some_iff.1 hf
  rw [Store.lookupFunction, h.chain, List.findSome?_cons, hlookup]
  cases f with
  | tagged text => cases hf
  | closure ownName params' body' home =>
    cases hf
    obtain ⟨before, after, hmem, -⟩ := List.lookup_eq_some_iff.1 hlookup
    obtain ⟨rfl, rfl⟩ := h.linked i _ name ownName params body home (getElem?_frameAt h.lt)
      (by rw [hmem]; simp)
    rfl

end Store

private theorem Computation.bind_congr {α β : Type} {c : Computation α} {f g : α → Computation β} {s t : Store}
    {a : α} {trace : List Event} (h : c s = (⟨.ok a, trace⟩, t)) (hfg : f a t = g a t) :
    (c >>= f) s = (c >>= g) s := by
  rw [bind_of_ok h, bind_of_ok h, hfg]

namespace Expr
open Computation
variable {m : Machine} {i : Nat} {s : Store}

/-- Evaluate arguments, bind them to parameters in a frame on top of another and evaluate a body there. -/
def invoke (m : Machine) (function : String) (params : List String) (body : Expr) (home i : Nat)
    (args : List Expr) : Computation Value := do
  record (.evaluating "FunctionCall")
  let values ← evaluateArgs (evaluateWithin m.precision (m.evaluationCalls - 1) 2) i args
  if values.length = params.length then do
    let inner ← push home (params.zip values)
    record (.calling function values.length)
    evaluateWithin m.precision (m.evaluationCalls - 1) 2 inner body
  else fail (.error (.arity params.length values.length (some function)))

/-- With a call left, an expression is evaluated by its form. -/
theorem evaluate_eq (hroom : 0 < m.evaluationCalls) :
    evaluate m = evaluateOver m.precision (evaluateWithin m.precision (m.evaluationCalls - 1)) := by
  rw [evaluate]
  obtain ⟨n, hn⟩ := Nat.exists_eq_add_one_of_ne_zero hroom.ne'
  rw [hn]
  rfl

private theorem evaluate_call (hroom : 0 < m.evaluationCalls) {name : String} {params : List String} {body : Expr}
    {home : Nat} (h : s.lookupFunction name i = .ok (.function (.closure name params body home))) (args : List Expr) :
    evaluate m i (.call name args) s = invoke m name params body home i args s := by
  have hread : (Computation.read (Store.lookupFunction name i)) s =
      (⟨.ok (.function (.closure name params body home)), []⟩, s) := by
    simp only [Computation.read, h]
    rfl
  rw [evaluate_eq hroom]
  exact bind_congr (c := record (.evaluating "FunctionCall")) rfl (bind_of_ok hread)

private theorem evaluate_symbol (hroom : 0 < m.evaluationCalls) {name : String} {v : Value}
    (h : s.lookupValue name i = .ok v) : (evaluate m i (.symbol name) s).1.result = .ok v := by
  have hread : Computation.read (Store.lookupValue name i) s = (⟨.ok v, []⟩, s) := by
    simp only [Computation.read, h]
    rfl
  have hrecord := bind_of_ok (c := record (.evaluating "AtomExpr")) (s := s) (a := ()) rfl
    (f := fun _ => Computation.read (Store.lookupValue name i))
  rw [hread] at hrecord
  rw [evaluate_eq hroom]
  exact congrArg (·.1.result) hrecord

end Expr

namespace Session
open Computation
variable {s : Session} {store : Store} {text : String} {statement : Statement} {value : Option Value}

/-- In debug mode a statement is parsed only if its outline can be shown. -/
theorem parse_eq_ok : (s.parse text).result = .ok statement ↔
    parseStatement s.machine text = .ok statement ∧
      (s.settings.debug = true → statement.Showable s.machine) := by
  unfold parse
  cases parseStatement s.machine text with
  | error f => exact ⟨nofun, fun h => nomatch h.1⟩
  | ok parsed =>
    cases s.settings.debug with
    | false => exact ⟨fun h => ⟨h, nofun⟩, fun h => h.1⟩
    | true =>
      simp only [if_true]
      cases ho : parsed.shownOutline s.machine with
      | ok outline =>
        have hshowable := (Statement.shownOutline_eq_ok_iff.1 ho).1
        refine ⟨fun h => ⟨h, fun _ => ?_⟩, fun h => h.1⟩
        cases h
        exact hshowable
      | error f =>
        refine ⟨nofun, fun h => ?_⟩
        cases h.1
        rw [Statement.shownOutline_eq_ok_iff.2 ⟨h.2 trivial, rfl⟩] at ho
        cases ho

private theorem run_store (hp : (s.parse text).result = .ok statement) :
    (s.run text store).2 = (s.execute statement store).2 := by
  rcases hparse : s.parse text with ⟨_, parsing⟩
  rw [hparse] at hp
  cases hp
  rw [run_store_eq, executeText, bind_of_ok (c := lift (s.parse text)) (a := statement) (t := store)
    (by rw [lift, hparse])]

private theorem settled_execute (h : store.Alone s.frame)
    (hv : (s.execute statement store).1.result = .ok value) :
    Settled s.machine ((s.execute statement store).2.frameAt s.frame).layer statement value :=
  (List.forall₂_cons.1 (statement.leads_evaluate s.machine h (evaluate_of_execute hv)).settled).1

/-- What a statement that succeeds has bound is bound after whatever else the session is asked. -/
theorem settled_meet (h : store.Alone s.frame) (hp : (s.parse text).result = .ok statement)
    (hv : (s.execute statement store).1.result = .ok value) (requests : List Request) :
    let after := s.meet (s.run text store).2 requests
    after.Alone s.frame ∧ Settled s.machine (after.frameAt s.frame).layer statement value := by
  intro after
  have hrun : store.GrowsAt s.frame (s.run text store).2 := s.growing_run text store h
  have hlater : (s.run text store).2.GrowsAt s.frame after := growsAt_meet hrun.alone requests
  have hextended := hlater.extended
  rw [run_store hp] at hextended
  exact ⟨hlater.alone, (settled_execute h hv).mono hextended⟩

theorem execute_of_value {e : Expr} {v : Value}
    (hv : (Expr.evaluate s.machine s.frame e store).1.result = .ok v) :
    (s.execute (.expression e) store).1.result = .ok (some v) := by
  rcases he : Expr.evaluate s.machine s.frame e store with ⟨⟨_, trace⟩, t⟩
  rw [he] at hv
  cases hv
  have hrun : (Statement.expression e).run (Expr.evaluate s.machine) s.frame store =
      (⟨.ok (some v), trace ++ []⟩, t) := bind_of_ok he
  show ((Statement.expression e).run (Expr.evaluate s.machine) s.frame store).1.result.mapError limited = _
  rw [hrun]
  rfl

/-- Where a statement can be read there are calls left. -/
theorem room_of_parse (hp : (s.parse text).result = .ok statement) : 0 < s.machine.readingCalls :=
  (Grammar.parseStatement_eq_ok.1 (parse_eq_ok.1 hp).1).pos

/-- A stack on which something can be read has room to evaluate, and to show an outline of two lines. -/
theorem room_to_evaluate {m : Machine} (h : 0 < m.readingCalls) : 0 < m.evaluationCalls ∧ 2 ≤ m.outlineCalls := by
  rw [Machine.readingCalls] at h
  rw [Machine.evaluationCalls, Machine.outlineCalls]
  omega

/-- A name that was bound to a value shows that value. -/
theorem run_symbol (h : store.Alone s.frame) {name : String} {v : Value} (hn : IsName name.toList)
    (hu : Unmistakable name) (hroom : 0 < s.machine.readingCalls) (hminus : name = "-" → 10 < s.machine.readingCalls)
    (hv : (store.frameAt s.frame).layer.values.lookup name = some v) :
    (s.run (name ++ ";") store).1.result = s.format v := by
  obtain ⟨hevaluate, houtline⟩ := room_to_evaluate hroom
  have hparse : (s.parse (name ++ ";")).result = .ok (.expression (.symbol name)) :=
    parse_eq_ok.2 ⟨parseStatement_name hn hu hroom hminus, fun _ => ⟨houtline, rfl⟩⟩
  have hlookup : store.lookupValue name s.frame = .ok v := by rw [h.lookupValue, hv]
  exact run_of_value hparse (execute_of_value (Expr.evaluate_symbol hevaluate hlookup))

/-- What is parsed as a call of one function is parsed as a call of another behind its name. -/
theorem parse_call {f g args : String} {es : List Expr} (hf : IsName f.toList)
    (hminus : f.toList.head? = some '-' → f = "-" ∧ es.length ≠ 1 ∧
      parseStatement (s.machine.sparing 1) (g ++ "(" ++ args ++ ");") = .ok (.expression (.call g es)))
    (h : (s.parse (g ++ "(" ++ args ++ ");")).result = .ok (.expression (.call g es))) :
    (s.parse (f ++ "(" ++ args ++ ");")).result = .ok (.expression (.call f es)) := by
  obtain ⟨hparse, hshowable⟩ := parse_eq_ok.1 h
  exact parse_eq_ok.2 ⟨parseStatement_call hf hminus hparse, hshowable⟩

/-- The name that a parsed text binds is a name. -/
theorem regular_of_parse (hp : (s.parse text).result = .ok statement) : statement.Regular :=
  regular_of_parseStatement (parse_eq_ok.1 hp).1

end Session

/-- Bound names read back. An assigned name that cannot be mistaken for a negation or a numeral shows the
result of its assignment, after whatever else the session was asked. A function that was defined is what its
name invokes in front of arguments in parentheses, unless the name starts with a minus; a minus alone invokes
the function of that name on no argument or on several. A minus takes some calls more to be read than other names. -/
theorem bound_names_read_back {w : Workspace} (hw : w.Reachable) {name : String} {s : Session}
    (hs : w.find? name = some s) {text : String} {statement : Statement} {value : Option Value} {result : String}
    (hp : (s.parse text).result = .ok statement) (hv : (s.execute statement w.store).1.result = .ok value)
    (hr : (s.run text w.store).1.result = .ok result) (requests : List Request) :
    let after := s.meet (s.run text w.store).2 requests
    match statement with
    | .assign n _ => Unmistakable n → (n = "-" → 10 < s.machine.readingCalls) →
      (s.run (n ++ ";") after).1.result = .ok result
    | .define f params body => ∀ (g args : String) (es : List Expr),
      (s.parse (g ++ "(" ++ args ++ ");")).result = .ok (.expression (.call g es)) →
      (f.toList.head? = some '-' → f = "-" ∧ es.length ≠ 1 ∧
        parseStatement (s.machine.sparing 1) (g ++ "(" ++ args ++ ");") = .ok (.expression (.call g es))) →
      (s.parse (f ++ "(" ++ args ++ ");")).result = .ok (.expression (.call f es)) ∧
        Expr.evaluate s.machine s.frame (.call f es) after =
          Expr.invoke s.machine f params body s.frame s.frame es after ∧
        ∀ v, (Expr.invoke s.machine f params body s.frame s.frame es after).1.result = .ok v →
          (s.run (f ++ "(" ++ args ++ ");") after).1.result = s.format v
    | _ => True := by
  intro after
  have hregular := Session.regular_of_parse hp
  have hroom := Session.room_of_parse hp
  obtain ⟨halone, hsettled⟩ := Session.settled_meet (hw.alone hs) hp hv requests
  have hshown : s.resultText statement value = .ok result := (Session.run_of_value hp hv).symm.trans hr
  cases statement with
  | assign n e =>
    intro hu hminus
    obtain ⟨v, rfl, -, hlookup⟩ := hsettled
    cases hregular with
    | assign hn => exact hshown ▸ Session.run_symbol halone hn hu hroom hminus hlookup
  | define f params body =>
    intro g args es hg hminus
    cases hregular with
    | define hn =>
      have hparse := Session.parse_call hn hminus hg
      have hinvoke : Expr.evaluate s.machine s.frame (.call f es) after =
          Expr.invoke s.machine f params body s.frame s.frame es after :=
        Expr.evaluate_call (Session.room_to_evaluate hroom).1 (halone.lookupFunction_abstraction hsettled.2) es
      refine ⟨hparse, hinvoke, fun v hv => ?_⟩
      exact Session.run_of_value hparse (Session.execute_of_value (hinvoke ▸ hv))
  | expression e => trivial
  | misplaced e => trivial

/-- A name with a minus inside reads back after another binding, and a minus that was defined as a function
without parameters is invoked. -/
theorem difference_and_minus_read_back :
    let s : Session := ⟨⟨128, 0⟩, {}, 1000⟩
    let w := ((Workspace.empty 1000).perform (.create "main" {})).2
    let minus : Statement := .define "-" [] (.symbol "b")
    let requests : List Request := [.run "b = 3;"]
    w.Reachable ∧ w.find? "main" = some s ∧ Unmistakable "a-1" ∧
      (s.run "a-1;" (s.meet (s.run " a-1 = 7 ; " w.store).2 requests)).1.result = .ok "7" ∧
      (s.parse "-()=b;").result = .ok minus ∧ (s.execute minus w.store).1.result = .ok none ∧
      (s.run "-();" (s.meet (s.run "-()=b;" w.store).2 requests)).1.result = .ok "3" := by
  intro s w minus requests
  have hs : w.find? "main" = some s := rfl
  have hw : w.Reachable := (Workspace.Reachable.empty 1000).performed (.create "main" {})
  have hu : Unmistakable "a-1" := ⟨by decide, by decide⟩
  let seven : Value := ⟨.finite 7, 128⟩
  have hassigned : (s.parse " a-1 = 7 ; ").result = .ok (.assign "a-1" (.number seven)) := by
    have hseven : Derives 128 1 [.numeral ['7']] (.expression .sum (.number seven)) :=
      .term (.factor (.primary (.number (by decide))))
    have hname : IsName ['a', '-', '1'] := ⟨'a', ['-', '1'], rfl, rfl, forall_mem_of_all (by decide)⟩
    have hequals : (Token.operator '=').Written [' '] [' '] := ⟨by decide, nofun, ' ', [], rfl, rfl⟩
    have hsemicolon : (Token.mark ';').Written [' '] [' '] := (by decide : ';' ∈ markChars)
    have hnumeral : (Token.numeral ['7']).Written [' '] [' '] :=
      ⟨⟨[], ['7'], [], rfl, .inl rfl, .whole ⟨nofun, forall_mem_of_all (by decide)⟩, .none⟩,
        by rintro _ ⟨⟩; decide⟩
    have hwritten : ∀ t : Token, t ∈ [.name ['a', '-', '1'], .operator '=', .numeral ['7'], .mark ';'] →
        t.Written [' '] [' '] := by
      simp only [List.forall_mem_cons]
      exact ⟨⟨hname, fun _ hc => Option.some.inj hc ▸ (by decide : 'a' ∉ reservedChars)⟩, hequals, hnumeral,
        hsemicolon, nofun⟩
    have hrenders := renders_spell hwritten
    change Renders " a-1 = 7 ; ".toList _ at hrenders
    exact Session.parse_of_not_debug rfl
      (parseStatement_of_le (m := s.machine) hrenders (hseven.assignment ['a', '-', '1']) (by decide))
  have hdefined : (s.parse "-()=b;").result = .ok minus :=
    Session.parse_of_not_debug rfl (rfl : parseStatement ⟨128, 1000⟩ "-()=b;" = .ok minus)
  have hvalue : (s.execute (.assign "a-1" (.number seven)) w.store).1.result = .ok (some seven) := by
    decide +kernel
  have hshown : (s.run " a-1 = 7 ; " w.store).1.result = .ok "7" := by decide +kernel
  have hnone : (s.execute minus w.store).1.result = .ok none := by decide +kernel
  have hsignature : (s.run "-()=b;" w.store).1.result = .ok "-()" := by decide +kernel
  have hcall (stack : Nat) (h : stack = 1000 ∨ stack = 999) :
      parseStatement ⟨128, stack⟩ ("g" ++ "(" ++ "" ++ ");") = .ok (.expression (.call "g" [])) := by
    rcases h with rfl | rfl <;> rfl
  have hread := bound_names_read_back hw hs hassigned hvalue hshown requests hu (by decide)
  rw [show "a-1" ++ ";" = "a-1;" by decide] at hread
  obtain ⟨-, -, hrun⟩ := bound_names_read_back hw hs hdefined hnone hsignature requests "g" "" []
    (Session.parse_of_not_debug rfl (hcall 1000 (.inl rfl))) fun _ => ⟨rfl, by decide, hcall 999 (.inr rfl)⟩
  have hthree := hrun ⟨.finite 3, 128⟩ (by decide +kernel)
  rw [show s.format ⟨.finite 3, 128⟩ = .ok "3" by decide +kernel,
    show "-" ++ "(" ++ "" ++ ");" = "-();" by decide] at hthree
  exact ⟨hw, hs, hu, hread, hdefined, hnone, hthree⟩

/-- A name that starts with a minus is read as a negation of the rest, and one that starts with a sign and
digits as a number. -/
theorem mistaken_names_do_not_read_back :
    let s : Session := ⟨⟨128, 0⟩, {}, 1000⟩
    let w := ((Workspace.empty 1000).perform (.create "main" {})).2
    let answers (first second : String) :=
      ((s.run first w.store).1.result, (s.run second (s.run first w.store).2).1.result)
    answers "-x = 5;" "-x;" = (.ok "5", .ok "ERROR: Name not found: \"x\"") ∧
      answers "+1 = 5;" "+1;" = (.ok "5", .ok "1") ∧
      answers "-f(x) = x;" "-f(5);" = (.ok "-f(x)", .ok "ERROR: Name not found: \"f\"") ∧
      answers "-(x) = x;" "-(5);" = (.ok "-(x)", .ok "-5") := by
  decide +kernel

end Reckoner
