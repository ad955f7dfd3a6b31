import Reckoner.Proofs.FittingScopes
import Reckoner.Proofs.ParsedText
import Reckoner.Proofs.SessionGrowth

/-! The working precision of sessions. A session has the precision of the first session that it descends from,
whatever its settings say. The numbers that it reads are rounded to it, and an operator rounds to the precision of its
left operand, so no number that the session holds or gives has more bits, unless it was handed a tree whose numbers
belong elsewhere. -/

namespace Reckoner
open Lexical (Scope)

def Phrase.Fits (p : Nat) : Phrase → Prop
  | expression _ e => e.Fits p
  | items es => ∀ e, e ∈ es → e.Fits p
  | arguments es => ∀ e, e ∈ es → e.Fits p
  | clause s => s.Fits p
  | body statements final => (∀ s, s ∈ statements → s.Fits p) ∧ final.Fits p

section Parsing
variable {p : Nat} (hp : 1 ≤ p)
include hp

/-- Literals are rounded when they are read. -/
theorem Derives.fits {d : Nat} {ts : List Token} {phrase : Phrase} (h : Derives p d ts phrase) :
    phrase.Fits p := by
  induction h with
  | number h => exact .number ⟨rfl, Number.fits_ofText? hp h⟩
  | symbol cs => exact .symbol _
  | parenthesized _ ih => exact ih
  | block _ ih => exact .block ih.1 ih.2
  | call cs _ ih => exact .call _ ih
  | primary _ ih => exact ih
  | negation _ ih => exact .unary _ ih
  | power _ _ ih ih' => exact .binary _ ih ih'
  | factor _ ih => exact ih
  | product _ _ _ ih ih' => exact .binary _ ih ih'
  | term _ ih => exact ih
  | sum _ _ _ ih ih' => exact .binary _ ih ih'
  | firstItem _ ih => exact List.forall_mem_singleton.2 ih
  | item _ _ ih ih' => exact List.forall_mem_append.2 ⟨ih, List.forall_mem_singleton.2 ih'⟩
  | noArguments => exact List.forall_mem_nil _
  | arguments _ ih => exact ih
  | definition cs params _ ih => exact .define _ _ ih
  | assignment cs _ ih => exact .assign _ ih
  | expression _ ih => exact .expression ih
  | final _ ih => exact ⟨List.forall_mem_nil _, ih⟩
  | statement _ _ ih ih' => exact ⟨List.forall_mem_cons.2 ⟨ih, ih'.1⟩, ih'.2⟩

private theorem DerivesProgram.fits {ts : List Token} {statements : List Statement}
    (h : DerivesProgram p ts statements) : ∀ s, s ∈ statements → s.Fits p := by
  induction h with
  | nil => exact List.forall_mem_nil _
  | cons h _ ih => exact List.forall_mem_cons.2 ⟨h.fits hp, ih⟩

end Parsing

/-- What a text says fits the precision at which it is read. -/
theorem fits_of_parseStatement {m : Machine} (hp : 1 ≤ m.precision) {text : String} {statement : Statement}
    (h : parseStatement m text = .ok statement) : statement.Fits m.precision := by
  obtain ⟨rest, h⟩ := parseWith_eq_ok.1 h
  obtain ⟨d, ts, -, hd⟩ := Grammar.consists_of_single h
  exact hd.fits hp

private theorem fits_of_parseProgram {m : Machine} (hp : 1 ≤ m.precision) {text : String} {statements : List Statement}
    (h : parseProgram m text = .ok statements) : ∀ s, s ∈ statements → s.Fits m.precision := by
  obtain ⟨rest, h⟩ := parseWith_eq_ok.1 h
  obtain ⟨-, ts, -, hd⟩ := Grammar.consists_of_program h
  exact hd.fits hp

/-- A tree that a request comes with fits the precision. Texts are always at home. -/
def Request.AtHome (p : Nat) : Request → Prop
  | .perform statement => statement.Fits p
  | .run _ | .runAll _ | .execute _ => True

private theorem Request.Poses.fits {m : Machine} {statement : Statement} {request : Request}
    (h : request.Poses m statement) (hp : 1 ≤ m.precision) (hhome : request.AtHome m.precision) :
    statement.Fits m.precision := by
  cases h with
  | run h | execute h => exact fits_of_parseStatement hp h
  | runAll h hmem => exact fits_of_parseProgram hp h statement hmem
  | perform => exact hhome

/-- The scope of a frame in a linked store fits the precision. -/
structure Store.FitsAt (p i : Nat) (s : Store) : Prop where
  linked : s.Linked
  lt : i < s.size
  scope : (s.scope i).Fits p

namespace Store.FitsAt
variable {s t : Store} {p i : Nat}

theorem of_scope (h : s.FitsAt p i) {j : Nat} (ht : t.Linked) (hj : j < t.size)
    (hscope : t.scope j = s.scope i) : t.FitsAt p j :=
  ⟨ht, hj, hscope ▸ h.scope⟩

private theorem start (hs : s.Linked) (p : Nat) : (s.add {}).FitsAt p s.size := by
  have hlt : s.size < (s.add {}).size := (s.size_add {}).symm ▸ Nat.lt_succ_self _
  have hframe : (s.add {}).frameAt s.size = {} := by simp [frameAt, Store.add, size]
  refine ⟨hs.add [] none, hlt, ?_⟩
  rw [scope_of_root hlt (by rw [hframe]), hframe]
  exact List.forall_mem_singleton.2 (.of_values fun _ _ h => absurd h List.not_mem_nil)

private theorem copy (h : s.FitsAt p i) : (s.copy i).FitsAt p (s.placeInCopy i i) :=
  h.of_scope (h.linked.copy h.lt) (placeInCopy_lt ((mem_reachable h.linked h.lt).2 mem_places_self))
    (scope_copy h.linked h.lt mem_places_self)

/-- A statement that fits leaves a scope that fits, and its value fits. -/
theorem evaluate {m : Machine} (hp : 1 ≤ m.precision) (h : s.FitsAt m.precision i) {statement : Statement}
    (hst : statement.Fits m.precision) :
    (statement.evaluate m i s).2.FitsAt m.precision i ∧
      ∀ v, (statement.evaluate m i s).1.result = .ok (some v) → v.Fits m.precision := by
  have hgives := Lexical.gives_run_evaluate hp h.scope hst
  have hlands := statement.lands_evaluate_statement m h.linked h.lt
  have hleaves : statement.Leaves i s (statement.evaluate m i s) :=
    Statement.leaves_run (Expr.keeping_evaluate m) h.lt statement
  obtain ⟨houtcome, hlinked, hlt⟩ := hlands.outcome
  generalize Lexical.run (Lexical.evaluate m) (s.scope i) statement = lexical at *
  obtain ⟨result, trace⟩ := lexical
  cases result with
  | error f =>
    have hresult : (statement.evaluate m i s).1.result = .error f := congrArg Traced.result houtcome
    exact ⟨h.of_scope hlinked hlt ((hleaves.keeps_of_error hresult).scope h.lt), fun v hv => by
      rw [hresult] at hv
      cases hv⟩
  | ok next =>
    obtain ⟨hvalue, hscope⟩ := hgives next rfl
    have hresult : (statement.evaluate m i s).1.result = .ok next.1 := congrArg Traced.result houtcome
    have hafter : (statement.evaluate m i s).2.scope i = next.2 := hlands.scope_of_ok rfl
    refine ⟨⟨hlinked, hlt, hafter ▸ hscope⟩, fun v hv => ?_⟩
    exact hvalue v (Except.ok.inj (hresult.symm.trans hv))

/-- Numbers and literals of the frames that can be reached fit. -/
theorem of_reachable (h : s.FitsAt p i) {j : Nat} (hj : j ∈ s.reachable i) : (s.frameAt j).layer.Fits p := by
  refine h.scope _ ?_
  rw [layers_scope h.lt, chain_eq_map_places h.lt]
  exact List.mem_map_of_mem (List.mem_map_of_mem ((mem_reachable h.linked h.lt).1 hj))

end Store.FitsAt

private theorem Session.fitsAt_respond {s : Session} {store : Store} (hp : 1 ≤ s.precision)
    (h : store.FitsAt s.precision s.frame) {request : Request} (hhome : request.AtHome s.precision) :
    (s.respond request store).2.FitsAt s.precision s.frame :=
  advances_respond (s := s) (r := fun t u => t.FitsAt s.precision s.frame → u.FitsAt s.precision s.frame)
    (fun _ ht => ht) (fun _ _ _ h h' ht => h' (h ht))
    (fun _ hposes _ ht => (ht.evaluate hp (hposes.fits hp hhome)).1) store h

/-- A tree that a step hands to a session fits the precision of that session. -/
def Step.AtHome (w : Workspace) : Step → Prop
  | .ask source request => ∀ s, w.find? source = some s → request.AtHome s.precision
  | .create _ _ | .fork _ _ | .transfer _ _ _ => True

namespace Workspace
variable {w : Workspace} {c : Chronicle} {name : String} {s : Session}

/-- Workspaces, with the histories of their sessions, to which steps lead that hand over no trees but those that fit. -/
inductive Descends (stack : Nat) : Workspace → Chronicle → Prop where
  | empty : Descends stack (.empty stack) fun _ => none
  | performed {w : Workspace} {c : Chronicle} (h : Descends stack w c) {step : Step} (hhome : step.AtHome w) :
    Descends stack (w.perform step).2 (step.chronicle c (w.perform step).1)

theorem Descends.tracks {stack : Nat} (h : w.Descends stack c) : w.Tracks c := by
  induction h with
  | empty => exact tracks_empty stack
  | @performed _ _ _ step _ ih => exact ih.perform step

/-- Every session has a scope that fits its precision. -/
def Fitted (w : Workspace) : Prop :=
  ∀ name s, w.find? name = some s → w.store.FitsAt s.precision s.frame

/-- A session that is opened under a name fits if there it fits what was there before. -/
theorem Fitted.putIfOpened (h : w.Fitted) {made : Except Refusal (Session × Store)}
    (hmade : ∀ opened, made = .ok opened → opened.2.FitsAt opened.1.precision opened.1.frame)
    (hs : (w.putIfOpened name made).2.find? name = some s) :
    (w.putIfOpened name made).2.store.FitsAt s.precision s.frame := by
  cases made with
  | error why => exact h name s hs
  | ok opened =>
    obtain rfl : opened.1 = s := by
      refine Option.some.inj (Eq.trans ?_ hs)
      exact (if_pos rfl).symm.trans (w.find?_put name opened name).symm
    exact hmade opened rfl

private theorem Fitted.copyBy (h : w.Fitted) {source : String} {t : Session} (ht : w.find? source = some t)
    (copier : Copier)
    (settings : Settings) (hs : (w.putIfOpened name (t.copyBy copier settings w.store)).2.find? name = some s) :
    (w.putIfOpened name (t.copyBy copier settings w.store)).2.store.FitsAt s.precision s.frame := by
  refine h.putIfOpened (fun opened hopened => ?_) hs
  obtain ⟨-, -, rfl⟩ := Session.copyBy_eq_ok_iff.1 hopened
  exact (h source t ht).copy

/-- A step leaves the session that it opens or asks with a scope that fits. -/
theorem Fitted.subject (h : w.Fitted) (htracks : w.Tracks c) {step : Step} (hhome : step.AtHome w)
    (hs : (w.perform step).2.find? step.subject = some s) :
    (w.perform step).2.store.FitsAt s.precision s.frame := by
  cases step with
  | create target settings =>
    refine h.putIfOpened (fun opened hopened => ?_) hs
    obtain ⟨-, rfl⟩ := Session.create_eq_ok_iff.1 hopened
    exact .start htracks.linked _
  | ask source request =>
    cases ht : w.find? source with
    | none =>
      simp only [perform, ht] at hs ⊢
      exact h _ s hs
    | some t =>
      obtain ⟨past, -, hcont⟩ := htracks.of_find? ht
      rw [perform_ask ht] at hs ⊢
      obtain rfl := Option.some.inj (ht.symm.trans hs)
      exact Session.fitsAt_respond hcont.one_le (h source t ht) (hhome t ht)
  | fork source target =>
    cases ht : w.find? source with
    | none =>
      simp only [perform, ht] at hs ⊢
      exact h _ s hs
    | some t =>
      rw [perform_fork ht] at hs ⊢
      exact h.copyBy ht .cloning t.settings hs
  | transfer source target settings =>
    cases ht : w.find? source with
    | none =>
      simp only [perform, ht] at hs ⊢
      exact h _ s hs
    | some t =>
      rw [perform_transfer ht] at hs ⊢
      exact h.copyBy ht .pickling settings hs

private theorem Fitted.perform (h : w.Fitted) (htracks : w.Tracks c) {step : Step} (hhome : step.AtHome w) :
    (w.perform step).2.Fitted := by
  intro name s hs
  by_cases hne : step.subject = name
  · exact h.subject htracks hhome (hne ▸ hs)
  · obtain ⟨_, -, hcont⟩ := (htracks.perform step).of_find? hs
    have hbefore : w.find? name = some s := (Workspace.find?_perform_of_ne hne).symm.trans hs
    have hfits := h name s hbefore
    exact hfits.of_scope hcont.linked hcont.lt
      (Store.scope_of_chain hfits.lt hcont.lt (htracks.chain_perform_of_ne hne hbefore))

private theorem Descends.fitted {stack : Nat} (h : w.Descends stack c) : w.Fitted := by
  induction h with
  | empty => exact nofun
  | performed h hhome ih => exact ih.perform h.tracks hhome

end Workspace

/-- The working precision is kept everywhere. A session has the precision with which the first session was created
that it descends from, whatever settings it was given. No number that is bound in its scope, no literal in a function
there and no value that it gives has more bits, so negation of these numbers changes nothing but the sign, and
their expansion is that of the number itself. Trees that were read elsewhere are set aside. -/
theorem working_precision_is_kept {stack : Nat} {w : Workspace} {c : Chronicle} (h : w.Descends stack c)
    {name : String} {s : Session} (hs : w.find? name = some s) :
    let p := s.precision
    (∃ past, c name = some past ∧ 2 ≤ p ∧ p = past.precision) ∧
    (∀ j, j ∈ w.store.reachable s.frame →
      (∀ key v, (key, v) ∈ (w.store.frameAt j).values → v.Fits p) ∧
      ∀ key ownName params body home,
        (key, .closure ownName params body home) ∈ (w.store.frameAt j).functions → body.Fits p) ∧
    (∀ text v, (s.executeText text w.store).1.result = .ok (some v) → v.Fits p) ∧
    (∀ (statement : Statement) (v : Value), statement.Fits p →
      (s.execute statement w.store).1.result = .ok (some v) → v.Fits p) ∧
    ∀ x, Value.Fits p ⟨.finite x, p⟩ →
      applyUnary negation ⟨.finite x, p⟩ = .ok ⟨.finite (-x), p⟩ ∧
      applyUnary negation ⟨.finite (-x), p⟩ = .ok ⟨.finite x, p⟩ ∧
      Number.expand p x = Number.expandPositive p (Binary.abs x) ∧
      (x ≠ 0 → (Number.expand p x).Truncates |x.toRat|) := by
  intro p
  obtain ⟨past, hpast, hcont⟩ := h.tracks.of_find? hs
  have hp : 1 ≤ p := hcont.one_le
  have hfits := h.fitted name s hs
  have hvalue (statement : Statement) (v : Value) (hst : statement.Fits p)
      (hv : (s.execute statement w.store).1.result = .ok (some v)) : v.Fits p :=
    (hfits.evaluate (m := s.machine) hp hst).2 v (Session.evaluate_of_execute hv)
  refine ⟨⟨past, hpast, hcont.fresh.trans_eq hcont.precision.symm, hcont.precision⟩, fun j hj => ?_,
    fun text v hv => ?_, hvalue, fun x hx => ?_⟩
  · have hlayer := hfits.of_reachable hj
    exact ⟨hlayer.value, fun key _ params body _ hf => hlayer.body key params body (List.mem_map_of_mem hf)⟩
  · obtain ⟨statement, hparse, hexecute, -⟩ := Computation.exists_of_bind hv
    have hfits := fits_of_parseStatement (m := s.machine) hp (Session.parseStatement_of_parse hparse)
    exact hvalue statement v hfits hexecute
  · have hbits : (Number.finite x).Fits p := hx.number
    refine ⟨?_, ?_, ?_, fun hne => Number.truncates_expand hne hbits⟩
    · rw [applyUnary, if_pos rfl, Number.neg_eq_flip hbits]
      rfl
    · rw [applyUnary, if_pos rfl, Number.neg_eq_flip (v := .finite (-x)) (Number.fits_flip hbits)]
      exact congrArg (fun y => Except.ok (⟨y, p⟩ : Value)) (Number.flip_flip (.finite x))
    · rw [Number.expand, Binary.nearest_of_fits hbits]

/-- A session that was copied with settings of more bits goes on with the bits of its origin. -/
theorem copy_works_with_bits_of_origin :
    let steps : List Step := [.create "main" { precision := 53 }, .ask "main" (.run "x = 1 / 3;"),
      .transfer "main" "copy" { precision := 200 }]
    let w := (Workspace.empty 1000).performAll steps
    let c := (Workspace.empty 1000).chronicle (fun _ => none) steps
    let s : Session := ⟨⟨53, 1⟩, { precision := 200 }, 1000⟩
    w.Descends 1000 c ∧ w.find? "copy" = some s ∧
      ∀ v, (s.executeText "x / 3;" w.store).1.result = .ok (some v) → v.Fits 53 := by
  intro steps w c s
  have hcreate (w : Workspace) : (Step.create "main" { precision := 53 }).AtHome w := trivial
  have hask (w : Workspace) : (Step.ask "main" (.run "x = 1 / 3;")).AtHome w := fun _ _ => trivial
  have htransfer (w : Workspace) : (Step.transfer "main" "copy" { precision := 200 }).AtHome w := trivial
  have h : w.Descends 1000 c :=
    ((Workspace.Descends.empty.performed (hcreate _)).performed (hask _)).performed (htransfer _)
  have hs : w.find? "copy" = some s := by decide +kernel
  exact ⟨h, hs, (working_precision_is_kept h hs).2.2.1 "x / 3;"⟩

/-- Trees that were read with 128 bits bring their numbers along into a session of two: 5 has more bits than that, 1 has
a single bit, but the quotient of its variable is worked out with 128. -/
theorem handed_over_numbers_keep_their_bits :
    let number (n : Int) : Expr := .number ⟨.finite (.ofInt n), 128⟩
    let third : Dyadic := .ofOdd 226854911280625642308916404954512140971 129 (by decide)
    let w := (Workspace.empty 1000).performAll [.create "main" { precision := 2 },
      .ask "main" (.perform (.assign "x" (number 5))), .ask "main" (.perform (.assign "y" (number 1))),
      .ask "main" (.run "z = y / 3;")]
    parseStatement ⟨128, 1000⟩ "x = 5;" = .ok (.assign "x" (number 5)) ∧
      (w.find? "main").map (·.precision) = some 2 ∧
      (w.store.frameAt 0).values.lookup "x" = some ⟨.finite (.ofInt 5), 128⟩ ∧ ¬ (Number.finite (.ofInt 5)).Fits 2 ∧
      (w.store.frameAt 0).values.lookup "z" = some ⟨.finite third, 128⟩ ∧ ¬ (Number.finite third).Fits 2 := by
  intro number third w
  have hx : 2 < Binary.width (.ofInt 5) := by decide
  have hz : 2 < Binary.width third := by decide +kernel
  exact ⟨rfl, by decide +kernel, by decide +kernel, Nat.not_le_of_lt hx, by decide +kernel, Nat.not_le_of_lt hz⟩

end Reckoner
