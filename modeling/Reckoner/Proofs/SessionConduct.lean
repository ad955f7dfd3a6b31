import Reckoner.Proofs.LexicalEvaluation
import Reckoner.Workspace

/-! Conduct of sessions. What a session does is settled by the scope of its frame: two sessions on one
machine whose frames have the same scope do the same, show the same events if both or neither show any,
and show the same texts if their display settings agree. A session changes no frame but its own. -/

namespace Reckoner

namespace Store

/-- Two frames of linked stores that have the same scope. -/
structure Alike (s : Store) (i : Nat) (t : Store) (j : Nat) : Prop where
  linked : s.Linked
  linked' : t.Linked
  lt : i < s.size
  lt' : j < t.size
  scope : s.scope i = t.scope j

/-- No older frame has changed but the one at a place, and that one has its parent still. -/
structure Within (s : Store) (i : Nat) (t : Store) : Prop where
  size_le : s.size ≤ t.size
  keeps : s.KeepsExcept i t
  parent : (t.frameAt i).parent = (s.frameAt i).parent

theorem Within.refl (s : Store) (i : Nat) : s.Within i s :=
  ⟨Nat.le_refl _, fun _ _ _ => rfl, rfl⟩

theorem Within.trans {s t u : Store} {i : Nat} (h : s.Within i t) (h' : t.Within i u) :
    s.Within i u := by
  refine ⟨Nat.le_trans h.size_le h'.size_le, fun j hj hne => ?_, h'.parent.trans h.parent⟩
  rw [h'.keeps j (Nat.lt_of_lt_of_le hj h.size_le) hne, h.keeps j hj hne]

private theorem Keeps.within {s t : Store} (h : s.Keeps t) {i : Nat} (hi : i < s.size) : s.Within i t :=
  ⟨h.size_le, h.except i, by rw [h.frameAt hi]⟩

theorem KeepsExcept.within {s t : Store} {i : Nat} {frame : Frame} (h : s.KeepsExcept i t)
    (hf : t.frames[i]? = some frame) (hp : frame.parent = (s.frameAt i).parent) : s.Within i t := by
  refine ⟨Nat.le_of_not_lt fun hlt => ?_, h, by rw [frameAt, hf]; exact hp⟩
  have hit : i < t.size := (Array.getElem?_eq_some_iff.1 hf).1
  have hn := h t.size hlt (Nat.ne_of_gt hit)
  rw [getElem?_frameAt hlt, show t.frames[t.size]? = none from Array.getElem?_eq_none (Nat.le_refl _)]
    at hn
  cases hn

theorem within_rebind {s : Store} {i : Nat} (hi : i < s.size) (change : Frame → Frame) :
    s.Within i (s.rebind i change) :=
  (keepsExcept_rebind s i change).within (getElem?_rebind hi change) rfl

theorem Within.frameAt {s t : Store} {i j : Nat} (h : s.Within i t) (hj : j < s.size) (hne : j ≠ i) :
    t.frameAt j = s.frameAt j := by
  simp only [Store.frameAt, h.keeps j hj hne]

/-- No frame loses or gains a parent. -/
theorem Within.parent_frameAt {s t : Store} {i j : Nat} (h : s.Within i t) (hj : j < s.size) :
    (t.frameAt j).parent = (s.frameAt j).parent := by
  by_cases hji : j = i
  · exact hji ▸ h.parent
  · rw [h.frameAt hj hji]

/-- A frame without a parent has its whole scope for itself. -/
theorem Within.chain {s t : Store} {i j : Nat} (h : s.Within i t) (hj : j < s.size) (hne : j ≠ i)
    (hroot : (s.frameAt j).parent = none) : t.chain j = s.chain j := by
  rw [chain_eq t j (Nat.lt_of_lt_of_le hj h.size_le), chain_eq s j hj, h.frameAt hj hne, hroot]
  rfl

end Store

/-- A statement changes the store within its frame, whether it succeeds or not. -/
theorem Statement.Leaves.within {s t : Store} {i : Nat} (hi : i < s.size) {statement : Statement}
    {outcome : Traced (Option Value)} (h : statement.Leaves i s (outcome, t)) : s.Within i t := by
  obtain ⟨result, trace⟩ := outcome
  cases result with
  | error f => exact Store.Keeps.within h hi
  | ok value =>
    cases statement with
    | assign name e =>
      obtain ⟨v, -, -, hf, hk⟩ := h
      exact hk.within hf rfl
    | define name params body =>
      obtain ⟨-, -, hf, hk⟩ := h
      exact hk.within hf rfl
    | expression e => exact Store.Keeps.within h.2 hi
    | misplaced e => exact h.elim

theorem Statement.Leaves.keeps_of_error {s : Store} {i : Nat} {statement : Statement}
    {x : Traced (Option Value) × Store} (h : statement.Leaves i s x) {f : Failure}
    (hx : x.1.result = .error f) : s.Keeps x.2 := by
  obtain ⟨⟨result, trace⟩, t⟩ := x
  cases hx
  exact h

theorem Statement.within_evaluate (m : Machine) {s : Store} {i : Nat} (hi : i < s.size) (statement : Statement) :
    s.Within i (statement.evaluate m i s).2 :=
  Leaves.within hi (leaves_run (Expr.keeping_evaluate m) hi statement)

/-- Two outcomes have the same failure, or both a value, which is the same one if that is called for.
Their events are the same if that is called for. -/
structure Traced.Agree {α : Type} (same traced : Prop) (x y : Traced α) : Prop where
  result : match x.result, y.result with
    | .ok a, .ok b => same → a = b
    | .error e, .error f => e = f
    | _, _ => False
  trace : traced → x.trace = y.trace

namespace Traced.Agree
variable {α : Type} {same traced : Prop}

theorem refl (x : Traced α) : x.Agree same traced x := by
  refine ⟨?_, fun _ => rfl⟩
  cases x.result with
  | ok a => exact fun _ => rfl
  | error e => rfl

theorem eq {x y : Traced α} (h : x.Agree same traced y) (hs : same) (ht : traced) : x = y := by
  obtain ⟨hr, htr⟩ := h
  obtain ⟨result, trace⟩ := x
  obtain ⟨result', trace'⟩ := y
  obtain rfl : trace = trace' := htr ht
  cases result <;> cases result'
  · exact congrArg (Traced.mk · _) (congrArg Except.error hr)
  · exact hr.elim
  · exact hr.elim
  · exact congrArg (Traced.mk · _) (congrArg Except.ok (hr hs))

end Traced.Agree

/-- It was not for a number that no text can hold that there is no value. -/
def Traced.WithinLimits {α : Type} (x : Traced α) : Prop :=
  ∀ fault, x.result ≠ .error (.unwritable fault)

/-- Two computations on alike frames have outcomes that agree and leave the frames alike, the first of
them without changes outside of its frame. Where the values need not be the same, both have to keep within
the limits of texts. -/
def Computation.Matches {α : Type} (same traced : Prop) (i j : Nat) (c d : Computation α) : Prop :=
  ∀ s t, s.Alike i t j → (same ∨ (c s).1.WithinLimits ∧ (d t).1.WithinLimits) →
    (c s).1.Agree same traced (d t).1 ∧ (c s).2.Alike i (d t).2 j ∧ s.Within i (c s).2

namespace Computation
variable {α β : Type} {same same' traced : Prop} {i j : Nat}

theorem matches_lift {x y : Traced α} (h : same ∨ x.WithinLimits ∧ y.WithinLimits → x.Agree same traced y) :
    Matches same traced i j (lift x) (lift y) :=
  fun s _ ha hlimits => ⟨h hlimits, ha, .refl s i⟩

/-- Values keep within the limits. -/
theorem withinLimits_bind {c : Computation α} {f : α → Computation β} {s : Store}
    (h : ((c >>= f) s).1.WithinLimits) :
    (c s).1.WithinLimits ∧ ∀ a, (c s).1.result = .ok a → (f a (c s).2).1.WithinLimits := by
  rcases hc : c s with ⟨⟨result, trace⟩, t⟩
  cases result with
  | error e =>
    rw [bind_of_error hc] at h
    exact ⟨fun fault he => h fault (congrArg Except.error (Except.error.inj he)), nofun⟩
  | ok a =>
    rw [bind_of_ok hc] at h
    refine ⟨nofun, fun b hb => ?_⟩
    cases hb
    exact h

theorem Matches.bind {c d : Computation α} {f g : α → Computation β}
    (hc : Matches same traced i j c d) (hsame : same' → same)
    (hf : ∀ a b, (same → a = b) → Matches same' traced i j (f a) (g b)) :
    Matches same' traced i j (c >>= f) (d >>= g) := by
  intro s t ha hlimits
  obtain ⟨⟨hr, ht⟩, ha', hw⟩ :=
    hc s t ha (hlimits.imp hsame fun h => ⟨(withinLimits_bind h.1).1, (withinLimits_bind h.2).1⟩)
  have hlater (a b : α) (hca : (c s).1.result = .ok a) (hdb : (d t).1.result = .ok b) :
      same' ∨ (f a (c s).2).1.WithinLimits ∧ (g b (d t).2).1.WithinLimits :=
    hlimits.imp id fun h => ⟨(withinLimits_bind h.1).2 a hca, (withinLimits_bind h.2).2 b hdb⟩
  rcases h : c s with ⟨⟨result, trace⟩, u⟩
  rcases h' : d t with ⟨⟨result', trace'⟩, v⟩
  rw [h, h'] at hr ht ha' hlater
  rw [h] at hw
  cases result <;> cases result'
  · obtain rfl := hr
    rw [bind_of_error h, bind_of_error h']
    exact ⟨⟨rfl, ht⟩, ha', hw⟩
  · exact hr.elim
  · exact hr.elim
  · rename_i a b
    obtain ⟨⟨hr', ht'⟩, hb, hw'⟩ := hf a b hr u v ha' (hlater a b rfl rfl)
    rw [bind_of_ok h, bind_of_ok h']
    refine ⟨⟨hr', fun htr => ?_⟩, hb, hw.trans hw'⟩
    obtain rfl : trace = trace' := ht htr
    exact congrArg (trace ++ ·) (ht' htr)

theorem Matches.map {c d : Computation α} (hc : Matches same traced i j c d) (h : same' → same)
    (f : α → β) : Matches same' traced i j (f <$> c) (f <$> d) := by
  refine hc.bind h fun a b hab => matches_lift (x := pure (f a)) (y := pure (f b)) fun _ => ?_
  exact ⟨fun hs => congrArg f (hab (h hs)), fun _ => rfl⟩

/-- What follows without a change of the store leaves it as it is. -/
theorem bind_lift_store (c : Computation α) (f : α → Traced β) (s : Store) :
    ((c >>= fun a => lift (f a)) s).2 = (c s).2 := by
  rcases hc : c s with ⟨⟨result, trace⟩, t⟩
  cases result with
  | error e => rw [bind_of_error hc]
  | ok a => rw [bind_of_ok hc]; rfl

end Computation

/-- Over alike frames, a statement does the same. -/
theorem Statement.matches_evaluate (same traced : Prop) (m : Machine) (i j : Nat) (statement : Statement) :
    Computation.Matches same traced i j (statement.evaluate m i) (statement.evaluate m j) := by
  intro s t ⟨hs, ht, hi, hj, hscope⟩ _
  have hl := lands_evaluate_statement m hs hi statement
  have hr := lands_evaluate_statement m ht hj statement
  have hsl : statement.Leaves i s (statement.evaluate m i s) :=
    leaves_run (Expr.keeping_evaluate m) hi statement
  have htl : statement.Leaves j t (statement.evaluate m j t) :=
    leaves_run (Expr.keeping_evaluate m) hj statement
  rw [← hscope] at hr
  obtain ⟨hol, hsl', hil⟩ := hl.outcome
  obtain ⟨hor, htl', hjr⟩ := hr.outcome
  have ho := hol.trans hor.symm
  refine ⟨ho ▸ .refl _, ⟨hsl', htl', hil, hjr, ?_⟩, hsl.within hi⟩
  rcases hz : Lexical.run (Lexical.evaluate m) (s.scope i) statement with ⟨result, trace⟩
  rw [hz] at hol hor hl hr
  cases result with
  | error f =>
    rw [(hsl.keeps_of_error (f := f) (by rw [hol]; rfl)).scope hi,
      (htl.keeps_of_error (f := f) (by rw [hor]; rfl)).scope hj, hscope]
  | ok next => rw [hl.scope_of_ok rfl, hr.scope_of_ok rfl]

/-- The outline of a statement is not too high to be shown, and all numbers in it can be written. -/
def Statement.Showable (m : Machine) (statement : Statement) : Prop :=
  statement.height ≤ m.outlineCalls ∧ statement.writable = true

/-- The outline of the statement that a request has parsed can be shown. -/
def Request.Showable (m : Machine) : Request → Prop
  | .run text | .execute text =>
    ∀ statement, parseStatement m text = .ok statement → statement.Showable m
  | .runAll _ | .perform _ => True

theorem Statement.shownOutline_eq_ok_iff {m : Machine} {statement : Statement} {outline : String} :
    statement.shownOutline m = .ok outline ↔ statement.Showable m ∧ statement.outline 0 = outline := by
  rw [shownOutline, Showable, ← Nat.not_lt]
  split
  · rename_i hhigh
    exact ⟨nofun, fun h => absurd hhigh h.1.1⟩
  split
  · rename_i hlow hwritable
    exact ⟨fun h => ⟨⟨hlow, hwritable⟩, Except.ok.inj h⟩, fun h => congrArg Except.ok h.2⟩
  · rename_i hwritable
    exact ⟨nofun, fun h => absurd h.1.2 hwritable⟩

/-- How an outline cannot be shown: it is too high, or a number in it cannot be written. -/
def Statement.FailsToShow (m : Machine) (statement : Statement) (f : Failure) : Prop :=
  f = .tooDeep ∧ m.outlineCalls < statement.height ∨
    f = .unwritable .longExponent ∧ statement.writable = false

theorem Statement.failsToShow_of_shownOutline {m : Machine} {statement : Statement} {f : Failure}
    (h : statement.shownOutline m = .error f) : statement.FailsToShow m f := by
  rw [shownOutline] at h
  split at h
  · rename_i hhigh
    exact .inl ⟨(Except.error.inj h).symm, hhigh⟩
  split at h
  · cases h
  · rename_i hwritable
    exact .inr ⟨(Except.error.inj h).symm, eq_false_of_ne_true hwritable⟩

namespace Session
open Computation
variable {a b : Session} {same traced : Prop}

theorem validated_eq_ok_iff {settings t : Settings} : validated settings = .ok t ↔ settings = t ∧ settings.Valid := by
  rw [← Settings.validate_eq_ok_iff, validated]
  cases settings.validate with
  | error fault => constructor <;> intro h <;> cases h
  | ok valid => constructor <;> intro h <;> exact congrArg Except.ok (Except.ok.inj h)

theorem validated_of_valid {settings : Settings} (h : settings.Valid) : validated settings = .ok settings :=
  validated_eq_ok_iff.2 ⟨rfl, h⟩

theorem create_eq_ok_iff {stack : Nat} {settings : Settings} {store : Store} {opened : Session × Store} :
    create stack settings store = .ok opened ↔ settings.Valid ∧ start stack settings store = opened := by
  rw [create]
  cases h : validated settings with
  | error why =>
    refine ⟨nofun, fun hvalid => ?_⟩
    rw [validated_of_valid hvalid.1] at h
    cases h
  | ok t =>
    obtain ⟨rfl, hvalid⟩ := validated_eq_ok_iff.1 h
    exact ⟨fun h => ⟨hvalid, Except.ok.inj h⟩, fun h => congrArg Except.ok h.2⟩

/-- A session over a copy of the scope, in the same number context. -/
def copied (s : Session) (settings : Settings) (store : Store) : Session × Store :=
  (⟨⟨s.precision, store.placeInCopy s.frame s.frame⟩, settings, s.stack⟩, store.copy s.frame)

/-- A session over a copy of the scope that a copier makes. -/
def copyBy (copier : Copier) (s : Session) (settings : Settings) (store : Store) :
    Except Refusal (Session × Store) :=
  if store.copyDepth copier s.frame ≤ s.machine.copyingCalls then
    (validated settings).map (s.copied · store)
  else .error (.failed .tooDeep)

theorem fork_eq (s : Session) (store : Store) : s.fork store = s.copyBy .cloning s.settings store := by
  rw [fork, copyBy, overCopy, Context.cloneWithin, Store.copyWithin]
  split <;> rfl

/-- What is written down and read again is the context itself over the copied frames. -/
theorem transfer_eq (s : Session) (settings : Settings) (store : Store) :
    s.transfer settings store = s.copyBy .pickling settings store := by
  rw [transfer, copyBy, overCopy, Context.pickleWithin, Store.copyWithin]
  split <;> rfl

theorem copyBy_eq_ok_iff {copier : Copier} {s : Session} {settings : Settings} {store : Store}
    {opened : Session × Store} :
    s.copyBy copier settings store = .ok opened ↔
      store.copyDepth copier s.frame ≤ s.machine.copyingCalls ∧ settings.Valid ∧
        s.copied settings store = opened := by
  rw [copyBy]
  split
  · rename_i hfits
    cases h : validated settings with
    | error why =>
      refine ⟨nofun, fun hmade => ?_⟩
      rw [validated_of_valid hmade.2.1] at h
      cases h
    | ok t =>
      obtain ⟨rfl, hvalid⟩ := validated_eq_ok_iff.1 h
      exact ⟨fun h => ⟨hfits, hvalid, Except.ok.inj h⟩, fun h => congrArg Except.ok h.2.2⟩
  · rename_i hfits
    exact ⟨nofun, fun h => absurd h.1 hfits⟩

/-- Two sessions run on the same machine, and texts and events of theirs are compared only
where the settings agree on how numbers are shown and on whether events are. -/
structure Akin (same traced : Prop) (a b : Session) : Prop where
  machine : a.machine = b.machine
  format : same → a.settings.digits = b.settings.digits ∧ a.settings.threshold = b.settings.threshold
  shown : traced → a.settings.debug = b.settings.debug

theorem Akin.precision (h : Akin same traced a b) : a.precision = b.precision :=
  congrArg Machine.precision h.machine

private theorem Akin.resultText (h : Akin same traced a b) (hs : same) (statement : Statement)
    (value : Option Value) : a.resultText statement value = b.resultText statement value := by
  have hf (n : Value) : a.format n = b.format n := by
    rw [Session.format, Session.format, h.precision, (h.format hs).1, (h.format hs).2]
  cases value with
  | none => cases statement <;> rfl
  | some v => cases statement <;> first | exact hf v | rfl

/-- There is a text for every value but those beyond the limits. -/
theorem exists_fault_of_resultText {statement : Statement} {value : Option Value} {f : Failure}
    (h : a.resultText statement value = .error f) : ∃ fault, f = .unwritable fault := by
  have hf (n : Value) (hn : a.format n = .error f) : ∃ fault, f = .unwritable fault := by
    rw [Session.format] at hn
    cases hd : n.number.display a.precision a.settings.digits a.settings.threshold with
    | ok text => rw [hd] at hn; cases hn
    | error fault => rw [hd] at hn; cases hn; exact ⟨fault, rfl⟩
  cases value with
  | none => cases statement <;> cases h
  | some n => cases statement <;> first | exact hf n h | cases h

private theorem exists_resultText {statement : Statement} {value : Option Value}
    (h : Traced.WithinLimits ⟨a.resultText statement value, []⟩) :
    ∃ text, a.resultText statement value = .ok text := by
  cases ht : a.resultText statement value with
  | ok text => exact ⟨text, rfl⟩
  | error f =>
    obtain ⟨fault, rfl⟩ := exists_fault_of_resultText ht
    exact absurd ht (h fault)

theorem Akin.shown_eq (h : Akin same traced a b) (ht : traced) (events : List Event) :
    a.shown events = b.shown events := by
  rw [Session.shown, Session.shown, h.shown ht]

theorem agree_parse (h : Akin same traced a b) (text : String)
    (hd : a.settings.debug = b.settings.debug ∨
      ∀ statement, parseStatement a.machine text = .ok statement → statement.Showable a.machine) :
    (a.parse text).Agree True traced (b.parse text) := by
  unfold parse
  rw [← h.machine]
  cases hp : parseStatement a.machine text with
  | error f => exact .refl _
  | ok statement =>
    rcases hd with hd | hd
    · rw [hd]
      exact .refl _
    · simp only [Statement.shownOutline_eq_ok_iff.2 ⟨hd statement hp, rfl⟩]
      refine ⟨?_, fun ht => ?_⟩
      · cases a.settings.debug <;> cases b.settings.debug <;> exact fun _ => rfl
      · rw [h.shown ht]

private theorem agree_parseAll (h : Akin same traced a b) (text : String) :
    (a.parseAll text).Agree True traced (b.parseAll text) := by
  unfold parseAll
  rw [← h.machine]
  cases parseProgram a.machine text with
  | error f => exact .refl _
  | ok statements => exact ⟨fun _ => rfl, fun ht => h.shown_eq ht _⟩

theorem matches_execute (h : Akin same traced a b) (statement : Statement) :
    Matches True traced a.frame b.frame (a.execute statement) (b.execute statement) := by
  intro s t ha _
  have hm := Statement.matches_evaluate True True a.machine a.frame b.frame statement s t ha (.inl trivial)
  unfold execute
  rw [← h.machine]
  generalize statement.evaluate a.machine a.frame s = x at hm ⊢
  generalize statement.evaluate a.machine b.frame t = y at hm ⊢
  obtain ⟨hx, ha', hw⟩ := hm
  have hxy : x.1 = y.1 := hx.eq trivial trivial
  refine ⟨⟨?_, fun ht => ?_⟩, ha', hw⟩
  · simp only [hxy]
    cases y.1.result with
    | ok v => exact fun _ => rfl
    | error f => rfl
  · simp only [hxy]
    exact h.shown_eq ht _

private theorem withinLimits_recover {c : Computation String} {s : Store} (h : (recover c s).1.WithinLimits) :
    (c s).1.WithinLimits := by
  intro fault hf
  rcases hc : c s with ⟨⟨result, trace⟩, t⟩
  rw [hc] at hf
  cases hf
  exact h fault (by rw [recover, hc])

theorem recover_store (c : Computation String) (store : Store) : (recover c store).2 = (c store).2 := by
  unfold recover
  rcases c store with ⟨⟨result, trace⟩, t⟩
  cases result with
  | ok text => rfl
  | error f => cases f <;> rfl

theorem matches_recover {i j : Nat} {c d : Computation String} (hc : Matches same traced i j c d) :
    Matches same traced i j (recover c) (recover d) := by
  intro s t ha hlimits
  obtain ⟨⟨hr, ht⟩, ha', hw⟩ :=
    hc s t ha (hlimits.imp id fun h => ⟨withinLimits_recover h.1, withinLimits_recover h.2⟩)
  clear hlimits
  unfold recover
  generalize c s = x at hr ht ha' hw ⊢
  generalize d t = y at hr ht ha' hw ⊢
  obtain ⟨⟨result, trace⟩, u⟩ := x
  obtain ⟨⟨result', trace'⟩, v⟩ := y
  cases result <;> cases result'
  · obtain rfl := hr
    rename_i f
    cases f <;> first | exact ⟨⟨fun _ => rfl, ht⟩, ha', hw⟩ | exact ⟨⟨rfl, ht⟩, ha', hw⟩
  · exact hr.elim
  · exact hr.elim
  · exact ⟨⟨hr, ht⟩, ha', hw⟩

theorem matches_answer (h : Akin same traced a b) (statement : Statement) :
    Matches same traced a.frame b.frame (a.answer statement) (b.answer statement) := by
  refine (matches_execute h statement).bind (fun _ => trivial) fun v w hvw => matches_lift fun hlimits => ?_
  obtain rfl := hvw trivial
  rcases hlimits with hs | ⟨hv, hw⟩
  · rw [h.resultText hs statement v]
    exact .refl _
  · obtain ⟨x, hx⟩ := exists_resultText hv
    obtain ⟨y, hy⟩ := exists_resultText hw
    have he (hs : same) : x = y := Except.ok.inj (hx.symm.trans ((h.resultText hs statement v).trans hy))
    rw [hx, hy]
    exact ⟨he, fun _ => rfl⟩

private theorem matches_answerAll (h : Akin same traced a b) (statements : List Statement) :
    Matches same traced a.frame b.frame (a.answerAll statements) (b.answerAll statements) := by
  induction statements with
  | nil => exact matches_lift fun _ => .refl _
  | cons statement rest ih =>
    refine (matches_recover (matches_answer h statement)).bind id fun v w hvw => ?_
    refine ih.bind id fun vs ws hvws => ?_
    exact matches_lift (x := pure (v :: vs)) (y := pure (w :: ws)) fun _ =>
      ⟨fun hs => by rw [hvw hs, hvws hs], fun _ => rfl⟩

private theorem matches_runAll (h : Akin same traced a b) (text : String) :
    Matches same traced a.frame b.frame (a.runAll text) (b.runAll text) := by
  have hp := agree_parseAll h text
  unfold runAll
  generalize a.parseAll text = x at hp ⊢
  generalize b.parseAll text = y at hp ⊢
  have hgo : Matches same traced a.frame b.frame (lift x >>= a.answerAll) (lift y >>= b.answerAll) :=
    (matches_lift fun _ => hp).bind (fun _ => trivial) fun statements statements' he =>
      he trivial ▸ matches_answerAll h statements
  obtain ⟨hr, ht⟩ := hp
  obtain ⟨result, trace⟩ := x
  obtain ⟨result', trace'⟩ := y
  cases result <;> cases result'
  · obtain rfl := hr
    rename_i f
    cases f with
    | error e => exact matches_lift fun _ => ⟨fun _ => rfl, ht⟩
    | tooDeep => exact hgo
    | unknownOperator op => exact hgo
    | notCallable name => exact hgo
    | unwritable fault => exact hgo
  · exact hr.elim
  · exact hr.elim
  · exact hgo

theorem matches_executeText (h : Akin same traced a b) {text : String}
    (hd : a.settings.debug = b.settings.debug ∨ (Request.execute text).Showable a.machine) :
    Matches True traced a.frame b.frame (a.executeText text) (b.executeText text) := by
  refine (matches_lift fun _ => agree_parse h text hd).bind id fun statement statement' he => ?_
  obtain rfl := he trivial
  exact matches_execute h statement

/-- Sessions that are akin do the same over alike frames, unless an outline that one of them shows and
the other does not cannot be shown. -/
theorem matches_respond (h : Akin same traced a b) (request : Request)
    (hd : a.settings.debug = b.settings.debug ∨ request.Showable a.machine) :
    Matches same traced a.frame b.frame (a.respond request) (b.respond request) := by
  cases request with
  | run text =>
    refine (matches_recover ?_).map id _
    refine (matches_lift fun _ => agree_parse h text hd).bind (fun _ => trivial)
      fun statement statement' he => ?_
    obtain rfl := he trivial
    exact matches_answer h statement
  | runAll text => exact (matches_runAll h text).map id _
  | execute text => exact (matches_executeText h hd).map (fun _ => trivial) _
  | perform statement => exact (matches_execute h statement).map (fun _ => trivial) _

/-- What is shown of a value does not matter to the bindings. -/
theorem run_store_eq (s : Session) (text : String) (store : Store) :
    (s.run text store).2 = (s.executeText text store).2 := by
  rw [run, recover_store, executeText]
  rcases hp : s.parse text with ⟨_ | statement, trace⟩
  · rfl
  · rw [bind_of_ok (t := store) (by rfl), bind_of_ok (t := store) (by rfl)]
    exact bind_lift_store ..

/-- Sessions that are akin leave alike frames alike, unless one of them breaks a batch off. -/
theorem alike_respond (h : Akin same traced a b) (request : Request)
    (hd : a.settings.debug = b.settings.debug ∨ request.Showable a.machine) {s t : Store}
    (ha : s.Alike a.frame t b.frame)
    (hlimits : same ∨ (∀ text, request ≠ .runAll text) ∨
      (a.respond request s).1.WithinLimits ∧ (b.respond request t).1.WithinLimits) :
    (a.respond request s).2.Alike a.frame (b.respond request t).2 b.frame := by
  have hmatches := matches_respond h request hd s t ha
  rcases hlimits with hs | hbatch | hlimits
  · exact (hmatches (.inl hs)).2.1
  · clear hmatches
    cases request with
    | run text =>
      have hexecute := (matches_executeText h hd s t ha (.inl trivial)).2.1
      have hstore (c : Session) (u : Store) : (c.respond (.run text) u).2 = (c.executeText text u).2 :=
        (bind_lift_store (c.run text) (fun answer => pure (Answer.text answer)) u).trans (c.run_store_eq text u)
      rw [hstore, hstore]
      exact hexecute
    | runAll text => exact absurd rfl (hbatch text)
    | execute text =>
      exact ((matches_executeText h hd).map (fun _ => trivial) Answer.value s t ha (.inl trivial)).2.1
    | perform statement =>
      exact ((matches_execute h statement).map (fun _ => trivial) Answer.value s t ha (.inl trivial)).2.1
  · exact (hmatches (.inr hlimits)).2.1

end Session

end Reckoner
