import Reckoner.Proofs.Batches
import Reckoner.Proofs.ReadBack

/-! What a session answers that is given texts, and trees that can be written. A text is rejected or evaluated,
an evaluation fails in a documented way or comes to a value, and every value has a text, unless there are more
zeros in it or digits in its exponent than a text can hold. The memory that a text takes is set aside. -/

namespace Reckoner

namespace Decimal

/-- What is written of a number: digits from the first to the last that is not zero, and the exponent, which a
carry may have raised by one. -/
structure Mantissa.Shows (m : Mantissa) (x : ℚ) : Prop where
  digits : AllDigits m.digits
  first : ∃ d, m.digits.head? = some d ∧ d ≠ 0
  last : ∃ d, m.digits.getLast? = some d ∧ d ≠ 0
  bounds : 10 ^ (m.exponent - 2) ≤ x ∧ x < 10 ^ m.exponent

section Shows
variable {m r : Mantissa} {x : ℚ} {ds : List Int}

private theorem exists_getLast?_dropTrailingZeros (h : dropTrailingZeros ds ≠ []) :
    ∃ d, (dropTrailingZeros ds).getLast? = some d ∧ d ≠ 0 := by
  rw [dropTrailingZeros, List.getLast?_reverse]
  have hne : ds.reverse.dropWhile (· = 0) ≠ [] := fun hnil => h (by rw [dropTrailingZeros, hnil]; rfl)
  refine ⟨_, List.head?_eq_some_head hne, fun hzero => ?_⟩
  have hhead := List.head_dropWhile_not (fun d : Int => decide (d = 0)) hne
  rw [hzero] at hhead
  cases hhead

/-- Digits that are rounded, however many of them are kept, show the number. -/
theorem Mantissa.Truncates.exists_shows (h : m.Truncates x) {count : Int} (hpos : 1 ≤ count) :
    ∃ r, roundTo m count = .ok (some r) ∧ 0 < Decimal.value r.digits ∧
      Mantissa.Shows ⟨r.exponent, dropTrailingZeros r.digits⟩ x := by
  obtain ⟨r, hr, hdigits, hpositive, hexponent⟩ : ∃ r, roundTo m count = .ok (some r) ∧
      AllDigits r.digits ∧ 0 < Decimal.value r.digits ∧
      (r.exponent = m.exponent ∨ r.exponent = m.exponent + 1) := by
    rcases lt_or_ge count m.digits.length with hlt | hge
    · obtain ⟨r, hr, hdigits, hpositive, -, -, hexponent⟩ := h.exists_roundTo hpos hlt
      exact ⟨r, hr, hdigits, hpositive, hexponent⟩
    · exact ⟨m, by rw [roundTo_eq h.leading hpos, if_pos hge], h.digits,
        lt_of_lt_of_le (by positivity) h.pow_le_value.2, .inl rfl⟩
  have hhead := exists_head?_roundTo h.digits h.leading hpos hr
  have hne := dropTrailingZeros_ne_nil hpositive
  obtain ⟨zeros, hzeros⟩ := exists_eq_dropTrailingZeros_append r.digits
  refine ⟨r, hr, hpositive, (hzeros ▸ hdigits).of_append.1, ?_, exists_getLast?_dropTrailingZeros hne, ?_⟩
  · rwa [hzeros, List.head?_append_of_ne_nil _ hne] at hhead
  · obtain ⟨hlow, hhigh⟩ := h.bounds
    refine ⟨(zpow_le_zpow_right₀ (by norm_num) ?_).trans hlow,
      hhigh.trans_le (zpow_le_zpow_right₀ (by norm_num) ?_)⟩ <;> dsimp only <;> omega

end Shows

end Decimal

namespace Number
open Decimal Text
variable {p : Nat} {digits threshold : Int}

/-- Every number but zero is displayed by digits that show it, or meets a limit. -/
theorem exists_display (hp : 1 ≤ p) (hdigits : 1 ≤ digits) {x : Dyadic} (hx : x ≠ 0) :
    ∃ m : Mantissa, m.Shows |(Binary.nearest p x).toRat| ∧ ∀ threshold,
      display p digits threshold (.finite x) =
        match limit? m.digits m.exponent threshold with
        | some fault => .error fault
        | none => .ok (String.ofList (signText (Binary.isNegative x) ++
            if threshold < m.exponent.natAbs then scientific m.digits m.exponent
            else plain m.digits m.exponent)) := by
  have hy := (Binary.rounds_nearest hp x).ne_zero hp (mt Dyadic.toRat_eq_zero_iff.1 hx)
  have hpos : 0 < (Binary.abs (Binary.nearest p x)).toRat := by
    rw [Binary.toRat_abs]
    exact abs_pos.2 (mt Dyadic.toRat_eq_zero_iff.1 hy)
  have htruncates : (expand p x).Truncates |(Binary.nearest p x).toRat| :=
    Binary.toRat_abs (Binary.nearest p x) ▸ expandPositive_truncates hpos
  obtain ⟨r, hr, hpositive, hshows⟩ := htruncates.exists_shows hdigits
  refine ⟨_, hshows, fun threshold => ?_⟩
  rw [display, if_neg (ne_true_of_eq_false (Binary.isZero_eq_false hx)), hr]
  exact layout_eq (Binary.isNegative x) r.exponent threshold hpositive

/-- Only zeros or an exponent without end keep a number from being displayed. -/
theorem display_eq_ok_or_error (hp : 1 ≤ p) (hdigits : 1 ≤ digits) (threshold : Int) (v : Number) :
    (∃ text, display p digits threshold v = .ok text) ∨
      ∃ (x : Dyadic) (m : Mantissa) (fault : Fault), v = .finite x ∧ m.Shows |(Binary.nearest p x).toRat| ∧
        limit? m.digits m.exponent threshold = some fault ∧ display p digits threshold v = .error fault := by
  cases v with
  | undefined => exact .inl ⟨_, rfl⟩
  | infinite negative => exact .inl ⟨_, rfl⟩
  | finite x =>
    by_cases hx : x = 0
    · exact .inl ⟨"0", hx ▸ rfl⟩
    obtain ⟨m, hshows, hdisplay⟩ := exists_display hp hdigits hx
    have hdisplay := hdisplay threshold
    cases hlimit : limit? m.digits m.exponent threshold with
    | none =>
      rw [hlimit] at hdisplay
      exact .inl ⟨_, hdisplay⟩
    | some fault =>
      rw [hlimit] at hdisplay
      exact .inr ⟨x, m, fault, rfl, hshows, hlimit, hdisplay⟩

/-- A number that has fewer places than a text may have is displayed, whatever the display is set to. -/
theorem exists_display_of_le (hp : 1 ≤ p) (hdigits : 1 ≤ digits) (threshold : Int) {x : Dyadic}
    (hlow : (10 : ℚ) ^ (-(maxTextLength - 2 : ℤ)) ≤ |(Binary.nearest p x).toRat|)
    (hhigh : |(Binary.nearest p x).toRat| ≤ 10 ^ (maxTextLength - 2 : ℤ)) :
    ∃ text, display p digits threshold (.finite x) = .ok text := by
  rcases display_eq_ok_or_error hp hdigits threshold (.finite x) with h | ⟨y, m, fault, hxy, hshows, hlimit, -⟩
  · exact h
  cases hxy
  obtain ⟨hbelow, habove⟩ := hshows.bounds
  have hle := (zpow_le_zpow_iff_right₀ (by norm_num : (1 : ℚ) < 10)).1 (hbelow.trans hhigh)
  have hlt := (zpow_lt_zpow_iff_right₀ (by norm_num : (1 : ℚ) < 10)).1 (hlow.trans_lt habove)
  rw [limit?_eq_none (by omega)] at hlimit
  cases hlimit

end Number

/-- What a failure is answered by, if it is an error of the language. -/
def Failure.answered : Failure → Except Failure String
  | .error e => .ok e.message
  | f => .error f

namespace Session
open Computation
variable {s : Session} {store : Store} {text : String}

/-- A text is not parsed if it is rejected or, in debug mode, if its outline cannot be shown. -/
theorem error_of_parse {f : Failure} (h : (s.parse text).result = .error f) :
    f.Rejects ∨ f = .unwritable .longExponent ∧ s.settings.debug = true ∧
      ∃ statement, parseStatement s.machine text = .ok statement ∧ statement.writable = false := by
  unfold parse at h
  cases hp : parseStatement s.machine text with
  | error g =>
    rw [hp] at h
    cases h
    exact .inl (rejects_of_parseWith hp)
  | ok statement =>
    cases hd : s.settings.debug with
    | false => simp [hp, hd, pure] at h
    | true =>
      simp only [hp, hd, if_true] at h
      cases ho : statement.shownOutline s.machine with
      | ok outline => simp [ho] at h
      | error g =>
        rw [ho] at h
        cases h
        obtain ⟨rfl, -⟩ | ⟨rfl, hunwritable⟩ := Statement.failsToShow_of_shownOutline ho
        · exact .inl .tooDeep
        · exact .inr ⟨rfl, rfl, statement, rfl, hunwritable⟩

/-- A text that is not parsed is answered by the message of an error. -/
theorem run_of_parse_error {f : Failure} (h : (s.parse text).result = .error f) (store : Store) :
    (s.run text store).1.result = f.answered := by
  rcases hparse : s.parse text with ⟨_, trace⟩
  rw [hparse] at h
  cases h
  rw [run, recover, bind_of_error (c := lift (s.parse text)) (e := f) (t := store) (by rw [lift, hparse])]
  cases f <;> rfl

/-- A text is answered unless it is nested too deeply, or a number in it or the value is beyond the limits. -/
theorem run_ok_or_error (hw : store.Written) (text : String) :
    (∃ answer, (s.run text store).1.result = .ok answer) ∨ (s.run text store).1.result = .error .tooDeep ∨
      ∃ fault, (s.run text store).1.result = .error (.unwritable fault) ∧
        (s.Overflows store text fault ∨ fault = .longExponent ∧ s.settings.debug = true ∧
          ∃ statement, parseStatement s.machine text = .ok statement ∧ statement.writable = false) := by
  cases hp : (s.parse text).result with
  | error f =>
    have hrun := run_of_parse_error hp store
    rcases error_of_parse hp with hrejects | ⟨rfl, hunwritable⟩
    · cases hrejects with
      | unparsable d => exact .inl ⟨_, hrun⟩
      | malformedNumber numeral => exact .inl ⟨_, hrun⟩
      | tooDeep => exact .inr (.inl hrun)
    · exact .inr (.inr ⟨_, hrun, .inr ⟨rfl, hunwritable⟩⟩)
  | ok statement =>
    have hregular := regular_of_parseStatement (parseStatement_of_parse hp)
    rcases hx : s.execute statement store with ⟨⟨outcome, events⟩, after⟩
    cases outcome with
    | error f =>
      obtain ⟨e, rfl⟩ := error_of_execute hregular hw (by rw [hx])
      refine .inl ⟨e.message, ?_⟩
      rw [(run_of_parse hp store).1, recover_answer_of_error hx]
    | ok value =>
      have hvalue : (s.execute statement store).1.result = .ok value := by rw [hx]
      have hrun := run_of_value hp hvalue
      cases hshown : s.resultText statement value with
      | ok answer => exact .inl ⟨answer, hrun.trans hshown⟩
      | error f =>
        obtain ⟨fault, rfl⟩ := exists_fault_of_resultText hshown
        exact .inr (.inr ⟨fault, hrun.trans hshown, .inl ⟨statement, value, hp, hvalue, hshown⟩⟩)

end Session

open Decimal in
/-- Texts are answered. A session that was given texts, and no trees but those that can be written, rejects a text
or parses it; an evaluation fails in a documented way or comes to a value; and a value is shown, whatever the
settings are, unless the exponent to be shown is too long or the zeros to be shown are too many. All numbers with
fewer places than a text may have are shown. So a text is answered, unless the stack has no room for it
or a number cannot be shown. -/
theorem texts_are_answered (stack : Nat) {steps : List Step} (hsteps : ∀ step, step ∈ steps → step.Regular)
    {name : String} {s : Session} (hs : ((Workspace.empty stack).performAll steps).find? name = some s) :
    let store := ((Workspace.empty stack).performAll steps).store
    (∀ text f, parseStatement s.machine text = .error f ∨ parseProgram s.machine text = .error f → f.Rejects) ∧
    (∀ (request : Request) (statement : Statement), request.Regular → request.Poses s.machine statement →
      ∀ f, (statement.evaluate s.machine s.frame store).1.result = .error f → f.Documented) ∧
    (∀ v, (∃ shown, s.format v = .ok shown) ∨
      ∃ (x : Dyadic) (m : Mantissa) (fault : Fault), v.number = .finite x ∧
        m.Shows |(Binary.nearest s.precision x).toRat| ∧
        limit? m.digits m.exponent s.settings.threshold = some fault ∧
        s.format v = .error (.unwritable fault)) ∧
    (∀ (v : Value) (x : Dyadic), v.number = .finite x →
      (10 : ℚ) ^ (-(maxTextLength - 2 : ℤ)) ≤ |(Binary.nearest s.precision x).toRat| →
      |(Binary.nearest s.precision x).toRat| ≤ 10 ^ (maxTextLength - 2 : ℤ) →
      ∃ shown, s.format v = .ok shown) ∧
    ∀ text, (∃ answer, (s.run text store).1.result = .ok answer) ∨
      (s.run text store).1.result = .error .tooDeep ∨
      ∃ fault, (s.run text store).1.result = .error (.unwritable fault) ∧
        (s.Overflows store text fault ∨ fault = .longExponent ∧ s.settings.debug = true ∧
          ∃ statement, parseStatement s.machine text = .ok statement ∧ statement.writable = false) := by
  intro store
  obtain ⟨past, -, hcontinues⟩ := ((Workspace.tracks_empty stack).performAll steps).of_find? hs
  have hp : 1 ≤ s.precision := by
    have hfresh := hcontinues.fresh
    rw [hcontinues.precision]
    omega
  have hdigits : 1 ≤ s.settings.digits := hcontinues.settings ▸ hcontinues.valid.2.1
  have hwritten : store.Written := Workspace.written_performAll hsteps Store.written_empty
  refine ⟨fun text f h => ?_, fun request statement hrequest hposes f hf => ?_, fun v => ?_,
    fun v x hv hlow hhigh => ?_, Session.run_ok_or_error hwritten⟩
  · exact h.elim rejects_of_parseWith rejects_of_parseWith
  · have horderly := (statement.orderly_evaluate s.machine s.frame (hposes.regular hrequest) store hwritten).2
    rw [hf] at horderly
    exact horderly
  · rcases Number.display_eq_ok_or_error hp hdigits s.settings.threshold v.number with
      ⟨shown, hshown⟩ | ⟨x, m, fault, hv, hshows, hlimit, hfault⟩
    · exact .inl ⟨shown, by rw [Session.format, hshown]; rfl⟩
    · exact .inr ⟨x, m, fault, hv, hshows, hlimit, by rw [Session.format, hfault]; rfl⟩
  · obtain ⟨shown, hshown⟩ :=
      Number.exists_display_of_le hp hdigits s.settings.threshold hlow hhigh
    exact ⟨shown, by rw [Session.format, hv, hshown]; rfl⟩

/-- Thousands of zeros are shown where the settings ask for them. -/
theorem thousands_of_zeros_are_shown :
    let settings : Settings := { digits := 20, threshold := 100000 }
    let assignment : Statement := .assign "x" (.number ⟨.finite 1, 53⟩)
    let steps : List Step := [.create "main" settings, .ask "main" (.perform assignment)]
    let s : Session := ⟨⟨128, 0⟩, settings, 1000⟩
    let x : Dyadic := .ofOdd 1 (-10000) rfl
    (∀ step, step ∈ steps → step.Regular) ∧ ((Workspace.empty 1000).performAll steps).find? "main" = some s ∧
      (10 : ℚ) ^ (-(Decimal.maxTextLength - 2 : ℤ)) ≤ |(Binary.nearest 128 x).toRat| ∧
      |(Binary.nearest 128 x).toRat| ≤ 10 ^ (Decimal.maxTextLength - 2 : ℤ) ∧
      ∃ shown, s.format ⟨.finite x, 128⟩ = .ok shown := by
  intro settings assignment steps s x
  have hname : IsName "x".toList := isName_singleton (by decide)
  have hassignment : assignment.Regular := .assign hname (.number rfl rfl)
  have hsteps : ∀ step, step ∈ steps → step.Regular := by
    intro step hstep
    rcases List.mem_pair.1 hstep with rfl | rfl
    · trivial
    · exact hassignment
  have hs : ((Workspace.empty 1000).performAll steps).find? "main" = some s := by decide +kernel
  have hnearest : Binary.nearest 128 x = x := Binary.nearest_of_fits (by decide : 1 ≤ 128)
  have hsize : |(Binary.nearest 128 x).toRat| = 2 ^ (10000 : ℤ) := by
    rw [hnearest, Binary.toRat_eq, Int.cast_one, one_mul, neg_neg]
    exact abs_of_pos (by positivity)
  have hlength : 10002 ≤ Decimal.maxTextLength := by decide
  have hlow : (10 : ℚ) ^ (-(Decimal.maxTextLength - 2 : ℤ)) ≤ 2 ^ (10000 : ℤ) :=
    (zpow_le_one_of_nonpos₀ (by norm_num) (by omega)).trans (one_le_zpow₀ (by norm_num) (by decide))
  have hhigh : (2 : ℚ) ^ (10000 : ℤ) ≤ 10 ^ (Decimal.maxTextLength - 2 : ℤ) :=
    (zpow_le_zpow_left₀ (by decide) (by norm_num) (by norm_num)).trans
      (zpow_le_zpow_right₀ (by norm_num) (by omega))
  rw [← hsize] at hlow hhigh
  exact ⟨hsteps, hs, hlow, hhigh, (texts_are_answered 1000 hsteps hs).2.2.2.1 ⟨.finite x, 128⟩ x rfl hlow hhigh⟩

/-- A number of more digits than a text may have is not answered where the settings do without an exponent. -/
theorem endless_zeros_are_not_answered :
    let settings : Settings := { threshold := 100000000000000000000000 }
    let w := (Workspace.empty 1000).performAll [.create "main" settings]
    let s : Session := ⟨⟨128, 0⟩, settings, 1000⟩
    settings.Valid ∧ w.find? "main" = some s ∧
      (s.run "1e30000000000000000000;" w.store).1.result = .error (.unwritable .tooManyZeros) :=
  ⟨by decide, rfl, by decide +kernel⟩

end Reckoner
