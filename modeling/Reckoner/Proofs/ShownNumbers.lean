import Reckoner.Proofs.Batches
import Reckoner.Proofs.LiteralSign
import Reckoner.Proofs.ReadBack
import Reckoner.Proofs.RenderedText
import Mathlib.Algebra.Order.Archimedean.Basic

/-! A number that a session shows is a statement, once a semicolon follows it: the session parses it as a
literal, with a minus or without, and shows the same text again. What counts is the precision that the session
works with, and not the one that its settings ask for. -/

namespace Reckoner
open Text Decimal

/-- A number with a minus or without, as an expression. -/
def signedLiteral (negative : Bool) (v : Value) : Expr :=
  if negative then .unary negation (.number v) else .number v

/-- The text of a numeral, with a minus or without, is parsed as a literal or the negation of one, if there are the
calls for the minus. -/
theorem parseStatement_numeral {m : Machine} (hroom : 11 ≤ m.readingCalls) {n : Number.Numeral}
    (hn : n.negative = false) {l : Number.Literal} (hl : Number.Literal.read? n.text = some l) (negative : Bool) :
    parseStatement m (String.ofList (signText negative ++ n.text) ++ ";") =
      .ok (.expression (signedLiteral negative ⟨l.value m.precision, m.precision⟩)) := by
  have hv : Number.ofText? m.precision n.text = some (l.value m.precision) := by
    rw [Number.ofText?_of_isNumeral m.precision (Number.Numeral.isNumeral_text hn), hl, Option.map_some]
  have hsemicolon : Renders [';'] [.mark ';'] := .cons_mark (by decide) (.nil nofun)
  have hrenders : Renders (n.text ++ [';']) ([.numeral n.text] ++ [.mark ';']) :=
    .cons (t := .numeral n.text) (s := [';']) (List.forall_mem_nil _)
      ⟨Number.Numeral.isNumeral_text hn, fun _ => Number.Numeral.head?_text hn⟩ hsemicolon
  have hnumber : Derives m.precision 1 [.numeral n.text]
      (.expression .power (.number ⟨l.value m.precision, m.precision⟩)) :=
    .primary (.number hv)
  have hsource : (String.ofList (signText negative ++ n.text) ++ ";").toList =
      signText negative ++ (n.text ++ [';']) := by
    simp
  cases negative with
  | false =>
    exact parseStatement_of_le (hsource ▸ hrenders) (.expression (.term (.factor hnumber))) (by omega)
  | true =>
    have hminus : Renders ('-' :: (n.text ++ [';'])) ([.mark '-', .numeral n.text] ++ [.mark ';']) :=
      hrenders.cons_mark (by decide)
    exact parseStatement_of_le (hsource ▸ hminus) (.expression (.term (.factor (.negation hnumber)))) hroom

namespace Session
open Number
variable {s : Session} {store : Store}

/-- A literal of the session. -/
def literal (s : Session) (v : Dyadic) : Value :=
  ⟨.finite v, s.precision⟩

/-- A literal is shown in debug mode, too. -/
theorem parse_signedLiteral (hroom : 11 ≤ s.machine.readingCalls) {text : String} {negative : Bool} {v : Dyadic}
    (hmagnitude : (Binary.magnitude v).natAbs ≤ directMagnitude)
    (h : parseStatement s.machine text = .ok (.expression (signedLiteral negative (s.literal v)))) :
    (s.parse text).result = .ok (.expression (signedLiteral negative (s.literal v))) := by
  have hwritable : (s.literal v).hasPlainText = true :=
    hasPlainText_of_natAbs_magnitude_le (p := s.precision) hmagnitude
  have houtline : 3 ≤ s.machine.outlineCalls := by
    rw [Machine.readingCalls] at hroom
    rw [Machine.outlineCalls]
    omega
  have hshowable : (Statement.expression (signedLiteral negative (s.literal v))).Showable s.machine := by
    cases negative with
    | false => exact ⟨(by decide : 2 ≤ 3).trans houtline, hwritable⟩
    | true => exact ⟨houtline, hwritable⟩
  have hshown := Statement.shownOutline_eq_ok_iff.2 ⟨hshowable, rfl⟩
  unfold parse
  simp only [h, hshown]
  split <;> rfl

/-- A literal is worth its number, and a minus in front of it is exact. -/
theorem execute_signedLiteral (hroom : 11 ≤ s.machine.readingCalls) {v : Dyadic} (hv : Binary.Fits s.precision v)
    (negative : Bool) (store : Store) :
    (s.execute (.expression (signedLiteral negative (s.literal v))) store).1.result =
      .ok (some (s.literal (if negative then -v else v))) := by
  obtain ⟨n, hn⟩ : ∃ n, s.machine.evaluationCalls = n + 2 := by
    refine Nat.exists_eq_add_of_le' ?_
    rw [Machine.readingCalls] at hroom
    rw [Machine.evaluationCalls]
    omega
  have hvalue : ((Statement.expression (signedLiteral negative (s.literal v))).evaluate s.machine s.frame
      store).1.result = .ok (some (s.literal (if negative then -v else v))) := by
    rw [Statement.evaluate, Expr.evaluate, hn]
    cases negative with
    | false => rfl
    | true =>
      have hneg := Binary.nearest_of_fits (Binary.fits_neg hv)
      change Except.ok (some (⟨.finite (Binary.nearest s.precision (-v)), s.precision⟩ : Value)) = _
      rw [hneg]
      rfl
  exact congrArg (Except.mapError limited) hvalue

theorem resultText_of_value {statement : Statement} {v : Value}
    (h : (s.execute statement store).1.result = .ok (some v)) :
    s.resultText statement (some v) = s.format v := by
  have hsome := Statement.isNone_of_run (evaluate_of_execute h)
  cases statement with
  | define name params body => cases hsome
  | _ => rfl

theorem executeText_eq_ok_iff {text : String} {value : Option Value} :
    (s.executeText text store).1.result = .ok value ↔
      ∃ statement, (s.parse text).result = .ok statement ∧
        (s.execute statement store).1.result = .ok value := by
  constructor
  · intro h
    obtain ⟨statement, hparse, hvalue, -⟩ := Computation.exists_of_bind h
    exact ⟨statement, hparse, hvalue⟩
  · rintro ⟨statement, hparse, hvalue⟩
    rcases hp : s.parse text with ⟨_, trace⟩
    rw [hp] at hparse
    cases hparse
    rw [executeText, Computation.bind_of_ok (c := .lift (s.parse text)) (by rw [Computation.lift, hp])]
    exact hvalue

section Numeral
variable {n : Numeral} {l : Literal} {v : Dyadic} (hroom : 11 ≤ s.machine.readingCalls) (hn : n.negative = false)
  (hl : Literal.read? n.text = some l) (hv : l.value s.precision = .finite v)
  (hmagnitude : (Binary.magnitude v).natAbs ≤ directMagnitude)

include hroom hn hl hv hmagnitude

theorem parse_numeral (negative : Bool) :
    (s.parse (String.ofList (signText negative ++ n.text) ++ ";")).result =
      .ok (.expression (signedLiteral negative (s.literal v))) := by
  have hparse := parseStatement_numeral hroom hn hl negative
  have hliteral : (⟨l.value s.machine.precision, s.machine.precision⟩ : Value) = s.literal v :=
    congrArg (Value.mk · s.precision) hv
  exact parse_signedLiteral hroom hmagnitude (hliteral ▸ hparse)

theorem executeText_numeral (hfits : Binary.Fits s.precision v) (negative : Bool) (store : Store) :
    (s.executeText (String.ofList (signText negative ++ n.text) ++ ";") store).1.result =
      .ok (some (s.literal (if negative then -v else v))) :=
  executeText_eq_ok_iff.2
    ⟨_, parse_numeral hroom hn hl hv hmagnitude negative, execute_signedLiteral hroom hfits negative store⟩

/-- What a session shows for a numeral is the display of its value, with the sign. -/
theorem run_numeral (hfits : Binary.Fits s.precision v) (negative : Bool) (store : Store) :
    (s.run (String.ofList (signText negative ++ n.text) ++ ";") store).1.result =
      s.format (s.literal (if negative then -v else v)) := by
  have hvalue := execute_signedLiteral hroom hfits negative store
  rw [run_of_value (parse_numeral hroom hn hl hv hmagnitude negative) hvalue, resultText_of_value hvalue]

end Numeral

end Session

namespace Workspace
variable {w : Workspace} {name : String} {s : Session}

/-- The settings of every session are within range. -/
def Settled (w : Workspace) : Prop :=
  ∀ name s, w.find? name = some s → s.settings.Valid

private theorem Settled.put (h : w.Settled) (target : String) {opened : Session × Store}
    (hv : opened.1.settings.Valid) : (w.put target opened).Settled := by
  intro name s hs
  rw [find?_put] at hs
  split at hs
  · exact Option.some.inj hs ▸ hv
  · exact h name s hs

private theorem Settled.move (h : w.Settled) {step : Step} {after : Workspace} (hmove : w.Moves step after) :
    after.Settled := by
  cases hmove with
  | stays => exact h
  | starts target hv => exact h.put target hv
  | answers => exact h
  | copies hs target hv => exact h.put target hv

private theorem Reachable.settled (h : w.Reachable) : w.Settled := by
  induction h with
  | empty => exact nofun
  | @performed w _ step ih => exact ih.move (w.moves_perform step)

end Workspace

private theorem readable_of_exponent {p : Nat} {digits : ℤ} {x : Dyadic} (hpos : 1 ≤ digits)
    (hprecision : 10 ^ digits.toNat ≤ 2 ^ (p - 1))
    (hrange : ∀ k : ℤ, 10 ^ (k - 1) ≤ |x.toRat| → |x.toRat| < 10 ^ k → k.natAbs + digits ≤ 1000)
    (hx : x ≠ 0) :
    Number.Readable p digits ∧ 10 ^ (-1000 : ℤ) ≤ |x.toRat| ∧ |x.toRat| ≤ 10 ^ (1000 : ℤ) := by
  obtain ⟨k, hlow, hhigh⟩ := exists_mem_Ico_zpow (abs_pos.2 (mt Dyadic.toRat_eq_zero_iff.1 hx))
    (by norm_num : (1 : ℚ) < 10)
  have hk := hrange (k + 1) (by rwa [add_sub_cancel_right]) hhigh
  refine ⟨⟨hpos, by omega, hprecision⟩, ?_, ?_⟩
  · exact (zpow_le_zpow_right₀ (by norm_num) (by omega)).trans hlow
  · exact hhigh.le.trans (zpow_le_zpow_right₀ (by norm_num) (by omega))

/-- A number that is shown reads back as itself. The bits that the session works with have to be worth more than
the digits shown, the decimal exponent is to be moderate, and the stack needs room for reading a minus. Then the text
is parsed as a literal or as the negation of one, whichever notation it has, and the same text is shown for it. -/
theorem shown_numbers_read_back {w : Workspace} (hw : w.Reachable) {name : String} {s : Session}
    (hs : w.find? name = some s) (hroom : 11 ≤ s.machine.readingCalls)
    (hprecision : 10 ^ s.settings.digits.toNat ≤ 2 ^ (s.precision - 1)) {text : String} {x : Dyadic} {p : Nat}
    (hx : (s.executeText text w.store).1.result = .ok (some ⟨.finite x, p⟩))
    (hrange : ∀ k : ℤ, 10 ^ (k - 1) ≤ |x.toRat| → |x.toRat| < 10 ^ k →
      k.natAbs + s.settings.digits ≤ 1000) :
    ∃ (shown : String) (e : Expr) (v : Dyadic),
      (s.run text w.store).1.result = .ok shown ∧
      (s.parse (shown ++ ";")).result = .ok (.expression e) ∧
      (e = .number ⟨.finite v, s.precision⟩ ∨ e = .unary negation (.number ⟨.finite v, s.precision⟩)) ∧
      ∀ store, (s.run (shown ++ ";") store).1.result = .ok shown := by
  obtain ⟨-, hpos, -⟩ := hw.settled name s hs
  obtain ⟨statement, hparse, hvalue⟩ := Session.executeText_eq_ok_iff.1 hx
  obtain ⟨n, l, v, hn, hl, hv, hfits, hmagnitude, hdisplay⟩ := Number.exists_reread (p := s.precision)
    s.settings.threshold (readable_of_exponent hpos hprecision hrange)
  have hformat {u : Dyadic} (hu : u = x ∨ u = if Binary.isNegative x then -v else v) (q : Nat) :
      s.format ⟨.finite u, q⟩ = .ok (String.ofList (signText (Binary.isNegative x) ++ n.text)) := by
    rw [Session.format, hdisplay u hu]
    rfl
  refine ⟨_, _, v, ?_, Session.parse_numeral hroom hn hl hv hmagnitude (Binary.isNegative x), ?_, fun store => ?_⟩
  · rw [Session.run_of_value hparse hvalue, Session.resultText_of_value hvalue, hformat (.inl rfl)]
  · rw [signedLiteral]
    split
    · exact .inr rfl
    · exact .inl rfl
  · rw [Session.run_numeral hroom hn hl hv hmagnitude hfits, Session.literal, hformat (.inr rfl)]

/-- A power of ten that is read as a number below it, which a carry makes the power of ten again. -/
theorem negative_power_of_ten_reads_back :
    let settings : Settings := { precision := 5, digits := 1 }
    let w := ((Workspace.empty 1000).perform (.create "main" settings)).2
    let s : Session := ⟨⟨5, 0⟩, settings, 1000⟩
    let x : Dyadic := .ofOdd (-21) 31 rfl
    w.Reachable ∧ w.find? "main" = some s ∧ 11 ≤ s.machine.readingCalls ∧
      10 ^ s.settings.digits.toNat ≤ 2 ^ (s.precision - 1) ∧
      (s.executeText "-0.0000000096;" w.store).1.result = .ok (some ⟨.finite x, 5⟩) ∧
      (∀ k : ℤ, 10 ^ (k - 1) ≤ |x.toRat| → |x.toRat| < 10 ^ k → k.natAbs + s.settings.digits ≤ 1000) ∧
      (s.run "-0.0000000096;" w.store).1.result = .ok "-1.0e-8" ∧
      ∃ (shown : String) (e : Expr) (v : Dyadic),
        (s.run "-0.0000000096;" w.store).1.result = .ok shown ∧
        (s.parse (shown ++ ";")).result = .ok (.expression e) ∧
        (e = .number ⟨.finite v, s.precision⟩ ∨ e = .unary negation (.number ⟨.finite v, s.precision⟩)) ∧
        ∀ store, (s.run (shown ++ ";") store).1.result = .ok shown := by
  intro settings w s x
  have hw : w.Reachable := (Workspace.Reachable.empty 1000).performed _
  have hs : w.find? "main" = some s := rfl
  have hroom : 11 ≤ s.machine.readingCalls := by decide
  have hprecision : 10 ^ s.settings.digits.toNat ≤ 2 ^ (s.precision - 1) := by decide
  let n : Number.Numeral := ⟨false, [0], [0, 0, 0, 0, 0, 0, 0, 0, 9, 6], none, List.cons_ne_nil _ _,
    by simp [AllDigits], Number.Numeral.short_none⟩
  have htext : String.ofList (signText true ++ n.text) ++ ";" = "-0.0000000096;" := by decide +kernel
  have hx := Session.executeText_numeral (s := s) (n := n) hroom rfl n.read?_text (v := .ofOdd 21 31 rfl)
    (by decide +kernel) (by decide) (by decide : 5 ≤ 5) true w.store
  have hrun := Session.run_numeral (s := s) (n := n) hroom rfl n.read?_text (v := .ofOdd 21 31 rfl)
    (by decide +kernel) (by decide) (by decide : 5 ≤ 5) true w.store
  rw [htext] at hx hrun
  have hrange : ∀ k : ℤ, 10 ^ (k - 1) ≤ |x.toRat| → |x.toRat| < 10 ^ k →
      k.natAbs + s.settings.digits ≤ 1000 := by
    intro k hlow hhigh
    have habs : |x.toRat| = 21 / 2 ^ 31 := by
      rw [Binary.toRat_eq]
      norm_num [abs_div]
    have hk : k = -8 := exponent_unique ⟨hlow, hhigh⟩ (by rw [habs]; norm_num)
    rw [hk]
    decide
  refine ⟨hw, hs, hroom, hprecision, hx, hrange, hrun.trans ?_,
    shown_numbers_read_back hw hs hroom hprecision hx hrange⟩
  exact (by decide +kernel : s.format ⟨.finite x, 5⟩ = .ok "-1.0e-8")

/-- A copy keeps the precision of what it is copied from, whatever its settings ask for. With two bits, ten
is read as eight. -/
theorem kept_precision_loses_a_digit :
    let w := (Workspace.empty 1000).performAll
      [.create "main" { precision := 2 }, .transfer "main" "copy" { digits := 1 }]
    let s : Session := ⟨⟨2, 1⟩, { digits := 1 }, 1000⟩
    w.Reachable ∧ w.find? "copy" = some s ∧ 10 ^ s.settings.digits.toNat ≤ 2 ^ (s.settings.bits - 1) ∧
      (s.executeText "12;" w.store).1.result = .ok (some ⟨.finite 12, 2⟩) ∧
      (10 ^ (2 - 1 : ℤ) ≤ |(12 : Dyadic).toRat| ∧ |(12 : Dyadic).toRat| < 10 ^ (2 : ℤ)) ∧
      (2 : ℤ).natAbs + s.settings.digits ≤ 400 ∧
      (s.run "12;" w.store).1.result = .ok "10" ∧
      (s.run ("10" ++ ";") (s.run "12;" w.store).2).1.result = .ok "8" := by
  intro w s
  have hw : w.Reachable := ((Workspace.Reachable.empty 1000).performed _).performed _
  have hs : w.find? "copy" = some s := by decide +kernel
  have hroom : 11 ≤ s.machine.readingCalls := by decide
  let twelve : Number.Numeral := ⟨false, [1, 2], [], none, List.cons_ne_nil _ _, by simp [AllDigits],
    Number.Numeral.short_none⟩
  let ten : Number.Numeral := ⟨false, [1, 0], [], none, List.cons_ne_nil _ _, by simp [AllDigits],
    Number.Numeral.short_none⟩
  have htwelve : String.ofList (signText false ++ twelve.text) ++ ";" = "12;" := by decide +kernel
  have hten : String.ofList (signText false ++ ten.text) ++ ";" = "10" ++ ";" := by decide +kernel
  have hvalue := Session.executeText_numeral (s := s) (n := twelve) hroom rfl twelve.read?_text (v := 12)
    (by decide +kernel) (by decide) (by decide : 2 ≤ 2) false w.store
  have hrun := Session.run_numeral (s := s) (n := twelve) hroom rfl twelve.read?_text (v := 12)
    (by decide +kernel) (by decide) (by decide : 2 ≤ 2) false w.store
  have hagain := Session.run_numeral (s := s) (n := ten) hroom rfl ten.read?_text (v := 8)
    (by decide +kernel) (by decide) (by decide : 1 ≤ 2) false (s.run "12;" w.store).2
  rw [htwelve] at hvalue hrun
  rw [hten] at hagain
  refine ⟨hw, hs, by decide, hvalue, ?_, by decide, hrun.trans ?_, hagain.trans ?_⟩
  · rw [show (12 : Dyadic).toRat = 12 from Dyadic.toRat_natCast 12]
    norm_num
  · exact (by decide +kernel : s.format ⟨.finite 12, 2⟩ = .ok "10")
  · exact (by decide +kernel : s.format ⟨.finite 8, 2⟩ = .ok "8")

end Reckoner
