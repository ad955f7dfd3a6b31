import Reckoner.Proofs.RenamedScopes

/-! Parameter names. Two definitions that differ in the name of a parameter leave stores whose frames correspond: the
frame that was bound in has the one function in place of the other, and all else is the same. So whatever a host does
later, it is answered alike. -/

namespace Reckoner
open Computation
open Lexical (Likeness)

namespace Lexical
variable {old new : String}

private theorem Lambda.Renamed.refl (f : Lambda) : f.Renamed old new false f := by
  cases f with
  | tagged text => exact .tagged text
  | abstraction params body =>
    have hrenamed : Lambda.Renamed old new false (.abstraction params body)
        (.abstraction (params.map id) (body.rename id)) := .abstraction false (.inl rfl) nofun nofun
    rw [List.map_id, body.rename_id] at hrenamed
    exact hrenamed

private theorem Lambda.Renamed.copyDepth_eq {inner : Bool} {f g : Lambda} (h : f.Renamed old new inner g) (c : Copier) :
    f.copyDepth c = g.copyDepth c := by
  cases h with
  | tagged text => rfl
  | abstraction inner hinner hparams hbody => rw [Lambda.copyDepth, Lambda.copyDepth, Expr.copyDepth_rename]

/-- Outside of the function, layers have the same values. -/
theorem Layer.renamed_false_iff {l m : Layer} :
    l.Renamed old new false m ↔ l.Corresponds (Lambda.Renamed old new false) m := by
  have hvalues : l.values.map (Prod.map (translated old new false) id) = l.values := List.map_id _
  exact ⟨fun h => ⟨hvalues.symm.trans h.values.symm, h.functions⟩,
    fun h => ⟨nofun, h.values.symm.trans hvalues.symm, h.functions⟩⟩

private theorem Scope.renamed_false_iff {s t : Scope} :
    s.Renamed old new false t ↔ s.Corresponds (Lambda.Renamed old new false) t := by
  rw [Scope.Renamed, Scope.Corresponds]
  generalize s.layers = ls, t.layers = ms
  constructor
  · intro h
    generalize hinner : false = inner at h
    induction h with
    | nil => exact .nil
    | cons hl hmode _ ih =>
      subst hinner
      obtain rfl := hmode.resolve_right fun hin => Bool.false_ne_true hin.1
      exact .cons (Layer.renamed_false_iff.1 hl) (ih rfl)
  · intro h
    induction h with
    | nil => exact .nil
    | cons hl _ ih => exact .cons (Layer.renamed_false_iff.2 hl) (.inl rfl) ih

/-- Scopes with the same functions, or with renamed ones in the place of some. -/
def renamed (old new : String) : Likeness where
  functions := Lambda.Renamed old new false
  failures := Failure.Renamed old new
  tagged := .tagged
  refl _ := .inl rfl
  copyDepth c _ _ h := h.copyDepth_eq c
  evaluated m s t h statement := by
    have hrun := renamed_run (renames_evaluateWithin m.precision m.evaluationCalls 0) (Scope.renamed_false_iff.2 h)
      statement nofun
    have hid : statement.rename (translated old new false) = statement := statement.rename_id
    rw [hid] at hrun
    exact hrun.mono fun _ _ ⟨hvalue, h⟩ => ⟨hvalue, Scope.renamed_false_iff.1 h⟩

end Lexical

/-- A definition takes effect only if its parameters differ and its name is new. -/
theorem Statement.of_evaluate_define {m : Machine} {i : Nat} {s : Store} {name : String} {params : List String}
    {body : Expr} {value : Option Value} (h : ((define name params body).evaluate m i s).1.result = .ok value) :
    firstRepeated? [] params = none ∧ Builtin.ofName? name = none ∧
      (s.frameAt i).functions.lookup name = none := by
  have hbind (h : ((do
      update (Store.bindFunction name (.closure name params body i) i)
      record (.defined name)
      return none : Computation (Option Value)) s).1.result = .ok value) :
      Builtin.ofName? name = none ∧ (s.frameAt i).functions.lookup name = none := by
    cases hbind : Store.bindFunction name (.closure name params body i) i s with
    | error e =>
      rw [bind_of_error (update_of_error hbind)] at h
      cases h
    | ok t =>
      obtain ⟨hbuiltin, hnew, -⟩ := Store.bindFunction_eq_ok_iff.1 hbind
      exact ⟨hbuiltin, hnew⟩
  rw [evaluate, run] at h
  cases hparams : firstRepeated? [] params with
  | some param =>
    rw [hparams] at h
    cases h
  | none =>
    rw [hparams] at h
    exact ⟨rfl, hbind h⟩

namespace Store
variable {L : Likeness} {s : Store} {i : Nat}

private theorem mirrors_self (hs : s.Linked) (hf : ∀ f, L.functions f f) :
    s.Mirrors L (fun a b => a = b ∧ a < s.size) s := by
  refine ⟨hs, hs, And.right, fun ⟨he, h⟩ => he ▸ h, fun ⟨he, _⟩ ⟨he', _⟩ => he.symm.trans he',
    fun ⟨he, _⟩ ⟨he', _⟩ => he.trans he'.symm, ?_, ?_⟩
  · rintro a _ ⟨rfl, -⟩
    exact .refl hf _
  · rintro a _ ⟨rfl, ha⟩
    cases hq : (s.frameAt a).parent with
    | none => exact .none
    | some q => exact .some ⟨rfl, Nat.lt_trans (parent_lt hq) ha⟩

/-- The frames of a store correspond to themselves when one or the other of two functions that are alike is bound. -/
theorem mirrors_bound (hs : s.Linked) (hf : ∀ f, L.functions f f) (hi : i < s.size) {name : String}
    (hbuiltin : Builtin.ofName? name = none) (hnew : (s.frameAt i).functions.lookup name = none)
    {params params' : List String} {body body' : Expr}
    (halike : L.functions (.abstraction params body) (.abstraction params' body')) :
    let bound (params : List String) (body : Expr) (frame : Frame) : Frame :=
      { frame with functions := (name, .closure name params body i) :: frame.functions }
    (s.rebind i (bound params body)).Mirrors L (fun a b => a = b ∧ a < s.size) (s.rebind i (bound params' body')) := by
  intro bound
  have hself := mirrors_self hs hf
  have hlinked (params : List String) (body : Expr) : (s.rebind i (bound params body)).Linked :=
    hs.bindFunction (bindFunction_eq_ok_iff.2 ⟨hbuiltin, hnew, rfl⟩)
  exact hself.rebind ⟨rfl, hi⟩ (hlinked params body) (hlinked params' body')
    ⟨rfl, .cons ⟨rfl, halike⟩ (hself.layer ⟨rfl, hi⟩).functions⟩

end Store

private theorem Contexts.execute_define (c : Contexts) (on : String) {name : String} {params : List String}
    (hdistinct : firstRepeated? [] params = none) (hbuiltin : Builtin.ofName? name = none)
    (hnew : (c.store.frameAt (c.place on)).functions.lookup name = none) (body : Expr) :
    c.execute on (.define name params body) = (⟨.ok none, [.defined name]⟩, { c with
      store := c.store.rebind (c.place on) fun frame =>
        { frame with functions := (name, .closure name params body (c.place on)) :: frame.functions } }) := by
  rw [execute_eq, Statement.evaluate, Statement.run_define hdistinct hbuiltin hnew]

/-- Parameter names make no difference. After whatever acts, a definition that succeeds also succeeds with another
name in the place of a parameter, throughout its body, if that name is no parameter and no name of a value in
the body. From there on, whatever is evaluated, bound, pushed and copied has the same answers, except that the other
name is reported as bound already where the parameter was. -/
theorem parameter_names_make_no_difference (stack p : Nat) (acts : List Contexts.Act) (on name : String)
    {params : List String} {body : Expr} {old new : String} (hold : old ∈ params) (hparams : new ∉ params)
    (hbody : new ∉ body.valueNames) :
    let c := ((Contexts.create stack p).performAll acts).2
    let first := c.execute on (.define name params body)
    let second := c.execute on (.define name (params.map (replaced old new)) (body.rename (replaced old new)))
    first.1.result = .ok none →
      second.1.result = .ok none ∧
        ∀ later, List.Forall₂ (Contexts.Answer.Corresponds (Failure.Renamed old new))
          (first.2.performAll later).1 (second.2.performAll later).1 := by
  intro c first second hfirst
  have h : c.Sound := Contexts.sound_reached stack p acts
  obtain ⟨hdistinct, hbuiltin, hnew⟩ := Statement.of_evaluate_define (m := c.machine on) hfirst
  have hdistinct' : firstRepeated? [] (params.map (replaced old new)) = none := by
    have hrepeated : firstRepeated? [] (params.map (translated old new true)) = _ :=
      firstRepeated?_translated (fun _ => List.not_mem_nil) fun _ => hparams
    exact hrepeated.trans (by rw [hdistinct]; rfl)
  have hfirst : first = _ := c.execute_define on hdistinct hbuiltin hnew body
  have hsecond : second = _ := c.execute_define on hdistinct' hbuiltin hnew (body.rename (replaced old new))
  have hmirrors : first.2.Mirrors (Lexical.renamed old new) (fun _ => True) second.2 := by
    rw [hfirst, hsecond]
    have halike := Store.mirrors_bound (L := Lexical.renamed old new) h.store.linked .refl (h.placed on) hbuiltin
      hnew (.abstraction true (.inr ⟨rfl, hold⟩) (fun _ => hparams) fun _ => hbody)
    exact ⟨rfl, _, halike, fun name _ => ⟨rfl, rfl, h.placed name⟩⟩
  exact ⟨by rw [hsecond], hmirrors.performAll⟩

/-- The other name is bound outside, where a function refers to it that the body calls. A local value that is
assigned twice is reported under it. -/
theorem renamed_parameter_hides_no_outer_value :
    let acts : List Contexts.Act := [⟨"root", .execute (.assign "b" (.number ⟨.one, 128⟩))⟩,
      ⟨"root", .execute (.define "h" [] (.symbol "b"))⟩]
    let body : Expr := .block [.define "g" ["a"] (.binary "/" (.call "h" []) (.symbol "a")),
      .assign "a" (.call "g" [.symbol "a"]), .assign "a" (.symbol "a")] (.symbol "a")
    let c := ((Contexts.create 1000 128).performAll acts).2
    let first := c.execute "root" (.define "f" ["a"] body)
    let second := c.execute "root" (.define "f" ["b"] (body.rename (replaced "a" "b")))
    let call : Statement := .expression (.call "f" [.number ⟨.one, 128⟩])
    "a" ∈ ["a"] ∧ "b" ∉ ["a"] ∧ "b" ∉ body.valueNames ∧ first.1.result = .ok none ∧
      (first.2.execute "root" call).1.result = .error (.error (.alreadyBound "a")) ∧
      (second.2.execute "root" call).1.result = .error (.error (.alreadyBound "b")) ∧
      second.1.result = .ok none ∧
        ∀ later, List.Forall₂ (Contexts.Answer.Corresponds (Failure.Renamed "a" "b"))
          (first.2.performAll later).1 (second.2.performAll later).1 := by
  intro acts body c first second call
  have hold : "a" ∈ ["a"] := by decide
  have hparams : "b" ∉ ["a"] := by decide
  have hbody : "b" ∉ body.valueNames := by decide
  have hfirst : first.1.result = .ok none := by decide +kernel
  exact ⟨hold, hparams, hbody, hfirst, by decide +kernel, by decide +kernel,
    parameter_names_make_no_difference 1000 128 acts "root" "f" hold hparams hbody hfirst⟩

end Reckoner
