import Reckoner.Proofs.OutlinedStatements
import Reckoner.Proofs.ParsedText

/-! Printed trees. A tree whose names are names and whose operators are the six known ones can be told from its
outline, but for numbers that are written alike; and a deeper outline is the same lines further to the right. -/

namespace Reckoner
open Text

mutual

/-- An expression with names that can be written and operators that there are; its numbers are any. -/
inductive Expr.WellNamed : Expr → Prop where
  | number (v : Value) : Expr.WellNamed (.number v)
  | symbol {name : String} (h : IsName name.toList) : Expr.WellNamed (.symbol name)
  | unary {e : Expr} (h : Expr.WellNamed e) : Expr.WellNamed (.unary negation e)
  | binary {op : String} {lhs rhs : Expr} (hop : op ∈ ["+", "-", "*", "/", "^"])
    (hl : Expr.WellNamed lhs) (hr : Expr.WellNamed rhs) : Expr.WellNamed (.binary op lhs rhs)
  | call {name : String} {args : List Expr} (hn : IsName name.toList)
    (h : ∀ e, e ∈ args → Expr.WellNamed e) : Expr.WellNamed (.call name args)
  | block {statements : List Statement} {final : Expr}
    (h : ∀ s, s ∈ statements → Statement.WellNamed s) (hf : Expr.WellNamed final) :
    Expr.WellNamed (.block statements final)

inductive Statement.WellNamed : Statement → Prop where
  | assign {name : String} {e : Expr} (hn : IsName name.toList) (h : Expr.WellNamed e) :
    Statement.WellNamed (.assign name e)
  | define {name : String} {params : List String} {e : Expr} (hn : IsName name.toList)
    (hp : ∀ param, param ∈ params → IsName param.toList) (h : Expr.WellNamed e) :
    Statement.WellNamed (.define name params e)
  | expression {e : Expr} (h : Expr.WellNamed e) : Statement.WellNamed (.expression e)

end

mutual

theorem Expr.Regular.wellNamed {e : Expr} : e.Regular → e.WellNamed
  | .number _ _ => .number _
  | .symbol h => .symbol h
  | .unary h => .unary h.wellNamed
  | .binary hop hl hr => .binary hop hl.wellNamed hr.wellNamed
  | .call hn h => .call hn fun e he => (h e he).wellNamed
  | .block h hf => .block (fun s hs => (h s hs).wellNamed) hf.wellNamed

theorem Statement.Regular.wellNamed {s : Statement} : s.Regular → s.WellNamed
  | .assign hn h => .assign hn h.wellNamed
  | .define hn hp h => .define hn hp h.wellNamed
  | .expression h => .expression h.wellNamed

end

mutual

/-- The same expression, but for numbers in it that are written alike. -/
inductive Expr.Alike : Expr → Expr → Prop where
  | number {v w : Value} (h : v.plainText = w.plainText) : Expr.Alike (.number v) (.number w)
  | symbol (name : String) : Expr.Alike (.symbol name) (.symbol name)
  | unary (op : String) {e f : Expr} (h : Expr.Alike e f) : Expr.Alike (.unary op e) (.unary op f)
  | binary (op : String) {l l' r r' : Expr} (hl : Expr.Alike l l') (hr : Expr.Alike r r') :
    Expr.Alike (.binary op l r) (.binary op l' r')
  | call (name : String) {args args' : List Expr} (h : List.Forall₂ Expr.Alike args args') :
    Expr.Alike (.call name args) (.call name args')
  | block {statements statements' : List Statement} {final final' : Expr}
    (h : List.Forall₂ Statement.Alike statements statements') (hf : Expr.Alike final final') :
    Expr.Alike (.block statements final) (.block statements' final')

inductive Statement.Alike : Statement → Statement → Prop where
  | assign (name : String) {e f : Expr} (h : Expr.Alike e f) : Statement.Alike (.assign name e) (.assign name f)
  | define (name : String) (params : List String) {e f : Expr} (h : Expr.Alike e f) :
    Statement.Alike (.define name params e) (.define name params f)
  | expression {e f : Expr} (h : Expr.Alike e f) : Statement.Alike (.expression e) (.expression f)

end

section Texts

theorem IsName.lineFeed_not_mem {name : String} (h : IsName name.toList) : '\n' ∉ name.toList :=
  fun hmem => absurd (h.isNameChar hmem) (by decide)

/-- The character of a digit comes after the line feed, however large the digit is. -/
theorem Decimal.digitChar_ofNat_ne_lineFeed (n : Nat) : digitChar (Int.ofNat n) ≠ '\n' := by
  have hcode : (Int.ofNat n + '0'.toNat).toNat = n + 48 := by
    change ((n : Int) + (48 : Nat)).toNat = n + 48
    omega
  rw [digitChar, hcode]
  by_cases hvalid : (n + 48).isValidChar
  · intro h
    have : n + 48 = 10 := by
      rw [Char.ofNat, dif_pos hvalid] at h
      exact congrArg Char.toNat h
    omega
  · rw [Char.ofNat, dif_neg hvalid]
    decide

namespace Number

theorem lineFeed_not_mem_naturalText (ds : List Nat) : '\n' ∉ naturalText ds := by
  rw [naturalText, Decimal.digitsText, List.map_map]
  intro hmem
  obtain ⟨n, -, hn⟩ := List.mem_map.1 hmem
  exact Decimal.digitChar_ofNat_ne_lineFeed n hn

theorem lineFeed_not_mem_fixedText (s : Significant) : '\n' ∉ fixedText s := by
  have hsplit (whole fraction : List Nat) : '\n' ∉
      naturalText whole ++ '.' :: (if fraction.isEmpty then ['0'] else naturalText fraction) := by
    split <;> simp [lineFeed_not_mem_naturalText]
  rw [fixedText]
  split
  · exact hsplit _ _
  · exact hsplit _ _

theorem lineFeed_not_mem_exponentText (s : Significant) : '\n' ∉ exponentText s := by
  rw [exponentText]
  split <;> split <;> simp [lineFeed_not_mem_naturalText, lineFeed_not_mem_toDigits, List.mem_replicate]

theorem lineFeed_not_mem_plainText (p : Nat) (v : Number) : '\n' ∉ (v.plainText p).toList := by
  have hbody (s : Significant) (c : Prop) [Decidable c] :
      '\n' ∉ if c then fixedText s else exponentText s := by
    split
    · exact lineFeed_not_mem_fixedText s
    · exact lineFeed_not_mem_exponentText s
  cases v with
  | undefined =>
    rw [plainText]
    decide
  | infinite negative =>
    rw [plainText]
    cases negative <;> decide
  | finite x =>
    simp only [plainText]
    split
    · split <;> decide
    · rw [String.toList_ofList]
      split
      · exact List.not_mem_cons_of_ne_of_not_mem (by decide) (hbody _ _)
      · exact hbody _ _

end Number

end Texts

section Signatures
variable {names names' : List String}

/-- Names behind others, each with a comma and a space in front. -/
def furtherParams (names : List String) : List Char :=
  names.flatMap fun name => ',' :: ' ' :: name.toList

/-- The names between the parentheses of a signature. -/
def paramsText : List String → List Char
  | [] => []
  | name :: names => name.toList ++ furtherParams names

theorem toList_intercalate_comma (names : List String) : (", ".intercalate names).toList = paramsText names := by
  induction names with
  | nil => rfl
  | cons name names ih =>
    cases names with
    | nil => simp [paramsText, furtherParams]
    | cons next names =>
      rw [String.intercalate_cons_cons, String.toList_append, String.toList_append, ih, List.append_assoc]
      rfl

theorem toList_signature (name : String) (params : List String) :
    (signature name params).toList = name.toList ++ '(' :: (paramsText params ++ [')']) := by
  simp only [signature, String.toList_append, toList_intercalate_comma, List.append_assoc]
  rfl

theorem stops_furtherParams (names : List String) : Stops isNameChar (furtherParams names) := by
  cases names with
  | nil => nofun
  | cons name names =>
    rintro _ ⟨⟩
    decide

theorem name_append_inj {name name' : String} {rest rest' : List Char} (h : IsName name.toList)
    (h' : IsName name'.toList) (hr : Stops isNameChar rest) (hr' : Stops isNameChar rest')
    (he : name.toList ++ rest = name'.toList ++ rest') : name = name' ∧ rest = rest' := by
  have hsplit := congrArg splitName? he
  rw [splitName?_append h hr, splitName?_append h' hr'] at hsplit
  obtain ⟨hname, hrest⟩ := Prod.mk.inj (Option.some.inj hsplit)
  exact ⟨String.toList_inj.1 hname, hrest⟩

theorem furtherParams_inj (h : ∀ name, name ∈ names → IsName name.toList)
    (h' : ∀ name, name ∈ names' → IsName name.toList) (he : furtherParams names = furtherParams names') :
    names = names' := by
  induction names generalizing names' with
  | nil =>
    cases names' with
    | nil => rfl
    | cons name' names' => cases he
  | cons name names ih =>
    cases names' with
    | nil => cases he
    | cons name' names' =>
      obtain ⟨hname, hnames⟩ := List.forall_mem_cons.1 h
      obtain ⟨hname', hnames'⟩ := List.forall_mem_cons.1 h'
      obtain ⟨rfl, hrest⟩ := name_append_inj hname hname' (stops_furtherParams names) (stops_furtherParams names')
        (List.cons.inj (List.cons.inj he).2).2
      rw [ih hnames hnames' hrest]

theorem paramsText_inj (h : ∀ name, name ∈ names → IsName name.toList)
    (h' : ∀ name, name ∈ names' → IsName name.toList) (he : paramsText names = paramsText names') :
    names = names' := by
  -- a comma in front makes a list of names the rest of another
  cases names with
  | nil =>
    cases names' with
    | nil => rfl
    | cons name' names' =>
      obtain ⟨c, cs, hname, -⟩ := (List.forall_mem_cons.1 h').1
      rw [paramsText, paramsText, hname] at he
      cases he
  | cons name names =>
    cases names' with
    | nil =>
      obtain ⟨c, cs, hname, -⟩ := (List.forall_mem_cons.1 h).1
      rw [paramsText, paramsText, hname] at he
      cases he
    | cons name' names' => exact furtherParams_inj h h' (congrArg (',' :: ' ' :: ·) he)

theorem signature_inj {name name' : String} (h : IsName name.toList) (h' : IsName name'.toList)
    (hp : ∀ param, param ∈ names → IsName param.toList) (hp' : ∀ param, param ∈ names' → IsName param.toList)
    (he : signature name names = signature name' names') : name = name' ∧ names = names' := by
  have hparenthesis (rest : List Char) : Stops isNameChar ('(' :: rest) := by
    rintro _ ⟨⟩
    decide
  have hchars := congrArg String.toList he
  rw [toList_signature, toList_signature] at hchars
  obtain ⟨hname, hrest⟩ := name_append_inj h h' (hparenthesis _) (hparenthesis _) hchars
  exact ⟨hname, paramsText_inj hp hp' (List.append_cancel_right (List.cons.inj hrest).2)⟩

theorem lineFeed_not_mem_signature {name : String} (h : IsName name.toList)
    (hp : ∀ param, param ∈ names → IsName param.toList) : '\n' ∉ (signature name names).toList := by
  have hfurther {names : List String} (hp : ∀ param, param ∈ names → IsName param.toList) :
      '\n' ∉ furtherParams names := by
    intro hmem
    obtain ⟨param, hparam, hc⟩ := List.mem_flatMap.1 hmem
    exact (hp param hparam).lineFeed_not_mem (by simpa using hc)
  have hlisted : '\n' ∉ paramsText names := by
    cases names with
    | nil => exact List.not_mem_nil
    | cons param names =>
      obtain ⟨hparam, hparams⟩ := List.forall_mem_cons.1 hp
      rw [paramsText, List.mem_append, not_or]
      exact ⟨hparam.lineFeed_not_mem, hfurther hparams⟩
  rw [toList_signature]
  simp [h.lineFeed_not_mem, hlisted]

end Signatures

section Labels

theorem labelledExprs_eq_map (es : List Expr) : labelledExprs es = es.map Expr.labelled := by
  induction es with
  | nil => rfl
  | cons e es ih => rw [labelledExprs, ih, List.map_cons]

theorem labelledStatements_eq_map (ss : List Statement) :
    labelledStatements ss = ss.map Statement.labelled := by
  induction ss with
  | nil => rfl
  | cons s ss ih => rw [labelledStatements, ih, List.map_cons]

theorem Label.legible_of_none {kind : String} (h : kind ∈ kinds) : (Label.mk kind none).Legible :=
  ⟨h, nofun⟩

theorem Label.legible_of_some {kind inside : String} (h : kind ∈ kinds) (hi : '\n' ∉ inside.toList) :
    (Label.mk kind (some inside)).Legible :=
  ⟨h, fun he => Option.some.inj he ▸ hi⟩

mutual

theorem Expr.WellNamed.legible {e : Expr} : e.WellNamed → e.labelled.Legible
  | .number v =>
    Labelled.legible_node (Label.legible_of_some (by decide) (v.number.lineFeed_not_mem_plainText v.precision)) nofun
  | .symbol h => Labelled.legible_node (Label.legible_of_some (by decide) h.lineFeed_not_mem) nofun
  | .unary h =>
    Labelled.legible_node (Label.legible_of_some (by decide) (by decide)) (List.forall_mem_singleton.2 h.legible)
  | .binary hop hl hr => by
    refine Labelled.legible_node (Label.legible_of_some (by decide) ?_)
      (List.forall_mem_cons.2 ⟨hl.legible, List.forall_mem_singleton.2 hr.legible⟩)
    have hall : ∀ op, op ∈ ["+", "-", "*", "/", "^"] → '\n' ∉ op.toList := by decide
    exact hall _ hop
  | .call hn h => by
    refine Labelled.legible_node (Label.legible_of_some (by decide) hn.lineFeed_not_mem) fun t ht => ?_
    rw [labelledExprs_eq_map] at ht
    obtain ⟨e, he, rfl⟩ := List.mem_map.1 ht
    exact (h e he).legible
  | .block h hf => by
    refine Labelled.legible_node (Label.legible_of_none (by decide))
      (List.forall_mem_append.2 ⟨fun t ht => ?_, List.forall_mem_singleton.2 hf.legible⟩)
    rw [labelledStatements_eq_map] at ht
    obtain ⟨s, hs, rfl⟩ := List.mem_map.1 ht
    exact (h s hs).legible

theorem Statement.WellNamed.legible {s : Statement} : s.WellNamed → s.labelled.Legible
  | .assign hn h =>
    Labelled.legible_node (Label.legible_of_some (by decide) hn.lineFeed_not_mem)
      (List.forall_mem_singleton.2 h.legible)
  | .define hn hp h =>
    Labelled.legible_node (Label.legible_of_some (by decide) (lineFeed_not_mem_signature hn hp))
      (List.forall_mem_singleton.2 h.legible)
  | .expression h =>
    Labelled.legible_node (Label.legible_of_none (by decide)) (List.forall_mem_singleton.2 h.legible)

end

theorem forall₂_of_map_eq {α β : Type} {R : α → α → Prop} {f : α → β} {xs ys : List α}
    (h : ∀ x, x ∈ xs → ∀ y, y ∈ ys → f x = f y → R x y) (he : xs.map f = ys.map f) : List.Forall₂ R xs ys := by
  induction xs generalizing ys with
  | nil =>
    rw [List.map_eq_nil_iff.1 he.symm]
    exact .nil
  | cons x xs ih =>
    obtain ⟨y, ys, rfl, hxy, hrest⟩ := List.map_eq_cons_iff.1 he.symm
    refine .cons (h x List.mem_cons_self y List.mem_cons_self hxy.symm) (ih ?_ hrest.symm)
    exact fun x hx y hy => h x (List.mem_cons_of_mem _ hx) y (List.mem_cons_of_mem _ hy)

mutual

/-- Children are compared in pairs, and the kinds tell nodes of different kinds apart. -/
theorem Expr.WellNamed.alike {e f : Expr} : e.WellNamed → f.WellNamed → e.labelled = f.labelled → e.Alike f
  | .number v, h', he => by
    cases h' with
    | number w => exact .number (by simpa [Expr.labelled] using he)
    | _ => simp [Expr.labelled] at he
  | @Expr.WellNamed.symbol name _, h', he => by
    cases h' with
    | @symbol name' =>
      obtain rfl : name = name' := by simpa [Expr.labelled] using he
      exact .symbol name
    | _ => simp [Expr.labelled] at he
  | .unary h, h', he => by
    cases h' with
    | unary h' => exact .unary negation (h.alike h' (by simpa [Expr.labelled] using he))
    | _ => simp [Expr.labelled] at he
  | @Expr.WellNamed.binary op l r _ hl hr, h', he => by
    cases h' with
    | @binary op' l' r' _ hl' hr' =>
      obtain ⟨rfl, hel, her⟩ : op = op' ∧ l.labelled = l'.labelled ∧ r.labelled = r'.labelled := by
        simpa [Expr.labelled] using he
      exact .binary op (hl.alike hl' hel) (hr.alike hr' her)
    | _ => simp [Expr.labelled] at he
  | @Expr.WellNamed.call name args _ h, h', he => by
    cases h' with
    | @call name' args' _ h' =>
      obtain ⟨rfl, hargs⟩ : name = name' ∧ args.map Expr.labelled = args'.map Expr.labelled := by
        simpa [Expr.labelled, labelledExprs_eq_map] using he
      exact .call name (forall₂_of_map_eq (fun x hx y hy => (h x hx).alike (h' y hy)) hargs)
    | _ => simp [Expr.labelled] at he
  | @Expr.WellNamed.block ss e h hf, h', he => by
    cases h' with
    | @block ts f h' hf' =>
      obtain ⟨hstatements, hfinal⟩ : ss.map Statement.labelled = ts.map Statement.labelled ∧
          e.labelled = f.labelled := by
        simpa [Expr.labelled, labelledStatements_eq_map] using he
      exact .block (forall₂_of_map_eq (fun x hx y hy => (h x hx).alike (h' y hy)) hstatements)
        (hf.alike hf' hfinal)
    | _ => simp [Expr.labelled] at he

theorem Statement.WellNamed.alike {s t : Statement} :
    s.WellNamed → t.WellNamed → s.labelled = t.labelled → s.Alike t
  | @Statement.WellNamed.assign name e _ h, h', he => by
    cases h' with
    | @assign name' f _ h' =>
      obtain ⟨rfl, hvalue⟩ : name = name' ∧ e.labelled = f.labelled := by
        simpa [Statement.labelled] using he
      exact .assign name (h.alike h' hvalue)
    | _ => simp [Statement.labelled] at he
  | @Statement.WellNamed.define name params e hn hp h, h', he => by
    cases h' with
    | @define name' params' f hn' hp' h' =>
      obtain ⟨hsignature, hbody⟩ : signature name params = signature name' params' ∧
          e.labelled = f.labelled := by
        simpa [Statement.labelled] using he
      obtain ⟨rfl, rfl⟩ := signature_inj hn hn' hp hp' hsignature
      exact .define name params (h.alike h' hbody)
    | _ => simp [Statement.labelled] at he
  | .expression h, h', he => by
    cases h' with
    | expression h' => exact .expression (h.alike h' (by simpa [Statement.labelled] using he))
    | _ => simp [Statement.labelled] at he

end

mutual

theorem Expr.Alike.labelled_eq : ∀ {e f : Expr}, e.Alike f → e.labelled = f.labelled
  | .number _, _, .number h => by rw [Expr.labelled, Expr.labelled, h]
  | .symbol _, _, .symbol _ => rfl
  | .unary _ _, _, .unary _ h => by rw [Expr.labelled, Expr.labelled, h.labelled_eq]
  | .binary _ _ _, _, .binary _ hl hr => by
    rw [Expr.labelled, Expr.labelled, hl.labelled_eq, hr.labelled_eq]
  | .call _ _, _, .call _ h => by rw [Expr.labelled, Expr.labelled, labelledExprs_eq_of_alike h]
  | .block _ _, _, .block h hf => by
    rw [Expr.labelled, Expr.labelled, labelledStatements_eq_of_alike h, hf.labelled_eq]

theorem Statement.Alike.labelled_eq : ∀ {s t : Statement}, s.Alike t → s.labelled = t.labelled
  | .assign _ _, _, .assign _ h => by rw [Statement.labelled, Statement.labelled, h.labelled_eq]
  | .define _ _ _, _, .define _ _ h => by rw [Statement.labelled, Statement.labelled, h.labelled_eq]
  | .expression _, _, .expression h => by rw [Statement.labelled, Statement.labelled, h.labelled_eq]

theorem labelledExprs_eq_of_alike : ∀ {es fs : List Expr}, List.Forall₂ Expr.Alike es fs →
    labelledExprs es = labelledExprs fs
  | [], _, .nil => rfl
  | _ :: _, _, .cons h hs => by
    rw [labelledExprs, labelledExprs, h.labelled_eq, labelledExprs_eq_of_alike hs]

theorem labelledStatements_eq_of_alike : ∀ {ss ts : List Statement}, List.Forall₂ Statement.Alike ss ts →
    labelledStatements ss = labelledStatements ts
  | [], _, .nil => rfl
  | _ :: _, _, .cons h hs => by
    rw [labelledStatements, labelledStatements, h.labelled_eq, labelledStatements_eq_of_alike hs]

end

end Labels

/-- Parsed statements have names that can be written and operators that there are. Of such statements two, with
numbers of whatever contexts, have the same outline, at whatever depth, just where they are the same but for numbers
that are written alike; and an outline at a depth has the lines of the outline at the margin, each with two
spaces for each level in front. -/
theorem outlines_identify_statements :
    (∀ m source s, parseStatement m source = .ok s → s.WellNamed) ∧
    (∀ m source ss, parseProgram m source = .ok ss → ∀ s, s ∈ ss → s.WellNamed) ∧
    (∀ s t : Statement, s.WellNamed → t.WellNamed → ∀ k : Nat, s.outline k = t.outline k ↔ s.Alike t) ∧
    ∀ s : Statement, s.WellNamed → ∀ k : Nat, ∃ ls : List (List Char),
      lines (s.outline 0).toList = ls ++ [[]] ∧
      lines (s.outline k).toList = ls.map (List.replicate (2 * k) ' ' ++ ·) ++ [[]] := by
  refine ⟨fun m source s h => (regular_of_parseStatement h).wellNamed,
    fun m source ss h s hs => (regular_of_parseProgram h s hs).wellNamed,
    fun s t hs ht k => ⟨fun h => ?_, fun h => ?_⟩, fun s hs k => ?_⟩
  · have hrows : rowsText (s.labelled.rows k) = rowsText (t.labelled.rows k) := by
      rw [← Statement.toList_outline, ← Statement.toList_outline, h]
    exact hs.alike ht (hs.legible.eq_of_rowsText_eq ht.legible hrows)
  · rw [← String.toList_inj, Statement.toList_outline, Statement.toList_outline, h.labelled_eq]
  · refine ⟨(s.labelled.rows 0).map rowLine, ?_, ?_⟩
    · rw [← Int.natCast_zero, Statement.toList_outline, lines_rowsText (hs.legible 0)]
    · rw [Statement.toList_outline, hs.legible.lines_eq]

/-- Whether `b` is given to `g` or to `f` is seen in the outlines of `f(g(a), b)` and `f(g(a, b))`. -/
theorem nesting_is_seen_in_outlines :
    parseStatement ⟨53, 1000⟩ "a;" = .ok (.expression (.symbol "a")) ∧ (Statement.expression (.symbol "a")).WellNamed ∧
    (Statement.expression (.call "f" [.call "g" [.symbol "a"], .symbol "b"])).outline 0 ≠
      (Statement.expression (.call "f" [.call "g" [.symbol "a", .symbol "b"]])).outline 0 ∧
    ∃ ls : List (List Char),
      lines ((Statement.expression (.symbol "a")).outline 0).toList = ls ++ [[]] ∧
      lines ((Statement.expression (.symbol "a")).outline (1 : Nat)).toList =
        ls.map (List.replicate (2 * 1) ' ' ++ ·) ++ [[]] := by
  have hparse : parseStatement ⟨53, 1000⟩ "a;" = .ok (.expression (.symbol "a")) := rfl
  have hname {name : String} {c : Char} (h : name.toList = [c]) (hc : isNameStart c = true) : IsName name.toList :=
    h ▸ isName_singleton hc
  have hf : IsName "f".toList := hname rfl (by decide)
  have hg : IsName "g".toList := hname rfl (by decide)
  have ha : (Expr.symbol "a").WellNamed := .symbol (hname rfl (by decide))
  have hb : (Expr.symbol "b").WellNamed := .symbol (hname rfl (by decide))
  have houter : (Statement.expression (.call "f" [.call "g" [.symbol "a"], .symbol "b"])).WellNamed :=
    .expression (.call hf (List.forall_mem_cons.2
      ⟨.call hg (List.forall_mem_singleton.2 ha), List.forall_mem_singleton.2 hb⟩))
  have hinner : (Statement.expression (.call "f" [.call "g" [.symbol "a", .symbol "b"]])).WellNamed :=
    .expression (.call hf (List.forall_mem_singleton.2
      (.call hg (List.forall_mem_cons.2 ⟨ha, List.forall_mem_singleton.2 hb⟩))))
  obtain ⟨hparsed, -, hsame, hlines⟩ := outlines_identify_statements
  refine ⟨hparse, hparsed ⟨53, 1000⟩ "a;" _ hparse, fun he => ?_, hlines _ (.expression ha) 1⟩
  match (hsame _ _ houter hinner 0).1 he with
  | .expression (.call _ (.cons _ hrest)) => cases hrest

end Reckoner
