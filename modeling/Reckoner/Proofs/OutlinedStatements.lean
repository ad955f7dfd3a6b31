import Reckoner.Proofs.DiagnosticPlaces
import Reckoner.Proofs.IndentedTrees
import Reckoner.Syntax.Outline

/-! Outlines as texts. An outline is the rows of a tree of labels, and a label tells the kind of a node and the
names in it. So an outline determines the statement, but for numbers of which it shows no more than the text. -/

namespace Reckoner
open Text

/-- What an outline writes for a node: its kind, and in parentheses what else there is. -/
structure Label where
  kind : String
  inside : Option String := none

namespace Label

def text (l : Label) : String :=
  match l.inside with
  | none => l.kind
  | some inside => l.kind ++ "(" ++ inside ++ ")"

def kinds : List String :=
  ["Num", "Symbol", "UnaryExpr", "BinaryExpr", "FunctionCall", "BlockExpr", "Assignment",
    "FunctionDefinition", "ExpressionStatement"]

/-- A label of a statement that can be read off its line. -/
structure Legible (l : Label) : Prop where
  kind : l.kind ∈ kinds
  inside {inside : String} (h : l.inside = some inside) : '\n' ∉ inside.toList

variable {l l' : Label}

theorem Legible.letters (h : l.Legible) : l.kind.toList ≠ [] ∧ ∀ c, c ∈ l.kind.toList → c.isAlpha = true := by
  have hall : ∀ kind, kind ∈ kinds → kind.toList ≠ [] ∧ kind.toList.all Char.isAlpha = true := by
    decide +kernel
  exact ⟨(hall _ h.kind).1, List.all_eq_true.1 (hall _ h.kind).2⟩

/-- What stands behind the kind. -/
def tail (l : Label) : List Char :=
  match l.inside with
  | none => []
  | some inside => '(' :: inside.toList ++ [')']

theorem toList_text (l : Label) : l.text.toList = l.kind.toList ++ l.tail := by
  rcases l with ⟨kind, _ | inside⟩ <;> simp [text, tail]

private theorem stops_tail (l : Label) : Stops Char.isAlpha l.tail := by
  rcases l with ⟨kind, _ | inside⟩
  · nofun
  · rintro _ ⟨⟩
    decide

private theorem Legible.lineFeed_not_mem (h : l.Legible) : '\n' ∉ l.text.toList := by
  rw [toList_text, List.mem_append, not_or]
  refine ⟨fun hmem => ?_, ?_⟩
  · have := h.letters.2 '\n' hmem
    cases this
  · rcases l with ⟨kind, _ | inside⟩
    · exact List.not_mem_nil
    · simpa [tail] using h.inside rfl

private theorem Legible.stops (h : l.Legible) : Stops (· == ' ') l.text.toList := by
  obtain ⟨hne, hletters⟩ := h.letters
  obtain ⟨c, cs, hcs⟩ := List.exists_cons_of_ne_nil hne
  rw [toList_text, hcs]
  rintro _ ⟨⟩
  have hc := hletters c (hcs ▸ List.mem_cons_self)
  refine beq_eq_false_iff_ne.2 ?_
  rintro rfl
  cases hc

/-- The letters at its start give the kind. -/
theorem Legible.text_inj (h : l.Legible) (h' : l'.Legible) (he : l.text = l'.text) : l = l' := by
  have hchars : l.kind.toList ++ l.tail = l'.kind.toList ++ l'.tail := by
    rw [← toList_text, ← toList_text, he]
  have hkind := congrArg (List.takeWhile Char.isAlpha) hchars
  rw [takeWhile_append_of_stops h.letters.2 l.stops_tail,
    takeWhile_append_of_stops h'.letters.2 l'.stops_tail] at hkind
  rw [hkind] at hchars
  have htail := List.append_cancel_left hchars
  have hkind := String.toList_inj.1 hkind
  rcases l with ⟨kind, _ | inside⟩ <;> rcases l' with ⟨kind', _ | inside'⟩ <;> simp_all [tail, String.toList_inj]

end Label

mutual

/-- The labels of an expression. -/
def Expr.labelled : Expr → Labelled Label
  | .number value => .node ⟨"Num", value.plainText⟩ []
  | .symbol name => .node ⟨"Symbol", name⟩ []
  | .unary op e => .node ⟨"UnaryExpr", op⟩ [e.labelled]
  | .binary op l r => .node ⟨"BinaryExpr", op⟩ [l.labelled, r.labelled]
  | .call name args => .node ⟨"FunctionCall", name⟩ (labelledExprs args)
  | .block statements final =>
    .node ⟨"BlockExpr", none⟩ (labelledStatements statements ++ [final.labelled])
  | .misplaced s => s.labelled
  | .foreign text => .node ⟨"UNKNOWN", Text.quoted text⟩ []

def Statement.labelled : Statement → Labelled Label
  | .assign name e => .node ⟨"Assignment", name⟩ [e.labelled]
  | .define name params e => .node ⟨"FunctionDefinition", signature name params⟩ [e.labelled]
  | .expression e => .node ⟨"ExpressionStatement", none⟩ [e.labelled]
  | .misplaced e => e.labelled

def labelledExprs : List Expr → List (Labelled Label)
  | [] => []
  | e :: es => e.labelled :: labelledExprs es

def labelledStatements : List Statement → List (Labelled Label)
  | [] => []
  | s :: ss => s.labelled :: labelledStatements ss

end

/-- The line of a row, indented by two spaces for each level. -/
def rowLine (row : Nat × Label) : List Char :=
  List.replicate (2 * row.1) ' ' ++ row.2.text.toList

/-- Lines with a line feed behind each. -/
def rowsText (rows : List (Nat × Label)) : List Char :=
  rows.flatMap fun row => rowLine row ++ ['\n']

theorem toList_outlineLine (depth : Nat) (l : Label) :
    (outlineLine depth l.text).toList = rowLine (depth, l) ++ ['\n'] := by
  have hwidth : (2 * (depth : Int)).toNat = 2 * depth := by omega
  simp [outlineLine, rowLine, hwidth]

theorem toList_outlineLine_append (depth : Nat) (l : Label) {rest : String} {ts : List (Labelled Label)}
    (h : rest.toList = rowsText (Labelled.rowsOfAll (depth + 1) ts)) :
    (outlineLine depth l.text ++ rest).toList = rowsText ((Labelled.node l ts).rows depth) := by
  rw [String.toList_append, toList_outlineLine, h, Labelled.rows, rowsText, rowsText, List.flatMap_cons]

theorem toList_outlineLine_leaf (depth : Nat) (l : Label) :
    (outlineLine depth l.text).toList = rowsText ((Labelled.node l []).rows depth) := by
  rw [toList_outlineLine, Labelled.rows, Labelled.rowsOfAll, rowsText, List.flatMap_singleton]

theorem toList_outlineLine_one (depth : Nat) (l : Label) {rest : String} {t : Labelled Label}
    (h : rest.toList = rowsText (t.rows (depth + 1))) :
    (outlineLine depth l.text ++ rest).toList = rowsText ((Labelled.node l [t]).rows depth) := by
  refine toList_outlineLine_append depth l ?_
  rw [Labelled.rowsOfAll, Labelled.rowsOfAll, List.append_nil, h]

theorem rowsText_append (rows rows' : List (Nat × Label)) :
    rowsText (rows ++ rows') = rowsText rows ++ rowsText rows' :=
  List.flatMap_append

theorem rowsText_rowsOfAll_append (depth : Nat) (ts us : List (Labelled Label)) :
    rowsText (Labelled.rowsOfAll depth (ts ++ us)) =
      rowsText (Labelled.rowsOfAll depth ts) ++ rowsText (Labelled.rowsOfAll depth us) := by
  induction ts with
  | nil => rfl
  | cons t ts ih =>
    rw [List.cons_append, Labelled.rowsOfAll, Labelled.rowsOfAll, rowsText_append, rowsText_append, ih,
      List.append_assoc]

mutual

theorem Expr.toList_outline : ∀ (e : Expr) (depth : Nat),
    (e.outline depth).toList = rowsText (e.labelled.rows depth)
  | .number value, depth => toList_outlineLine_leaf depth ⟨"Num", value.plainText⟩
  | .symbol name, depth => toList_outlineLine_leaf depth ⟨"Symbol", name⟩
  | .unary op e, depth => toList_outlineLine_one depth ⟨"UnaryExpr", op⟩ (Expr.toList_outline e (depth + 1))
  | .binary op l r, depth => by
    rw [Expr.outline, String.append_assoc]
    refine toList_outlineLine_append depth ⟨"BinaryExpr", op⟩ ?_
    rw [Labelled.rowsOfAll, Labelled.rowsOfAll, Labelled.rowsOfAll, List.append_nil, rowsText_append,
      String.toList_append]
    exact congrArg₂ (· ++ ·) (Expr.toList_outline l (depth + 1)) (Expr.toList_outline r (depth + 1))
  | .call name args, depth =>
    toList_outlineLine_append depth ⟨"FunctionCall", name⟩ (toList_outlineExprs args (depth + 1))
  | .block statements final, depth => by
    -- the expression that gives the value is the last child
    rw [Expr.outline, String.append_assoc]
    refine toList_outlineLine_append depth ⟨"BlockExpr", none⟩ ?_
    rw [rowsText_rowsOfAll_append, String.toList_append]
    refine congrArg₂ (· ++ ·) (toList_outlineStatements statements (depth + 1)) ?_
    rw [Labelled.rowsOfAll, Labelled.rowsOfAll, List.append_nil]
    exact Expr.toList_outline final (depth + 1)
  | .misplaced s, depth => Statement.toList_outline s depth
  | .foreign text, depth => toList_outlineLine_leaf depth ⟨"UNKNOWN", Text.quoted text⟩

theorem Statement.toList_outline : ∀ (s : Statement) (depth : Nat),
    (s.outline depth).toList = rowsText (s.labelled.rows depth)
  | .assign name e, depth =>
    toList_outlineLine_one depth ⟨"Assignment", name⟩ (Expr.toList_outline e (depth + 1))
  | .define name params e, depth =>
    toList_outlineLine_one depth ⟨"FunctionDefinition", signature name params⟩
      (Expr.toList_outline e (depth + 1))
  | .expression e, depth =>
    toList_outlineLine_one depth ⟨"ExpressionStatement", none⟩ (Expr.toList_outline e (depth + 1))
  | .misplaced e, depth => Expr.toList_outline e depth

theorem toList_outlineExprs : ∀ (es : List Expr) (depth : Nat),
    (outlineExprs depth es).toList = rowsText (Labelled.rowsOfAll depth (labelledExprs es))
  | [], _ => rfl
  | e :: es, depth => by
    rw [outlineExprs, labelledExprs, Labelled.rowsOfAll, rowsText_append, String.toList_append,
      Expr.toList_outline e, toList_outlineExprs es]

theorem toList_outlineStatements : ∀ (ss : List Statement) (depth : Nat),
    (outlineStatements depth ss).toList = rowsText (Labelled.rowsOfAll depth (labelledStatements ss))
  | [], _ => rfl
  | s :: ss, depth => by
    rw [outlineStatements, labelledStatements, Labelled.rowsOfAll, rowsText_append, String.toList_append,
      Statement.toList_outline s, toList_outlineStatements ss]

end

section Lines
variable {row row' : Nat × Label} {rows rows' : List (Nat × Label)}

theorem rowLine_add (k : Nat) (row : Nat × Label) :
    rowLine (k + row.1, row.2) = List.replicate (2 * k) ' ' ++ rowLine row := by
  rw [rowLine, rowLine, Nat.mul_add, ← List.replicate_append_replicate, List.append_assoc]

/-- The spaces in front of the label tell the depth. -/
theorem rowLine_inj (h : row.2.Legible) (h' : row'.2.Legible) (he : rowLine row = rowLine row') : row = row' := by
  have hspaces (n : Nat) : ∀ c, c ∈ List.replicate n ' ' → (c == ' ') = true :=
    fun c hc => beq_iff_eq.2 (List.eq_of_mem_replicate hc)
  have hindent := congrArg (List.takeWhile (· == ' ')) he
  have hlabel := congrArg (List.dropWhile (· == ' ')) he
  rw [rowLine, rowLine, takeWhile_append_of_stops (hspaces _) h.stops,
    takeWhile_append_of_stops (hspaces _) h'.stops] at hindent
  rw [rowLine, rowLine, dropWhile_append_of_stops (hspaces _) h.stops,
    dropWhile_append_of_stops (hspaces _) h'.stops] at hlabel
  have hdepth := congrArg List.length hindent
  rw [List.length_replicate, List.length_replicate] at hdepth
  exact Prod.ext (by omega) (h.text_inj h' (String.toList_inj.1 hlabel))

theorem lines_rowsText (h : ∀ row, row ∈ rows → row.2.Legible) :
    lines (rowsText rows) = rows.map rowLine ++ [[]] := by
  induction rows with
  | nil => rfl
  | cons row rows ih =>
    obtain ⟨hrow, hrows⟩ := List.forall_mem_cons.1 h
    have hline : '\n' ∉ rowLine row := by
      rw [rowLine, List.mem_append, not_or]
      exact ⟨fun hmem => absurd (List.eq_of_mem_replicate hmem) (by decide), hrow.lineFeed_not_mem⟩
    rw [rowsText, List.flatMap_cons, List.append_assoc, List.singleton_append, lines_append_lineFeed hline,
      ← rowsText, ih hrows, List.map_cons, List.cons_append]

theorem rowsText_inj (h : ∀ row, row ∈ rows → row.2.Legible) (h' : ∀ row, row ∈ rows' → row.2.Legible)
    (he : rowsText rows = rowsText rows') : rows = rows' := by
  -- no label holds a line feed, so the lines of the texts are those of the rows
  have hlines := congrArg lines he
  rw [lines_rowsText h, lines_rowsText h'] at hlines
  replace hlines := List.append_cancel_right hlines
  clear he
  induction rows generalizing rows' with
  | nil => exact (List.map_eq_nil_iff.1 hlines.symm).symm
  | cons row rows ih =>
    obtain ⟨row', rest, rfl, hrow, hrest⟩ := List.map_eq_cons_iff.1 hlines.symm
    obtain ⟨hfirst, hrows⟩ := List.forall_mem_cons.1 h
    obtain ⟨hfirst', hrows'⟩ := List.forall_mem_cons.1 h'
    rw [rowLine_inj hfirst hfirst' hrow.symm, ih hrows hrows' hrest.symm]

end Lines

namespace Labelled
variable {t u : Labelled Label}

/-- A tree whose labels can all be read off their lines. -/
def Legible (t : Labelled Label) : Prop :=
  ∀ depth row, row ∈ t.rows depth → row.2.Legible

theorem legible_node {l : Label} {ts : List (Labelled Label)} (hl : l.Legible) (h : ∀ t, t ∈ ts → t.Legible) :
    (node l ts).Legible := by
  intro depth row hrow
  rw [rows] at hrow
  rcases List.mem_cons.1 hrow with rfl | hrow
  · exact hl
  · obtain ⟨t, ht, hrow⟩ := mem_rowsOfAll.1 hrow
    exact h t ht _ row hrow

theorem Legible.eq_of_rowsText_eq (h : t.Legible) (h' : u.Legible) {depth : Nat}
    (he : rowsText (t.rows depth) = rowsText (u.rows depth)) : t = u :=
  rows_inj (rowsText_inj (h depth) (h' depth) he)

theorem Legible.lines_eq (h : t.Legible) (k : Nat) :
    lines (rowsText (t.rows k)) = ((t.rows 0).map rowLine).map (List.replicate (2 * k) ' ' ++ ·) ++ [[]] := by
  rw [lines_rowsText (h k), ← Nat.add_zero k, rows_add, List.map_map, List.map_map]
  congr 2
  exact funext (rowLine_add k)

end Labelled

end Reckoner
