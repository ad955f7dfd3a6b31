import Reckoner.Syntax.Tree

/-!
Copies of trees. A copier goes down a tree, makes each node anew and puts every number back into the context
that it belongs to. The calls that are open at a node on the way are more the deeper it lies.
-/

namespace Reckoner

/-- The calls that a copier opens from an object to one inside of it. -/
structure Copier where
  /-- From a node to its only child of a kind. -/
  child : Nat
  /-- From a node to one of several children in a list. -/
  item : Nat
  /-- From a frame to its parent. -/
  parent : Nat
  /-- From a frame to the body of a function in it. -/
  body : Nat

namespace Copier

/-- Copies objects one by one. -/
def cloning : Copier :=
  ⟨4, 7, 7, 13⟩

/-- Writes objects down, from which they are made again later. -/
def pickling : Copier :=
  ⟨3, 4, 4, 9⟩

end Copier

mutual

/-- A tree made anew. -/
def Expr.rebuild : Expr → Expr
  | .number v => .number v.rebuild
  | .symbol name => .symbol name
  | .unary op e => .unary op e.rebuild
  | .binary op l r => .binary op l.rebuild r.rebuild
  | .call name args => .call name (rebuildExprs args)
  | .block statements final => .block (rebuildStatements statements) final.rebuild
  | .misplaced s => .misplaced s.rebuild
  | .foreign text => .foreign text

def Statement.rebuild : Statement → Statement
  | .assign name e => .assign name e.rebuild
  | .define name params body => .define name params body.rebuild
  | .expression e => .expression e.rebuild
  | .misplaced e => .misplaced e.rebuild

def rebuildExprs : List Expr → List Expr
  | [] => []
  | e :: es => e.rebuild :: rebuildExprs es

def rebuildStatements : List Statement → List Statement
  | [] => []
  | s :: ss => s.rebuild :: rebuildStatements ss

end

mutual

@[simp]
theorem Expr.rebuild_eq : ∀ e : Expr, e.rebuild = e
  | .number v => congrArg Expr.number v.rebuild_eq
  | .symbol _ | .foreign _ => rfl
  | .unary _ e => by rw [Expr.rebuild, e.rebuild_eq]
  | .binary _ l r => by rw [Expr.rebuild, l.rebuild_eq, r.rebuild_eq]
  | .call _ args => by rw [Expr.rebuild, rebuildExprs_eq args]
  | .block statements final => by rw [Expr.rebuild, rebuildStatements_eq statements, final.rebuild_eq]
  | .misplaced s => by rw [Expr.rebuild, s.rebuild_eq]

theorem Statement.rebuild_eq : ∀ s : Statement, s.rebuild = s
  | .assign _ e => by rw [Statement.rebuild, e.rebuild_eq]
  | .define _ _ body => by rw [Statement.rebuild, body.rebuild_eq]
  | .expression e | .misplaced e => by rw [Statement.rebuild, e.rebuild_eq]

theorem rebuildExprs_eq : ∀ es : List Expr, rebuildExprs es = es
  | [] => rfl
  | e :: es => by rw [rebuildExprs, e.rebuild_eq, rebuildExprs_eq es]

theorem rebuildStatements_eq : ∀ ss : List Statement, rebuildStatements ss = ss
  | [] => rfl
  | s :: ss => by rw [rebuildStatements, s.rebuild_eq, rebuildStatements_eq ss]

end

mutual

/-- The calls that a copier has open at the deepest place of a tree. -/
def Expr.copyDepth (c : Copier) : Expr → Nat
  | .number _ | .symbol _ => 2 * c.child
  | .unary _ e => c.child + e.copyDepth c
  | .binary _ l r => c.child + max (l.copyDepth c) (r.copyDepth c)
  | .call _ args => c.item + exprsCopyDepth c args
  | .block statements final => max (c.item + statementsCopyDepth c statements) (c.child + final.copyDepth c)
  | .misplaced s => s.copyDepth c
  | .foreign _ => 0

def Statement.copyDepth (c : Copier) : Statement → Nat
  | .assign _ e | .define _ _ e | .expression e => c.child + e.copyDepth c
  | .misplaced e => e.copyDepth c

def exprsCopyDepth (c : Copier) : List Expr → Nat
  | [] => 0
  | e :: es => max (e.copyDepth c) (exprsCopyDepth c es)

def statementsCopyDepth (c : Copier) : List Statement → Nat
  | [] => 0
  | s :: ss => max (s.copyDepth c) (statementsCopyDepth c ss)

end

end Reckoner
