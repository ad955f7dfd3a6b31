import Reckoner.Number.Literal
import Reckoner.Proofs.Lexemes
import Reckoner.Syntax.Tree

/-! The declarative grammar: which tokens a text consists of, and which trees a list of tokens derives. -/

namespace Reckoner
open Text

/-- Parentheses, braces, commas, semicolons and the sign of a negation. -/
def markChars : List Char :=
  ['(', ')', '\x7b', '\x7d', ',', ';', '-']

/-- The binary operators and the sign of a binding. -/
def operatorChars : List Char :=
  ['+', '-', '*', '/', '^', '=']

inductive Token where
  | mark (c : Char)
  | operator (c : Char)
  | name (cs : List Char)
  | numeral (cs : List Char)
  deriving DecidableEq

namespace Token

def chars : Token → List Char
  | mark c => [c]
  | operator c => [c]
  | name cs => cs
  | numeral cs => cs

/-- A token has its form, and a name does not go on in the text behind it. A numeral with a minus is the
negation of one without. -/
def Fits (rest : List Char) : Token → Prop
  | mark c => c ∈ markChars
  | operator c => c ∈ operatorChars
  | name cs => IsName cs ∧ Stops isNameChar rest
  | numeral cs => IsNumeral cs ∧ cs.head? ≠ some '-'

end Token

/-- A text consists of tokens, with nothing but layout before each of them, and a rest. -/
inductive Covers : List Char → List Token → List Char → Prop where
  | nil (rest : List Char) : Covers rest [] rest
  | cons {layout s rest : List Char} {t : Token} {ts : List Token}
    (hl : ∀ c, c ∈ layout → isLayout c = true) (ht : t.Fits s) (h : Covers s ts rest) :
    Covers (layout ++ (t.chars ++ s)) (t :: ts) rest

/-- A whole text consists of tokens and layout. -/
def Consists (text : List Char) (ts : List Token) : Prop :=
  ∃ rest, Covers text ts rest ∧ ∀ c, c ∈ rest → isLayout c = true

/-- How tightly an expression binds. -/
inductive Level where
  | sum
  | product
  | power
  | primary

/-- What a list of tokens may derive. -/
inductive Phrase where
  | expression (level : Level) (e : Expr)
  /-- Expressions with commas between them, at least one. -/
  | items (es : List Expr)
  | arguments (es : List Expr)
  /-- A statement without its semicolon. -/
  | clause (s : Statement)
  /-- The inside of a block. -/
  | body (statements : List Statement) (final : Expr)

/-- Names with commas between them. -/
def nameTokens : List (List Char) → List Token
  | [] => []
  | first :: others => .name first :: others.flatMap fun cs => [.mark ',', .name cs]

/-- Which tokens derive what at which precision, and with how many calls they are read.

    sum     = product | sum ('+' | '-') product
    product = power | product ('*' | '/') power
    power   = '-' power | primary [ '^' power ]
    primary = '(' sum ')' | '{' body '}' | NAME '(' arguments ')' | NUMERAL | NAME
    items   = sum | items ',' sum
    body    = sum | clause ';' body
    clause  = NAME '(' names ')' '=' sum | NAME '=' sum | sum
-/
inductive Derives (p : Nat) : Nat → List Token → Phrase → Prop where
  | number {cs : List Char} {v : Number} (h : Number.ofText? p cs = some v) :
    Derives p 1 [.numeral cs] (.expression .primary (.number ⟨v, p⟩))
  | symbol (cs : List Char) :
    Derives p 1 [.name cs] (.expression .primary (.symbol (String.ofList cs)))
  | parenthesized {d : Nat} {ts : List Token} {e : Expr}
    (h : Derives p d ts (.expression .sum e)) :
    Derives p (d + 26) (.mark '(' :: ts ++ [.mark ')']) (.expression .primary e)
  | block {d : Nat} {ts : List Token} {statements : List Statement} {final : Expr}
    (h : Derives p d ts (.body statements final)) :
    Derives p (d + 46) (.mark '\x7b' :: ts ++ [.mark '\x7d'])
      (.expression .primary (.block statements final))
  | call {d : Nat} {ts : List Token} {es : List Expr} (cs : List Char)
    (h : Derives p d ts (.arguments es)) :
    Derives p (d + 35) (.name cs :: .mark '(' :: ts ++ [.mark ')'])
      (.expression .primary (.call (String.ofList cs) es))
  | primary {d : Nat} {ts : List Token} {e : Expr} (h : Derives p d ts (.expression .primary e)) :
    Derives p d ts (.expression .power e)
  | negation {d : Nat} {ts : List Token} {e : Expr} (h : Derives p d ts (.expression .power e)) :
    Derives p (d + 10) (.mark '-' :: ts) (.expression .power (.unary negation e))
  | power {d d' : Nat} {ts us : List Token} {base exponent : Expr}
    (h : Derives p d ts (.expression .primary base))
    (h' : Derives p d' us (.expression .power exponent)) :
    Derives p (max d (d' + 16)) (ts ++ .operator '^' :: us)
      (.expression .power (.binary "^" base exponent))
  | factor {d : Nat} {ts : List Token} {e : Expr} (h : Derives p d ts (.expression .power e)) :
    Derives p d ts (.expression .product e)
  | product {d d' : Nat} {ts us : List Token} {lhs rhs : Expr} {op : Char} (hop : op ∈ ['*', '/'])
    (h : Derives p d ts (.expression .product lhs)) (h' : Derives p d' us (.expression .power rhs)) :
    Derives p (max d (d' + 7)) (ts ++ .operator op :: us)
      (.expression .product (.binary op.toString lhs rhs))
  | term {d : Nat} {ts : List Token} {e : Expr} (h : Derives p d ts (.expression .product e)) :
    Derives p d ts (.expression .sum e)
  | sum {d d' : Nat} {ts us : List Token} {lhs rhs : Expr} {op : Char} (hop : op ∈ ['+', '-'])
    (h : Derives p d ts (.expression .sum lhs)) (h' : Derives p d' us (.expression .product rhs)) :
    Derives p (max d (d' + 7)) (ts ++ .operator op :: us)
      (.expression .sum (.binary op.toString lhs rhs))
  | firstItem {d : Nat} {ts : List Token} {e : Expr} (h : Derives p d ts (.expression .sum e)) :
    Derives p d ts (.items [e])
  | item {d d' : Nat} {ts us : List Token} {es : List Expr} {e : Expr}
    (h : Derives p d ts (.items es)) (h' : Derives p d' us (.expression .sum e)) :
    Derives p (max d (d' + 7)) (ts ++ .mark ',' :: us) (.items (es ++ [e]))
  | noArguments : Derives p 1 [] (.arguments [])
  | arguments {d : Nat} {ts : List Token} {es : List Expr} (h : Derives p d ts (.items es)) :
    Derives p d ts (.arguments es)
  | definition {d : Nat} {ts : List Token} {e : Expr} (cs : List Char) (params : List (List Char))
    (h : Derives p d ts (.expression .sum e)) :
    Derives p d (.name cs :: .mark '(' :: nameTokens params ++ .mark ')' :: .operator '=' :: ts)
      (.clause (.define (String.ofList cs) (params.map String.ofList) e))
  | assignment {d : Nat} {ts : List Token} {e : Expr} (cs : List Char)
    (h : Derives p d ts (.expression .sum e)) :
    Derives p d (.name cs :: .operator '=' :: ts) (.clause (.assign (String.ofList cs) e))
  | expression {d : Nat} {ts : List Token} {e : Expr} (h : Derives p d ts (.expression .sum e)) :
    Derives p d ts (.clause (.expression e))
  | final {d : Nat} {ts : List Token} {e : Expr} (h : Derives p d ts (.expression .sum e)) :
    Derives p d ts (.body [] e)
  | statement {d d' : Nat} {ts us : List Token} {s : Statement} {statements : List Statement}
    {final : Expr} (h : Derives p d ts (.clause s)) (h' : Derives p d' us (.body statements final)) :
    Derives p (max d d') (ts ++ .mark ';' :: us) (.body (s :: statements) final)

/-- The tokens of statements, each with its semicolon. -/
inductive DerivesProgram (p : Nat) : List Token → List Statement → Prop where
  | nil : DerivesProgram p [] []
  | cons {d : Nat} {ts us : List Token} {s : Statement} {statements : List Statement}
    (h : Derives p d ts (.clause s)) (h' : DerivesProgram p us statements) :
    DerivesProgram p (ts ++ .mark ';' :: us) (s :: statements)

theorem Covers.trans {s t u : List Char} {ts us : List Token} (h : Covers s ts t)
    (h' : Covers t us u) : Covers s (ts ++ us) u := by
  induction h with
  | nil => exact h'
  | cons hl ht _ ih => exact .cons hl ht (ih h')

theorem Covers.length_le {s rest : List Char} {ts : List Token} (h : Covers s ts rest) :
    rest.length ≤ s.length := by
  induction h with
  | nil => exact Nat.le_refl _
  | cons _ _ _ ih =>
    simp only [List.length_append]
    omega

end Reckoner
