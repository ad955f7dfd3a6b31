/-!
What a reader expected where it stopped, and how diagnostics word it. A token is quoted; a statement and
an operand are described by the forms that they can take.
-/

namespace Reckoner

inductive Expectation where
  | statement
  | operand
  /-- The first form of an operand alone. -/
  | minus
  | name
  | numeral
  | token (c : Char)
  | endOfText
  deriving DecidableEq, Repr

namespace Form

/-- Drop enclosing braces, however many pairs there are. -/
def unbrace (cs : List Char) : List Char :=
  match cs with
  | '\x7b' :: rest =>
    if rest.getLast? = some '\x7d' then unbrace rest.dropLast else cs
  | _ => cs
termination_by cs.length
decreasing_by
  simp only [List.length_dropLast, List.length_cons]
  omega

/-- Parts in sequence, in braces of which a pair is dropped if the parts bring one along. -/
def sequence (parts : List String) : String :=
  "\x7b" ++ String.ofList (unbrace (" ".intercalate parts).toList) ++ "\x7d"

def choice (alternatives : List String) : String :=
  "\x7b" ++ " | ".intercalate alternatives ++ "\x7d"

def optional (text : String) : String :=
  "[" ++ text ++ "]"

def repeated (text : String) : String :=
  optional text ++ "..."

def group (text : String) : String :=
  "Group:(" ++ text ++ ")"

/-- A token that leaves nothing in the tree. -/
def silent (token : String) : String :=
  "Suppress:('" ++ token ++ "')"

def name : String :=
  "Re:('[^()\x7b\x7d\";,\\s\\d][^()\x7b\x7d\";,\\s]*')"

def numeral : String :=
  "Re:('[+-]?(?:\\d+(?:\\.\\d*)?|\\.\\d+)(?:[eE][+-]?\\d+)?')"

/-- A form that refers to one described elsewhere. -/
def elsewhere : String := ": ..."

def term : String :=
  "\x7b" ++ elsewhere ++ " " ++ repeated (choice ["\x7b'*' | '/'\x7d " ++ elsewhere]) ++ "\x7d"

def expression : String :=
  "Forward: \x7b" ++ term ++ " " ++ repeated ("\x7b'+' | '-'\x7d " ++ term) ++ "\x7d"

/-- Any number of items with commas between them. -/
def list (item : String) : String :=
  group (optional (item ++ " " ++ repeated (sequence [silent ",", item])))

def definitionHead : List String :=
  [name, silent "(", list name, silent ")", silent "="]

def assignmentHead : List String :=
  [name, silent "="]

def statement : String :=
  choice [sequence (definitionHead ++ [expression]), sequence (assignmentHead ++ [expression]),
    group expression]

/-- A statement inside a block, where its parts are described one by one. -/
def blockStatement : String :=
  let bound := choice [sequence [sequence definitionHead, expression],
    sequence [sequence assignmentHead, expression]]
  "Forward: " ++ sequence [choice [bound, group expression], silent ";"]

def parenthesized : String :=
  sequence [sequence [silent "(", expression], silent ")"]

def block : String :=
  sequence [sequence [sequence [silent "\x7b", group (repeated blockStatement)], expression],
    silent "\x7d"]

def call : String :=
  sequence [sequence [sequence [name, silent "("], list expression], silent ")"]

def primary : String :=
  choice [choice [choice [choice [parenthesized, block], call], numeral], name]

def operand : String :=
  choice [sequence [silent "-", elsewhere], sequence [primary, optional ("'^' " ++ elsewhere)]]

end Form

/-- The wording of an expectation. -/
def Expectation.description : Expectation → String
  | statement => Form.statement
  | operand => Form.operand
  | minus => "'-'"
  | name => Form.name
  | numeral => Form.numeral
  | token c => String.ofList ['\'', c, '\'']
  | endOfText => "end of text"

/-- The message of a reader that did not match. -/
def Expectation.message (e : Expectation) : String :=
  "Expected " ++ e.description

end Reckoner
