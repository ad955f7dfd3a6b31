import Reckoner.Settings
import Reckoner.Text.Integer
import Reckoner.Text.Quoted

/-!
Command-line options. Options and the script may be mixed; two dashes end the options. A long option may
be shortened as long as it is unambiguous and may carry its value behind an equals sign; the letters of
short options may be packed behind one dash. Of several settings of an option the last counts.
-/

namespace Reckoner.CommandLine
open Text

inductive Switch where
  | help | interactive | parse | precision | digits | threshold | debug | version
  deriving DecidableEq, Repr

/-- All spellings of the switches. -/
def spellings : List (String × Switch) :=
  [("-h", .help), ("--help", .help), ("-i", .interactive), ("--interactive", .interactive),
   ("--parse", .parse), ("--precision", .precision), ("--digits", .digits),
   ("--sci-threshold", .threshold), ("--debug", .debug), ("--version", .version)]

namespace Switch

/-- The spellings of a switch as messages name it. -/
def label (s : Switch) : String :=
  "/".intercalate ((spellings.filter (·.2 = s)).map Prod.fst)

def takesValue : Switch → Bool
  | precision | digits | threshold => true
  | _ => false

end Switch

/-- What the options ask for. -/
structure Options where
  script : Option String
  interactive : Bool
  outline : Bool
  settings : Settings
  deriving DecidableEq, Repr

/-- How reading the arguments ends early. -/
inductive Stop where
  | help
  | version
  | misuse (message : String)
  /-- Two dashes stand in the place of the value of a switch. -/
  | valueless (s : Switch)
  deriving DecidableEq, Repr

/-- Options as they are read. A setting may be left without a value. -/
structure Draft where
  script : Option String := none
  interactive : Bool := false
  outline : Bool := false
  debug : Bool := false
  precision : Option Int := some ({} : Settings).precision
  digits : Option Int := some ({} : Settings).digits
  threshold : Option Int := some ({} : Settings).threshold
  deriving DecidableEq, Repr

/-- Two dashes end the options; attached to a switch they leave it without a value. -/
def separator : String := "--"

/-- What an argument is: part of the command, or a switch with what is attached to it. -/
inductive Word where
  | plain (text : String)
  | separator
  | switch (spelling : String) (s : Switch) (attached : Option String)
  | unknown (text : String)
  deriving DecidableEq, Repr

/-- The part before the first equals sign and the value after it. -/
def splitAtEquals (text : String) : String × Option String :=
  let cs := text.toList
  match cs.dropWhile (· ≠ '=') with
  | [] => (text, none)
  | _ :: value => (String.ofList (cs.takeWhile (· ≠ '=')), some (String.ofList value))

/-- A negative number, whole or with a fraction, is an argument and no option. -/
def isNegativeNumber (cs : List Char) : Bool :=
  match cs with
  | '-' :: body =>
    let body := if body.getLast? = some '\n' then body.dropLast else body
    let whole := body.takeWhile isDigit
    match body.dropWhile isDigit with
    | [] => !whole.isEmpty
    | '.' :: fraction => !fraction.isEmpty && fraction.all isDigit
    | _ => false
  | _ => false

/-- The switches that an argument may stand for: a long option by its beginning, a short one by its
letter with more letters behind it. -/
def candidates (text : String) : List Word :=
  match text.toList with
  | '-' :: '-' :: _ =>
    let (start, value) := splitAtEquals text
    (spellings.filter fun (spelling, _) => start.toList.isPrefixOf spelling.toList).map
      fun (spelling, s) => .switch spelling s value
  | dash :: letter :: more =>
    (spellings.filter fun (spelling, _) => spelling.toList = [dash, letter]).map
      fun (spelling, s) => .switch spelling s (some (String.ofList more))
  | _ => []

def Word.spelling : Word → String
  | .switch spelling _ _ => spelling
  | .plain text | .unknown text => text
  | .separator => CommandLine.separator

/-- Classify an argument that begins with a dash and is longer. -/
def classifyDashed (text : String) : Except Stop Word :=
  match spellings.lookup text with
  | some s => .ok (.switch text s none)
  | none =>
    let (start, value) := splitAtEquals text
    match value, spellings.lookup start with
    | some _, some s => .ok (.switch start s value)
    | _, _ =>
      match candidates text with
      | [word] => .ok word
      | [] =>
        if isNegativeNumber text.toList || text.toList.contains ' ' then .ok (.plain text)
        else .ok (.unknown text)
      | several =>
        .error (.misuse (s!"ambiguous option: {text} could match "
          ++ ", ".intercalate (several.map Word.spelling)))

def classify (text : String) : Except Stop Word :=
  match text.toList with
  | '-' :: _ :: _ => classifyDashed text
  | _ => .ok (.plain text)

/-- Classify all arguments; behind two dashes everything is plain. -/
def classifyAll : List String → Except Stop (List Word)
  | [] => .ok []
  | text :: rest =>
    if text = separator then .ok (.separator :: rest.map .plain)
    else do
      let word ← classify text
      return word :: (← classifyAll rest)

def misuseOf (s : Switch) (problem : String) : Stop :=
  .misuse (s!"argument {s.label}: " ++ problem)

def ignored (s : Switch) (value : String) : Stop :=
  misuseOf s ("ignored explicit argument " ++ quoted value)

/-- Carry out a switch that takes no value. -/
def setFlag (s : Switch) (d : Draft) : Except Stop Draft :=
  match s with
  | .help => .error .help
  | .version => .error .version
  | .interactive => .ok { d with interactive := true }
  | .parse => .ok { d with outline := true }
  | .debug => .ok { d with debug := true }
  | _ => .ok d

def Draft.set (s : Switch) (value : Option Int) (d : Draft) : Draft :=
  match s with
  | .precision => { d with precision := value }
  | .digits => { d with digits := value }
  | .threshold => { d with threshold := value }
  | _ => d

/-- Carry out a switch that takes an integer. -/
def setValue (s : Switch) (value : String) (d : Draft) : Except Stop Draft :=
  if value = separator then .ok (d.set s none)
  else
    match integer? value.toList with
    | none => .error (misuseOf s ("invalid int value: " ++ quoted value))
    | some n => .ok (d.set s (some n))

/-- The switches packed behind one dash, the first of which is known. -/
def packedFlags (s : Switch) : List Char → Except Stop (List Switch)
  | [] => .ok [s]
  | letter :: more =>
    match spellings.lookup (String.ofList ['-', letter]) with
    | none => .error (ignored s (String.ofList (letter :: more)))
    | some next => do return s :: (← packedFlags next more)

/-- A short spelling is a dash and a letter. -/
def isShort (spelling : String) : Bool :=
  spelling.length = 2

/-- Carry out a switch that takes no value, with what is attached to it: more letters if it is short,
for which an equals sign may stand in front. -/
def applyFlag (spelling : String) (s : Switch) (attached : Option String) (d : Draft) :
    Except Stop Draft :=
  match attached with
  | none => setFlag s d
  | some text =>
    if isShort spelling ∧ !text.isEmpty then do
      (← packedFlags s text.toList).foldlM (fun d s => setFlag s d) d
    else .error (ignored s text)

/-- The arguments behind the separator: the first of them is the script, unless it is known already; then
they are left over, and the separator with them. -/
def takeRest (words : List Word) (d : Draft) (left : List String) : Draft × List String :=
  let texts := words.map Word.spelling
  match d.script, texts with
  | some _, _ => (d, left ++ separator :: texts)
  | none, [] => (d, left)
  | none, text :: rest => ({ d with script := some text }, left ++ rest)

/-- Carry out words from left to right and collect what is left over. A switch may be waiting for its
value, which is the next word. A separator that stands right behind the script belongs to it. -/
def readWords : Option Switch → List Word → Draft → List String → Except Stop (Draft × List String)
  | some s, .plain value :: rest, d, left => do readWords none rest (← setValue s value d) left
  | some s, _, _, _ => .error (misuseOf s "expected one argument")
  | none, [], d, left => .ok (d, left)
  | none, .plain text :: rest, d, left =>
    match d.script, rest with
    | none, .separator :: others =>
      .ok ({ d with script := some text }, left ++ others.map Word.spelling)
    | none, _ => readWords none rest { d with script := some text } left
    | some _, _ => readWords none rest d (left ++ [text])
  | none, .separator :: rest, d, left => .ok (takeRest rest d left)
  | none, .unknown text :: rest, d, left => readWords none rest d (left ++ [text])
  | none, .switch spelling s attached :: rest, d, left =>
    match s.takesValue, attached with
    | true, some value => do readWords none rest (← setValue s value d) left
    | true, none => readWords (some s) rest d left
    | false, _ => do readWords none rest (← applyFlag spelling s attached d) left

def checked (s : Settings) : Except Stop Settings :=
  s.validate.mapError fun fault => .misuse fault.message

def given (s : Switch) (value : Option Int) : Except Stop Int :=
  value.elim (.error (.valueless s)) .ok

/-- The settings of a draft, looked at one by one: each has a value, and a value within range. -/
def Draft.settings (d : Draft) : Except Stop Settings := do
  let s ← checked { precision := ← given .precision d.precision, debug := d.debug }
  let s ← checked { s with digits := ← given .digits d.digits }
  checked { s with threshold := ← given .threshold d.threshold }

/-- The options that arguments give. Their settings are checked last. -/
def readOptions (args : List String) : Except Stop Options := do
  let (d, left) ← readWords none (← classifyAll args) {} []
  if !left.isEmpty then
    throw (.misuse ("unrecognized arguments: " ++ " ".intercalate left))
  return ⟨d.script, d.interactive, d.outline, ← d.settings⟩

end Reckoner.CommandLine
