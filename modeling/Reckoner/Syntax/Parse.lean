import Reckoner.Failure
import Reckoner.Syntax.Grammar

/-!
Parsing of source texts. Tabs are widened first; places are those of the widened text, excerpts are cut
from the source as given.
-/

namespace Reckoner

/-- Apply a reader to a whole source text. -/
def parseWith {α : Type} (r : Reader α) (source : String) : Except Failure α :=
  let text := Text.expandTabs source.toList
  match r text with
  | .matched a _ => .ok a
  | .mismatched m =>
    let location := text.length - m.rest.length
    .error (.error (.unparsable
      (.locate text source.toList location (Diagnostic.expectedBy m.expected.message))))
  | .abandoned (.malformedNumber numeral) => .error (.error (.malformedNumber numeral))
  | .abandoned .tooDeep => .error .tooDeep

/-- Parse exactly one statement. -/
def parseStatement (m : Machine) (source : String) : Except Failure Statement :=
  parseWith (Grammar.single m) source

/-- Parse one or more statements. -/
def parseProgram (m : Machine) (source : String) : Except Failure (List Statement) :=
  parseWith (Grammar.program m) source

end Reckoner
