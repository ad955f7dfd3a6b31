/-!
The texts by which the program introduces itself: version, usage and help.
-/

namespace Reckoner.CommandLine

/-- Text of which each line ends with a line feed. -/
def textOfLines (lines : List String) : String :=
  String.join (lines.map (· ++ "\n"))

def versionText : String := "calclang 0.1.0"

def usageText : String :=
  textOfLines [
    "usage: calclang [-h] [-i] [--parse] [--precision PRECISION] [--digits DIGITS]",
    "                [--sci-threshold SCI_THRESHOLD] [--debug] [--version]",
    "                [script]"]

def helpText : String :=
  usageText ++ textOfLines [
    "",
    "Arbitrary-precision calculator language",
    "",
    "positional arguments:",
    "  script                Script file of ;-terminated statements",
    "",
    "options:",
    "  -h, --help            show this help message and exit",
    "  -i, --interactive     Start interactive mode",
    "  --parse               Parse file and show the AST (for debugging)",
    "  --precision PRECISION",
    "                        Working precision in bits (default 128)",
    "  --digits DIGITS       Significant digits shown (default 15)",
    "  --sci-threshold SCI_THRESHOLD",
    "                        Use scientific notation when |exponent| exceeds this",
    "                        (default 3)",
    "  --debug               Enable debug output for all stages",
    "  --version             show program's version number and exit",
    "",
    "Examples:",
    "  calclang script.calc            # Run a script, one result per statement",
    "  calclang -i                     # Interactive mode",
    "  calclang --parse script.calc    # Parse and show the AST",
    "  calclang --digits 30 -i         # Show 30 significant digits",
    "        "]

def misuseText (message : String) : String :=
  usageText ++ s!"calclang: error: {message}\n"

end Reckoner.CommandLine
