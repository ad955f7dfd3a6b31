import Reckoner.Error
import Reckoner.Text.Lines
import Reckoner.Text.Quoted
import Reckoner.Text.Utf8

/-!
Sources: what stands under the path of a script, and the text that is read from it. Scripts are UTF-8,
a byte order mark counts as text, and every line ends with one line feed.
-/

namespace Reckoner.CommandLine
open Text

inductive Source where
  | missing
  | directory
  | file (bytes : List UInt8)
  /-- The path is too long, or one of the names in it. -/
  | nameTooLong

/-- The components of a path between its slashes. A single dot stands for nothing. -/
def pathComponents (path : String) : List String :=
  let pieces := path.toList.foldr (fun c pieces =>
    if c = '/' then [] :: pieces
    else match pieces with
      | [] => [[c]]
      | piece :: others => (c :: piece) :: others) [[]]
  (pieces.map String.ofList).filter fun piece => !piece.isEmpty && piece != "."

/-- The root of a path: two slashes in front are kept as they are, more count as one. -/
def pathRoot (path : String) : String :=
  match path.toList.takeWhile (· = '/') with
  | [] => ""
  | [_, _] => "//"
  | _ => "/"

/-- The most bytes of a name, and of a path, that the host takes. -/
def maxNameBytes : Nat := 255

def maxPathBytes : Nat := 4095

/-- A path without the components that stand for nothing. -/
def tidyPath (path : String) : String :=
  match pathRoot path, pathComponents path with
  | "", [] => "."
  | root, components => root ++ "/".intercalate components

def hexByte (b : UInt8) : String :=
  "0x" ++ String.ofList ((if b < 0x10 then ['0'] else []) ++ Nat.toDigits 16 b.toNat)

/-- The text of a decoding fault: one byte is shown, several are given by their positions. -/
def decodingText (fault : Utf8.Fault) : String :=
  let place := match fault.bytes with
    | [b] => s!"byte {hexByte b} in position {fault.position}"
    | bytes => s!"bytes in position {fault.position}-{fault.position + bytes.length - 1}"
  let reason := match fault.defect with
    | .invalidStart => "invalid start byte"
    | .invalidContinuation => "invalid continuation byte"
    | .unexpectedEnd => "unexpected end of data"
  s!"'utf-8' codec can't decode {place}: {reason}"

def cannotRead (path reason : String) : Error :=
  .io (s!"cannot read '{path}': " ++ reason)

/-- The text of the source under a path. -/
def Source.text (path : String) : Source → Except Error String
  | missing =>
    .error (cannotRead path ("[Errno 2] No such file or directory: " ++ quoted (tidyPath path)))
  | directory =>
    .error (cannotRead path ("[Errno 21] Is a directory: " ++ quoted (tidyPath path)))
  | nameTooLong =>
    .error (cannotRead path ("[Errno 36] File name too long: " ++ quoted (tidyPath path)))
  | file bytes =>
    match Utf8.decode bytes with
    | .ok cs => .ok (String.ofList (unifyLineEnds cs))
    | .error fault => .error (cannotRead path (decodingText fault))

end Reckoner.CommandLine
