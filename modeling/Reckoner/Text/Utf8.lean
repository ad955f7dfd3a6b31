/-!
Decoding of UTF-8 with the place and kind of the first fault. A fault covers the longest run of bytes
that begins some well-formed sequence, so that the byte after it may begin a sequence of its own.
-/

namespace Reckoner.Text.Utf8

/-- Why bytes are not well-formed. -/
inductive Defect where
  | invalidStart
  | invalidContinuation
  | unexpectedEnd
  deriving DecidableEq, Repr

/-- The first fault: where it begins, the bytes it covers, and its kind. -/
structure Fault where
  position : Nat
  bytes : List UInt8
  defect : Defect

/-- How the bytes after a lead byte continue: their number, and the bounds of the first of them.
The bounds exclude overlong forms, surrogates and values above the last code point. -/
structure Tail where
  count : Nat
  low : UInt8
  high : UInt8

def tail? (lead : UInt8) : Option Tail :=
  if 0xC2 ≤ lead ∧ lead ≤ 0xDF then some ⟨1, 0x80, 0xBF⟩
  else if lead = 0xE0 then some ⟨2, 0xA0, 0xBF⟩
  else if lead = 0xED then some ⟨2, 0x80, 0x9F⟩
  else if 0xE1 ≤ lead ∧ lead ≤ 0xEF then some ⟨2, 0x80, 0xBF⟩
  else if lead = 0xF0 then some ⟨3, 0x90, 0xBF⟩
  else if 0xF1 ≤ lead ∧ lead ≤ 0xF3 then some ⟨3, 0x80, 0xBF⟩
  else if lead = 0xF4 then some ⟨3, 0x80, 0x8F⟩
  else none

/-- The continuation bytes that follow, at most as many as the tail asks for. -/
def continuation (t : Tail) (bytes : List UInt8) : List UInt8 :=
  match t.count, bytes with
  | 0, _ => []
  | _, [] => []
  | n + 1, b :: bs =>
    if t.low ≤ b ∧ b ≤ t.high then
      b :: (bs.take n).takeWhile fun c => 0x80 ≤ c ∧ c ≤ 0xBF
    else []

/-- The code point of a lead byte and its continuation bytes. -/
def codePoint (lead : UInt8) (rest : List UInt8) : Nat :=
  let head := match rest.length with
    | 0 => lead.toNat
    | 1 => lead.toNat % 0x20
    | 2 => lead.toNat % 0x10
    | _ => lead.toNat % 0x08
  rest.foldl (fun n b => n * 0x40 + b.toNat % 0x40) head

/-- Decode bytes of which the first stands at the given position, in at most `fuel` characters. -/
def decodeFrom : Nat → Nat → List UInt8 → Except Fault (List Char)
  | _, _, [] => .ok []
  | 0, _, _ => .ok []
  | fuel + 1, position, lead :: rest =>
    if lead < 0x80 then
      (Char.ofNat lead.toNat :: ·) <$> decodeFrom fuel (position + 1) rest
    else match tail? lead with
      | none => .error ⟨position, [lead], .invalidStart⟩
      | some t =>
        let more := continuation t rest
        if more.length = t.count then
          (Char.ofNat (codePoint lead more) :: ·) <$>
            decodeFrom fuel (position + 1 + t.count) (rest.drop t.count)
        else
          let defect := if rest.length ≤ more.length then .unexpectedEnd else .invalidContinuation
          .error ⟨position, lead :: more, defect⟩

def decode (bytes : List UInt8) : Except Fault (List Char) :=
  decodeFrom bytes.length 0 bytes

end Reckoner.Text.Utf8
