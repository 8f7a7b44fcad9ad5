/-!
# UTF-8

A decoder that reads one byte at a time. Where the bytes stop being well formed it closes a
defect, which covers the longest beginning of a character that was read so far, and it starts
afresh at the offending byte.
-/

namespace Scriptlet.Utf8

def encode (text : String) : List UInt8 := text.toList.flatMap String.utf8EncodeChar

inductive Defect where
  | badStart
  | badContinuation
  | truncated
  deriving DecidableEq, Repr

/-- Decoded text comes in characters and in stretches of `length` bytes that spell none. -/
inductive Piece where
  | char (c : Char)
  | broken (defect : Defect) (offset length : Nat) (first : UInt8)
  deriving DecidableEq, Repr

/-- A character that has begun: its first byte and where that stands, the bytes read, how many
are owed, the range of the next one, and the bits collected. -/
structure Partial where
  first : UInt8
  offset : Nat
  taken : Nat
  owed : Nat
  low : UInt8
  high : UInt8
  bits : Nat
  deriving DecidableEq, Repr

/-- What a byte between characters starts. -/
inductive Lead where
  | ascii
  | opens (owed : Nat) (low high : UInt8) (bits : Nat)
  | bad
  deriving DecidableEq, Repr

def lead (byte : UInt8) : Lead :=
  if byte < 0x80 then .ascii
  else if byte < 0xC2 then .bad
  else if byte < 0xE0 then .opens 1 0x80 0xBF (byte.toNat - 0xC0)
  else if byte = 0xE0 then .opens 2 0xA0 0xBF 0
  else if byte = 0xED then .opens 2 0x80 0x9F 0xD
  else if byte < 0xF0 then .opens 2 0x80 0xBF (byte.toNat - 0xE0)
  else if byte = 0xF0 then .opens 3 0x90 0xBF 0
  else if byte < 0xF4 then .opens 3 0x80 0xBF (byte.toNat - 0xF0)
  else if byte = 0xF4 then .opens 3 0x80 0x8F 4
  else .bad

def start (offset : Nat) (byte : UInt8) : List Piece × Option Partial :=
  match lead byte with
  | .ascii => ([.char (Char.ofNat byte.toNat)], none)
  | .opens owed low high bits => ([], some ⟨byte, offset, 1, owed, low, high, bits⟩)
  | .bad => ([.broken .badStart offset 1 byte], none)

def resume (offset : Nat) (byte : UInt8) (p : Partial) : List Piece × Option Partial :=
  if p.low ≤ byte ∧ byte ≤ p.high then
    let bits := p.bits * 64 + (byte.toNat - 0x80)
    if p.owed ≤ 1 then ([.char (Char.ofNat bits)], none)
    else ([], some ⟨p.first, p.offset, p.taken + 1, p.owed - 1, 0x80, 0xBF, bits⟩)
  else
    let (pieces, next) := start offset byte
    (.broken .badContinuation p.offset p.taken p.first :: pieces, next)

def step (offset : Nat) (byte : UInt8) : Option Partial → List Piece × Option Partial
  | none => start offset byte
  | some p => resume offset byte p

def piecesFrom (offset : Nat) (state : Option Partial) : List UInt8 → List Piece
  | [] =>
      match state with
      | none => []
      | some p => [.broken .truncated p.offset p.taken p.first]
  | byte :: rest =>
      let (pieces, next) := step offset byte state
      pieces ++ piecesFrom (offset + 1) next rest

def pieces (bytes : List UInt8) : List Piece := piecesFrom 0 none bytes

def Piece.lossy : Piece → Char
  | .char c => c
  | .broken .. => '�'

/-- Every defect is read as one replacement character. -/
def decodeLossy (bytes : List UInt8) : String := String.ofList ((pieces bytes).map Piece.lossy)

/-- Where and how bytes first fail to be UTF-8. -/
structure Malformed where
  defect : Defect
  offset : Nat
  length : Nat
  first : UInt8
  deriving DecidableEq, Repr

def collect : List Piece → Except Malformed (List Char)
  | [] => .ok []
  | .char c :: rest =>
      match collect rest with
      | .ok chars => .ok (c :: chars)
      | .error fault => .error fault
  | .broken defect offset length first :: _ => .error ⟨defect, offset, length, first⟩

def decode (bytes : List UInt8) : Except Malformed String :=
  match collect (pieces bytes) with
  | .ok chars => .ok (String.ofList chars)
  | .error fault => .error fault

def Defect.reason : Defect → String
  | .badStart => "invalid start byte"
  | .badContinuation => "invalid continuation byte"
  | .truncated => "unexpected end of data"

def hexByte (byte : UInt8) : String :=
  let digits := Nat.toDigits 16 byte.toNat
  String.ofList (if digits.length < 2 then '0' :: digits else digits)

def Malformed.message (fault : Malformed) : String :=
  let place :=
    if fault.length ≤ 1 then
      "byte 0x" ++ hexByte fault.first ++ " in position " ++ toString fault.offset
    else
      "bytes in position " ++ toString fault.offset ++ "-" ++
        toString (fault.offset + fault.length - 1)
  "'utf-8' codec can't decode " ++ place ++ ": " ++ fault.defect.reason

end Scriptlet.Utf8
