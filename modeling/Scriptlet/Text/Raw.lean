import Scriptlet.Text.Blank
import Scriptlet.Text.Quoted
import Scriptlet.Text.Utf8

/-!
# Raw text

Text as it comes in. Bytes that spell no character come in as surrogates, which no encoding can
write again. So raw text is turned into a string only where it has to be encoded, and this may fail.
-/

namespace Scriptlet

/-- A code point that is one half of a pair, and no character by itself. -/
structure Surrogate where
  code : Nat
  atLeast : 0xD800 ≤ code
  below : code < 0xE000
  deriving DecidableEq, Repr

inductive CodePoint where
  | char (c : Char)
  | surrogate (s : Surrogate)
  deriving DecidableEq, Repr

namespace CodePoint

def char? : CodePoint → Option Char
  | .char c => some c
  | .surrogate _ => none

def isSurrogate (p : CodePoint) : Bool := p.char?.isNone

def isBlank (p : CodePoint) : Bool := p.char?.any Text.isBlank

/-- The surrogate that a byte comes in as if it belongs to no character. -/
def ofByte (byte : UInt8) : CodePoint :=
  .surrogate ⟨0xDC00 + byte.toNat, by omega, by have := byte.toNat_lt; omega⟩

end CodePoint

/-- Where surrogates first keep a text from being encoded, and how many of them stand there. -/
structure Unencodable where
  first : Surrogate
  offset : Nat
  length : Nat
  deriving DecidableEq, Repr

def Unencodable.message (fault : Unencodable) : String :=
  let place :=
    if fault.length ≤ 1 then
      "character '" ++ String.ofList (Text.escapeCode fault.first.code) ++ "' in position " ++
        toString fault.offset
    else
      "characters in position " ++ toString fault.offset ++ "-" ++
        toString (fault.offset + fault.length - 1)
  "'utf-8' codec can't encode " ++ place ++ ": surrogates not allowed"

abbrev RawText := List CodePoint

namespace RawText

def ofChars (cs : List Char) : RawText := cs.map .char

def ofString (s : String) : RawText := ofChars s.toList

def ofBytes (bytes : List UInt8) : RawText :=
  (Utf8.pieces bytes).flatMap fun
    | .char c => [.char c]
    | .broken _ offset length _ => ((bytes.drop offset).take length).map CodePoint.ofByte

def chars (text : RawText) : List Char := text.filterMap CodePoint.char?

def trimEnd (text : RawText) : RawText := (text.reverse.dropWhile CodePoint.isBlank).reverse

def trim (text : RawText) : RawText := text.trimEnd.dropWhile CodePoint.isBlank

/-- The lines of a text; a line feed at its end begins no further line. -/
def lines (text : RawText) : List RawText :=
  let lines := Text.splitAt (.char '\n') text
  if lines.getLast? = some [] then lines.dropLast else lines

def readFrom (offset : Nat) : RawText → Except Unencodable (List Char)
  | [] => .ok []
  | .char c :: rest => (readFrom (offset + 1) rest).map (c :: ·)
  | .surrogate s :: rest =>
      .error ⟨s, offset, 1 + (rest.takeWhile CodePoint.isSurrogate).length⟩

def read (text : RawText) : Except Unencodable String := (readFrom 0 text).map String.ofList

/-- Every surrogate is read as a replacement character. -/
def lossy (text : RawText) : String := String.ofList (text.map fun p => p.char?.getD '�')

end RawText

end Scriptlet
