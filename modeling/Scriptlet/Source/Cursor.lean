import Scriptlet.Source.Position

/-!
# Byte cursor

The bytes still to be read, with the index and the position of the next one.
-/

namespace Scriptlet

structure Cursor where
  index : Nat := 0
  position : Position := .start
  rest : List UInt8
  deriving DecidableEq, Repr

namespace Cursor

def ofBytes (bytes : List UInt8) : Cursor := ⟨0, .start, bytes⟩

def peek? (c : Cursor) : Option UInt8 := c.rest.head?

def peekSecond? (c : Cursor) : Option UInt8 := c.rest.tail.head?

def exhausted (c : Cursor) : Bool := c.rest.isEmpty

/-- Move over `bytes`, which are the next ones to be read. -/
def past (c : Cursor) (bytes : List UInt8) : Cursor :=
  ⟨c.index + bytes.length, c.position.past bytes, c.rest.drop bytes.length⟩

def next (c : Cursor) : Option UInt8 × Cursor :=
  match c.rest with
  | [] => (none, c)
  | byte :: _ => (some byte, c.past [byte])

/-- Read the next byte if it has the given code. -/
def accept (c : Cursor) (code : Int) : Bool × Cursor :=
  match c.rest with
  | [] => (false, c)
  | byte :: _ => if byte.toNat = code then (true, c.past [byte]) else (false, c)

/-- Read the longest run of bytes that satisfy `p`. -/
def takeWhile (c : Cursor) (p : UInt8 → Bool) : List UInt8 × Cursor :=
  let taken := c.rest.takeWhile p
  (taken, c.past taken)

end Cursor

end Scriptlet
