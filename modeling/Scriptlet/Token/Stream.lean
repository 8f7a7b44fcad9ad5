import Scriptlet.Token.Scan

/-!
# Token streams

Tokens are cut from the source only when they are asked for. A stream can look a fixed number of
tokens ahead; the tokens it has looked at wait in a buffer.
-/

namespace Scriptlet

structure Stream where
  cursor : Cursor
  lookahead : Nat
  buffer : List Token := []
  skips : List Skip := []
  deriving DecidableEq

namespace Stream

inductive Fault where
  | noLookahead
  | tooFar (offset lookahead : Nat)
  /-- Nothing was buffered that far back. -/
  | tooFarBack
  | unclosed (quote : Position)
  deriving DecidableEq, Repr

def Fault.message : Fault → String
  | .noLookahead => "lookahead must be at least 1"
  | .tooFar offset lookahead =>
      "cannot peek " ++ toString (offset + 1) ++ " tokens ahead with a lookahead of " ++
        toString lookahead
  | .tooFarBack => "deque index out of range"
  | .unclosed _ => "string literal is missing its closing '\"'"

/-- A stream over `bytes`, which must be able to look at one token at least. -/
def ofBytes? (bytes : List UInt8) (lookahead : Nat) : Except Fault Stream :=
  if lookahead < 1 then .error .noLookahead else .ok ⟨.ofBytes bytes, lookahead, [], []⟩

/-- Cut the next token from the source, past the bytes that begin none. -/
def cutFrom : (fuel : Nat) → Stream → Except Fault (Option Token) × Stream
  | 0, s => (.ok none, s)
  | fuel + 1, s =>
      match s.cursor.step with
      | .finished after => (.ok none, { s with cursor := after })
      | .token t after => (.ok (some t), { s with cursor := after })
      | .unclosed quote after => (.error (.unclosed quote), { s with cursor := after })
      | .skipped skip after =>
          cutFrom fuel { s with cursor := after, skips := s.skips ++ [skip] }

def cut (s : Stream) : Except Fault (Option Token) × Stream :=
  cutFrom (s.cursor.rest.length + 1) s

def next (s : Stream) : Except Fault (Option Token) × Stream :=
  match s.buffer with
  | t :: rest => (.ok (some t), { s with buffer := rest })
  | [] => s.cut

/-- Cut `wanted` more tokens into the buffer; false if the source ends before that. -/
def fill : (wanted : Nat) → Stream → Except Fault Bool × Stream
  | 0, s => (.ok true, s)
  | wanted + 1, s =>
      match s.cut with
      | (.ok (some t), after) => fill wanted { after with buffer := after.buffer ++ [t] }
      | (.ok none, after) => (.ok false, after)
      | (.error fault, after) => (.error fault, after)

/-- The token `offset` places ahead, if there is one. -/
def peek (s : Stream) (offset : Nat) : Except Fault (Option Token) × Stream :=
  if s.lookahead ≤ offset then (.error (.tooFar offset s.lookahead), s)
  else
    match fill (offset + 1 - s.buffer.length) s with
    | (.ok true, after) => (.ok after.buffer[offset]?, after)
    | (.ok false, after) => (.ok none, after)
    | (.error fault, after) => (.error fault, after)

/-- The buffered token `back` places before the end of the buffer. -/
def peekBack (s : Stream) (back : Nat) : Except Fault (Option Token) × Stream :=
  match s.buffer.reverse[back]? with
  | some t => (.ok (some t), s)
  | none => (.error .tooFarBack, s)

/-- Look at a token without removing it; below zero the buffer is counted from its end. -/
def look (s : Stream) : Int → Except Fault (Option Token) × Stream
  | .ofNat offset => s.peek offset
  | .negSucc back => s.peekBack back

/-- Remove the first token if its kind is one of `kinds`. -/
def acceptAny (s : Stream) (kinds : List Kind) : Except Fault (Option Token) × Stream :=
  match s.peek 0 with
  | (.ok (some t), after) => if t.kind ∈ kinds then after.next else (.ok none, after)
  | (.ok none, after) => (.ok none, after)
  | (.error fault, after) => (.error fault, after)

def accept (s : Stream) (kind : Kind) : Except Fault (Option Token) × Stream :=
  s.acceptAny [kind]

/-- The place the source has been read up to, buffered tokens included. -/
def position (s : Stream) : Position := s.cursor.position

def drainFrom : (fuel : Nat) → Stream → (List Token × Option Fault) × Stream
  | 0, s => (([], none), s)
  | fuel + 1, s =>
      match s.next with
      | (.ok (some t), after) =>
          let ((tokens, fault), last) := drainFrom fuel after
          ((t :: tokens, fault), last)
      | (.ok none, after) => (([], none), after)
      | (.error fault, after) => (([], some fault), after)

def drain (s : Stream) : (List Token × Option Fault) × Stream :=
  drainFrom (s.buffer.length + s.cursor.rest.length + 1) s

end Stream

end Scriptlet
