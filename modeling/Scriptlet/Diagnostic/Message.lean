/-!
# Messages

A message is a text with words in it that can be set off from the text around them when the
message is written.
-/

namespace Scriptlet

inductive Message.Piece where
  | text (s : String)
  | word (s : String)
  deriving DecidableEq, Repr

structure Message where
  pieces : List Message.Piece
  deriving DecidableEq, Repr

namespace Message

def ofText (s : String) : Message := ⟨[.text s]⟩

/-- The piece as it is written, a word in the given way. -/
def Piece.styled (style : String → String) : Piece → String
  | .text s => s
  | .word s => style s

def styled (style : String → String) (m : Message) : String :=
  String.join (m.pieces.map (Piece.styled style))

def plain (m : Message) : String := m.styled id

def words (m : Message) : List String :=
  m.pieces.filterMap fun
    | .text _ => none
    | .word s => some s

end Message

end Scriptlet
