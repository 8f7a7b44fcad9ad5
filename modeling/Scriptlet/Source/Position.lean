/-!
# Places in a source text

In a text lines and columns start at one. Columns count bytes, and only a line feed ends a line.
A place that is given from outside may lie before the first line or column.
-/

namespace Scriptlet

structure Position where
  line : Int := 1
  column : Int := 1
  deriving DecidableEq, Repr, Inhabited

namespace Position

def start : Position := ⟨1, 1⟩

def advance (p : Position) (byte : UInt8) : Position :=
  if byte = 10 then ⟨p.line + 1, 1⟩ else ⟨p.line, p.column + 1⟩

def past (p : Position) (bytes : List UInt8) : Position := bytes.foldl advance p

/-- Source order: by line, then by column. -/
def before (p q : Position) : Bool :=
  p.line < q.line || (p.line == q.line && p.column < q.column)

def text (p : Position) : String := toString p.line ++ ":" ++ toString p.column

@[simp] theorem past_nil (p : Position) : p.past [] = p := rfl

@[simp] theorem past_cons (p : Position) (byte : UInt8) (bytes : List UInt8) :
    p.past (byte :: bytes) = (p.advance byte).past bytes := rfl

theorem past_append (p : Position) (first second : List UInt8) :
    p.past (first ++ second) = (p.past first).past second := by
  simp [past, List.foldl_append]

end Position

end Scriptlet
