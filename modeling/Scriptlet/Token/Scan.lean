import Scriptlet.Source.Cursor
import Scriptlet.Text.Utf8
import Scriptlet.Token.Basic

/-!
# Cutting bytes into tokens

A token is the longest one that its first byte can begin. Blanks separate tokens, and a byte that
begins none is skipped and remembered. Only a string without its closing quote stops the scan.
-/

namespace Scriptlet

namespace Byte

def isBlank (b : UInt8) : Bool := b == 32 || b == 9 || b == 13 || b == 10

def isDigit (b : UInt8) : Bool := 48 ≤ b && b ≤ 57

def isWordStart (b : UInt8) : Bool := (97 ≤ b && b ≤ 122) || (65 ≤ b && b ≤ 90) || b == 95

def isWord (b : UInt8) : Bool := isWordStart b || isDigit b

def quote : UInt8 := 34

def dot : UInt8 := 46

def equalSign : UInt8 := 61

/-- The symbols that a following equals sign extends, with what they become. -/
def extensible? (b : UInt8) : Option (Symbol × Symbol) :=
  if b = 61 then some (.equal, .equalEqual)
  else if b = 33 then some (.bang, .bangEqual)
  else if b = 62 then some (.greater, .greaterEqual)
  else if b = 60 then some (.less, .lessEqual)
  else none

/-- The symbols of one byte that nothing extends. -/
def single? (b : UInt8) : Option Symbol :=
  if b = 43 then some .plus
  else if b = 45 then some .minus
  else if b = 42 then some .star
  else if b = 47 then some .slash
  else if b = 37 then some .percent
  else if b = 40 then some .openParen
  else if b = 41 then some .closeParen
  else if b = 58 then some .colon
  else if b = 44 then some .comma
  else if b = 59 then some .semicolon
  else none

def asciiText (bytes : List UInt8) : String :=
  String.ofList (bytes.map fun b => Char.ofNat b.toNat)

def digitsValue (start : Nat) (digits : List UInt8) : Nat :=
  digits.foldl (fun value b => 10 * value + (b.toNat - 48)) start

end Byte

/-- What stands at the beginning of some bytes, and the bytes that spell it. -/
inductive Munch where
  | token (lexeme : Lexeme) (spelling : List UInt8)
  | unclosed (spelling : List UInt8)
  | unknown

namespace Munch

/-- The fractional part that a number's whole digits may be followed by: a dot counts only before
a digit. -/
def fraction : List UInt8 → List UInt8
  | d :: b :: rest =>
      if d = Byte.dot && Byte.isDigit b then b :: rest.takeWhile Byte.isDigit else []
  | _ => []

def number (bytes : List UInt8) : Munch :=
  let whole := bytes.takeWhile Byte.isDigit
  let decimals := fraction (bytes.drop whole.length)
  let value : Decimal := ⟨Byte.digitsValue (Byte.digitsValue 0 whole) decimals, decimals.length⟩
  let spelling := if decimals.isEmpty then whole else whole ++ Byte.dot :: decimals
  .token (.number value.toFloat) spelling

def keyword? (word : String) : Option Lexeme :=
  if word = "true" then some (.boolean true)
  else if word = "false" then some (.boolean false)
  else if word = "nil" then some (.symbol .nil)
  else if word = "and" then some (.symbol .andWord)
  else if word = "or" then some (.symbol .orWord)
  else if word = "if" then some (.symbol .ifWord)
  else if word = "else" then some (.symbol .elseWord)
  else if word = "while" then some (.symbol .whileWord)
  else if word = "fn" then some (.symbol .fnWord)
  else if word = "ret" then some (.symbol .retWord)
  else if word = "nonlocal" then some (.symbol .nonlocalWord)
  else none

def word (bytes : List UInt8) : Munch :=
  let spelling := bytes.takeWhile Byte.isWord
  let text := Byte.asciiText spelling
  .token ((keyword? text).getD (.identifier text)) spelling

/-- A string reaches to the next quote; `tail` follows the opening one. -/
def string (tail : List UInt8) : Munch :=
  let contents := tail.takeWhile (· != Byte.quote)
  match tail.drop contents.length with
  | [] => .unclosed (Byte.quote :: contents)
  | _ :: _ =>
      .token (.string (Utf8.decodeLossy contents)) (Byte.quote :: contents ++ [Byte.quote])

def extensible (first : UInt8) (short long : Symbol) (tail : List UInt8) : Munch :=
  if tail.head? = some Byte.equalSign then .token (.symbol long) [first, Byte.equalSign]
  else .token (.symbol short) [first]

/-- The longest token that `first` begins, followed by `tail`. -/
def longest (first : UInt8) (tail : List UInt8) : Munch :=
  if Byte.isDigit first then number (first :: tail)
  else if Byte.isWordStart first then word (first :: tail)
  else if first = Byte.quote then string tail
  else
    match Byte.extensible? first with
    | some (short, long) => extensible first short long tail
    | none =>
        match Byte.single? first with
        | some symbol => .token (.symbol symbol) [first]
        | none => .unknown

end Munch

/-- A byte that begins no token. -/
structure Skip where
  position : Position
  byte : UInt8
  deriving DecidableEq, Repr

inductive Step where
  | finished (after : Cursor)
  | token (t : Token) (after : Cursor)
  | skipped (s : Skip) (after : Cursor)
  | unclosed (quote : Position) (after : Cursor)

namespace Cursor

def afterBlanks (c : Cursor) : Cursor := (c.takeWhile Byte.isBlank).2

def step (c : Cursor) : Step :=
  let c := c.afterBlanks
  match c.rest with
  | [] => .finished c
  | first :: tail =>
      match Munch.longest first tail with
      | .token lexeme spelling => .token ⟨lexeme, c.position⟩ (c.past spelling)
      | .unclosed spelling => .unclosed c.position (c.past spelling)
      | .unknown => .skipped ⟨c.position, first⟩ (c.past [first])

end Cursor

/-- How the tokens of a source end. -/
inductive Ending where
  | finished (position : Position)
  | unclosed (quote : Position)
  deriving DecidableEq, Repr

/-- A whole source in tokens, with the bytes skipped between them. -/
structure Scan where
  tokens : List Token
  skips : List Skip
  ending : Ending
  deriving DecidableEq

namespace Scan

/-- Each step reads at least one byte, so `fuel` steps read a source of fewer than `fuel` bytes. -/
def run : (fuel : Nat) → Cursor → Scan
  | 0, c => ⟨[], [], .finished c.position⟩
  | fuel + 1, c =>
      match c.step with
      | .finished after => ⟨[], [], .finished after.position⟩
      | .unclosed quote _ => ⟨[], [], .unclosed quote⟩
      | .token t after =>
          let rest := run fuel after
          { rest with tokens := t :: rest.tokens }
      | .skipped s after =>
          let rest := run fuel after
          { rest with skips := s :: rest.skips }

def ofCursor (c : Cursor) : Scan := run (c.rest.length + 1) c

def ofBytes (bytes : List UInt8) : Scan := ofCursor (.ofBytes bytes)

end Scan

end Scriptlet
