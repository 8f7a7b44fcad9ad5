import Scriptlet.Number.Decimal

/-!
# Text of numbers

Values are written positionally whatever their size. The texts of trees and tokens always mark a
number as one: very large and very small numbers have an exponent there, and whole ones end in
`.0`.
-/

namespace Scriptlet.Number

open Float.Model (UnpackedFloat)

/-- A finite number as a sign and a fraction. -/
structure Signed where
  negative : Bool
  size : Decimal
  deriving DecidableEq, Repr

inductive Form where
  | undefined
  | infinite (negative : Bool)
  | finite (number : Signed)
  deriving DecidableEq, Repr

def isNegative : Float.Model.UnpackedFloat.Sign → Bool
  | .negative => true
  | .positive => false

def form (x : Float) : Form :=
  match x.toModel.unpack with
  | .notANumber => .undefined
  | .infinity sign => .infinite (isNegative sign)
  | .zero sign => .finite ⟨isNegative sign, ⟨0, 0⟩⟩
  | .finite sign mantissa exponent _ =>
      let size := Float.ofModel (.pack x.toModel.unpack.abs)
      .finite ⟨isNegative sign, Decimal.shortestOf size mantissa exponent⟩

/-- At least `width` characters, filled with zeros on the left. -/
def padZeros (width : Nat) (digits : List Char) : List Char :=
  List.replicate (width - digits.length) '0' ++ digits

/-- A fraction written out in full, without a point if it is whole. -/
def positionalChars (d : Decimal) : List Char :=
  let digits := padZeros (d.scale + 1) (Nat.toDigits 10 d.digits)
  if d.scale = 0 then digits
  else
    let whole := digits.length - d.scale
    digits.take whole ++ '.' :: digits.drop whole

def signed (negative : Bool) (digits : List Char) : List Char :=
  if negative then '-' :: digits else digits

def displayChars (x : Float) : List Char :=
  match form x with
  | .undefined => ['N', 'a', 'N']
  | .infinite negative => signed negative ['i', 'n', 'f']
  | .finite n => signed n.negative (positionalChars n.size)

def display (x : Float) : String := String.ofList (displayChars x)

/-- Exponents have a sign and at least two digits. -/
def exponentChars (e : Int) : List Char :=
  (if e < 0 then '-' else '+') :: padZeros 2 (Nat.toDigits 10 e.natAbs)

/-- One digit before the point and an exponent after the last digit. -/
def scientificChars (d : Decimal) (exponent : Int) : List Char :=
  let digits := ((Nat.toDigits 10 d.digits).reverse.dropWhile (· == '0')).reverse
  match digits with
  | [] => ['0']
  | [c] => c :: 'e' :: exponentChars exponent
  | c :: rest => c :: '.' :: rest ++ 'e' :: exponentChars exponent

/-- Numbers from `10 ^ -4` up to `10 ^ 16` and zero have no exponent. -/
def literalSize (d : Decimal) : List Char :=
  let exponent : Int := (Decimal.digitCount d.digits : Int) - 1 - d.scale
  if d.digits = 0 ∨ (-4 ≤ exponent ∧ exponent < 16) then
    positionalChars d ++ (if d.scale = 0 then ['.', '0'] else [])
  else scientificChars d exponent

/-- The text of a number in trees and tokens. -/
def literalChars (x : Float) : List Char :=
  match form x with
  | .undefined => ['n', 'a', 'n']
  | .infinite negative => signed negative ['i', 'n', 'f']
  | .finite n => signed n.negative (literalSize n.size)

def literal (x : Float) : String := String.ofList (literalChars x)

end Scriptlet.Number
