/-!
# Decimal fractions

A decimal fraction is a natural number over a power of ten. Every fraction is read as the nearest
double, and every positive finite double is written with the fewest digits that read back as it;
of the fractions with that many digits the nearest one is taken.
-/

namespace Scriptlet

/-- The fraction `digits / 10 ^ scale`. -/
structure Decimal where
  digits : Nat
  scale : Nat
  deriving DecidableEq, Repr

namespace Decimal

/-- The double nearest to the fraction, with halves going to the even one. -/
def toFloat (d : Decimal) : Float :=
  Float.ofModel (Float.Model.ofScientific d.digits (-(d.scale : Int)))

def trimZeros : (digits scale : Nat) → Decimal
  | digits, 0 => ⟨digits, 0⟩
  | digits, scale + 1 =>
      if digits % 10 = 0 then trimZeros (digits / 10) scale else ⟨digits, scale + 1⟩

def digitCount (n : Nat) : Nat := (Nat.toDigits 10 n).length

/-- The least `p` with `num / den < 10 ^ p`, for a positive quotient. -/
def magnitude (num den : Nat) : Int :=
  if den ≤ num then (digitCount (num / den) : Int) else 1 - (digitCount ((den - 1) / num) : Int)

/-- The two multiples of `10 ^ exponent` around `num / den`, the nearer one first. At equal
distance the even multiple comes first. -/
def neighbours (num den : Nat) (exponent : Int) : List Decimal :=
  let up := Nat.pow 10 (-exponent).toNat
  let down := Nat.pow 10 exponent.toNat
  let low := num * up / (den * down)
  let decimal (k : Nat) : Decimal := trimZeros (k * down) (-exponent).toNat
  let twice := 2 * (num * up)
  let middle := (2 * low + 1) * (den * down)
  if twice < middle ∨ (twice = middle ∧ low % 2 = 0) then [decimal low, decimal (low + 1)]
  else [decimal (low + 1), decimal low]

def ofDyadic (mantissa : Nat) (exponent : Int) : Decimal :=
  if 0 ≤ exponent then ⟨mantissa <<< exponent.toNat, 0⟩
  else ⟨mantissa * Nat.pow 5 (-exponent).toNat, (-exponent).toNat⟩

/-- Seventeen digits tell any two doubles apart. -/
def maxDigits : Nat := 17

/-- The fewest digits that read back as `x`, which is `mantissa * 2 ^ exponent`. -/
def shortestOf (x : Float) (mantissa : Nat) (exponent : Int) : Decimal :=
  let num := mantissa <<< exponent.toNat
  let den := 1 <<< (-exponent).toNat
  let top := magnitude num den
  let readsBack (d : Decimal) : Bool := d.toFloat.toBits == x.toBits
  let found := (List.range maxDigits).findSome? fun (n : Nat) =>
    (neighbours num den (top - ((n : Int) + 1))).find? readsBack
  found.getD (ofDyadic mantissa exponent)

end Decimal

end Scriptlet
