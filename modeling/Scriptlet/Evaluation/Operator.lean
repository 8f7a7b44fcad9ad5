import Scriptlet.Number.Arithmetic
import Scriptlet.Token.Basic
import Scriptlet.Value

/-!
# Operators on values

Each operator is a partial function: there is no result where the values have the wrong types or
the token is no such operator.
-/

namespace Scriptlet.Operator

def arithmetic? : Symbol → Option (Float → Float → Float)
  | .plus => some (· + ·)
  | .minus => some (· - ·)
  | .star => some (· * ·)
  | .slash => some (· / ·)
  | .percent => some Number.remainder
  | _ => none

def comparison? : Symbol → Option (Float → Float → Bool)
  | .greater => some fun x y => y < x
  | .greaterEqual => some fun x y => y ≤ x
  | .less => some fun x y => x < y
  | .lessEqual => some fun x y => x ≤ y
  | _ => none

def unary? : Kind → Value → Option Value
  | .symbol .minus, .number x => some (.number (-x))
  | .symbol .bang, .boolean b => some (.boolean !b)
  | _, _ => none

def onNumbers? (operator : Symbol) (x y : Float) : Option Value :=
  match arithmetic? operator with
  | some f => some (.number (f x y))
  | none => (comparison? operator).map fun f => .boolean (f x y)

/-- Every binary operator that looks at both values: all but `and` and `or`. -/
def strict? : Kind → Value → Value → Option Value
  | .symbol .equalEqual, x, y => some (.boolean (x.equals y))
  | .symbol .bangEqual, x, y => some (.boolean !(x.equals y))
  | .symbol operator, .number x, .number y => onNumbers? operator x y
  | .symbol .plus, .string s, .string t => some (.string (s ++ t))
  | _, _, _ => none

/-- The logical operators, with the left value that decides them. -/
def logical? : Kind → Option (Bool × (Bool → Bool → Bool))
  | .symbol .andWord => some (false, (· && ·))
  | .symbol .orWord => some (true, (· || ·))
  | _ => none

end Scriptlet.Operator
