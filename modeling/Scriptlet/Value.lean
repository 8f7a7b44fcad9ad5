import Scriptlet.Number.Text

/-!
# Values

What a program computes with. Values of different kinds are never equal, and numbers are compared
as numbers.
-/

namespace Scriptlet

inductive Value where
  | number (x : Float)
  | boolean (b : Bool)
  | string (s : String)
  | nil
  deriving DecidableEq, Inhabited

namespace Value

def typeName : Value → String
  | .number _ => "number"
  | .boolean _ => "boolean"
  | .string _ => "string"
  | .nil => "nil"

/-- The text of a value as a result: strings stand in quotes. -/
def display : Value → String
  | .number x => Number.display x
  | .boolean b => if b then "true" else "false"
  | .string s => "\"" ++ s ++ "\""
  | .nil => "nil"

/-- The text of a value as output: strings stand as they are. -/
def raw : Value → String
  | .string s => s
  | v => v.display

/-- Equality in the language: zero equals negative zero, and an undefined number equals nothing. -/
def equals : Value → Value → Bool
  | .number x, .number y => x == y
  | .boolean a, .boolean b => a == b
  | .string s, .string t => s == t
  | .nil, .nil => true
  | _, _ => false

end Value

end Scriptlet
