import Scriptlet.Evaluation.Outcome
import Scriptlet.Number.Arithmetic

/-!
# Builtin functions
-/

namespace Scriptlet.Builtin

def twoNumbers (name : String) : List Value → Eval (Float × Float)
  | [.number x, .number y] => return (x, y)
  | [x, y] => Eval.fail (.builtinTypes name x.typeName y.typeName) none
  | args => Eval.fail (.arity name 2 args.length) none

def rawText (args : List Value) : String := "".intercalate (args.map Value.raw)

/-- Apply a builtin function. It does not know where it was called. -/
def apply : Builtin → List Value → Eval Value
  | .print, args => do
      Eval.write (rawText args)
      return .nil
  | .println, args => do
      Eval.write (rawText args ++ "\n")
      return .nil
  | .addTwo, args => do
      let (x, y) ← twoNumbers "add_two" args
      return .number (x + y)
  | .div, args => do
      let (q, n) ← twoNumbers "div" args
      return .boolean (Number.remainder n q == 0)

def all : List Builtin := [.print, .println, .addTwo, .div]

end Scriptlet.Builtin

namespace Scriptlet

def builtinFunctions : List (String × Function) := Builtin.all.map fun b => (b.name, .builtin b)

end Scriptlet
