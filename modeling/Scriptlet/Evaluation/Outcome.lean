import Scriptlet.Diagnostic.Basic
import Scriptlet.Scope.Arena
import Scriptlet.Tree.Node
import Scriptlet.Value

/-!
# Computations of the evaluator

A computation works on the scopes and on the output written so far. It may come to a stop before
it has a result; what it did until then remains.
-/

namespace Scriptlet

inductive Builtin where
  | print
  | println
  | addTwo
  | div
  deriving DecidableEq, Repr

def Builtin.name : Builtin → String
  | .print => "print"
  | .println => "println"
  | .addTwo => "add_two"
  | .div => "div"

/-- A function declared by a program, with the scope it was declared in. -/
structure UserFunction where
  name : String
  params : List String
  body : Node
  closure : Handle

def UserFunction.display (f : UserFunction) : String :=
  "UserFunction(" ++ f.name ++ "(" ++ ", ".intercalate f.params ++ "))"

inductive Function where
  | builtin (b : Builtin)
  | user (f : UserFunction)

abbrev Scopes := Arena Value Function

structure Store where
  scopes : Scopes
  output : String := ""

inductive Stop where
  /-- A value on its way to the nearest call. -/
  | returned (value : Value)
  | failed (error : EvalError)
  /-- A scope was not there. -/
  | scopeFault (fault : Arena.Fault)
  /-- A node that has no meaning. -/
  | meaningless
  /-- More levels were open than allowed. -/
  | tooDeep
  /-- A loop took more rounds than allowed. -/
  | tooLong
  deriving DecidableEq

inductive Outcome (α : Type) where
  | done (a : α)
  | stopped (why : Stop)

def Eval (α : Type) : Type := Store → Outcome α × Store

namespace Eval

variable {α β : Type}

def pure (a : α) : Eval α := fun s => (.done a, s)

def bind (m : Eval α) (f : α → Eval β) : Eval β := fun s =>
  match m s with
  | (.done a, s') => f a s'
  | (.stopped why, s') => (.stopped why, s')

instance : Monad Eval where
  pure := Eval.pure
  bind := Eval.bind

@[simp] theorem pure_apply (a : α) (s : Store) : (Pure.pure a : Eval α) s = (.done a, s) := rfl

theorem bind_of_done {m : Eval α} {f : α → Eval β} {s s' : Store} {a : α}
    (h : m s = (.done a, s')) : (m >>= f) s = f a s' := by
  change Eval.bind m f s = _
  simp [Eval.bind, h]

theorem bind_of_stopped {m : Eval α} {f : α → Eval β} {s s' : Store} {why : Stop}
    (h : m s = (.stopped why, s')) : (m >>= f) s = (.stopped why, s') := by
  change Eval.bind m f s = _
  simp [Eval.bind, h]

def stop (why : Stop) : Eval α := fun s => (.stopped why, s)

def fail (cause : EvalError.Cause) (position : Option Position) : Eval α :=
  stop (.failed ⟨cause, position⟩)

def write (text : String) : Eval Unit := fun s => (.done (), { s with output := s.output ++ text })

/-- Read from the scopes; `fault` says how a fault stops the run. -/
def query (ask : Scopes → Except Arena.Fault α) (fault : Arena.Fault → Stop) : Eval α := fun s =>
  match ask s.scopes with
  | .ok a => (.done a, s)
  | .error f => (.stopped (fault f), s)

def update (action : Arena.Action Value Function α) : Eval α := fun s =>
  match action s.scopes with
  | (.ok a, scopes) => (.done a, { s with scopes := scopes })
  | (.error f, scopes) => (.stopped (.scopeFault f), { s with scopes := scopes })

def discard (h : Handle) : Eval Unit := update (Arena.discard h)

/-- Work in a new child of `parent`, which is removed again however the work ends. -/
def inChild (parent : Handle) (work : Handle → Eval α) : Eval α := do
  let child ← update (Arena.extend parent)
  fun s =>
    let (outcome, s') := work child s
    match discard child s' with
    | (.done _, s'') => (outcome, s'')
    | (.stopped why, s'') => (.stopped why, s'')

/-- A value that `work` returns early is its result. -/
def catchReturn (work : Eval Value) : Eval Value := fun s =>
  match work s with
  | (.stopped (.returned value), s') => (.done value, s')
  | result => result

/-- Give `position` to an error that has none. -/
def locate (position : Option Position) (work : Eval α) : Eval α := fun s =>
  match work s with
  | (.stopped (.failed error), s') => (.stopped (.failed (error.locate position)), s')
  | result => result

/-- Run `body` as long as `condition` holds, at most `rounds` times. -/
def repeatWhile (condition : Eval Bool) (body : Eval Value) :
    (rounds : Nat) → Store → Outcome Unit × Store
  | 0, s => (.stopped .tooLong, s)
  | rounds + 1, s =>
      match condition s with
      | (.stopped why, s') => (.stopped why, s')
      | (.done false, s') => (.done (), s')
      | (.done true, s') =>
          match body s' with
          | (.stopped why, s'') => (.stopped why, s'')
          | (.done _, s'') => repeatWhile condition body rounds s''

end Eval

end Scriptlet
