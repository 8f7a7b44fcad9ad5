import Scriptlet.Evaluation.Builtin
import Scriptlet.Evaluation.Operator

/-!
# Evaluation

Every node is evaluated to the end before the node above it goes on. Both operands of `and` and
`or` are evaluated, unless the mode says that the left one may decide alone. The depth of nodes
open at once and the rounds of a loop are bounded.
-/

namespace Scriptlet

/-- How evaluation is done and how far it may go. -/
structure Mode where
  /-- Whether `and` and `or` skip a right operand that cannot matter. -/
  shortCircuit : Bool := false
  /-- How many nodes may be open at once. -/
  depth : Nat := 1000
  /-- How often a loop may go round. -/
  rounds : Nat := 1000000000000000000

namespace Eval

abbrev Visit := Node → Handle → Eval Value

/-- Statements in order; the last value counts. -/
def sequence (visit : Visit) (h : Handle) : Value → List Node → Eval Value
  | value, [] => return value
  | _, node :: rest => do sequence visit h (← visit node h) rest

def arguments (visit : Visit) (h : Handle) : List Node → Eval (List Value)
  | [] => return []
  | node :: rest => do
      let value ← visit node h
      return value :: (← arguments visit h rest)

def condition (visit : Visit) (h : Handle) (construct : String) (node : Node) : Eval Bool := do
  match ← visit node h with
  | .boolean b => return b
  | value => fail (.condition construct value.typeName) node.position

def unary (visit : Visit) (h : Handle) (operator : Kind) (operand : Node)
    (position : Option Position) : Eval Value := do
  let value ← visit operand h
  match Operator.unary? operator value with
  | some result => return result
  | none => fail (.unary operator.text value.typeName) position

def strict (visit : Visit) (h : Handle) (operator : Kind) (left right : Node)
    (position : Option Position) : Eval Value := do
  let x ← visit left h
  let y ← visit right h
  match Operator.strict? operator x y with
  | some result => return result
  | none => fail (.binary operator.text x.typeName y.typeName) position

/-- The logical operator `join`, evaluating both operands. -/
def logicalRest (visit : Visit) (h : Handle) (operator : Kind) (join : Bool → Bool → Bool)
    (x : Value) (right : Node) (position : Option Position) : Eval Value := do
  let y ← visit right h
  match x, y with
  | .boolean a, .boolean b => return .boolean (join a b)
  | _, _ => fail (.binary operator.text x.typeName y.typeName) position

def logical (mode : Mode) (visit : Visit) (h : Handle) (operator : Kind) (decisive : Bool)
    (join : Bool → Bool → Bool) (left right : Node) (position : Option Position) :
    Eval Value := do
  let x ← visit left h
  if mode.shortCircuit then
    match x with
    | .boolean a =>
        if a = decisive then return .boolean a
        else logicalRest visit h operator join x right position
    | _ => fail (.binaryLeft operator.text x.typeName) position
  else logicalRest visit h operator join x right position

def bindAll (h : Handle) : List String → List Value → Eval Unit
  | name :: names, value :: values => do
      update (Arena.assign h name value)
      bindAll h names values
  | _, _ => return ()

/-- Call a function on values: a declared one works in a child of the scope it was declared in. -/
def applyFunction (visit : Visit) (function : Function) (args : List Value)
    (position : Option Position) : Eval Value :=
  match function with
  | .builtin b => locate position (b.apply args)
  | .user f =>
      if args.length = f.params.length then
        inChild f.closure fun h => do
          bindAll h f.params args
          catchReturn (visit f.body h)
      else fail (.arity f.name f.params.length args.length) position

def call (visit : Visit) (h : Handle) (name : String) (args : List Node)
    (position : Option Position) : Eval Value := do
  let function ← query (fun scopes => scopes.lookupFunction h name)
    fun _ => .failed ⟨.undefinedFunction name, position⟩
  let values ← arguments visit h args
  applyFunction visit function values position

/-- Evaluate a node, given how the nodes below it are evaluated. -/
def node (mode : Mode) (visit : Visit) : Visit
  | .number x _, _ => return .number x
  | .boolean b _, _ => return .boolean b
  | .string s _, _ => return .string s
  | .nil _, _ => return .nil
  | .group inner _, h => visit inner h
  | .reference name position, h =>
      query (fun scopes => scopes.lookup h name) fun _ =>
        .failed ⟨.undefinedVariable name, position⟩
  | .unary operator operand position, h => unary visit h operator operand position
  | .binary operator left right position, h =>
      match Operator.logical? operator with
      | some (decisive, join) => logical mode visit h operator decisive join left right position
      | none => strict visit h operator left right position
  | .assign name operand outer _, h => do
      let value ← visit operand h
      if outer then
        let _ ← update (Arena.assignOuter h name value)
        return .nil
      else
        update (Arena.assign h name value)
        return .nil
  | .root statements _, h => sequence visit h .nil statements
  | .block statements _, h => inChild h fun child => sequence visit child .nil statements
  | .ifThen test body _, h => do
      if ← condition visit h "if" test then visit body h else return .nil
  | .ifElse test body otherwise _, h => do
      if ← condition visit h "if" test then visit body h else visit otherwise h
  | .whileLoop test body _, h => do
      let loop : Eval Unit := repeatWhile (condition visit h "while" test)
        (visit body h) mode.rounds
      loop
      return .nil
  | .function name params body _, h => do
      update (Arena.declare h name (.user ⟨name, params, body, h⟩))
      return .nil
  | .call name args position, h => call visit h name args position
  | .ret inner _, h => do
      let value ← visit inner h
      stop (.returned value)
  | .blank, _ => stop .meaningless

/-- Evaluate a node with at most `depth` nodes open at once. -/
def nested (mode : Mode) : (depth : Nat) → Visit
  | 0, _, _ => stop .tooDeep
  | depth + 1, n, h => node mode (nested mode depth) n h

end Eval

inductive Verdict where
  | value (v : Value)
  | error (e : EvalError)
  | scopeFault (fault : Arena.Fault)
  | meaningless
  | tooLong
  deriving DecidableEq

/-- Evaluate a tree in a scope. A value returned on the way is the result, and running out of
depth is an error of the program at the place of the tree. -/
def evaluate (mode : Mode) (tree : Node) (h : Handle) (s : Store) : Verdict × Store :=
  match Eval.nested mode mode.depth tree h s with
  | (.done v, s') => (.value v, s')
  | (.stopped (.returned v), s') => (.value v, s')
  | (.stopped (.failed e), s') => (.error e, s')
  | (.stopped (.scopeFault fault), s') => (.scopeFault fault, s')
  | (.stopped .meaningless, s') => (.meaningless, s')
  | (.stopped .tooDeep, s') => (.error ⟨.tooDeep, tree.position⟩, s')
  | (.stopped .tooLong, s') => (.tooLong, s')

end Scriptlet
