import Scriptlet.Token.Basic

/-!
# Syntax trees

One type of node for programs, statements and expressions. A node knows the position of its first
token if it was read from a source. Operators are kinds of tokens: a tree that was built by hand
may hold any of them, and evaluation says which ones have a meaning.
-/

namespace Scriptlet

inductive Node where
  | root (statements : List Node) (position : Option Position)
  | block (statements : List Node) (position : Option Position)
  | number (x : Float) (position : Option Position)
  | boolean (b : Bool) (position : Option Position)
  | string (s : String) (position : Option Position)
  | nil (position : Option Position)
  | reference (name : String) (position : Option Position)
  | group (inner : Node) (position : Option Position)
  | unary (operator : Kind) (operand : Node) (position : Option Position)
  | binary (operator : Kind) (left right : Node) (position : Option Position)
  | assign (name : String) (operand : Node) (outer : Bool) (position : Option Position)
  | ifThen (condition body : Node) (position : Option Position)
  | ifElse (condition body otherwise : Node) (position : Option Position)
  | whileLoop (condition body : Node) (position : Option Position)
  | function (name : String) (params : List String) (body : Node) (position : Option Position)
  | call (name : String) (args : List Node) (position : Option Position)
  | ret (inner : Node) (position : Option Position)
  /-- A node without any content, which nothing can be done with. -/
  | blank

namespace Node

instance : Inhabited Node := ⟨.nil none⟩

def position : Node → Option Position
  | .root _ p => p
  | .block _ p => p
  | .number _ p => p
  | .boolean _ p => p
  | .string _ p => p
  | .nil p => p
  | .reference _ p => p
  | .group _ p => p
  | .unary _ _ p => p
  | .binary _ _ _ p => p
  | .assign _ _ _ p => p
  | .ifThen _ _ p => p
  | .ifElse _ _ _ p => p
  | .whileLoop _ _ p => p
  | .function _ _ _ p => p
  | .call _ _ p => p
  | .ret _ p => p
  | .blank => none

def children : Node → List Node
  | .root statements _ => statements
  | .block statements _ => statements
  | .group inner _ => [inner]
  | .unary _ operand _ => [operand]
  | .binary _ left right _ => [left, right]
  | .assign _ operand _ _ => [operand]
  | .ifThen condition body _ => [condition, body]
  | .ifElse condition body otherwise _ => [condition, body, otherwise]
  | .whileLoop condition body _ => [condition, body]
  | .function _ _ body _ => [body]
  | .call _ args _ => args
  | .ret inner _ => [inner]
  | _ => []

theorem sizeOf_lt_of_mem_children {child node : Node} (h : child ∈ node.children) :
    sizeOf child < sizeOf node := by
  cases node with
  | root statements _ | block statements _ | call _ statements _ =>
      have := List.sizeOf_lt_of_mem (show child ∈ statements from h)
      simp only [root.sizeOf_spec, block.sizeOf_spec, call.sizeOf_spec]
      omega
  | number | boolean | string | nil | reference | blank => simp [children] at h
  | _ =>
      simp only [children, List.mem_cons, List.not_mem_nil, or_false] at h
      grind

/-- A property that passes from the children of a node to the node holds of every node. -/
theorem induction_children {motive : Node → Prop}
    (step : ∀ node : Node, (∀ child ∈ node.children, motive child) → motive node) (node : Node) :
    motive node :=
  step node fun child h =>
    have := sizeOf_lt_of_mem_children h
    induction_children step child
termination_by node

/-- Every node with its depth below the top, parents before children, and `after` behind them. -/
def preorderOnto (depth : Nat) (node : Node) (after : List (Nat × Node)) : List (Nat × Node) :=
  (depth, node) ::
    node.children.attach.foldr (fun child rest => preorderOnto (depth + 1) child.1 rest) after
termination_by node
decreasing_by exact sizeOf_lt_of_mem_children child.2

def preorder (node : Node) : List (Nat × Node) := preorderOnto 0 node []

mutual

/-- Equality of trees apart from positions, with numbers compared as numbers. -/
def equals : Node → Node → Bool
  | .root xs _, .root ys _ => equalsAll xs ys
  | .block xs _, .block ys _ => equalsAll xs ys
  | .number x _, .number y _ => x == y
  | .boolean a _, .boolean b _ => a == b
  | .string s _, .string t _ => s == t
  | .nil _, .nil _ => true
  | .reference a _, .reference b _ => a == b
  | .group x _, .group y _ => equals x y
  | .unary o x _, .unary q y _ => o == q && equals x y
  | .binary o x x' _, .binary q y y' _ => o == q && equals x y && equals x' y'
  | .assign a x f _, .assign b y g _ => a == b && f == g && equals x y
  | .ifThen x x' _, .ifThen y y' _ => equals x y && equals x' y'
  | .ifElse x x' x'' _, .ifElse y y' y'' _ => equals x y && equals x' y' && equals x'' y''
  | .whileLoop x x' _, .whileLoop y y' _ => equals x y && equals x' y'
  | .function a ps x _, .function b qs y _ => a == b && ps == qs && equals x y
  | .call a xs _, .call b ys _ => a == b && equalsAll xs ys
  | .ret x _, .ret y _ => equals x y
  | _, _ => false

def equalsAll : List Node → List Node → Bool
  | [], [] => true
  | x :: xs, y :: ys => equals x y && equalsAll xs ys
  | _, _ => false

end

end Node

end Scriptlet
