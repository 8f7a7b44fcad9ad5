import Scriptlet.Tree.Node

/-!
# Text of a tree

A node is written with its name, its attributes and, one level further in, the nodes below it.
Levels are indented by four blanks, and a tree with too many levels has no text.
-/

namespace Scriptlet

/-- A part of a node that is not itself a node. -/
inductive Attribute where
  | number (x : Float)
  | boolean (b : Bool)
  | text (s : String)
  | names (list : List String)
  | absent
  deriving DecidableEq

namespace Attribute

/-- Names between parentheses; a single one is followed by a comma. -/
def namesText : List String → String
  | [] => "()"
  | [name] => "(" ++ Text.quoted name ++ ",)"
  | list => "(" ++ ", ".intercalate (list.map Text.quoted) ++ ")"

def display : Attribute → String
  | .number x => Number.literal x
  | .boolean b => if b then "True" else "False"
  | .text s => Text.quoted s
  | .names list => namesText list
  | .absent => "None"

end Attribute

namespace Node

def label : Node → String
  | .root .. => "ProgramRoot"
  | .block .. => "Program"
  | .number .. => "NumberLiteral"
  | .boolean .. => "BooleanLiteral"
  | .string .. => "StringLiteral"
  | .nil .. => "NilLiteral"
  | .reference .. => "Identifier"
  | .group .. => "Grouping"
  | .unary .. => "UnaryExpr"
  | .binary .. => "BinaryExpr"
  | .assign .. => "Assignment"
  | .ifThen .. => "IfStmt"
  | .ifElse .. => "IfStmt"
  | .whileLoop .. => "WhileStmt"
  | .function .. => "FnStmt"
  | .call .. => "FnCall"
  | .ret .. => "RetStmt"
  | .blank => "AstNode"

/-- The named parts of a node that are not nodes; an empty list of nodes counts as one. -/
def attributes : Node → List (String × Attribute)
  | .root [] _ => [("statements", .names [])]
  | .block [] _ => [("statements", .names [])]
  | .number x _ => [("value", .number x)]
  | .boolean b _ => [("value", .boolean b)]
  | .string s _ => [("value", .text s)]
  | .reference name _ => [("name", .text name)]
  | .unary operator _ _ => [("operator", .text operator.text)]
  | .binary operator _ _ _ => [("operator", .text operator.text)]
  | .assign name _ outer _ => [("identifier", .text name), ("is_nonlocal", .boolean outer)]
  | .ifThen _ _ _ => [("else_body", .absent)]
  | .function name params _ _ => [("identifier", .text name), ("params", .names params)]
  | .call name [] _ => [("identifier", .text name), ("args", .names [])]
  | .call name _ _ => [("identifier", .text name)]
  | _ => []

def attributesText (attributes : List (String × Attribute)) : String :=
  ", ".intercalate (attributes.map fun entry => entry.1 ++ "=" ++ entry.2.display)

def indentation (level : Nat) : String := String.ofList (List.replicate (4 * level) ' ')

def allSome {α : Type} : List (Option α) → Option (List α)
  | [] => some []
  | none :: _ => none
  | some a :: rest => (allSome rest).map (a :: ·)

/-- The text of a node with at most `limit` levels, starting `level` levels in. -/
def displayFrom : (limit level : Nat) → Node → Option String
  | 0, _, _ => none
  | limit + 1, level, node =>
      let attributes := attributesText node.attributes
      let head := indentation level ++ node.label ++ "(" ++ attributes
      match allSome (node.children.map fun child => displayFrom limit (level + 1) child) with
      | none => none
      | some [] => some (head ++ ")")
      | some texts =>
          let separator := if attributes.isEmpty then "" else ", "
          some (head ++ separator ++ "nodes=[\n" ++ ",\n".intercalate texts ++ "\n" ++
            indentation level ++ "])")

def display (limit : Nat) (node : Node) : Option String := displayFrom limit 0 node

end Node

end Scriptlet
