import Scriptlet.Proofs.Syntax.Spelling

/-!
# Expressions in trees that were read

A tree may put any node below any other, but not so a tree that was read from a source: below an
expression there are only expressions. So if no node of an operand assigns or calls, the operand is
made of values, variables and operators alone.
-/

namespace Scriptlet

namespace Node

/-! ## Nodes of a tree -/

/-- Every node of the tree satisfies `P`. -/
inductive Everywhere (P : Node → Prop) : Node → Prop where
  | mk {n : Node} (here : P n) (children : ∀ child ∈ n.children, Everywhere P child) :
      Everywhere P n

inductive Within (tree : Node) : Node → Prop where
  | top : Within tree tree
  | child {n child : Node} (above : Within tree n) (isChild : child ∈ n.children) :
      Within tree child

def statements : Node → List Node
  | .root xs _ | .block xs _ => xs
  | _ => []

section

variable {P Q : Node → Prop} {n : Node}

theorem everywhere_iff : Everywhere P n ↔ P n ∧ ∀ child ∈ n.children, Everywhere P child := by
  constructor
  · intro h
    cases h with
    | mk here children => exact ⟨here, children⟩
  · intro h
    exact .mk h.1 h.2

theorem Everywhere.within {tree : Node} (h : Everywhere P tree) (hn : Within tree n) :
    Everywhere P n := by
  induction hn with
  | top => exact h
  | child above isChild ih => exact (everywhere_iff.mp ih).2 _ isChild

end

/-! ## Expressions -/

def isExpression : Node → Bool
  | .number .. | .boolean .. | .string .. | .nil .. | .reference .. | .group .. | .unary ..
  | .binary .. | .assign .. | .call .. => true
  | _ => false

def acts : Node → Bool
  | .assign .. | .call .. => true
  | _ => false

/-- If the node is an expression, so are the nodes directly below it. -/
def Composed (n : Node) : Prop :=
  n.isExpression = true → ∀ child ∈ n.children, child.isExpression = true

theorem everywhere_composed_of_statement {n : Node} (h : n.isExpression = false)
    (children : ∀ child ∈ n.children, Everywhere Composed child) : Everywhere Composed n := by
  refine .mk ?_ children
  intro expression
  rw [h] at expression
  cases expression

/-- An expression that was read, with all that is below it. -/
def ReadExpression (n : Node) : Prop := n.isExpression = true ∧ Everywhere Composed n

theorem readExpression_of_children {n : Node} (h : n.isExpression = true)
    (children : ∀ child ∈ n.children, ReadExpression child) : ReadExpression n :=
  ⟨h, .mk (fun _ child hchild => (children child hchild).1) fun child hchild =>
    (children child hchild).2⟩

/-- An expression without assignments and calls has no other nodes either. -/
theorem ReadExpression.everywhere {n : Node} (h : n.ReadExpression)
    (inert : Everywhere (fun m => m.acts = false) n) :
    Everywhere (fun m => m.isExpression = true ∧ m.acts = false) n := by
  obtain ⟨expression, composed⟩ := h
  induction composed with
  | mk here children ih =>
      obtain ⟨idle, below⟩ := everywhere_iff.mp inert
      refine .mk ⟨expression, idle⟩ ?_
      intro child hchild
      exact ih child hchild (below child hchild) (here expression child hchild)

end Node

open Node

def Part.ofExpressions : Part → Bool
  | .expression _ | .arguments => true
  | _ => false

def ReadNodes (part : Part) (nodes : List Node) : Prop :=
  ∀ n ∈ nodes, Everywhere Composed n ∧ (part.ofExpressions = true → n.isExpression = true)

theorem readNodes_alone {part : Part} {n : Node} (h : n.ReadExpression) : ReadNodes part [n] :=
  List.forall_mem_singleton.mpr ⟨h.2, fun _ => h.1⟩

theorem readNodes_statement {n : Node} {part : Part} (hpart : part.ofExpressions = false)
    (h : Everywhere Composed n) : ReadNodes part [n] := by
  refine List.forall_mem_singleton.mpr ⟨h, ?_⟩
  intro ofExpressions
  rw [hpart] at ofExpressions
  cases ofExpressions

theorem ReadNodes.expression {levels : List Parser.Level} {n : Node}
    (h : ReadNodes (.expression levels) [n]) : n.ReadExpression :=
  have alone := List.forall_mem_singleton.mp h
  ⟨alone.2 rfl, alone.1⟩

/-- A body is no expression, whatever it is made of. -/
theorem everywhere_composed_bodyAt {nodes : List Node} (h : ReadNodes .statements nodes)
    (w : List Token) (next : Token) : Everywhere Composed (bodyAt nodes w next) :=
  everywhere_composed_of_statement rfl fun n hn => (h n hn).1

theorem Spells.readNodes {part : Part} {nodes : List Node} {w : List Token}
    (h : Spells part nodes w) : ReadNodes part nodes := by
  induction h with
  | number | boolean | string | nil | reference =>
      exact readNodes_alone (readExpression_of_children rfl fun _ hchild => by cases hchild)
  | unary _ _ _ ih | group _ _ _ ih | assign _ _ _ _ ih =>
      exact readNodes_alone
        (readExpression_of_children rfl (List.forall_mem_singleton.mpr ih.expression))
  | call _ _ _ _ _ ih =>
      exact readNodes_alone
        (readExpression_of_children rfl fun child hchild =>
          ⟨(ih child hchild).2 rfl, (ih child hchild).1⟩)
  | single _ ih => exact readNodes_alone ih.expression
  | joined _ _ _ _ ihl ihr =>
      refine readNodes_alone (readExpression_of_children rfl ?_)
      exact List.forall_mem_cons.mpr
        ⟨ihl.expression, List.forall_mem_singleton.mpr ihr.expression⟩
  | noArguments | noStatements => exact fun _ hn => by cases hn
  | lastArgument _ ih | expression _ ih => exact readNodes_alone ih.expression
  | moreArguments _ _ _ ihf iho =>
      exact List.forall_mem_cons.mpr ⟨⟨ihf.expression.2, fun _ => ihf.expression.1⟩, iho⟩
  | ret _ _ ih =>
      exact readNodes_statement rfl (everywhere_composed_of_statement rfl
        (List.forall_mem_singleton.mpr ih.expression.2))
  | outer _ _ _ _ _ ih =>
      exact readNodes_alone
        (readExpression_of_children rfl (List.forall_mem_singleton.mpr ih.expression))
  | ifThen _ _ _ _ _ ihc ihb | whileLoop _ _ _ _ _ ihc ihb =>
      refine readNodes_statement rfl (everywhere_composed_of_statement rfl ?_)
      exact List.forall_mem_cons.mpr
        ⟨ihc.expression.2, List.forall_mem_singleton.mpr (everywhere_composed_bodyAt ihb _ _)⟩
  | ifElse _ _ _ _ _ _ _ ihc ihb ihe =>
      refine readNodes_statement rfl (everywhere_composed_of_statement rfl ?_)
      refine List.forall_mem_cons.mpr ⟨ihc.expression.2, List.forall_mem_cons.mpr ?_⟩
      exact ⟨everywhere_composed_bodyAt ihb _ _,
        List.forall_mem_singleton.mpr (everywhere_composed_bodyAt ihe _ _)⟩
  | function _ _ _ _ _ _ _ _ _ ihb =>
      refine readNodes_statement rfl (everywhere_composed_of_statement rfl ?_)
      exact List.forall_mem_singleton.mpr (everywhere_composed_bodyAt ihb _ _)
  | lastStatement _ ih => exact ih
  | afterSimple _ _ _ ihf iho | afterControlComma _ _ _ ihf iho | afterControl _ _ ihf iho =>
      exact List.forall_mem_cons.mpr
        ⟨⟨(List.forall_mem_singleton.mp ihf).1, Bool.noConfusion⟩, iho⟩

/-- In a tree that was read there are only expressions below an expression. -/
theorem everywhere_composed_tree (nesting : Nat) (source : List UInt8) :
    Everywhere Composed (Parsed.ofBytes nesting source).tree := by
  have hnone : Everywhere Composed (.nil none) :=
    (readExpression_of_children rfl fun _ hchild => by cases hchild).2
  unfold Parsed.ofBytes Parsed.ofScan
  cases hroot : Parser.root nesting (Scan.ofBytes source).tokens with
  | error failure => exact hnone
  | ok result =>
      cases hend : (Scan.ofBytes source).ending with
      | unclosed quote => exact hnone
      | finished last =>
          obtain ⟨tree, rest⟩ := result
          obtain ⟨-, nodes, rfl, hspells⟩ := Parser.root_eq_ok hroot
          exact everywhere_composed_of_statement rfl fun n hn => (hspells.readNodes n hn).1

end Scriptlet
