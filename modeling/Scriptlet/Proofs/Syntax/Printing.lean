import Scriptlet.Proofs.Syntax.Precedence
import Scriptlet.Proofs.Token.SourceText

/-!
# Trees printed as source

A tree is printed with parentheses around the operands that do not end by themselves, and with a
comma between any two statements. Every tree that can stand in a source is read back from what is
printed, if the parser may nest as deep as the printed tree does; only groups have been added.
-/

namespace Scriptlet

open Node (SameShape SameShapes written writtenAll)

/-! ## Trees that can be printed -/

/-- Expressions that can stand in a source. -/
inductive Expressible : Node → Prop
  | number {x : Float} (hx : Number.Writable x) (p : Option Position) : Expressible (.number x p)
  | boolean (b : Bool) (p : Option Position) : Expressible (.boolean b p)
  | string {s : String} (hs : '"' ∉ s.toList) (p : Option Position) : Expressible (.string s p)
  | nil (p : Option Position) : Expressible (.nil p)
  | reference {name : String} (hname : IsIdentifier name) (p : Option Position) :
      Expressible (.reference name p)
  | group {x : Node} (hx : Expressible x) (p : Option Position) : Expressible (.group x p)
  | unary {s : Symbol} (hs : s = .bang ∨ s = .minus) {x : Node} (hx : Expressible x)
      (p : Option Position) : Expressible (.unary (.symbol s) x p)
  | binary {s : Symbol} (hs : s.IsBinary) {x y : Node} (hx : Expressible x)
      (hy : Expressible y) (p : Option Position) : Expressible (.binary (.symbol s) x y p)
  | assign {name : String} (hname : IsIdentifier name) {x : Node} (hx : Expressible x)
      (p : Option Position) : Expressible (.assign name x false p)
  | call {name : String} (hname : IsIdentifier name) {args : List Node}
      (hargs : ∀ a ∈ args, Expressible a) (p : Option Position) : Expressible (.call name args p)

/-- Statements that can stand in a source. Bodies are blocks, and a `ret` or a `nonlocal` is a
statement of its own. -/
inductive ExpressibleStatement : Node → Prop
  | expression {x : Node} (hx : Expressible x) : ExpressibleStatement x
  | ret {x : Node} (hx : Expressible x) (p : Option Position) : ExpressibleStatement (.ret x p)
  | outer {name : String} (hname : IsIdentifier name) {x : Node} (hx : Expressible x)
      (p : Option Position) : ExpressibleStatement (.assign name x true p)
  | ifThen {c : Node} (hc : Expressible c) {xs : List Node}
      (hxs : ∀ x ∈ xs, ExpressibleStatement x) (p q : Option Position) :
      ExpressibleStatement (.ifThen c (.block xs p) q)
  | ifElse {c : Node} (hc : Expressible c) {xs ys : List Node}
      (hxs : ∀ x ∈ xs, ExpressibleStatement x) (hys : ∀ y ∈ ys, ExpressibleStatement y)
      (p q r : Option Position) : ExpressibleStatement (.ifElse c (.block xs p) (.block ys q) r)
  | whileLoop {c : Node} (hc : Expressible c) {xs : List Node}
      (hxs : ∀ x ∈ xs, ExpressibleStatement x) (p q : Option Position) :
      ExpressibleStatement (.whileLoop c (.block xs p) q)
  | function {name : String} (hname : IsIdentifier name) {params : List String}
      (hparams : ∀ param ∈ params, IsIdentifier param) {xs : List Node}
      (hxs : ∀ x ∈ xs, ExpressibleStatement x) (p q : Option Position) :
      ExpressibleStatement (.function name params (.block xs p) q)

inductive ExpressibleProgram : Node → Prop
  | root {xs : List Node} (hxs : ∀ x ∈ xs, ExpressibleStatement x) (p : Option Position) :
      ExpressibleProgram (.root xs p)

/-! ## Parentheses -/

namespace Node

/-- Operands that end by themselves: literals, names, calls and groups. -/
def isClosed : Node → Bool
  | .number .. => true
  | .boolean .. => true
  | .string .. => true
  | .nil .. => true
  | .reference .. => true
  | .call .. => true
  | .group .. => true
  | _ => false

/-- An operand in parentheses, unless it ends by itself. -/
def enclosed (x : Node) : Node := if x.isClosed then x else .group x none

/-- The operands of an operator in parentheses where they need them. -/
def enclose : Node → Node
  | .unary operator x p => .unary operator x.enclosed p
  | .binary operator x y p => .binary operator x.enclosed y.enclosed p
  | n => n

/-- The tree with parentheses around the operands that need them. -/
def parenthesized : Node → Node := rebuild id enclose

def parenthesizedAll : List Node → List Node := rebuildAll id enclose

def ungroup : Node → Node
  | .group x _ => x
  | n => n

def ungrouped : Node → Node := rebuild id ungroup

mutual

/-- How many levels are open at once while the tree is read. A group, the arguments of a call, the
right side of an assignment, the operand of a unary operator and a body open one each. -/
def nesting : Node → Nat
  | .root xs _ => nestingAll xs
  | .block xs _ => nestingAll xs
  | .group x _ => nesting x + 1
  | .unary _ x _ => nesting x + 1
  | .binary _ x y _ => max (nesting x) (nesting y)
  | .assign _ x false _ => nesting x + 1
  | .assign _ x true _ => nesting x
  | .ifThen c x _ => max (nesting c) (nesting x + 1)
  | .ifElse c x y _ => max (nesting c) (max (nesting x) (nesting y) + 1)
  | .whileLoop c x _ => max (nesting c) (nesting x + 1)
  | .function _ _ x _ => nesting x + 1
  | .call _ [] _ => 0
  | .call _ (x :: xs) _ => max (nesting x) (nestingAll xs) + 1
  | .ret x _ => nesting x
  | _ => 0

def nestingAll : List Node → Nat
  | [] => 0
  | x :: xs => max (nesting x) (nestingAll xs)

end

abbrev everyComma : Node → Bool := fun _ => true

def printed (tree : Node) : String := sourceText (tree.parenthesized.written everyComma)

theorem ungrouped_enclosed (x : Node) : x.enclosed.ungrouped = x.ungrouped := by
  unfold enclosed
  split <;> rfl

theorem ungrouped_parenthesized (x : Node) : x.parenthesized.ungrouped = x.ungrouped := by
  refine rebuild_rebuild (fun n => ?_) x
  cases n with
  | unary operator x p => exact congrArg (Node.unary operator · p) x.ungrouped_enclosed
  | binary operator x y p =>
      exact congrArg₂ (Node.binary operator · · p) x.ungrouped_enclosed y.ungrouped_enclosed
  | _ => rfl

theorem bare_ungrouped (x : Node) : x.ungrouped.bare = x.bare.ungrouped := by
  refine rebuild_comm (fun n => ?_) x
  cases n with
  | group x p => rfl
  | _ => exact rebuild_eq _

theorem SameShape.ungrouped {x y : Node} (h : SameShape x y) :
    SameShape x.ungrouped y.ungrouped := by
  unfold SameShape at *
  rw [bare_ungrouped, bare_ungrouped, h]

theorem nesting_le_nestingAll {x : Node} {xs : List Node} (h : x ∈ xs) :
    x.nesting ≤ nestingAll xs := by
  induction xs with
  | nil => cases h
  | cons y xs ih =>
      rw [nestingAll]
      rcases List.mem_cons.mp h with rfl | h
      · omega
      · have := ih h
        omega

end Node

theorem mem_commaSeparated {l : Lexeme} {items : List (List Lexeme)}
    (h : l ∈ commaSeparated items) :
    l = .symbol .comma ∨ ∃ ls ∈ items, l ∈ ls := by
  induction items with
  | nil => cases h
  | cons ls items ih =>
      by_cases hitems : items = []
      · subst hitems
        exact .inr ⟨ls, .head _, h⟩
      · rw [commaSeparated_cons hitems, List.mem_append, List.mem_cons] at h
        rcases h with h | rfl | h
        · exact .inr ⟨ls, .head _, h⟩
        · exact .inl rfl
        · rcases ih h with hl | ⟨ls', hls', hl⟩
          · exact .inl hl
          · exact .inr ⟨ls', .tail _ hls', hl⟩

theorem writable_commaSeparated {α : Type} {W : α → List Lexeme} {as : List α}
    (h : ∀ a ∈ as, ∀ l ∈ W a, l.Writable) : ∀ l ∈ commaSeparated (as.map W), l.Writable := by
  intro l hl
  rcases mem_commaSeparated hl with rfl | ⟨ls, hls, hl⟩
  · trivial
  · obtain ⟨a, ha, rfl⟩ := List.mem_map.mp hls
    exact h a ha l hl

namespace Parser

/-! ## Levels further in -/

/-- The parser that has one level less, if there is one. -/
def below {α : Type} (p : Nat → Parser α) : Nat → Parser α
  | 0 => tooDeep
  | depth + 1 => p depth

theorem operand_eq_below (depth : Nat) :
    operand depth =
      operandWith (below operand depth) (below (fun depth => expression (operand depth))
        depth) := by
  cases depth <;> rfl

theorem statements_eq_below (depth : Nat) :
    statements depth = statementsWith (expression (operand depth))
      (below (fun depth => body (statements depth)) depth) := by
  cases depth <;> rfl

theorem Cuts.below {α : Type} {p : Nat → Parser α} (h : ∀ depth, Cuts (p depth)) (depth : Nat) :
    Cuts (below p depth) := by
  cases depth with
  | zero => exact .tooDeep
  | succ depth => exact h depth

theorem ReadsBack.below {α : Type} {p : Nat → Parser α} {S : Option Lexeme → Prop}
    {R : α → α → Prop} {a : α} {ls : List Lexeme} {n depth : Nat}
    (h : ∀ depth, n ≤ depth → ReadsBack S R (p depth) a ls) (hdepth : n < depth) :
    ReadsBack S R (below p depth) a ls := by
  cases depth with
  | zero => omega
  | succ depth => exact h depth (Nat.le_of_lt_succ hdepth)

end Parser

open Scriptlet.Parser

open Node (everyComma)

/-! ## Expressions -/

/-- What is written for an expression can stand in a source and is read as the expression. One that
ends by itself is read as an operand too, whatever operator comes next. -/
structure PrintsExpression (x : Node) : Prop where
  reads : ∀ depth, x.nesting ≤ depth →
    ReadsBack HaltsAt SameShape (expression (operand depth)) x (written everyComma x)
  readsClosed : x.isClosed = true → ∀ depth, x.nesting ≤ depth →
    ReadsBack FollowsOperand SameShape (operand depth) x (written everyComma x)
  starts : ∃ l, (written everyComma x).head? = some l ∧ l.kind.startsOperand = true
  writable : ∀ l ∈ written everyComma x, l.Writable

namespace PrintsExpression

variable {x y : Node} {p : Option Position}

theorem of_closed (hreads : ∀ depth, x.nesting ≤ depth →
      ReadsBack FollowsOperand SameShape (operand depth) x (written everyComma x))
    (hstarts : ∃ l, (written everyComma x).head? = some l ∧ l.kind.startsOperand = true)
    (hwritable : ∀ l ∈ written everyComma x, l.Writable) : PrintsExpression x where
  reads depth hdepth := expression_readsBack_operand (.operand depth)
    ((hreads depth hdepth).mono fun _ => HaltsAt.followsOperand)
  readsClosed _ := hreads
  starts := hstarts
  writable := hwritable

/-- An operand is read back from what is written for it if its parts are. -/
theorem operand_reads {S : Option Lexeme → Prop} {depth : Nat} (l : Lexeme) (form : Form Inside)
    (hform : operandForm (some l) = .ok form) (r : form.pattern.Result)
    (hx : SameShape x (form.build r .start))
    (hwritten : written everyComma x = written everyComma (form.build r .start))
    (guarded : form.pattern.Guarded (Inside.follow S) S (written everyComma) r)
    (hr : form.pattern.PartsReadBack (Inside.follow S) (insideReaders (below operand depth)
      (below (fun depth => Parser.expression (operand depth)) depth)) (written everyComma) r) :
    ReadsBack S SameShape (operand depth) x (written everyComma x) := by
  rw [operand_eq_below, hwritten, written_operandForm everyComma .start hform r]
  exact operand_readsBack (.below .operand depth) (.below .expression depth) hform guarded hr hx

theorem literal {l : Lexeme} (f : Position → Node) (hl : l.Writable)
    (hstart : l.kind.startsOperand = true) (hform : operandForm (some l) = .ok (.atom f))
    (hx : SameShape x (f .start))
    (hwritten : written everyComma x = written everyComma (f .start)) : PrintsExpression x := by
  have hone : written everyComma x = [l] :=
    hwritten.trans (written_operandForm everyComma .start hform ())
  refine of_closed (fun depth _ => ?_) ⟨l, by rw [hone]; rfl, hstart⟩ ?_
  · exact operand_reads l (.atom f) hform () hx hwritten trivial trivial
  · rw [hone]
    exact List.forall_mem_singleton.mpr hl

theorem reference {name : String} (hname : IsIdentifier name) :
    PrintsExpression (.reference name p) := by
  refine of_closed (fun depth _ => ?_) ⟨_, rfl, rfl⟩ (List.forall_mem_singleton.mpr hname)
  exact operand_reads (.identifier name) (.named name) rfl (.inr (.inr ())) rfl rfl
    ⟨fun _ hnext => hnext.1, fun _ hnext => hnext.2, trivial⟩ trivial

theorem group (hx : PrintsExpression x) : PrintsExpression (.group x p) := by
  refine of_closed (fun depth hdepth => ?_) ⟨_, rfl, rfl⟩ ?_
  · exact operand_reads (.symbol .openParen) .group rfl (x, ()) rfl rfl
      ⟨fun _ _ => amongSymbols_some (by decide), trivial⟩ ⟨.below hx.reads hdepth, trivial⟩
  · simpa [written, Lexeme.Writable, or_imp, forall_and] using hx.writable

theorem enclosed (hx : PrintsExpression x) :
    PrintsExpression x.enclosed ∧ x.enclosed.isClosed = true := by
  unfold Node.enclosed
  by_cases hclosed : x.isClosed = true
  · rw [if_pos hclosed]
    exact ⟨hx, hclosed⟩
  · rw [if_neg hclosed]
    exact ⟨hx.group, rfl⟩

theorem unary {s : Symbol} (hs : s = .bang ∨ s = .minus) (hx : PrintsExpression x)
    (hclosed : x.isClosed = true) : PrintsExpression (.unary (.symbol s) x p) where
  reads depth hdepth := by
    have hform : operandForm (some (.symbol s)) = .ok (.sign s) := by
      rcases hs with rfl | rfl
      · rfl
      · rfl
    refine expression_readsBack_operand (.operand depth) ?_
    refine operand_reads (.symbol s) (.sign s) hform (x, ()) rfl rfl
      ⟨fun _ hnext => hnext, trivial⟩ ⟨?_, trivial⟩
    exact (ReadsBack.below (hx.readsClosed hclosed) hdepth).mono fun _ => HaltsAt.followsOperand
  readsClosed h := by cases h
  starts := by
    rcases hs with rfl | rfl
    · exact ⟨_, rfl, rfl⟩
    · exact ⟨_, rfl, rfl⟩
  writable := by simpa [written, Kind.written, Lexeme.Writable] using hx.writable

theorem binary {s : Symbol} (hs : s.IsBinary) (hx : PrintsExpression x)
    (hxclosed : x.isClosed = true) (hy : PrintsExpression y) (hyclosed : y.isClosed = true) :
    PrintsExpression (.binary (.symbol s) x y p) where
  reads depth hdepth := by
    have hmax : max x.nesting y.nesting ≤ depth := hdepth
    have hreads := expression_readsBack_binary (.operand depth) hs
      (hx.readsClosed hxclosed depth (by omega)) (hy.readsClosed hyclosed depth (by omega)) p
    simpa [written, Kind.written] using hreads
  readsClosed h := by cases h
  starts := by
    obtain ⟨l, hl, hstart⟩ := hx.starts
    refine ⟨l, ?_, hstart⟩
    rw [written, List.append_assoc, List.head?_append, hl, Option.some_or]
  writable := by
    simpa [written, Kind.written, Lexeme.Writable, or_imp, forall_and] using
      And.intro hx.writable hy.writable

theorem assign {name : String} (hname : IsIdentifier name) (hx : PrintsExpression x) :
    PrintsExpression (.assign name x false p) where
  reads depth hdepth := by
    refine expression_readsBack_operand (.operand depth) ?_
    refine operand_reads (.identifier name) (.named name) rfl (.inr (.inl (x, ()))) rfl rfl
      ⟨fun _ _ heq => ?_, fun _ hnext => hnext, trivial⟩ ⟨.below hx.reads hdepth, trivial⟩
    cases heq
  readsClosed h := by cases h
  starts := ⟨_, rfl, rfl⟩
  writable := by
    simpa [written, Lexeme.Writable] using And.intro hname hx.writable

theorem call {name : String} (hname : IsIdentifier name) {args : List Node}
    (hargs : ∀ a ∈ args, PrintsExpression a) : PrintsExpression (.call name args p) := by
  have hwritten : written everyComma (.call name args p) =
      .identifier name :: .symbol .openParen ::
        (commaSeparated (args.map (written everyComma)) ++ [.symbol .closeParen]) := by
    rw [written, Node.writtenAll_eq_commaSeparated]
    rfl
  refine of_closed (fun depth hdepth => ?_) ⟨_, rfl, rfl⟩ ?_
  · refine operand_reads (.identifier name) (.named name) rfl (.inl (args, ())) rfl rfl
      ⟨fun a ha => ⟨?_, ?_⟩, trivial⟩ ⟨fun a ha => .below (hargs a ha).reads ?_, trivial⟩
    · rintro _ ⟨s, hs, rfl⟩
      refine amongSymbols_some ?_
      revert s
      decide
    · obtain ⟨l, hl, hstart⟩ := (hargs a ha).starts
      obtain ⟨ls, hls⟩ := List.head?_eq_some_iff.mp hl
      refine ⟨l, ls, hls, ?_⟩
      rintro rfl
      cases hstart
    · -- a call opens a level only if there is an argument to read in it
      have hle := Node.nesting_le_nestingAll ha
      cases args with
      | nil => cases ha
      | cons b args => exact Nat.lt_of_le_of_lt hle hdepth
  · have hitems := writable_commaSeparated fun a ha => (hargs a ha).writable
    rw [hwritten]
    simpa [Lexeme.Writable, or_imp, forall_and] using And.intro hname hitems

end PrintsExpression

theorem Expressible.prints {x : Node} (h : Expressible x) : PrintsExpression x.parenthesized := by
  induction h with
  | @number x hx p => exact .literal (l := .number x) (fun p => .number x p) hx rfl rfl rfl rfl
  | boolean b p => exact .literal (l := .boolean b) (fun p => .boolean b p) trivial rfl rfl rfl rfl
  | @string s hs p => exact .literal (l := .string s) (fun p => .string s p) hs rfl rfl rfl rfl
  | nil p => exact .literal (l := .symbol .nil) (fun p => .nil p) trivial rfl rfl rfl rfl
  | reference hname p => exact .reference hname
  | group _ p hx => exact .group hx
  | unary hs _ p hx => exact .unary hs hx.enclosed.1 hx.enclosed.2
  | binary hs _ _ p hx hy =>
      exact .binary hs hx.enclosed.1 hx.enclosed.2 hy.enclosed.1 hy.enclosed.2
  | assign hname _ p hx => exact .assign hname hx
  | call hname _ p hargs =>
      refine .call hname fun a ha => ?_
      rw [Node.rebuildAll_eq_map] at ha
      obtain ⟨b, hb, rfl⟩ := List.mem_map.mp ha
      exact hargs b hb

/-! ## Statements -/

abbrev bodyBelow (depth : Nat) : Parser Node := below (fun depth => body (statements depth)) depth

/-- What is written for a statement can stand in a source and is read as the statement. -/
structure PrintsStatement (x : Node) : Prop where
  reads : ∀ depth, x.nesting ≤ depth →
    ReadsControl (expression (operand depth)) (bodyBelow depth) x (written everyComma x) ∨
      ReadsSimple (expression (operand depth)) (bodyBelow depth) x (written everyComma x)
  writable : ∀ l ∈ written everyComma x, l.Writable

/-- The same of statements with commas between them. -/
structure PrintsSequence (xs : List Node) : Prop where
  reads : ∀ depth, Node.nestingAll xs ≤ depth →
    ReadsBack ClosesAt SameShapes (statements depth) xs (writtenAll everyComma everyComma xs)
  writable : ∀ l ∈ writtenAll everyComma everyComma xs, l.Writable

namespace PrintsSequence

variable {xs : List Node}

theorem of_statements (h : ∀ x ∈ xs, PrintsStatement x) : PrintsSequence xs where
  reads depth hdepth := by
    have hexpr := Cuts.expression depth
    have hbody := Cuts.below (fun depth => (Cuts.statements depth).body) depth
    rw [statements_eq_below, Node.writtenAll_eq_commaSeparated]
    induction xs with
    | nil => exact statements_readsBack_nil
    | cons x xs ih =>
        obtain ⟨hx, hxs⟩ := List.forall_mem_cons.mp h
        have hmax : max x.nesting (Node.nestingAll xs) ≤ depth := hdepth
        have hmore := ih hxs (by omega)
        have hfirst := hx.reads depth (by omega)
        by_cases hnone : xs = []
        · -- no comma is written behind the last statement
          subst hnone
          rcases hfirst with hcontrol | hsimple
          · have hlast := hcontrol.cons hexpr hbody statements_readsBack_nil (by simp)
            rwa [List.append_nil] at hlast
          · exact hsimple.last hexpr hbody
        · rw [List.map_cons, commaSeparated_cons (by simpa using hnone)]
          rcases hfirst with hcontrol | hsimple
          · exact hcontrol.cons_comma hexpr hbody hmore
          · exact hsimple.cons hexpr hbody hmore
  writable := by
    rw [Node.writtenAll_eq_commaSeparated]
    exact writable_commaSeparated fun x hx => (h x hx).writable

theorem of_parenthesized (h : ∀ x ∈ xs, PrintsStatement x.parenthesized) :
    PrintsSequence (Node.parenthesizedAll xs) := by
  rw [Node.parenthesizedAll, Node.rebuildAll_eq_map]
  refine of_statements fun y hy => ?_
  obtain ⟨x, hx, rfl⟩ := List.mem_map.mp hy
  exact h x hx

theorem block (h : PrintsSequence xs) (depth : Nat) (hdepth : Node.nestingAll xs < depth)
    (p : Option Position) :
    ReadsBack ClosesAt SameShape (bodyBelow depth) (.block xs p)
      (written everyComma (.block xs p)) :=
  .below (fun depth hdepth => body_readsBack (h.reads depth hdepth) p) hdepth

end PrintsSequence

theorem PrintsExpression.stops {x : Node} (h : PrintsExpression x) (depth : Nat)
    (hdepth : x.nesting ≤ depth) :
    ReadsBack StopsAt SameShape (expression (operand depth)) x (written everyComma x) :=
  (h.reads depth hdepth).mono fun _ hnext => hnext.mono (by decide)

namespace PrintsStatement

variable {c x : Node} {xs ys : List Node} {name : String} {params : List String}
  {p q r : Option Position}

theorem expression (hx : PrintsExpression x) : PrintsStatement x where
  reads depth hdepth := by
    obtain ⟨l, hl, hstart⟩ := hx.starts
    exact .inr (readsSimple_expression (hx.stops depth hdepth) hl
      (start_of_startsOperand (t := ⟨l, .start⟩) hstart))
  writable := hx.writable

section

variable {depth : Nat} (l : Lexeme)

/-- A statement is read back from what is written for it if its parts are. -/
theorem control_reads (form : Form Clause) (hform : start (some l) = .control form)
    (r : form.pattern.Result) (hx : SameShape x (form.build r .start))
    (hwritten : written everyComma x = written everyComma (form.build r .start))
    (hr : form.pattern.PartsReadBack Clause.follow (clauseReaders (Parser.expression
      (operand depth)) (bodyBelow depth)) (written everyComma) r) :
    ReadsControl (Parser.expression (operand depth)) (bodyBelow depth) x
      (written everyComma x) := by
  rw [hwritten, (written_control everyComma .start hform r).1]
  exact readsControl_form (.expression depth)
    (.below (fun depth => .body (.statements depth)) depth)
    hr hx hform

theorem simple_reads (form : Form Clause) (hform : start (some l) = .simple form)
    (r : form.pattern.Result) (hx : SameShape x (form.build r .start))
    (hwritten : written everyComma x = written everyComma (form.build r .start))
    (hr : form.pattern.PartsReadBack Clause.follow (clauseReaders (Parser.expression
      (operand depth)) (bodyBelow depth)) (written everyComma) r) :
    ReadsSimple (Parser.expression (operand depth)) (bodyBelow depth) x (written everyComma x) := by
  rw [hwritten, (written_simple everyComma .start hform r).1]
  exact readsSimple_form (.expression depth) (.below (fun depth => .body (.statements depth)) depth)
    hr hx hform

end

theorem ret (hx : PrintsExpression x) : PrintsStatement (.ret x p) where
  reads depth hdepth := .inr (simple_reads (.symbol .retWord) .returnStatement rfl (x, ()) rfl rfl
    ⟨hx.stops depth hdepth, trivial⟩)
  writable := by simpa [written, Lexeme.Writable] using hx.writable

theorem outer (hname : IsIdentifier name) (hx : PrintsExpression x) :
    PrintsStatement (.assign name x true p) where
  reads depth hdepth := .inr (simple_reads (.symbol .nonlocalWord) .outerAssignment rfl
    (name, x, ()) rfl rfl
    ⟨trivial, hx.stops depth hdepth, trivial⟩)
  writable := by simpa [written, Lexeme.Writable] using And.intro hname hx.writable

theorem ifThen (hc : PrintsExpression c) (hxs : PrintsSequence xs) :
    PrintsStatement (.ifThen c (.block xs p) q) where
  reads depth hdepth := by
    have hmax : max c.nesting (Node.nestingAll xs + 1) ≤ depth := hdepth
    exact .inl (control_reads (.symbol .ifWord) .ifStatement rfl (c, .block xs p, .inr ()) rfl rfl
      ⟨hc.stops depth (by omega), hxs.block depth (by omega) p, trivial⟩)
  writable := by
    simpa [written, Lexeme.Writable, or_imp, forall_and] using And.intro hc.writable hxs.writable

theorem ifElse (hc : PrintsExpression c) (hxs : PrintsSequence xs) (hys : PrintsSequence ys) :
    PrintsStatement (.ifElse c (.block xs p) (.block ys q) r) where
  reads depth hdepth := by
    have hmax : max c.nesting (max (Node.nestingAll xs) (Node.nestingAll ys) + 1) ≤ depth := hdepth
    exact .inl (control_reads (.symbol .ifWord) .ifStatement rfl
      (c, .block xs p, .inl (.block ys q, ())) rfl rfl
      ⟨hc.stops depth (by omega), hxs.block depth (by omega) p, hys.block depth (by omega) q,
        trivial⟩)
  writable := by
    simpa [written, Lexeme.Writable, or_imp, forall_and] using
      And.intro hc.writable (And.intro hxs.writable hys.writable)

theorem whileLoop (hc : PrintsExpression c) (hxs : PrintsSequence xs) :
    PrintsStatement (.whileLoop c (.block xs p) q) where
  reads depth hdepth := by
    have hmax : max c.nesting (Node.nestingAll xs + 1) ≤ depth := hdepth
    exact .inl (control_reads (.symbol .whileWord) .whileStatement rfl (c, .block xs p, ()) rfl rfl
      ⟨hc.stops depth (by omega), hxs.block depth (by omega) p, trivial⟩)
  writable := by
    simpa [written, Lexeme.Writable, or_imp, forall_and] using And.intro hc.writable hxs.writable

theorem function (hname : IsIdentifier name) (hparams : ∀ param ∈ params, IsIdentifier param)
    (hxs : PrintsSequence xs) : PrintsStatement (.function name params (.block xs p) q) where
  reads depth hdepth := .inl (control_reads (.symbol .fnWord) .functionStatement rfl
    (name, params, .block xs p, ())
    rfl rfl ⟨trivial, fun _ _ => trivial, hxs.block depth hdepth p, trivial⟩)
  writable := by
    have hnames : ∀ l ∈ writtenNames params, l.Writable :=
      writable_commaSeparated fun param hparam =>
        List.forall_mem_singleton.mpr (hparams param hparam)
    simpa [written, Lexeme.Writable, or_imp, forall_and] using
      And.intro hname (And.intro hnames hxs.writable)

end PrintsStatement

theorem ExpressibleStatement.prints {x : Node} (h : ExpressibleStatement x) :
    PrintsStatement x.parenthesized := by
  induction h with
  | expression hx => exact .expression hx.prints
  | ret hx p => exact .ret hx.prints
  | outer hname hx p => exact .outer hname hx.prints
  | ifThen hc _ p q hxs => exact .ifThen hc.prints (.of_parenthesized hxs)
  | ifElse hc _ _ p q r hxs hys =>
      exact .ifElse hc.prints (.of_parenthesized hxs) (.of_parenthesized hys)
  | whileLoop hc _ p q hxs => exact .whileLoop hc.prints (.of_parenthesized hxs)
  | function hname hparams _ p q hxs => exact .function hname hparams (.of_parenthesized hxs)

/-! ## Programs -/

/-- Every tree that can stand in a source is printed as a source that is read without an error and
without skipped bytes, as the tree up to its groups. -/
theorem printed_tree_reads_back {tree : Node} (h : ExpressibleProgram tree) {depth : Nat}
    (hdepth : tree.parenthesized.nesting ≤ depth) :
    (Parsed.ofBytes depth (Utf8.encode tree.printed)).error = none ∧
      (Parsed.ofBytes depth (Utf8.encode tree.printed)).skips = [] ∧
      SameShape tree.ungrouped (Parsed.ofBytes depth (Utf8.encode tree.printed)).tree.ungrouped := by
  cases h with
  | @root xs hxs p =>
      have hroot : (Node.root xs p).parenthesized = .root (Node.parenthesizedAll xs) p := rfl
      have hprints := PrintsSequence.of_parenthesized fun x hx => (hxs x hx).prints
      obtain ⟨tokens, htokens, hlaid⟩ := exists_laid_sourceText hprints.writable .start
      have hreads := hprints.reads depth hdepth
      rw [← htokens] at hreads
      obtain ⟨tree', hread, hshape⟩ := root_reads hreads p
      have hparsed : Parsed.ofBytes depth (Utf8.encode (Node.root xs p).printed) =
          ⟨tree', [], none⟩ := by
        rw [Node.printed, hroot, written, Parsed.ofBytes,
          Scan.ofBytes_eq_of_laid hlaid, Parsed.ofScan]
        dsimp only
        rw [hread]
      have hungrouped := hshape.ungrouped
      rw [← hroot, Node.ungrouped_parenthesized] at hungrouped
      rw [hparsed]
      exact ⟨rfl, rfl, hungrouped⟩

/-- The program nests as deep as the parser may go, behind parentheses that printing adds. -/
theorem printed_tree_reads_back_at_full_depth :
    ∃ tree : Node, tree = .root [
        .function "f" ["x"] (.block [
          .assign "n" (.binary (.symbol .star)
            (.unary (.symbol .minus)
              (.binary (.symbol .plus) (.reference "x" none) (.number 1.5 none) none) none)
            (.number 2 none) none) true none,
          .ret (.reference "n" none) none] none) none,
        .whileLoop (.binary (.symbol .less)
            (.call "f" [.assign "x" (.number 0.1 none) false none] none) (.number 2 none) none)
          (.block [.ifElse (.boolean true none) (.block [.string "é" none] none)
            (.block [] none) none] none) none] none ∧
      tree.printed = "fn f ( x ) : nonlocal n = ( - ( x + 1.5 ) ) * 2 , ret n ; , " ++
        "while f ( x = 0.1 ) < 2 : if true : \"é\" else ; ;" ∧
      tree.parenthesized.nesting = 4 ∧
      (Parsed.ofBytes 4 (Utf8.encode tree.printed)).error = none ∧
      (Parsed.ofBytes 4 (Utf8.encode tree.printed)).skips = [] ∧
      SameShape tree.ungrouped (Parsed.ofBytes 4 (Utf8.encode tree.printed)).tree.ungrouped := by
  have hf : IsIdentifier "f" := by decide
  have hn : IsIdentifier "n" := by decide
  have hx : IsIdentifier "x" := by decide
  have hhalf : Number.Writable 1.5 := by decide +kernel
  have htwo : Number.Writable 2 := by decide +kernel
  have htenth : Number.Writable 0.1 := by decide +kernel
  have hsum := Expressible.binary (s := .plus) (by decide)
    (.reference hx none) (.number hhalf none) none
  have hproduct := Expressible.binary (s := .star) (by decide)
    (.unary (.inr rfl) hsum none) (.number htwo none) none
  have hcall := Expressible.call hf
    (List.forall_mem_singleton.mpr (.assign hx (.number htenth none) none)) none
  have hcompare := Expressible.binary (s := .less) (by decide) hcall
    (.number htwo none) none
  have hstring : ExpressibleStatement (.string "é" none) := .expression (.string (by decide) none)
  have hinner := List.forall_mem_singleton.mpr <| ExpressibleStatement.ifElse (.boolean true none)
    (List.forall_mem_singleton.mpr hstring) (List.forall_mem_nil _) none none none
  have hbody := List.forall_mem_cons.mpr ⟨ExpressibleStatement.outer hn hproduct none,
    List.forall_mem_singleton.mpr (.ret (.reference hn none) none)⟩
  have hprogram := List.forall_mem_cons.mpr
    ⟨ExpressibleStatement.function hf (List.forall_mem_singleton.mpr hx) hbody none none,
      List.forall_mem_singleton.mpr (.whileLoop hcompare hinner none none)⟩
  exact ⟨_, rfl, by decide +kernel, rfl, printed_tree_reads_back (.root hprogram none) (by decide)⟩

end Scriptlet
