import Scriptlet.Proofs.Syntax.Spelling

/-!
# Trees written back as tokens

A tree is written in source order: an operator between its operands, a group in parentheses, a body
between its colon and its semicolon. Commas stand between the items of a list and behind some of the
statements. What the parser has read is the tree so written, up to the commas that may be left out.
-/

namespace Scriptlet

/-! ## Writing -/

def Node.isControl : Node → Bool
  | .ifThen .. => true
  | .ifElse .. => true
  | .whileLoop .. => true
  | .function .. => true
  | _ => false

/-- An operator is written as its symbol; other kinds have no spelling of their own. -/
def Kind.written : Kind → List Lexeme
  | .symbol s => [.symbol s]
  | _ => []

def commaSeparated : List (List Lexeme) → List Lexeme
  | [] => []
  | [ls] => ls
  | ls :: rest => ls ++ .symbol .comma :: commaSeparated rest

def writtenNames (names : List String) : List Lexeme :=
  commaSeparated (names.map fun name => [.identifier name])

namespace Node

mutual

/-- The kinds and values of the tokens that a tree is written with. Between two statements there is
a comma if `comma` holds of the first one. -/
def written (comma : Node → Bool) : Node → List Lexeme
  | .root xs _ => writtenAll comma comma xs
  | .block xs _ => writtenAll comma comma xs
  | .number x _ => [.number x]
  | .boolean b _ => [.boolean b]
  | .string s _ => [.string s]
  | .nil _ => [.symbol .nil]
  | .reference name _ => [.identifier name]
  | .group x _ => .symbol .openParen :: written comma x ++ [.symbol .closeParen]
  | .unary operator x _ => operator.written ++ written comma x
  | .binary operator x y _ => written comma x ++ operator.written ++ written comma y
  | .assign name x false _ => .identifier name :: .symbol .equal :: written comma x
  | .assign name x true _ =>
      .symbol .nonlocalWord :: .identifier name :: .symbol .equal :: written comma x
  | .ifThen c x _ =>
      .symbol .ifWord :: written comma c ++ .symbol .colon :: written comma x ++
        [.symbol .semicolon]
  | .ifElse c x y _ =>
      .symbol .ifWord :: written comma c ++ .symbol .colon :: written comma x ++
        .symbol .elseWord :: written comma y ++ [.symbol .semicolon]
  | .whileLoop c x _ =>
      .symbol .whileWord :: written comma c ++ .symbol .colon :: written comma x ++
        [.symbol .semicolon]
  | .function name params x _ =>
      .symbol .fnWord :: .identifier name :: .symbol .openParen :: writtenNames params ++
        .symbol .closeParen :: .symbol .colon :: written comma x ++ [.symbol .semicolon]
  | .call name xs _ =>
      .identifier name :: .symbol .openParen :: writtenAll comma (fun _ => true) xs ++
        [.symbol .closeParen]
  | .ret x _ => .symbol .retWord :: written comma x
  | .blank => []

/-- Trees one after the other, with a comma behind those that `between` holds of, if they are not
the last. -/
def writtenAll (comma between : Node → Bool) : List Node → List Lexeme
  | [] => []
  | [x] => written comma x
  | x :: y :: rest =>
      written comma x ++ (if between x then [.symbol .comma] else []) ++
        writtenAll comma between (y :: rest)

end

/-- A comma is needed only behind a statement without a semicolon. -/
def needsComma (x : Node) : Bool := !x.isControl

end Node

/-! ## Commas that may be left out -/

/-- A comma that separates nothing: behind a semicolon, or before a semicolon, an `else` or the
end. -/
def OptionalComma (previous : Option Lexeme) (l : Lexeme) (next : Option Lexeme) : Prop :=
  l = .symbol .comma ∧ (previous = some (.symbol .semicolon) ∨ next = none ∨
    next = some (.symbol .semicolon) ∨ next = some (.symbol .elseWord))

instance (previous : Option Lexeme) (l : Lexeme) (next : Option Lexeme) :
    Decidable (OptionalComma previous l next) :=
  inferInstanceAs (Decidable (_ ∧ _))

/-- Leave out the optional commas, where `previous` stands before the first lexeme. -/
def withoutOptionalCommas (previous : Option Lexeme) : List Lexeme → List Lexeme
  | [] => []
  | l :: rest =>
      if OptionalComma previous l rest.head? then withoutOptionalCommas (some l) rest
      else l :: withoutOptionalCommas (some l) rest

/-- Lexemes that a comma before them may be left out for, and the comma itself. -/
def Lexeme.separates : Lexeme → Bool
  | .symbol .comma => true
  | .symbol .semicolon => true
  | .symbol .elseWord => true
  | _ => false

/-- The lexemes begin with one that separates nothing. -/
def Opens (ls : List Lexeme) : Prop := ∃ l rest, ls = l :: rest ∧ l.separates = false

theorem Opens.append {ls : List Lexeme} (h : Opens ls) (more : List Lexeme) :
    Opens (ls ++ more) := by
  obtain ⟨l, rest, rfl, hl⟩ := h
  exact ⟨l, rest ++ more, rfl, hl⟩

/-- Nothing follows, or a lexeme that ends a body. -/
def Closing (rest : List Lexeme) : Prop :=
  rest.head? = none ∨ rest.head? = some (.symbol .semicolon) ∨ rest.head? = some (.symbol .elseWord)

theorem withoutOptionalCommas_cons {l : Lexeme} (h : l ≠ .symbol .comma)
    (previous : Option Lexeme) (rest : List Lexeme) :
    withoutOptionalCommas previous (l :: rest) = l :: withoutOptionalCommas (some l) rest := by
  rw [withoutOptionalCommas, if_neg fun hcomma => h hcomma.1]

theorem withoutOptionalCommas_closing {rest : List Lexeme} (h : Closing rest)
    (previous : Option Lexeme) :
    withoutOptionalCommas previous rest = withoutOptionalCommas none rest := by
  cases rest with
  | nil => rfl
  | cons l rest =>
      have hl : l ≠ .symbol .comma := by
        rintro rfl
        simp [Closing] at h
      rw [withoutOptionalCommas_cons hl, withoutOptionalCommas_cons hl]

theorem withoutOptionalCommas_comma {last : Lexeme} (hlast : last ≠ .symbol .semicolon)
    {rest : List Lexeme} (h : Opens rest) :
    withoutOptionalCommas (some last) (.symbol .comma :: rest) =
      .symbol .comma :: withoutOptionalCommas (some (.symbol .comma)) rest := by
  obtain ⟨l, rest, rfl, hl⟩ := h
  rw [withoutOptionalCommas, if_neg]
  rintro ⟨-, hprevious | hnext | hnext | hnext⟩
  · exact hlast (Option.some.inj hprevious)
  · cases hnext
  · cases hnext
    cases hl
  · cases hnext
    cases hl

theorem withoutOptionalCommas_trailing {rest : List Lexeme} (h : Closing rest)
    (previous : Option Lexeme) :
    withoutOptionalCommas previous (.symbol .comma :: rest) = withoutOptionalCommas none rest := by
  rw [withoutOptionalCommas, if_pos ⟨rfl, .inr h⟩, withoutOptionalCommas_closing h]

theorem withoutOptionalCommas_semicolon_comma (rest : List Lexeme) :
    withoutOptionalCommas (some (.symbol .semicolon)) (.symbol .comma :: rest) =
      withoutOptionalCommas (some (.symbol .comma)) rest := by
  rw [withoutOptionalCommas, if_pos ⟨rfl, .inl rfl⟩]

/-- Lexemes in which no comma is optional, whatever stands around them. -/
structure Firm (ls : List Lexeme) : Prop where
  opens : Opens ls
  kept : ∃ last, last ≠ .symbol .semicolon ∧ ∀ previous rest,
    withoutOptionalCommas previous (ls ++ rest) = ls ++ withoutOptionalCommas (some last) rest

namespace Firm

variable {u v : List Lexeme} {l : Lexeme}

theorem single (h : l.separates = false) : Firm [l] := by
  refine ⟨⟨l, [], rfl, h⟩, l, ?_, fun previous rest => ?_⟩
  · rintro rfl
    cases h
  · refine withoutOptionalCommas_cons ?_ previous rest
    rintro rfl
    cases h

theorem append (hu : Firm u) (hv : Firm v) : Firm (u ++ v) := by
  obtain ⟨last, -, hkept⟩ := hu.kept
  obtain ⟨last', hlast', hkept'⟩ := hv.kept
  refine ⟨hu.opens.append v, last', hlast', fun previous rest => ?_⟩
  rw [List.append_assoc, hkept, hkept', List.append_assoc]

theorem cons (h : l.separates = false) (hv : Firm v) : Firm (l :: v) := (single h).append hv

theorem snoc (hu : Firm u) (h : l.separates = false) : Firm (u ++ [l]) := hu.append (single h)

theorem comma (hu : Firm u) (hv : Firm v) : Firm (u ++ .symbol .comma :: v) := by
  obtain ⟨last, hlast, hkept⟩ := hu.kept
  obtain ⟨last', hlast', hkept'⟩ := hv.kept
  refine ⟨hu.opens.append _, last', hlast', fun previous rest => ?_⟩
  rw [List.append_assoc, hkept, List.cons_append,
    withoutOptionalCommas_comma hlast (hv.opens.append rest), hkept', List.append_assoc,
    List.cons_append]

end Firm

/-! ## Spelled trees are written -/

open Scriptlet.Parser (levels)

def lexemes (w : List Token) : List Lexeme := w.map (·.lexeme)

@[simp] theorem lexemes_nil : lexemes [] = [] := rfl

@[simp] theorem lexemes_cons (l : Lexeme) (p : Position) (w : List Token) :
    lexemes (⟨l, p⟩ :: w) = l :: lexemes w := rfl

@[simp] theorem lexemes_append (u v : List Token) : lexemes (u ++ v) = lexemes u ++ lexemes v :=
  List.map_append

theorem commaSeparated_cons {ls : List Lexeme} {rest : List (List Lexeme)} (h : rest ≠ []) :
    commaSeparated (ls :: rest) = ls ++ .symbol .comma :: commaSeparated rest := by
  cases rest with
  | nil => exact absurd rfl h
  | cons ls' rest => rfl

theorem Listed.ne_nil {α : Type} {R : α → List Token → Prop} {as : List α} {w : List Token}
    (h : Listed R as w) : as ≠ [] := by
  cases h <;> simp

theorem Listed.written {names : List String} {w : List Token} (h : Listed SpellsName names w) :
    lexemes w = writtenNames names ∧ Firm (lexemes w) := by
  induction h with
  | @one name w item =>
      obtain ⟨p, rfl⟩ := item
      exact ⟨rfl, .single rfl⟩
  | @more name names u v p item items ih =>
      obtain ⟨q, rfl⟩ := item
      obtain ⟨hwritten, hfirm⟩ := ih
      have hne : (names.map fun name => [Lexeme.identifier name]) ≠ [] := by
        simpa using items.ne_nil
      rw [writtenNames, List.map_cons, commaSeparated_cons hne, lexemes_append]
      exact ⟨congrArg _ (congrArg _ hwritten), (Firm.single rfl).comma hfirm⟩

namespace Node

theorem writtenAll_cons {comma between : Node → Bool} {x : Node} {xs : List Node} (h : xs ≠ []) :
    writtenAll comma between (x :: xs) =
      written comma x ++ (if between x then [.symbol .comma] else []) ++
        writtenAll comma between xs := by
  cases xs with
  | nil => exact absurd rfl h
  | cons y xs => rfl

theorem writtenAll_control {x : Node} (h : x.isControl = true) (xs : List Node) :
    writtenAll needsComma needsComma (x :: xs) =
      written needsComma x ++ writtenAll needsComma needsComma xs := by
  cases xs with
  | nil => simp [writtenAll]
  | cons y xs => simp [writtenAll, needsComma, h]

theorem writtenAll_simple {x : Node} (h : x.isControl = false) {xs : List Node} (hxs : xs ≠ []) :
    writtenAll needsComma needsComma (x :: xs) =
      written needsComma x ++ .symbol .comma :: writtenAll needsComma needsComma xs := by
  rw [writtenAll_cons hxs]
  simp [needsComma, h]

theorem writtenAll_eq_commaSeparated (comma : Node → Bool) (xs : List Node) :
    writtenAll comma (fun _ => true) xs = commaSeparated (xs.map (written comma)) := by
  induction xs with
  | nil => rfl
  | cons x xs ih =>
      cases xs with
      | nil => rfl
      | cons y xs =>
          rw [List.map_cons, commaSeparated_cons (by simp), ← ih, writtenAll_cons (by simp)]
          simp

@[simp] theorem written_bodyAt (comma : Node → Bool) (xs : List Node) (w : List Token) (t : Token) :
    written comma (bodyAt xs w t) = writtenAll comma comma xs := rfl

end Node

/-! ## Forms written back -/

namespace Parser

variable {σ : Type}

def Item.written (W : Node → List Lexeme) : (item : Item σ) → item.Result → List Lexeme
  | .tree _, n => W n
  | .name _, spelled => [.identifier spelled]

/-- What was read along a pattern, written back. -/
def Pattern.written (W : Node → List Lexeme) : (pattern : Pattern σ) → pattern.Result → List Lexeme
  | .done, _ => []
  | .read item next, (a, r) => item.written W a ++ next.written W r
  | .list item _ next, (as, r) =>
      commaSeparated (as.map (item.written W)) ++ .symbol .closeParen :: next.written W r
  | .require s _ next, r => .symbol s :: next.written W r
  | .branch s yes _, .inl r => .symbol s :: yes.written W r
  | .branch _ _ no, .inr r => no.written W r

variable (comma : Node → Bool) {l : Lexeme} (p : Position)

theorem written_operandForm {form : Form Inside} (hform : operandForm (some l) = .ok form)
    (r : form.pattern.Result) :
    (form.build r p).written comma = l :: form.pattern.written (Node.written comma) r := by
  cases l with
  | number | boolean | string =>
      cases hform
      rfl
  | identifier name =>
      cases hform
      rcases r with ⟨args, _⟩ | ⟨x, _⟩ | _
      · change _ :: _ :: (Node.writtenAll comma (fun _ => true) args ++ _) = _
        rw [Node.writtenAll_eq_commaSeparated]
        rfl
      · exact congrArg (_ :: _ :: ·) (List.append_nil _).symm
      · rfl
  | symbol s =>
      cases s with
      | nil =>
          cases hform
          rfl
      | bang | minus =>
          cases hform
          exact congrArg (_ :: ·) (List.append_nil _).symm
      | openParen =>
          cases hform
          rfl
      | _ => cases hform

theorem written_control {form : Form Clause} (hform : start (some l) = .control form)
    (r : form.pattern.Result) :
    (form.build r p).written comma = l :: form.pattern.written (Node.written comma) r ∧
      (form.build r p).isControl = true := by
  cases l with
  | symbol s =>
      cases s with
      | ifWord =>
          cases hform
          rcases r with ⟨c, x, ⟨y, _⟩ | _⟩
          · refine ⟨?_, rfl⟩
            simp [Form.ifStatement, Node.written, Pattern.written, Pattern.ending, Item.written]
          · refine ⟨?_, rfl⟩
            simp [Form.ifStatement, Node.written, Pattern.written, Pattern.ending, Item.written]
      | whileWord =>
          cases hform
          obtain ⟨c, x, _⟩ := r
          refine ⟨?_, rfl⟩
          simp [Form.whileStatement, Node.written, Pattern.written, Pattern.ending, Item.written]
      | fnWord =>
          cases hform
          obtain ⟨name, params, x, _⟩ := r
          refine ⟨?_, rfl⟩
          simp [Form.functionStatement, Node.written, Pattern.written, Pattern.ending, Item.written]
          rfl
      | _ => cases hform
  | _ => cases hform

theorem written_simple {form : Form Clause} (hform : start (some l) = .simple form)
    (r : form.pattern.Result) :
    (form.build r p).written comma = l :: form.pattern.written (Node.written comma) r ∧
      (form.build r p).isControl = false := by
  cases l with
  | symbol s =>
      cases s with
      | retWord =>
          cases hform
          exact ⟨congrArg (_ :: ·) (List.append_nil _).symm, rfl⟩
      | nonlocalWord =>
          cases hform
          exact ⟨congrArg (_ :: _ :: _ :: ·) (List.append_nil _).symm, rfl⟩
      | _ => cases hform
  | _ => cases hform

end Parser

open Node (written writtenAll needsComma)

/-! ## Parts written back -/

/-- How the tokens of a part relate to its written form. Only a sequence of statements has optional
commas, and a control statement has them inside. -/
def Part.Written : Part → List Node → List Lexeme → Prop
  | .expression ops, nodes, ls => (∀ level ∈ ops, level ∈ levels) →
      ∃ n, nodes = [n] ∧ n.isControl = false ∧ ls = written needsComma n ∧ Firm ls
  | .arguments, nodes, ls => ls = writtenAll needsComma (fun _ => true) nodes ∧
      (nodes = [] ∨ Firm ls)
  | .simple, nodes, ls => ∃ n, nodes = [n] ∧ n.isControl = false ∧
      ls = written needsComma n ∧ Firm ls
  | .control, nodes, ls => ∃ n, nodes = [n] ∧ n.isControl = true ∧ Opens ls ∧
      Opens (written needsComma n) ∧ ∀ previous rest,
        withoutOptionalCommas previous (ls ++ rest) =
          written needsComma n ++ withoutOptionalCommas (some (.symbol .semicolon)) rest
  | .statements, nodes, ls =>
      (nodes = [] ∧ ls = [] ∨ nodes ≠ [] ∧ Opens ls ∧
        Opens (writtenAll needsComma needsComma nodes)) ∧
      ∀ previous rest, Closing rest →
        withoutOptionalCommas previous (ls ++ rest) =
          writtenAll needsComma needsComma nodes ++ withoutOptionalCommas none rest

namespace Part.Written

variable {n x y : Node} {nodes : List Node} {ls ls' head whole : List Lexeme}
  {ops ops' : List Parser.Level}

theorem of_firm (h : n.isControl = false)
    (hls : ls = written needsComma n) (hfirm : Firm ls) : (Part.expression ops).Written [n] ls :=
  fun _ => ⟨n, rfl, h, hls, hfirm⟩

theorem of_levels (h : (Part.expression ops).Written [n] ls)
    (hops : ∀ level ∈ ops, level ∈ levels) :
    ls = written needsComma n ∧ Firm ls := by
  obtain ⟨_, hn, -, hls, hfirm⟩ := h hops
  cases hn
  exact ⟨hls, hfirm⟩

theorem operand (h : (Part.expression []).Written [n] ls) : ls = written needsComma n ∧ Firm ls :=
  h.of_levels fun _ hlevel => nomatch hlevel

theorem expression (h : (Part.expression levels).Written [n] ls) :
    ls = written needsComma n ∧ Firm ls :=
  h.of_levels fun _ hlevel => hlevel

theorem call (h : Part.arguments.Written nodes ls) (name : String) (p : Option Position) :
    (Part.expression ops).Written [.call name nodes p]
      (.identifier name :: .symbol .openParen :: (ls ++ [.symbol .closeParen])) := by
  obtain ⟨hwritten, hargs⟩ := h
  have hhead : Firm [.identifier name, .symbol .openParen] := (Firm.single rfl).cons rfl
  have hfirm : Firm (.identifier name :: .symbol .openParen :: ls) := by
    rcases hargs with rfl | hfirm
    · rw [hwritten]
      exact hhead
    · exact hhead.append hfirm
  refine of_firm rfl ?_ (hfirm.snoc rfl)
  simp [written, hwritten]

theorem joined (hx : (Part.expression ops).Written [x] ls)
    (hops : ∀ level ∈ ops, level ∈ levels) (hy : (Part.expression ops').Written [y] ls')
    (hops' : ∀ level ∈ ops', level ∈ levels) {s : Symbol}
    (hs : (Lexeme.symbol s).separates = false) (p : Option Position) :
    ∃ n, [.binary (.symbol s) x y p] = [n] ∧ n.isControl = false ∧
      ls ++ .symbol s :: ls' = written needsComma n ∧ Firm (ls ++ .symbol s :: ls') := by
  obtain ⟨hwritten, hfirm⟩ := hx.of_levels hops
  obtain ⟨hwritten', hfirm'⟩ := hy.of_levels hops'
  refine ⟨_, rfl, rfl, ?_, hfirm.append (hfirm'.cons hs)⟩
  simp [written, Kind.written, hwritten, hwritten']

theorem body (h : Part.statements.Written nodes ls) {l : Lexeme}
    (hl : l = .symbol .semicolon ∨ l = .symbol .elseWord) (previous : Option Lexeme)
    (rest : List Lexeme) :
    withoutOptionalCommas previous (ls ++ l :: rest) =
      writtenAll needsComma needsComma nodes ++ l :: withoutOptionalCommas (some l) rest := by
  have hclosing : Closing (l :: rest) := by
    rcases hl with rfl | rfl
    · exact .inr (.inl rfl)
    · exact .inr (.inr rfl)
  have hcomma : l ≠ .symbol .comma := by
    rintro rfl
    rcases hl with hl | hl <;> cases hl
  rw [h.2 previous (l :: rest) hclosing, withoutOptionalCommas_cons hcomma]

theorem control (hn : n.isControl = true) (hhead : Firm head)
    (h : Part.statements.Written nodes ls) (hwhole : whole = head ++ ls ++ [.symbol .semicolon])
    (hwritten : written needsComma n =
      head ++ writtenAll needsComma needsComma nodes ++ [.symbol .semicolon]) :
    Part.control.Written [n] whole := by
  subst hwhole
  obtain ⟨last, -, hkept⟩ := hhead.kept
  refine ⟨n, rfl, hn, ?_, ?_, fun previous rest => ?_⟩
  · exact (hhead.opens.append _).append _
  · rw [hwritten]
    exact (hhead.opens.append _).append _
  · simp only [List.append_assoc, List.singleton_append]
    rw [hkept, h.body (.inl rfl), hwritten]
    simp

theorem controlElse {nodes' : List Node} (hn : n.isControl = true) (hhead : Firm head)
    (h : Part.statements.Written nodes ls) (h' : Part.statements.Written nodes' ls')
    (hwhole : whole = head ++ ls ++ .symbol .elseWord :: ls' ++ [.symbol .semicolon])
    (hwritten : written needsComma n =
      head ++ writtenAll needsComma needsComma nodes ++ .symbol .elseWord ::
        writtenAll needsComma needsComma nodes' ++ [.symbol .semicolon]) :
    Part.control.Written [n] whole := by
  subst hwhole
  obtain ⟨last, -, hkept⟩ := hhead.kept
  refine ⟨n, rfl, hn, ?_, ?_, fun previous rest => ?_⟩
  · exact ((hhead.opens.append _).append _).append _
  · rw [hwritten]
    exact ((hhead.opens.append _).append _).append _
  · simp only [List.append_assoc, List.cons_append]
    rw [hkept, h.body (.inr rfl), h'.body (.inl rfl), hwritten]
    simp

/-- A simple statement, a comma, and more statements, of which there may be none. -/
theorem afterSimple (first : Part.simple.Written [n] ls)
    (others : Part.statements.Written nodes ls') :
    Part.statements.Written (n :: nodes) (ls ++ .symbol .comma :: ls') := by
  obtain ⟨_, hn, hcontrol, rfl, hfirm⟩ := first
  cases hn
  obtain ⟨last, hlast, hkept⟩ := hfirm.kept
  obtain ⟨⟨rfl, rfl⟩ | ⟨hnodes, hopens, -⟩, hothers⟩ := others
  · refine ⟨.inr ⟨by simp, hfirm.opens.append _, hfirm.opens⟩, fun previous rest hrest => ?_⟩
    rw [List.append_assoc, hkept, List.singleton_append, withoutOptionalCommas_trailing hrest]
    rfl
  · rw [Part.Written, Node.writtenAll_simple hcontrol hnodes]
    refine ⟨.inr ⟨by simp, hfirm.opens.append _, hfirm.opens.append _⟩,
      fun previous rest hrest => ?_⟩
    rw [List.append_assoc, hkept, List.cons_append,
      withoutOptionalCommas_comma hlast (hopens.append rest), hothers _ rest hrest,
      List.append_assoc, List.cons_append]

/-- A control statement and more statements. The comma between them is optional. -/
theorem afterControl (first : Part.control.Written [n] ls)
    (others : Part.statements.Written nodes ls') :
    Part.statements.Written (n :: nodes) (ls ++ ls') ∧
      Part.statements.Written (n :: nodes) (ls ++ .symbol .comma :: ls') := by
  obtain ⟨_, hn, hcontrol, hopens, hopens', hkept⟩ := first
  cases hn
  simp only [Part.Written, Node.writtenAll_control hcontrol]
  constructor
  · refine ⟨.inr ⟨by simp, hopens.append _, hopens'.append _⟩, fun previous rest hrest => ?_⟩
    rw [List.append_assoc, hkept, others.2 _ rest hrest, List.append_assoc]
  · refine ⟨.inr ⟨by simp, hopens.append _, hopens'.append _⟩, fun previous rest hrest => ?_⟩
    rw [List.append_assoc, hkept, List.cons_append, withoutOptionalCommas_semicolon_comma,
      others.2 _ rest hrest, List.append_assoc]

end Part.Written

theorem levels_separate_nothing :
    ∀ level ∈ levels, ∀ s ∈ level.operators, (Lexeme.symbol s).separates = false := by
  decide

theorem Spells.isWritten {part : Part} {nodes : List Node} {w : List Token}
    (h : Spells part nodes w) : part.Written nodes (lexemes w) := by
  induction h with
  | number | boolean | string | nil | reference => exact .of_firm rfl rfl (.single rfl)
  | @unary s n w p known _ ih =>
      obtain ⟨hwritten, hfirm⟩ := Part.Written.operand ih
      have hs : (Lexeme.symbol s).separates = false := by
        rcases known with rfl | rfl <;> rfl
      exact .of_firm rfl (congrArg (List.cons _) hwritten) (hfirm.cons hs)
  | group p q _ ih =>
      obtain ⟨hwritten, hfirm⟩ := Part.Written.expression ih
      refine .of_firm rfl ?_ (lexemes_append _ _ ▸ (hfirm.cons rfl).snoc rfl)
      simp [written, hwritten]
  | call name p q r _ ih =>
      rw [lexemes_append]
      exact .call ih name _
  | assign name p q _ ih =>
      obtain ⟨hwritten, hfirm⟩ := Part.Written.expression ih
      refine .of_firm rfl ?_ ((hfirm.cons rfl).cons rfl)
      simp [written, hwritten]
  | single _ ih =>
      exact fun hops => ih fun level hlevel => hops level (List.mem_cons_of_mem _ hlevel)
  | @joined level tighter x y u v s p known _ _ ih ih' =>
      intro hops
      have htighter : ∀ level ∈ tighter, level ∈ levels :=
        fun level hlevel => hops level (List.mem_cons_of_mem _ hlevel)
      have hleft : ∀ l ∈ (if level.repeats then level :: tighter else tighter), l ∈ levels := by
        intro l hl
        split at hl
        · exact hops l hl
        · exact htighter l hl
      have hs := levels_separate_nothing level (hops level List.mem_cons_self) s known
      rw [lexemes_append]
      exact Part.Written.joined ih hleft ih' htighter hs _
  | noArguments => exact ⟨rfl, .inl rfl⟩
  | lastArgument _ ih =>
      obtain ⟨hwritten, hfirm⟩ := Part.Written.expression ih
      exact ⟨hwritten, .inr hfirm⟩
  | moreArguments p _ _ ih ih' =>
      obtain ⟨hwritten, hfirm⟩ := Part.Written.expression ih
      obtain ⟨hwritten', hnone | hfirm'⟩ := ih'
      · cases hnone
      · refine ⟨?_, .inr (lexemes_append _ _ ▸ hfirm.comma hfirm')⟩
        simp [writtenAll, hwritten, hwritten']
  | ret p _ ih =>
      obtain ⟨hwritten, hfirm⟩ := Part.Written.expression ih
      exact ⟨_, rfl, rfl, congrArg (List.cons _) hwritten, hfirm.cons rfl⟩
  | outer name p q r _ ih =>
      obtain ⟨hwritten, hfirm⟩ := Part.Written.expression ih
      refine ⟨_, rfl, rfl, ?_, ((hfirm.cons rfl).cons rfl).cons rfl⟩
      simp [written, hwritten]
  | expression _ ih => exact ih fun _ hlevel => hlevel
  | @ifThen c body u v p q r _ _ ih ih' =>
      obtain ⟨hwritten, hfirm⟩ := Part.Written.expression ih
      have hhead : Firm (.symbol .ifWord :: lexemes u ++ [.symbol .colon]) :=
        (hfirm.cons rfl).snoc rfl
      exact .control rfl hhead ih' (by simp) (by simp [written, hwritten])
  | @ifElse c body body' u v v' p q r r' _ _ _ ih ih' ih'' =>
      obtain ⟨hwritten, hfirm⟩ := Part.Written.expression ih
      have hhead : Firm (.symbol .ifWord :: lexemes u ++ [.symbol .colon]) :=
        (hfirm.cons rfl).snoc rfl
      exact .controlElse rfl hhead ih' ih'' (by simp) (by simp [written, hwritten])
  | @whileLoop c body u v p q r _ _ ih ih' =>
      obtain ⟨hwritten, hfirm⟩ := Part.Written.expression ih
      have hhead : Firm (.symbol .whileWord :: lexemes u ++ [.symbol .colon]) :=
        (hfirm.cons rfl).snoc rfl
      exact .control rfl hhead ih' (by simp) (by simp [written, hwritten])
  | @function params body u v name p q o c k r names _ ih =>
      have hopen : Firm [.symbol .fnWord, .identifier name, .symbol .openParen] :=
        ((Firm.single rfl).cons rfl).cons rfl
      have hclose : Firm [.symbol .closeParen, .symbol .colon] := (Firm.single rfl).cons rfl
      have hnames : lexemes u = writtenNames params ∧
          Firm (.symbol .fnWord :: .identifier name :: .symbol .openParen :: lexemes u) := by
        rcases names with ⟨rfl, rfl⟩ | names
        · exact ⟨rfl, hopen⟩
        · exact ⟨names.written.1, hopen.append names.written.2⟩
      exact .control rfl (hnames.2.append hclose) ih (by simp) (by simp [written, hnames.1])
  | noStatements =>
      exact ⟨.inl ⟨rfl, rfl⟩, fun previous rest hrest =>
        withoutOptionalCommas_closing hrest previous⟩
  | @lastStatement n w _ ih =>
      obtain ⟨_, hn, -, hwritten, hfirm⟩ := ih
      cases hn
      rw [hwritten] at hfirm ⊢
      obtain ⟨last, -, hkept⟩ := hfirm.kept
      refine ⟨.inr ⟨by simp, hfirm.opens, hfirm.opens⟩, fun previous rest hrest => ?_⟩
      rw [hkept, withoutOptionalCommas_closing hrest]
      rfl
  | afterSimple p _ _ ih ih' =>
      rw [lexemes_append]
      exact .afterSimple ih ih'
  | afterControl _ _ ih ih' =>
      rw [lexemes_append]
      exact (Part.Written.afterControl ih ih').1
  | afterControlComma p _ _ ih ih' =>
      rw [lexemes_append]
      exact (Part.Written.afterControl ih ih').2

end Scriptlet
