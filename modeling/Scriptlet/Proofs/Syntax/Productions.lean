import Scriptlet.Tree.Parser

/-!
# Productions as data

Behind its first token a construct goes on in a fixed way: trees and names are read, some of them in
lists, symbols are required, and at a few places the next symbol decides. This is written down once
for every construct, as a pattern and a way to build the node, and the parser is shown to follow it.
What holds of the parser is then proved for patterns, by their few forms, not for each construct.
-/

namespace Scriptlet.Parser

variable {σ α β : Type}

instance : LawfulMonad Parser := by
  refine LawfulMonad.mk' Parser ?_ ?_ ?_
  · intro α p
    funext tokens
    change Parser.bind p _ tokens = p tokens
    unfold Parser.bind
    cases p tokens <;> rfl
  · intro α β a f
    rfl
  · intro α β γ p f g
    funext tokens
    change Parser.bind (Parser.bind p f) g tokens = Parser.bind p _ tokens
    unfold Parser.bind
    cases p tokens <;> rfl

/-! ## Patterns -/

/-- What is read at one place of a construct: a tree in one of the roles `σ`, or a name. -/
inductive Item (σ : Type) where
  | tree (role : σ)
  | name (kind : SyntaxError.Kind)

@[reducible] def Item.Result : Item σ → Type
  | .tree _ => Node
  | .name _ => String

/-- How a construct goes on. A list ends with a closing parenthesis. -/
inductive Pattern (σ : Type) where
  | done
  | read (item : Item σ) (next : Pattern σ)
  | list (item : Item σ) (kind : SyntaxError.Kind) (next : Pattern σ)
  | require (s : Symbol) (kind : SyntaxError.Kind) (next : Pattern σ)
  | branch (s : Symbol) (yes no : Pattern σ)

/-- All that was read along a pattern. -/
@[reducible] def Pattern.Result : Pattern σ → Type
  | .done => Unit
  | .read item next => item.Result × next.Result
  | .list item _ next => List item.Result × next.Result
  | .require _ _ next => next.Result
  | .branch _ yes no => yes.Result ⊕ no.Result

/-- A construct behind its first token, with the node that is built at the place of that token. -/
structure Form (σ : Type) where
  pattern : Pattern σ
  build : pattern.Result → Position → Node

def Item.parser (readers : σ → Parser Node) : (item : Item σ) → Parser item.Result
  | .tree role => readers role
  | .name kind => requireName kind

def Pattern.parser (readers : σ → Parser Node) : (pattern : Pattern σ) → Parser pattern.Result
  | .done => return ()
  | .read item next => do
      let a ← item.parser readers
      return (a, ← next.parser readers)
  | .list item kind next => do
      let as ← listed (item.parser readers) kind
      return (as, ← next.parser readers)
  | .require s kind next => do
      Parser.require s kind
      next.parser readers
  | .branch s yes no => do
      if ← accept s then
        return .inl (← yes.parser readers)
      else
        return .inr (← no.parser readers)

def Form.parser (readers : σ → Parser Node) (form : Form σ) (p : Position) : Parser Node := do
  return form.build (← form.pattern.parser readers) p

/-! ## Operands -/

/-- Trees inside operands: what a sign stands before, and whole expressions. -/
inductive Inside where
  | operand
  | expression

namespace Form

def atom (node : Position → Node) : Form Inside where
  pattern := .done
  build _ p := node p

def sign (s : Symbol) : Form Inside where
  pattern := .read (.tree .operand) .done
  build result p := .unary (.symbol s) result.1 p

def group : Form Inside where
  pattern := .read (.tree .expression) (.require .closeParen .unclosedGroup .done)
  build result p := .group result.1 p

/-- What a name begins: a call, an assignment, or nothing more. -/
def named (name : String) : Form Inside where
  pattern :=
    .branch .openParen (.list (.tree .expression) .callMissingParen .done)
      (.branch .equal (.read (.tree .expression) .done) .done)
  build
    | .inl result, p => .call name result.1 p
    | .inr (.inl result), p => .assign name result.1 false p
    | .inr (.inr _), p => .reference name p

end Form

/-- The operand that a lexeme begins, or why it begins none. -/
def operandForm : Option Lexeme → Except SyntaxError.Kind (Form Inside)
  | none => .error .unexpectedEnd
  | some (.number x) => .ok (.atom fun p => .number x p)
  | some (.boolean b) => .ok (.atom fun p => .boolean b p)
  | some (.string s) => .ok (.atom fun p => .string s p)
  | some (.symbol .nil) => .ok (.atom fun p => .nil p)
  | some (.symbol .bang) => .ok (.sign .bang)
  | some (.symbol .minus) => .ok (.sign .minus)
  | some (.symbol .openParen) => .ok .group
  | some (.identifier name) => .ok (.named name)
  | some (.symbol _) => .error .unexpectedToken

def insideReaders (op inner : Parser Node) : Inside → Parser Node
  | .operand => op
  | .expression => inner

/-! ## Statements -/

inductive Clause where
  | expression
  | body

def Pattern.ending : Pattern Clause := .require .semicolon .missingSemicolon .done

namespace Form

def ifStatement : Form Clause where
  pattern :=
    .read (.tree .expression) (.require .colon .missingColon (.read (.tree .body)
      (.branch .elseWord (.read (.tree .body) .ending) .ending)))
  build
    | (c, x, .inl (y, _)), p => .ifElse c x y p
    | (c, x, .inr _), p => .ifThen c x p

def whileStatement : Form Clause where
  pattern :=
    .read (.tree .expression) (.require .colon .missingColon (.read (.tree .body) .ending))
  build result p := .whileLoop result.1 result.2.1 p

def functionStatement : Form Clause where
  pattern :=
    .read (.name .missingIdentifier) (.require .openParen .missingParen
      (.list (.name .missingIdentifier) .missingParen (.require .colon .missingColon
        (.read (.tree .body) .ending))))
  build result p := .function result.1 result.2.1 result.2.2.1 p

def returnStatement : Form Clause where
  pattern := .read (.tree .expression) .done
  build result p := .ret result.1 p

def outerAssignment : Form Clause where
  pattern :=
    .read (.name .assignMissingIdentifier) (.require .equal .assignMissingEqual
      (.read (.tree .expression) .done))
  build result p := .assign result.1 result.2.1 true p

end Form

/-- What comes next in a sequence of statements. -/
inductive Start where
  | stop
  | control (form : Form Clause)
  | simple (form : Form Clause)
  | expression

def start : Option Lexeme → Start
  | none => .stop
  | some (.symbol .elseWord) => .stop
  | some (.symbol .semicolon) => .stop
  | some (.symbol .ifWord) => .control .ifStatement
  | some (.symbol .whileWord) => .control .whileStatement
  | some (.symbol .fnWord) => .control .functionStatement
  | some (.symbol .retWord) => .simple .returnStatement
  | some (.symbol .nonlocalWord) => .simple .outerAssignment
  | some _ => .expression

def clauseReaders (expr inner : Parser Node) : Clause → Parser Node
  | .expression => expr
  | .body => inner

/-! ## What stands behind -/

/-- The next lexeme, if there is one, is one of these symbols. -/
def AmongSymbols (symbols : List Symbol) (next : Option Lexeme) : Prop :=
  ∀ l ∈ next, l ∈ symbols.map Lexeme.symbol

section

variable {symbols symbols' : List Symbol} {s : Symbol} {next : Option Lexeme}

theorem amongSymbols_some (h : s ∈ symbols) : AmongSymbols symbols (some (.symbol s)) := by
  intro l hl
  cases hl
  exact List.mem_map_of_mem h

theorem AmongSymbols.mono (h : AmongSymbols symbols next) (hsub : ∀ s ∈ symbols, s ∈ symbols') :
    AmongSymbols symbols' next := by
  intro l hl
  obtain ⟨s, hs, rfl⟩ := List.mem_map.mp (h l hl)
  exact List.mem_map_of_mem (hsub s hs)

theorem AmongSymbols.next_ne (h : AmongSymbols symbols next) (hs : s ∉ symbols) :
    next ≠ some (.symbol s) := by
  rintro rfl
  obtain ⟨s', hs', heq⟩ := List.mem_map.mp (h _ rfl)
  exact hs (Lexeme.symbol.inj heq ▸ hs')

end

/-- What stands behind an expression. -/
abbrev HaltsAt : Option Lexeme → Prop :=
  AmongSymbols [.comma, .closeParen, .colon, .semicolon, .elseWord]

/-- What stands behind an expression outside parentheses. -/
abbrev StopsAt : Option Lexeme → Prop := AmongSymbols [.comma, .colon, .semicolon, .elseWord]

/-- What stands behind the statements of a body, or of the whole program. -/
abbrev ClosesAt : Option Lexeme → Prop := AmongSymbols [.elseWord, .semicolon]

/-- What may stand behind a tree that is read, in the role that it is read in. -/
def Item.Followed (F : σ → Option Lexeme → Prop) (next : Option Lexeme) : Item σ → Prop
  | .tree role => F role next
  | .name _ => True

namespace Pattern

/-- The lexemes that the pattern may begin with, as far as it tells, if `S` holds behind it. -/
def Opens (S : Option Lexeme → Prop) : Pattern σ → Option Lexeme → Prop
  | .done, next => S next
  | .read .., _ => True
  | .list .., _ => True
  | .require s _ _, next => next = some (.symbol s)
  | .branch s _ no, next => next = some (.symbol s) ∨ no.Opens S next

/-- Behind everything that is read stands what may stand there, and where the next symbol decides it
decides rightly. -/
def Fits (F : σ → Option Lexeme → Prop) (S : Option Lexeme → Prop) : Pattern σ → Prop
  | .done => True
  | .read item next => (∀ l, next.Opens S l → item.Followed F l) ∧ next.Fits F S
  | .list item _ next =>
      (∀ s ∈ [.comma, .closeParen], item.Followed F (some (.symbol s))) ∧ next.Fits F S
  | .require _ _ next => next.Fits F S
  | .branch s yes no =>
      (∀ l, no.Opens S l → l ≠ some (.symbol s)) ∧ yes.Fits F S ∧ no.Fits F S

/-- The pattern takes a token of its own, whatever is read along it. -/
def closes : Pattern σ → Bool
  | .done => false
  | .read _ next => next.closes
  | .list .. => true
  | .require .. => true
  | .branch _ _ no => no.closes

theorem opens_of_open {pattern : Pattern σ} (h : pattern.closes = false)
    {S : Option Lexeme → Prop} {next : Option Lexeme} (hnext : S next) : pattern.Opens S next := by
  induction pattern with
  | done => exact hnext
  | read | list => trivial
  | require => cases h
  | branch s yes no _ ih => exact .inr (ih h)

end Pattern

/-! ## Why a construct may end early -/

def Item.kinds : Item σ → List SyntaxError.Kind
  | .tree _ => []
  | .name kind => [kind]

/-- The errors for what is missing along a pattern. -/
def Pattern.kinds : Pattern σ → List SyntaxError.Kind
  | .done => []
  | .read item next => item.kinds ++ next.kinds
  | .list item kind next => item.kinds ++ kind :: next.kinds
  | .require _ kind next => kind :: next.kinds
  | .branch _ yes no => yes.kinds ++ no.kinds

/-- The errors of the parser itself: for a string it is the scan that knows, and nothing is missing
where the source nests too deep. -/
def ParserKind (kind : SyntaxError.Kind) : Prop :=
  kind ∉ [.unterminatedString, .nestingTooDeep]

instance (kind : SyntaxError.Kind) : Decidable (ParserKind kind) :=
  inferInstanceAs (Decidable (_ ∉ _))

theorem ParserKind.ne_unterminatedString {kind : SyntaxError.Kind} (h : ParserKind kind) :
    kind ≠ .unterminatedString := fun heq => h (by simp [heq])

theorem ParserKind.ne_nestingTooDeep {kind : SyntaxError.Kind} (h : ParserKind kind) :
    kind ≠ .nestingTooDeep := fun heq => h (by simp [heq])

/-! ## What the productions satisfy -/

def Inside.follow (S : Option Lexeme → Prop) : Inside → Option Lexeme → Prop
  | .operand => S
  | .expression => HaltsAt

def Clause.follow : Clause → Option Lexeme → Prop
  | .expression => StopsAt
  | .body => ClosesAt

/-- No statement has trees in parentheses of its own. -/
theorem Clause.not_follow_closeParen (role : Clause) :
    ¬ role.follow (some (.symbol .closeParen)) := by
  intro hclose
  cases role with
  | expression => exact hclose.next_ne (by decide) rfl
  | body => exact hclose.next_ne (by decide) rfl

section

variable {next : Option Lexeme}

theorem fits_operandForm {form : Form Inside} (hform : operandForm next = .ok form)
    {S : Option Lexeme → Prop} (hS : ∀ l, S l → HaltsAt l) :
    form.pattern.Fits (Inside.follow S) S := by
  unfold operandForm at hform
  split at hform <;> cases hform
  · trivial
  · trivial
  · trivial
  · trivial
  · exact ⟨fun _ h => h, trivial⟩
  · exact ⟨fun _ h => h, trivial⟩
  · refine ⟨?_, trivial⟩
    rintro _ rfl
    exact amongSymbols_some (by decide)
  · refine ⟨?_, ⟨?_, trivial⟩, ?_, ⟨hS, trivial⟩, trivial⟩
    · rintro l (rfl | h)
      · decide
      · exact (hS l h).next_ne (by decide)
    · intro s hs
      refine amongSymbols_some ?_
      revert s
      decide
    · exact fun l h => (hS l h).next_ne (by decide)

theorem kinds_operandForm {form : Form Inside} (hform : operandForm next = .ok form) :
    ∀ kind ∈ form.pattern.kinds, ParserKind kind := by
  unfold operandForm at hform
  split at hform <;> cases hform <;>
    simp [Form.atom, Form.sign, Form.group, Form.named, Pattern.kinds, Item.kinds, ParserKind]

theorem operandForm_error {kind : SyntaxError.Kind} (h : operandForm next = .error kind) :
    ParserKind kind := by
  unfold operandForm at h
  split at h <;> cases h <;> decide

theorem kinds_control {form : Form Clause} (hform : start next = .control form) :
    ∀ kind ∈ form.pattern.kinds, ParserKind kind := by
  unfold start at hform
  split at hform <;> cases hform <;> decide

theorem kinds_simple {form : Form Clause} (hform : start next = .simple form) :
    ∀ kind ∈ form.pattern.kinds, ParserKind kind := by
  unfold start at hform
  split at hform <;> cases hform <;> decide

theorem fits_ending (F : Clause → Option Lexeme → Prop) (S : Option Lexeme → Prop) :
    Pattern.ending.Fits F S := trivial

theorem fits_control {form : Form Clause} (hform : start next = .control form) :
    form.pattern.Fits Clause.follow fun _ => True := by
  have hcolon : StopsAt (some (.symbol .colon)) := amongSymbols_some (by decide)
  have hsemicolon : ClosesAt (some (.symbol .semicolon)) := amongSymbols_some (by decide)
  have helse : ClosesAt (some (.symbol .elseWord)) := amongSymbols_some (by decide)
  unfold start at hform
  split at hform <;> cases hform
  · refine ⟨?_, ?_, ?_, ⟨?_, fits_ending ..⟩, fits_ending ..⟩
    · rintro _ rfl
      exact hcolon
    · rintro _ (rfl | rfl)
      · exact helse
      · exact hsemicolon
    · rintro _ rfl
      decide
    · rintro _ rfl
      exact hsemicolon
  · refine ⟨?_, ?_, fits_ending ..⟩
    · rintro _ rfl
      exact hcolon
    · rintro _ rfl
      exact hsemicolon
  · refine ⟨fun _ _ => trivial, fun _ _ => trivial, ?_, fits_ending ..⟩
    rintro _ rfl
    exact hsemicolon

theorem start_of_closes (h : ClosesAt next) : start next = .stop := by
  cases next with
  | none => rfl
  | some l =>
      obtain ⟨s, hs, rfl⟩ := List.mem_map.mp (h l rfl)
      obtain rfl | rfl : s = .elseWord ∨ s = .semicolon := by simpa using hs
      · rfl
      · rfl

theorem fits_simple {form : Form Clause} (hform : start next = .simple form) :
    form.pattern.Fits Clause.follow StopsAt := by
  unfold start at hform
  split at hform <;> cases hform
  · exact ⟨fun _ h => h, trivial⟩
  · exact ⟨fun _ _ => trivial, fun _ h => h, trivial⟩

end

/-! ## The parser by the next token -/

def nextLexeme? (tokens : List Token) : Option Lexeme := tokens.head?.map (·.lexeme)

/-- Take the next token, and go on by where it stands. -/
def shift (p : Position → Parser α) : Parser α
  | [] => reject .unexpectedEnd []
  | t :: rest => p t.position rest

def requireNameBy (kind : SyntaxError.Kind) : Option Lexeme → Parser String
  | some (.identifier name) => shift fun _ => return name
  | _ => reject kind

theorem requireName_by (kind : SyntaxError.Kind) (tokens : List Token) :
    requireName kind tokens = requireNameBy kind (nextLexeme? tokens) tokens := by
  cases tokens with
  | nil => rfl
  | cons t tokens =>
      obtain ⟨lexeme, p⟩ := t
      cases lexeme <;> rfl

def operandBy (op inner : Parser Node) (next : Option Lexeme) : Parser Node :=
  match operandForm next with
  | .ok form => shift (form.parser (insideReaders op inner))
  | .error kind => reject kind

def afterControl (more : Parser (List Node)) (statement : Parser Node) : Parser (List Node) := do
  let first ← statement
  let _ ← accept .comma
  return first :: (← more)

/-- A simple statement, with more of them behind a comma. -/
def afterSimple (more : Parser (List Node)) (statement : Parser Node) : Parser (List Node) := do
  let first ← statement
  if ← accept .comma then
    return first :: (← more)
  else
    return [first]

def statementsBy (expr inner : Parser Node) (more : Parser (List Node)) (next : Option Lexeme) :
    Parser (List Node) :=
  match start next with
  | .stop => return []
  | .control form => shift fun p => afterControl more (form.parser (clauseReaders expr inner) p)
  | .simple form => shift fun p => afterSimple more (form.parser (clauseReaders expr inner) p)
  | .expression => afterSimple more expr

section

variable {expr inner : Parser Node} {more : Parser (List Node)} {next : Option Lexeme}
  {form : Form Clause}

theorem statementsBy_stop (h : start next = .stop) :
    statementsBy expr inner more next = Pure.pure [] := by
  unfold statementsBy
  rw [h]

theorem statementsBy_control (h : start next = .control form) :
    statementsBy expr inner more next =
      shift fun p => afterControl more (form.parser (clauseReaders expr inner) p) := by
  unfold statementsBy
  rw [h]

theorem statementsBy_simple (h : start next = .simple form) :
    statementsBy expr inner more next =
      shift fun p => afterSimple more (form.parser (clauseReaders expr inner) p) := by
  unfold statementsBy
  rw [h]

theorem statementsBy_expression (h : start next = .expression) :
    statementsBy expr inner more next = afterSimple more expr := by
  unfold statementsBy
  rw [h]

end

section

variable (op expr inner : Parser Node) (p : Position)

theorem unary_eq (s : Symbol) : unary op s p = (Form.sign s).parser (insideReaders op inner) p := by
  simp only [unary, Form.parser, Form.sign, Pattern.parser, Item.parser, insideReaders, bind_assoc,
    pure_bind]

theorem group_eq : group inner p = Form.group.parser (insideReaders op inner) p := by
  simp only [group, Form.parser, Form.group, Pattern.parser, Item.parser, insideReaders, bind_assoc,
    pure_bind]

theorem named_eq (name : String) :
    (Form.named name).parser (insideReaders op inner) p = (do
      if ← accept .openParen then call inner name p
      else if ← accept .equal then assignment inner name p
      else return .reference name p) := by
  simp only [Form.parser, Form.named, Pattern.parser, Item.parser, insideReaders, bind_assoc,
    pure_bind]
  refine bind_congr fun opened => ?_
  cases opened with
  | true => simp [call]
  | false =>
      simp only [bind_assoc, Bool.false_eq_true, if_false]
      refine bind_congr fun assigned => ?_
      cases assigned <;> simp [assignment]

theorem ifStatement_eq :
    ifStatement expr inner p = Form.ifStatement.parser (clauseReaders expr inner) p := by
  simp only [ifStatement, Form.parser, Form.ifStatement, Pattern.parser, Pattern.ending,
    Item.parser, clauseReaders, bind_assoc, pure_bind]
  refine bind_congr fun c => bind_congr fun _ => bind_congr fun x => bind_congr fun more => ?_
  cases more <;> simp

theorem whileStatement_eq :
    whileStatement expr inner p = Form.whileStatement.parser (clauseReaders expr inner) p := by
  simp only [whileStatement, Form.parser, Form.whileStatement, Pattern.parser, Pattern.ending,
    Item.parser, clauseReaders, bind_assoc, pure_bind]

theorem functionStatement_eq :
    functionStatement inner p = Form.functionStatement.parser (clauseReaders expr inner) p := by
  simp only [functionStatement, Form.parser, Form.functionStatement, Pattern.parser, Pattern.ending,
    Item.parser, clauseReaders, bind_assoc, pure_bind]

theorem returnStatement_eq :
    returnStatement expr p = Form.returnStatement.parser (clauseReaders expr inner) p := by
  simp only [returnStatement, Form.parser, Form.returnStatement, Pattern.parser, Item.parser,
    clauseReaders, bind_assoc, pure_bind]

theorem outerAssignment_eq :
    outerAssignment expr p = Form.outerAssignment.parser (clauseReaders expr inner) p := by
  simp only [outerAssignment, Form.parser, Form.outerAssignment, Pattern.parser, Item.parser,
    clauseReaders, bind_assoc, pure_bind]

end

theorem operandWith_by (op inner : Parser Node) (tokens : List Token) :
    operandWith op inner tokens = operandBy op inner (nextLexeme? tokens) tokens := by
  cases tokens with
  | nil => rfl
  | cons t tokens =>
      obtain ⟨lexeme, p⟩ := t
      cases lexeme with
      | number | boolean | string => rfl
      | identifier name =>
          refine Eq.trans ?_ (congrFun (named_eq op inner p name) tokens).symm
          -- Whether a parenthesis or an equals sign comes second is told one after the other.
          cases tokens with
          | nil => rfl
          | cons t tokens =>
              obtain ⟨lexeme, q⟩ := t
              cases lexeme with
              | symbol s => cases s <;> rfl
              | _ => rfl
      | symbol s =>
          cases s with
          | bang | minus => exact congrFun (unary_eq op inner p _) tokens
          | openParen => exact congrFun (group_eq op inner p) tokens
          | _ => rfl

theorem statementsFrom_cons_by (expr inner : Parser Node)
    (round : Token) (rounds tokens : List Token) :
    statementsFrom expr inner (round :: rounds) tokens =
      statementsBy expr inner (statementsFrom expr inner rounds) (nextLexeme? tokens) tokens := by
  have control {statement statement' : Parser Node} (h : statement = statement') (tokens) :
      afterControl (statementsFrom expr inner rounds) statement tokens =
        afterControl (statementsFrom expr inner rounds) statement' tokens := by
    rw [h]
  have simple {statement statement' : Parser Node} (h : statement = statement') (tokens) :
      afterSimple (statementsFrom expr inner rounds) statement tokens =
        afterSimple (statementsFrom expr inner rounds) statement' tokens := by
    rw [h]
  cases tokens with
  | nil => rfl
  | cons t tokens =>
      obtain ⟨lexeme, p⟩ := t
      cases lexeme with
      | symbol s =>
          cases s with
          | ifWord => exact control (ifStatement_eq expr inner p) tokens
          | whileWord => exact control (whileStatement_eq expr inner p) tokens
          | fnWord => exact control (functionStatement_eq expr inner p) tokens
          | retWord => exact simple (returnStatement_eq expr inner p) tokens
          | nonlocalWord => exact simple (outerAssignment_eq expr inner p) tokens
          | _ => rfl
      | _ => rfl

end Scriptlet.Parser
