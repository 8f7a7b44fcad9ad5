import Scriptlet.Diagnostic.Basic
import Scriptlet.Token.Scan
import Scriptlet.Tree.Node

/-!
# Reading a tree from tokens

```
root        ::= statements                          all tokens must be read
statements  ::= (control ","? | simple ("," | stop))*
control     ::= "if" expr ":" statements ("else" statements)? ";"
              | "while" expr ":" statements ";"
              | "fn" name "(" (name ("," name)*)? ")" ":" statements ";"
simple      ::= "ret" expr | "nonlocal" name "=" expr | expr
expr        ::= operands joined by the operators of `levels`, loosest first
operand     ::= ("!" | "-") operand
              | number | boolean | string | "nil"
              | name "(" (expr ("," expr)*)? ")" | name "=" expr | name | "(" expr ")"
```

The parser looks one token ahead and never goes back. What it reads may nest only to a given
depth: a group, the arguments of a call, the right side of an assignment, the operand of a unary
operator and the body of a control statement each open one level. Lists and chains of operators
open none. All levels weigh the same, however many calls the productions between them take.
-/

namespace Scriptlet

/-- Why the parser stopped, and with which tokens before it. -/
inductive Parser.Failure where
  | rejected (kind : SyntaxError.Kind) (rest : List Token)
  | tooDeep (rest : List Token)
  deriving DecidableEq

def Parser (α : Type) : Type := List Token → Except Parser.Failure (α × List Token)

namespace Parser

variable {α β : Type}

def pure (a : α) : Parser α := fun tokens => .ok (a, tokens)

def bind (p : Parser α) (f : α → Parser β) : Parser β := fun tokens =>
  match p tokens with
  | .ok (a, rest) => f a rest
  | .error failure => .error failure

instance : Monad Parser where
  pure := Parser.pure
  bind := Parser.bind

@[simp] theorem pure_apply (a : α) (tokens : List Token) :
    (Pure.pure a : Parser α) tokens = .ok (a, tokens) := rfl

theorem bind_eq_ok_iff {p : Parser α} {f : α → Parser β} {tokens rest : List Token} {b : β} :
    (p >>= f) tokens = .ok (b, rest) ↔
      ∃ a middle, p tokens = .ok (a, middle) ∧ f a middle = .ok (b, rest) := by
  change Parser.bind p f tokens = _ ↔ _
  unfold Parser.bind
  cases h : p tokens with
  | error failure => simp
  | ok result =>
      obtain ⟨a, middle⟩ := result
      constructor
      · exact fun second => ⟨a, middle, rfl, second⟩
      · rintro ⟨_, _, first, second⟩
        cases first
        exact second

/-- Refuse the next token, or the end. -/
def reject (kind : SyntaxError.Kind) : Parser α := fun tokens => .error (.rejected kind tokens)

def tooDeep : Parser α := fun tokens => .error (.tooDeep tokens)

def acceptAny (symbols : List Symbol) : Parser (Option Symbol)
  | ⟨.symbol s, p⟩ :: rest =>
      if s ∈ symbols then .ok (some s, rest) else .ok (none, ⟨.symbol s, p⟩ :: rest)
  | tokens => .ok (none, tokens)

def accept (symbol : Symbol) : Parser Bool := do
  return (← acceptAny [symbol]).isSome

def require (symbol : Symbol) (kind : SyntaxError.Kind) : Parser Unit := do
  if ← accept symbol then return () else reject kind

def requireName (kind : SyntaxError.Kind) : Parser String
  | ⟨.identifier name, _⟩ :: rest => .ok (name, rest)
  | tokens => reject kind tokens

/-- One or more items with commas between them. Each further item costs a comma, so the tokens
themselves count enough rounds. -/
def separatedFrom (item : Parser α) : (rounds : List Token) → Parser (List α)
  | [] => do
      return [← item]
  | _ :: rounds => do
      let first ← item
      if ← accept .comma then
        return first :: (← separatedFrom item rounds)
      else
        return [first]

def separated (item : Parser α) : Parser (List α) := fun tokens =>
  separatedFrom item tokens tokens

/-- Items up to a closing parenthesis; there may be none. -/
def listed (item : Parser α) (kind : SyntaxError.Kind) : Parser (List α) := do
  if ← accept .closeParen then
    return []
  else
    let items ← separated item
    require .closeParen kind
    return items

/-! ## Expressions -/

/-- Binary operators that bind equally; at some levels they cannot be chained. -/
structure Level where
  operators : List Symbol
  repeats : Bool

def levels : List Level :=
  [⟨[.orWord], true⟩,
    ⟨[.andWord], true⟩,
    ⟨[.equalEqual, .bangEqual], false⟩,
    ⟨[.greater, .greaterEqual, .less, .lessEqual], false⟩,
    ⟨[.percent], true⟩,
    ⟨[.plus, .minus], true⟩,
    ⟨[.star, .slash], true⟩]

/-- Extend `left` by operators of one level as often as they come, one round each. A round costs
an operator, so the tokens themselves count enough rounds. -/
def chainFrom (operators : List Symbol) (operand : Parser Node) :
    (rounds : List Token) → Node → Parser Node
  | [], left => return left
  | _ :: rounds, left => do
      match ← acceptAny operators with
      | none => return left
      | some operator =>
          let right ← operand
          chainFrom operators operand rounds (.binary (.symbol operator) left right left.position)

def chain (level : Level) (operand : Parser Node) (left : Node) : Parser Node := fun tokens =>
  let rounds := if level.repeats then tokens else tokens.take 1
  chainFrom level.operators operand rounds left tokens

/-- Operands joined by the operators of `levels`. -/
def climb (operand : Parser Node) : List Level → Parser Node
  | [] => operand
  | level :: tighter => do
      let left ← climb operand tighter
      chain level (climb operand tighter) left

def expression (operand : Parser Node) : Parser Node := climb operand levels

def call (inner : Parser Node) (name : String) (position : Position) : Parser Node := do
  let args ← listed inner .callMissingParen
  return .call name args position

def assignment (inner : Parser Node) (name : String) (position : Position) : Parser Node := do
  return .assign name (← inner) false position

def group (inner : Parser Node) (position : Position) : Parser Node := do
  let node ← inner
  require .closeParen .unclosedGroup
  return .group node position

def unary (operand : Parser Node) (operator : Symbol) (position : Position) : Parser Node := do
  return .unary (.symbol operator) (← operand) position

/-- An operand, given how the operand of an operator and the expression inside any other
construct are read. -/
def operandWith (operand inner : Parser Node) : Parser Node
  | ⟨.number x, p⟩ :: rest => .ok (.number x p, rest)
  | ⟨.boolean b, p⟩ :: rest => .ok (.boolean b p, rest)
  | ⟨.string s, p⟩ :: rest => .ok (.string s p, rest)
  | ⟨.symbol .nil, p⟩ :: rest => .ok (.nil p, rest)
  | ⟨.symbol .bang, p⟩ :: rest => unary operand .bang p rest
  | ⟨.symbol .minus, p⟩ :: rest => unary operand .minus p rest
  | ⟨.symbol .openParen, p⟩ :: rest => group inner p rest
  | ⟨.identifier name, p⟩ :: ⟨.symbol .openParen, _⟩ :: rest => call inner name p rest
  | ⟨.identifier name, p⟩ :: ⟨.symbol .equal, _⟩ :: rest => assignment inner name p rest
  | ⟨.identifier name, p⟩ :: rest => .ok (.reference name p, rest)
  | [] => reject .unexpectedEnd []
  | tokens => reject .unexpectedToken tokens

/-- An operand in which `depth` levels may be open at once. The depth counts open constructs; the
levels of operators that `expression` descends through for each of them are not counted. -/
def operand : (depth : Nat) → Parser Node
  | 0 => operandWith tooDeep tooDeep
  | depth + 1 => operandWith (operand depth) (expression (operand depth))

/-! ## Statements -/

/-- A statement sequence as the body of a control statement; it stands where it begins. -/
def body (statements : Parser (List Node)) : Parser Node := fun tokens =>
  match statements tokens with
  | .ok (nodes, rest) => .ok (.block nodes (tokens.head?.map (·.position)), rest)
  | .error failure => .error failure

def ifStatement (expr body : Parser Node) (position : Position) : Parser Node := do
  let condition ← expr
  require .colon .missingColon
  let first ← body
  if ← accept .elseWord then
    let second ← body
    require .semicolon .missingSemicolon
    return .ifElse condition first second position
  else
    require .semicolon .missingSemicolon
    return .ifThen condition first position

def whileStatement (expr body : Parser Node) (position : Position) : Parser Node := do
  let condition ← expr
  require .colon .missingColon
  let inner ← body
  require .semicolon .missingSemicolon
  return .whileLoop condition inner position

def functionStatement (body : Parser Node) (position : Position) : Parser Node := do
  let name ← requireName .missingIdentifier
  require .openParen .missingParen
  let params ← listed (requireName .missingIdentifier) .missingParen
  require .colon .missingColon
  let inner ← body
  require .semicolon .missingSemicolon
  return .function name params inner position

def returnStatement (expr : Parser Node) (position : Position) : Parser Node := do
  return .ret (← expr) position

def outerAssignment (expr : Parser Node) (position : Position) : Parser Node := do
  let name ← requireName .assignMissingIdentifier
  require .equal .assignMissingEqual
  return .assign name (← expr) true position

/-- Statements until the end, a symbol that closes a body, or a simple statement without a comma
after it. Each statement costs a token, so the tokens themselves count enough rounds. -/
def statementsFrom (expr body : Parser Node) : (rounds : List Token) → Parser (List Node)
  | [] => return []
  | _ :: rounds => fun tokens =>
      let control (statement : Parser Node) : Parser (List Node) := do
        let first ← statement
        let _ ← accept .comma
        return first :: (← statementsFrom expr body rounds)
      let simple (statement : Parser Node) : Parser (List Node) := do
        let first ← statement
        if ← accept .comma then
          return first :: (← statementsFrom expr body rounds)
        else
          return [first]
      match tokens with
      | [] => .ok ([], [])
      | ⟨.symbol .elseWord, _⟩ :: _ => .ok ([], tokens)
      | ⟨.symbol .semicolon, _⟩ :: _ => .ok ([], tokens)
      | ⟨.symbol .ifWord, p⟩ :: rest => control (ifStatement expr body p) rest
      | ⟨.symbol .whileWord, p⟩ :: rest => control (whileStatement expr body p) rest
      | ⟨.symbol .fnWord, p⟩ :: rest => control (functionStatement body p) rest
      | ⟨.symbol .retWord, p⟩ :: rest => simple (returnStatement expr p) rest
      | ⟨.symbol .nonlocalWord, p⟩ :: rest => simple (outerAssignment expr p) rest
      | _ => simple expr tokens

def statementsWith (expr body : Parser Node) : Parser (List Node) := fun tokens =>
  statementsFrom expr body tokens tokens

def statements : (depth : Nat) → Parser (List Node)
  | 0 => statementsWith (expression (operand 0)) tooDeep
  | depth + 1 => statementsWith (expression (operand (depth + 1))) (body (statements depth))

/-- A whole program, which stands where its first statement does. -/
def root (depth : Nat) : Parser Node := fun tokens =>
  match statements depth tokens with
  | .error failure => .error failure
  | .ok (nodes, []) => .ok (.root nodes (nodes.head?.bind Node.position), [])
  | .ok (_, rest) => .error (.rejected .unexpectedToken rest)

end Parser

/-! ## Sources -/

/-- What reading a source gives: a tree, the bytes skipped on the way, and the error that put an
end to it, if any. -/
structure Parsed where
  tree : Node
  skips : List Skip
  error : Option SyntaxError

namespace Parsed

/-- The end of the source, in words of the parser. -/
def errorAtEnd (kind : SyntaxError.Kind) : Ending → SyntaxError
  | .finished position => .atEnd kind position
  | .unclosed quote => .unterminated quote

/-- The error for a parser that stopped; past the last token an unclosed string comes first. -/
def errorOf (ending : Ending) : Parser.Failure → SyntaxError
  | .rejected kind (token :: _) => .atToken kind token
  | .rejected kind [] => errorAtEnd kind ending
  | .tooDeep (token :: _) => .atEnd .nestingTooDeep token.position
  | .tooDeep [] =>
      match ending with
      | .finished position => .atEnd .nestingTooDeep position
      | .unclosed quote => .atEnd .nestingTooDeep quote

/-- The bytes that were skipped before the place where reading stopped. -/
def skipsBefore (skips : List Skip) : List Token → List Skip
  | [] => skips
  | token :: _ => skips.filter fun s => s.position.before token.position

def unread : Parser.Failure → List Token
  | .rejected _ rest => rest
  | .tooDeep rest => rest

/-- A source that cannot be read stands for the program that does nothing. -/
def failed (skips : List Skip) (error : SyntaxError) : Parsed := ⟨.nil none, skips, some error⟩

/-- Read a scanned source in which `depth` levels may be open at once. -/
def ofScan (depth : Nat) (scan : Scan) : Parsed :=
  match Parser.root depth scan.tokens with
  | .error failure => failed (skipsBefore scan.skips (unread failure)) (errorOf scan.ending failure)
  | .ok (tree, _) =>
      match scan.ending with
      | .finished _ => ⟨tree, scan.skips, none⟩
      | .unclosed quote => failed scan.skips (.unterminated quote)

def ofBytes (depth : Nat) (bytes : List UInt8) : Parsed := ofScan depth (.ofBytes bytes)

end Parsed

end Scriptlet
