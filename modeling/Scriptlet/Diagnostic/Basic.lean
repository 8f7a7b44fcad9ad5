import Scriptlet.Diagnostic.Message
import Scriptlet.Token.Basic

/-!
# Diagnostics

Whatever can be said about a program, in the form in which it is written for the user. Syntax
errors and evaluation errors keep their kinds; each kind of evaluation error has its own exit
code.
-/

namespace Scriptlet

/-- A message with the place it speaks of. -/
structure Diagnostic where
  message : Message
  position : Option Position := none
  /-- The token to mark in the source line. -/
  token : Option Token := none
  /-- Whether the source line is shown. -/
  excerpt : Bool := true
  /-- A failure of the interpreter, not of the program. -/
  internal : Bool := false
  exitCode : Nat := 1
  deriving DecidableEq

namespace Diagnostic

def ofText (text : String) : Diagnostic := { message := .ofText text }

end Diagnostic

inductive SyntaxError.Kind where
  | unexpectedToken
  | unexpectedEnd
  | unclosedGroup
  | missingColon
  | missingSemicolon
  | missingIdentifier
  | missingParen
  | callMissingParen
  | assignMissingEqual
  | assignMissingIdentifier
  | unterminatedString
  | nestingTooDeep
  deriving DecidableEq, Repr

namespace SyntaxError.Kind

def text : SyntaxError.Kind → String
  | .unexpectedToken => "unexpected token"
  | .unexpectedEnd => "unexpected end of input"
  | .unclosedGroup => "unclosed grouping"
  | .missingColon => "missing colon"
  | .missingSemicolon => "missing semicolon"
  | .missingIdentifier => "missing identifier"
  | .missingParen => "missing parenthesis"
  | .callMissingParen => "function call missing closing parenthesis"
  | .assignMissingEqual => "assignment missing '='"
  | .assignMissingIdentifier => "assignment missing identifier"
  | .unterminatedString => "unterminated string"
  | .nestingTooDeep => "nesting too deep"

def label : SyntaxError.Kind → String
  | .unexpectedToken => "UNEXPECTED_TOKEN"
  | .unexpectedEnd => "UNEXPECTED_END_OF_INPUT"
  | .unclosedGroup => "UNCLOSED_GROUPING"
  | .missingColon => "MISSING_COLON"
  | .missingSemicolon => "MISSING_SEMICOLON"
  | .missingIdentifier => "MISSING_IDENTIFIER"
  | .missingParen => "MISSING_PAREN"
  | .callMissingParen => "FN_CALL_MISSING_CLOSE_PAREN"
  | .assignMissingEqual => "ASSIGNMENT_MISSING_EQUAL"
  | .assignMissingIdentifier => "ASSIGNMENT_MISSING_IDENTIFIER"
  | .unterminatedString => "UNTERMINATED_STRING"
  | .nestingTooDeep => "NESTING_TOO_DEEP"

def all : List SyntaxError.Kind :=
  [.unexpectedToken, .unexpectedEnd, .unclosedGroup, .missingColon, .missingSemicolon,
    .missingIdentifier, .missingParen, .callMissingParen, .assignMissingEqual,
    .assignMissingIdentifier, .unterminatedString, .nestingTooDeep]

def ofLabel? (label : String) : Option SyntaxError.Kind := all.find? fun kind => kind.label == label

/-- What is said of an error unless it brings words of its own. -/
def message (kind : SyntaxError.Kind) : Option Token → Message
  | none => .ofText kind.text
  | some token => ⟨[.text kind.text, .text " at '", .word token.text, .text "'"]⟩

end SyntaxError.Kind

structure SyntaxError where
  kind : SyntaxError.Kind
  /-- The token that could not be read on, unless the input ended. -/
  token : Option Token := none
  position : Option Position
  message : Message
  deriving DecidableEq

namespace SyntaxError

def atToken (kind : Kind) (token : Token) : SyntaxError :=
  ⟨kind, some token, some token.position, kind.message (some token)⟩

def atEnd (kind : Kind) (position : Position) : SyntaxError :=
  ⟨kind, none, some position, kind.message none⟩

def unterminated (quote : Position) : SyntaxError :=
  ⟨.unterminatedString, none, some quote,
    ⟨[.text "string literal is missing its closing '", .word "\"", .text "'"]⟩⟩

def diagnostic (e : SyntaxError) : Diagnostic :=
  { message := e.message, position := e.position, token := e.token }

end SyntaxError

inductive EvalError.Kind where
  | unaryType
  | binaryType
  | undefinedVariable
  | conditionType
  | undefinedFunction
  | arity
  | recursionLimit
  deriving DecidableEq, Repr

namespace EvalError.Kind

def exitCode : EvalError.Kind → Nat
  | .unaryType => 2
  | .binaryType => 3
  | .undefinedVariable => 4
  | .conditionType => 5
  | .undefinedFunction => 6
  | .arity => 7
  | .recursionLimit => 8

def label : EvalError.Kind → String
  | .unaryType => "UNARY_TYPE_ERROR"
  | .binaryType => "BINARY_TYPE_ERROR"
  | .undefinedVariable => "UNDEFINED_VARIABLE"
  | .conditionType => "CONDITION_TYPE_ERROR"
  | .undefinedFunction => "UNDEFINED_FUNCTION"
  | .arity => "ARITY_ERROR"
  | .recursionLimit => "RECURSION_LIMIT"

def all : List EvalError.Kind :=
  [.unaryType, .binaryType, .undefinedVariable, .conditionType, .undefinedFunction, .arity,
    .recursionLimit]

def ofLabel? (label : String) : Option EvalError.Kind := all.find? fun kind => kind.label == label

end EvalError.Kind

/-- Why an evaluation failed. -/
inductive EvalError.Cause where
  | undefinedVariable (name : String)
  | undefinedFunction (name : String)
  | condition (construct typeName : String)
  | unary (operator typeName : String)
  | binary (operator left right : String)
  /-- The left operand alone was looked at. -/
  | binaryLeft (operator left : String)
  | builtinTypes (name left right : String)
  | arity (name : String) (expected got : Nat)
  | tooDeep
  deriving DecidableEq, Repr

namespace EvalError.Cause

def kind : EvalError.Cause → EvalError.Kind
  | .undefinedVariable _ => .undefinedVariable
  | .undefinedFunction _ => .undefinedFunction
  | .condition .. => .conditionType
  | .unary .. => .unaryType
  | .binary .. => .binaryType
  | .binaryLeft .. => .binaryType
  | .builtinTypes .. => .binaryType
  | .arity .. => .arity
  | .tooDeep => .recursionLimit

def message : EvalError.Cause → Message
  | .undefinedVariable name => ⟨[.text "undefined variable '", .word name, .text "'"]⟩
  | .undefinedFunction name => ⟨[.text "undefined function '", .word name, .text "'"]⟩
  | .condition construct typeName =>
      ⟨[.text "'", .word construct, .text "' condition must be a boolean, got ",
        .word typeName]⟩
  | .unary operator typeName =>
      ⟨[.text "unary operator '", .word operator, .text "' cannot be applied to ",
        .word typeName]⟩
  | .binary operator left right =>
      ⟨[.text "binary operator '", .word operator, .text "' cannot be applied to ", .word left,
        .text " and ", .word right]⟩
  | .binaryLeft operator left =>
      ⟨[.text "binary operator '", .word operator, .text "' cannot be applied to ", .word left]⟩
  | .builtinTypes name left right =>
      ⟨[.text "'", .word name, .text "' cannot be applied to ", .word left, .text " and ",
        .word right]⟩
  | .arity name expected got =>
      ⟨[.text "'", .word name, .text "' expects ", .word (toString expected),
        .text " argument(s), got ", .word (toString got)]⟩
  | .tooDeep => .ofText "maximum recursion depth exceeded"

end EvalError.Cause

structure EvalError where
  cause : EvalError.Cause
  position : Option Position := none
  deriving DecidableEq

namespace EvalError

def kind (e : EvalError) : Kind := e.cause.kind

def diagnostic (e : EvalError) : Diagnostic :=
  { message := e.cause.message, position := e.position, exitCode := e.kind.exitCode }

/-- An error that does not know its place happened at `position`. -/
def locate (e : EvalError) (position : Option Position) : EvalError :=
  match e.position with
  | none => { e with position := position }
  | some _ => e

end EvalError

end Scriptlet
