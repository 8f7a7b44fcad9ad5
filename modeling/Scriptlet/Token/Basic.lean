import Scriptlet.Number.Text
import Scriptlet.Source.Position
import Scriptlet.Text.Quoted

/-!
# Tokens

Most tokens are symbols, which have one spelling each. Numbers, booleans, strings and identifiers
carry a value.
-/

namespace Scriptlet

inductive Symbol where
  | nil
  | openParen | closeParen | colon | comma | semicolon
  | equal | equalEqual | bang | bangEqual | greater | greaterEqual | less | lessEqual
  | plus | minus | star | slash | percent
  | andWord | orWord
  | ifWord | elseWord | whileWord | fnWord | retWord | nonlocalWord
  deriving DecidableEq, Repr

namespace Symbol

def text : Symbol → String
  | .nil => "nil"
  | .openParen => "("
  | .closeParen => ")"
  | .colon => ":"
  | .comma => ","
  | .semicolon => ";"
  | .equal => "="
  | .equalEqual => "=="
  | .bang => "!"
  | .bangEqual => "!="
  | .greater => ">"
  | .greaterEqual => ">="
  | .less => "<"
  | .lessEqual => "<="
  | .plus => "+"
  | .minus => "-"
  | .star => "*"
  | .slash => "/"
  | .percent => "%"
  | .andWord => "and"
  | .orWord => "or"
  | .ifWord => "if"
  | .elseWord => "else"
  | .whileWord => "while"
  | .fnWord => "fn"
  | .retWord => "ret"
  | .nonlocalWord => "nonlocal"

def label : Symbol → String
  | .nil => "NIL"
  | .openParen => "OPEN_PAREN"
  | .closeParen => "CLOSE_PAREN"
  | .colon => "COLON"
  | .comma => "COMMA"
  | .semicolon => "SEMICOLON"
  | .equal => "EQUAL"
  | .equalEqual => "EQUAL_EQUAL"
  | .bang => "BANG"
  | .bangEqual => "BANG_EQUAL"
  | .greater => "GREATER"
  | .greaterEqual => "GREATER_EQUAL"
  | .less => "LESS"
  | .lessEqual => "LESS_EQUAL"
  | .plus => "PLUS"
  | .minus => "MINUS"
  | .star => "STAR"
  | .slash => "SLASH"
  | .percent => "PERCENT"
  | .andWord => "AND"
  | .orWord => "OR"
  | .ifWord => "IF"
  | .elseWord => "ELSE"
  | .whileWord => "WHILE"
  | .fnWord => "FN"
  | .retWord => "RET"
  | .nonlocalWord => "NONLOCAL"

def all : List Symbol :=
  [.nil, .openParen, .closeParen, .colon, .comma, .semicolon, .equal, .equalEqual, .bang,
    .bangEqual, .greater, .greaterEqual, .less, .lessEqual, .plus, .minus, .star, .slash,
    .percent, .andWord, .orWord, .ifWord, .elseWord, .whileWord, .fnWord, .retWord,
    .nonlocalWord]

end Symbol

/-- The class of a token: what can be said of it without its value. -/
inductive Kind where
  | number
  | boolean
  | string
  | identifier
  | symbol (s : Symbol)
  deriving DecidableEq, Repr

namespace Kind

/-- The spelling of a symbol, or the name of a class that has many spellings. -/
def text : Kind → String
  | .number => "<number>"
  | .boolean => "<boolean>"
  | .string => "<string>"
  | .identifier => "<identifier>"
  | .symbol s => s.text

def label : Kind → String
  | .number => "NUMBER"
  | .boolean => "BOOLEAN"
  | .string => "STRING"
  | .identifier => "IDENTIFIER"
  | .symbol s => s.label

def all : List Kind := [.number, .boolean, .string, .identifier] ++ Symbol.all.map .symbol

def ofLabel? (label : String) : Option Kind := all.find? fun kind => kind.label == label

end Kind

inductive Lexeme where
  | number (x : Float)
  | boolean (b : Bool)
  | string (s : String)
  | identifier (name : String)
  | symbol (s : Symbol)
  deriving DecidableEq

namespace Lexeme

def kind : Lexeme → Kind
  | .number _ => .number
  | .boolean _ => .boolean
  | .string _ => .string
  | .identifier _ => .identifier
  | .symbol s => .symbol s

/-- The text by which messages refer to a token. -/
def text : Lexeme → String
  | .number x => Number.literal x
  | .boolean b => if b then "true" else "false"
  | .string s => "\"" ++ s ++ "\""
  | .identifier name => name
  | .symbol s => s.text

/-- The value of a token as it stands in a description, if it has one. -/
def valueText? : Lexeme → Option String
  | .number x => some (Number.literal x)
  | .boolean b => some (if b then "True" else "False")
  | .string s => some (Text.quoted s)
  | .identifier name => some (Text.quoted name)
  | .symbol _ => none

end Lexeme

structure Token where
  lexeme : Lexeme
  position : Position
  deriving DecidableEq

namespace Token

def kind (t : Token) : Kind := t.lexeme.kind

def text (t : Token) : String := t.lexeme.text

/-- Kind, value and position of a token in one line. -/
def describe (t : Token) : String :=
  let value :=
    match t.lexeme.valueText? with
    | none => ""
    | some text => text ++ ", "
  "Token(" ++ t.kind.label ++ ", " ++ value ++ t.position.text ++ ")"

end Token

end Scriptlet
