import Scriptlet.Diagnostic.Reporter
import Scriptlet.Diagnostic.Template
import Scriptlet.Number.Text
import Scriptlet.Scope.Arena
import Scriptlet.Text.Raw

/-!
# Trouble and its handling

Whatever can break off the work of a session. A guard reports most of it, and then either ends
the run or goes on with the next piece of work.
-/

namespace Scriptlet

/-- Something that a failure from outside says about itself. -/
inductive Detail where
  | text (s : String)
  | integer (n : Int)
  | number (x : Float)
  | boolean (b : Bool)
  | nothing
  deriving DecidableEq

namespace Detail

def listed : Detail → String
  | .text s => Text.quoted s
  | .integer n => toString n
  | .number x => Number.literal x
  | .boolean true => "True"
  | .boolean false => "False"
  | .nothing => "None"

def alone : Detail → String
  | .text s => s
  | d => d.listed

/-- All details: one stands by itself, and several are listed in parentheses. -/
def all : List Detail → String
  | [] => ""
  | [d] => d.alone
  | ds => "(" ++ ", ".intercalate (ds.map listed) ++ ")"

end Detail

/-- A failure that nothing in the language accounts for. -/
inductive Fault where
  | noResult
  | undecodable (place : Utf8.Malformed)
  | unencodable (place : Unencodable)
  /-- A path with a character in it that no path can have. -/
  | unusablePath
  /-- A line was to be marked for a diagnostic without a position. -/
  | unplaced
  | scope (fault : Arena.Fault)
  | template (error : TemplateError)
  | unfinished
  | other (name : String) (details : List Detail)
  deriving DecidableEq

namespace Fault

def label : Fault → String
  | .noResult => "IndexError"
  | .undecodable _ => "UnicodeDecodeError"
  | .unencodable _ => "UnicodeEncodeError"
  | .unusablePath => "ValueError"
  | .unplaced => "AttributeError"
  | .scope _ => "KeyError"
  | .template (.noWord _) => "IndexError"
  | .template (.named _) => "KeyError"
  | .template _ => "ValueError"
  | .unfinished => "TimeoutError"
  | .other name _ => name

def message : Fault → String
  | .noResult => "pop from empty list"
  | .undecodable place => place.message
  | .unencodable place => place.message
  | .unusablePath => "embedded null byte"
  | .unplaced => "'NoneType' object has no attribute 'column'"
  | .scope (.noParent h) => "'no scope with handle " ++ toString h ++ "'"
  | .scope (.noScope h) => toString h
  | .scope (.unbound name) => Text.quoted name
  | .template (.named name) => Text.quoted name
  | .template error => error.message
  | .unfinished => "a loop took too many rounds"
  | .other _ details => Detail.all details

def text (f : Fault) : String := f.label ++ ": " ++ f.message

end Fault

inductive Trouble where
  | evaluation (e : EvalError)
  | general (d : Diagnostic)
  | exit (code : Int)
  | interrupted
  | stackExhausted
  | fault (f : Fault)
  deriving DecidableEq

/-- What came of some work, the state of things after it, and what was written meanwhile. -/
structure Reply (σ α : Type) where
  outcome : Except Trouble α
  state : σ
  output : String := ""

namespace Reply

variable {σ α β : Type}

/-- Go on with more work unless there was trouble. -/
def andThen (r : Reply σ α) (more : α → σ → Reply σ β) : Reply σ β :=
  match r.outcome with
  | .error trouble => ⟨.error trouble, r.state, r.output⟩
  | .ok a =>
      let next := more a r.state
      { next with output := r.output ++ next.output }

end Reply

namespace Reporter

/-- Report an error. A fatal one ends the run; after any other, no text is being worked on. -/
def throw (r : Reporter) (d : Diagnostic) : Reply Reporter Unit :=
  let text := r.report d
  if r.fatal then ⟨.error (.exit d.exitCode), r, text⟩ else ⟨.ok (), r.clearAll, text⟩

def marked (r : Reporter) (line : String) (d : Diagnostic) (color : Color) :
    Except Fault String :=
  match d.position with
  | none => .error .unplaced
  | some position => .ok (r.excerpt line position d.token color)

/-- The diagnostic for a failure that nothing accounts for. What is said about the failure is read
as a template. -/
def unknown (f : Fault) : Except TemplateError Diagnostic :=
  (Message.ofTemplate ("unknown error: '" ++ f.text ++ "'") []).map fun message =>
    { message := message, internal := true }

/-- Deal with trouble. Leaving is not held up, and a fault passes on after it was reported; one
that cannot be reported gives way to the reason for that. -/
def settle (r : Reporter) : Trouble → Reply Reporter Unit
  | .evaluation e => r.throw e.diagnostic
  | .general d => r.throw d
  | .exit code => ⟨.error (.exit code), r, ""⟩
  | .interrupted => r.throw (.ofText "keyboard interrupt")
  | .stackExhausted => r.throw (.ofText "maximum recursion depth exceeded")
  | .fault f =>
      match unknown f with
      | .error e => ⟨.error (.fault (.template e)), r, ""⟩
      | .ok d =>
          let reply := r.throw d
          match reply.outcome with
          | .error trouble => ⟨.error trouble, reply.state, reply.output⟩
          | .ok () => ⟨.error (.fault f), reply.state, reply.output⟩

end Reporter

end Scriptlet
