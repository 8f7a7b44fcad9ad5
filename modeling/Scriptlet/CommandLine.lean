import Scriptlet.Shell
import Scriptlet.Text.Digit

/-!
# The command line

Options may stand anywhere before a double dash and may be shortened as long as they stay unique.
With a file the program in it is run; without one the shell begins.
-/

namespace Scriptlet.CommandLine

inductive Flag where
  | help
  | shortCircuit
  | ast
  deriving DecidableEq, Repr

/-- The spellings of the flags, in the order in which they are tried. -/
def spellings : List (String × Flag) :=
  [("-h", .help), ("--help", .help), ("--short-circuit", .shortCircuit), ("--ast", .ast)]

def Flag.name : Flag → String
  | .help => "-h/--help"
  | .shortCircuit => "--short-circuit"
  | .ast => "--ast"

def programName : String := "kotoba"

def usage : String := "usage: kotoba [-h] [--short-circuit] [--ast] [file]\n"

def helpText : String :=
  usage ++ String.join ([
    "",
    "kotoba language interpreter",
    "",
    "positional arguments:",
    "  file             file to interpret and run (if empty, goes to command-line",
    "                   mode)",
    "",
    "options:",
    "  -h, --help       show this help message and exit",
    "  --short-circuit  'and'/'or' skip their right operand when the left one",
    "                   decides the result",
    "  --ast            print the syntax tree of each parsed input"].map (· ++ "\n"))

inductive UsageError where
  | unrecognized (arguments : List String)
  | ignoredValue (flag : Flag) (value : String)
  | ambiguous (argument : String) (matching : List String)
  deriving DecidableEq, Repr

def UsageError.message : UsageError → String
  | .unrecognized arguments => "unrecognized arguments: " ++ " ".intercalate arguments
  | .ignoredValue flag value =>
      "argument " ++ flag.name ++ ": ignored explicit argument " ++ Text.quoted value
  | .ambiguous argument matching =>
      "ambiguous option: " ++ argument ++ " could match " ++ ", ".intercalate matching

/-- What one argument is taken for. -/
inductive Word where
  | positional (text : String)
  /-- The double dash, behind which everything is positional. -/
  | separator
  | flag (flag : Flag)
  /-- A flag with something attached: text behind a short flag, or a value behind `=`. -/
  | flagWith (flag : Flag) (short : Bool) (value : String)
  | unknown (text : String)
  deriving DecidableEq, Repr

def doubleDash : String := "--"

/-- A minus and a number without an exponent, and perhaps a line feed at the end. -/
def isNegativeNumber (cs : List Char) : Bool :=
  let cs := if cs.getLast? = some '\n' then cs.dropLast else cs
  match cs with
  | '-' :: rest =>
      let whole := rest.takeWhile Text.isDigit
      match rest.drop whole.length with
      | [] => !whole.isEmpty
      | '.' :: decimals => !decimals.isEmpty && decimals.all Text.isDigit
      | _ => false
  | _ => false

def cutAtEquals (cs : List Char) : List Char × Option (List Char) :=
  let head := cs.takeWhile (· != '=')
  match cs.drop head.length with
  | [] => (head, none)
  | _ :: value => (head, some value)

def flagNamed? (name : String) : Option Flag :=
  (spellings.find? fun entry => entry.1 == name).map (·.2)

/-- Arguments with two dashes match every spelling they begin; those with one dash match a flag
of one letter, with the rest attached to it. -/
def candidates (cs : List Char) : List (String × Word) :=
  match cs with
  | '-' :: '-' :: _ =>
      let (head, value) := cutAtEquals cs
      (spellings.filter fun entry => head.isPrefixOf entry.1.toList).map fun entry =>
        (entry.1,
          match value with
          | none => .flag entry.2
          | some value => .flagWith entry.2 false (String.ofList value))
  | '-' :: c :: rest =>
      (spellings.filter fun entry => entry.1.toList == ['-', c]).map fun entry =>
        (entry.1, .flagWith entry.2 true (String.ofList rest))
  | _ => []

/-- What an argument before the double dash is taken for. -/
def classify (argument : String) : Except UsageError Word :=
  let cs := argument.toList
  if cs.head? ≠ some '-' then .ok (.positional argument)
  else
    match flagNamed? argument with
    | some flag => .ok (.flag flag)
    | none =>
        if cs.length = 1 then .ok (.positional argument)
        else
          let (head, value) := cutAtEquals cs
          match flagNamed? (String.ofList head), value with
          | some flag, some value => .ok (.flagWith flag (head.length = 2) (String.ofList value))
          | _, _ =>
              match candidates cs with
              | [(_, word)] => .ok word
              | [] =>
                  if isNegativeNumber cs || cs.contains ' ' then .ok (.positional argument)
                  else .ok (.unknown argument)
              | many => .error (.ambiguous argument (many.map (·.1)))

def classifyAll : List String → Except UsageError (List Word)
  | [] => .ok []
  | argument :: rest =>
      if argument = doubleDash then .ok (.separator :: rest.map .positional)
      else do
        let word ← classify argument
        return word :: (← classifyAll rest)

/-- The letters behind a short flag are short flags too; where one is not, the rest of them is a
value that the flag before it has no use for. -/
def cluster (flag : Flag) : List Char → Except UsageError (List Flag)
  | [] => .ok [flag]
  | c :: rest =>
      match flagNamed? (String.ofList ['-', c]) with
      | some next => do return flag :: (← cluster next rest)
      | none => .error (.ignoredValue flag (String.ofList (c :: rest)))

def flagsOf (flag : Flag) (short : Bool) (value : String) : Except UsageError (List Flag) :=
  if short && !value.isEmpty then cluster flag value.toList
  else .error (.ignoredValue flag value)

/-- Whether the place of the file was given away. -/
inductive Place where
  | free
  /-- By the very last argument. -/
  | justTaken
  | taken
  deriving DecidableEq, Repr

structure Request where
  file : Option String := none
  place : Place := .free
  shortCircuit : Bool := false
  ast : Bool := false
  extras : List String := []
  deriving DecidableEq, Repr

inductive Parsed where
  | help
  | request (r : Request)
  deriving DecidableEq, Repr

namespace Request

/-- The place of the file stays as it is from now on, unless it is free. -/
def settled (r : Request) : Request :=
  match r.place with
  | .justTaken => { r with place := .taken }
  | _ => r

def leaveOver (r : Request) (text : String) : Request :=
  { r.settled with extras := r.extras ++ [text] }

/-- The first positional argument is the file. -/
def takePositional (r : Request) (text : String) : Request :=
  match r.place with
  | .free => { r with file := some text, place := .justTaken }
  | _ => r.leaveOver text

/-- The double dash goes with the file if it stands next to it, or in its place. -/
def takeSeparator (r : Request) : Request :=
  match r.place with
  | .taken => r.leaveOver doubleDash
  | _ => r.settled

def turnOn (r : Request) : Flag → Option Request
  | .help => none
  | .shortCircuit => some { r.settled with shortCircuit := true }
  | .ast => some { r.settled with ast := true }

end Request

def interpret : List Word → Request → Except UsageError Parsed
  | [], r => .ok (.request r)
  | word :: rest, r =>
      let turnOnAll (flags : List Flag) : Except UsageError Parsed :=
        match flags.foldlM Request.turnOn r with
        | none => .ok .help
        | some r => interpret rest r
      match word with
      | .positional text => interpret rest (r.takePositional text)
      | .separator => interpret rest r.takeSeparator
      | .flag flag => turnOnAll [flag]
      | .flagWith flag short value => do turnOnAll (← flagsOf flag short value)
      | .unknown text => interpret rest (r.leaveOver text)

def parse (arguments : List String) : Except UsageError Parsed := do
  match ← interpret (← classifyAll arguments) {} with
  | .help => return .help
  | .request r =>
      if r.extras.isEmpty then return .request r else throw (.unrecognized r.extras)

/-- What a run of the program leaves: how it ended and what it wrote. -/
structure Ran where
  outcome : Except Trouble Unit
  output : String
  errors : String := ""

def resultLines (results : List Value) : String :=
  String.join (results.map fun value => value.display ++ "\n")

def settingsOf (r : Request) : Settings :=
  { mode := { shortCircuit := r.shortCircuit }, showTree := r.ast }

def runFile (reporter : Reporter) (path : String) (settings : Settings)
    (bytes : Option (List UInt8)) : Reply Session Unit :=
  (Session.start reporter path false builtinFunctions settings bytes).andThen fun _ s =>
    s.run.andThen fun _ s =>
      ⟨.ok (), { s with results := [] }, resultLines s.results⟩

def newShell (reporter : Reporter) (settings : Settings) : Shell :=
  { session := (Session.start reporter Session.shellPath true builtinFunctions
      settings none).state }

def runShell (reporter : Reporter) (settings : Settings) (input : RawText) : Reply Session Unit :=
  let reply := (newShell reporter settings).run Shell.intro input
  ⟨reply.outcome, reply.state.session, reply.output⟩

/-- Deal with the trouble that the whole run brought. -/
def settleAll (reply : Reply Session Unit) : Ran :=
  match reply.outcome with
  | .ok () => ⟨.ok (), reply.output, ""⟩
  | .error trouble =>
      let settled := reply.state.reporter.settle trouble
      ⟨settled.outcome, reply.output ++ settled.output, ""⟩

/-- Run the program on its arguments, given the bytes of any file that can be opened and the whole
of standard input. -/
def run (color : Bool) (arguments : List String) (read : String → Option (List UInt8))
    (input : RawText) : Ran :=
  match parse arguments with
  | .error e => ⟨.error (.exit 2), "", usage ++ programName ++ ": error: " ++ e.message ++ "\n"⟩
  | .ok .help => ⟨.error (.exit 0), helpText, ""⟩
  | .ok (.request r) =>
      let reporter : Reporter := { fatal := true, color := color }
      match r.file with
      | some path => settleAll (runFile reporter path (settingsOf r) (read path))
      | none => settleAll (runShell reporter (settingsOf r) input)

end Scriptlet.CommandLine
