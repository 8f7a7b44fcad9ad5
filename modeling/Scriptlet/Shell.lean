import Scriptlet.Session

/-!
# The shell

The shell reads lines as they come in. A line that is a command word does what the word says, and
any other line is a piece of a program. Lines are collected until every parenthesis is closed.
-/

namespace Scriptlet

structure Shell where
  session : Session
  /-- The lines of an input that is not complete yet. -/
  pending : RawText := []
  /-- The number of the first line of the input. -/
  startLine : Nat := 1
  lineNumber : Nat := 0
  prompt : String := "::<> "

namespace Shell

def mainPrompt : String := "::<> "

def morePrompt : String := "...  "

def intro : String :=
  "kotoba interpreter :: Python backend\nType '?' or 'help' for more information."

def helpText : String :=
  String.join ([
    "Welcome to the kotoba interpreter!",
    "",
    "kotoba is a small expression language with numbers, booleans, strings and nil.",
    "Statements are separated by ',' and blocks are written 'if COND : BODY else BODY ;',",
    "'while COND : BODY ;' and 'fn NAME(PARAMS) : BODY ;'.",
    "",
    "Try it out by typing 'x = 5'. Next, try typing 'x + 1'. This will give 6 as the",
    "result. Variables survive between lines, and 'println(\"hi\")' prints.",
    "",
    "Type 'exit' on its own to leave."].map (· ++ "\n"))

/-- The line that stands for the end of input. -/
def endOfInput : String := "EOF"

/-- Parentheses opened less those closed, outside of strings. -/
def openParens : (inString : Bool) → Int → List Char → Int
  | _, depth, [] => depth
  | inString, depth, c :: rest =>
      if c = '"' then openParens (!inString) depth rest
      else if inString then openParens inString depth rest
      else if c = '(' then openParens inString (depth + 1) rest
      else if c = ')' then openParens inString (depth - 1) rest
      else openParens inString depth rest

/-- A text without the blanks at its end, and whether more lines have to follow. -/
def prepare (text : RawText) : RawText × Bool :=
  let text := text.trimEnd
  (text, 0 < openParens false 0 text.chars)

/-- The command word that a line consists of, and the line without blanks around it. The end of
input is always a command; the other words are only between inputs. -/
def command (sh : Shell) (line : RawText) : Option RawText × RawText :=
  let text := line.trim
  let word := if text = .ofString "?" then .ofString "help" else text
  if word = .ofString endOfInput ∨
      ((word = .ofString "help" ∨ word = .ofString "exit") ∧ sh.pending.isEmpty) then
    (some word, word)
  else (none, text)

def runInput (source : RawText) (line : Nat) (s : Session) : Reply Session Unit :=
  (s.addRaw source line).andThen fun _ s =>
    s.run.andThen fun _ s =>
      if s.results.isEmpty then ⟨.ok (), s, ""⟩
      else
        let popped := s.pop
        match popped.outcome with
        | .ok text => ⟨.ok (), popped.state, "=> " ++ text ++ "\n"⟩
        | .error trouble => ⟨.error trouble, popped.state, ""⟩

def takeLine (sh : Shell) (line : RawText) : Reply Shell Unit :=
  let number := sh.lineNumber + 1
  let startLine := if sh.pending.isEmpty then number else sh.startLine
  let (text, more) := prepare (sh.pending ++ line)
  if more then
    ⟨.ok (), { sh with pending := text ++ [.char '\n'], startLine := startLine,
                       lineNumber := number, prompt := morePrompt }, ""⟩
  else
    let reply := sh.session.guarded (runInput text startLine)
    let after : Shell := ⟨reply.state, [], startLine, number, mainPrompt⟩
    ⟨reply.outcome.map fun _ => (), after, reply.output⟩

inductive Answer where
  | goOn
  | blank
  | stop
  deriving DecidableEq, Repr

def execute (sh : Shell) (line : RawText) : Reply Shell Answer :=
  let (word, text) := sh.command line
  if text.isEmpty then ⟨.ok .blank, sh, ""⟩
  else
    match word with
    | none =>
        let reply := sh.takeLine text
        ⟨reply.outcome.map fun _ => .goOn, reply.state, reply.output⟩
    | some word =>
        if word = .ofString endOfInput then ⟨.ok .stop, sh, "\n"⟩
        else if word = .ofString "exit" then ⟨.ok .stop, sh, ""⟩
        else ⟨.ok .goOn, sh, helpText⟩

/-- Deal with line after line, each behind its prompt; after the last one input ends. -/
def converse : List RawText → Shell → Reply Shell Unit
  | [], sh =>
      let reply := sh.execute (.ofString endOfInput)
      ⟨reply.outcome.map fun _ => (), reply.state, sh.prompt ++ reply.output⟩
  | line :: rest, sh =>
      let reply := sh.execute line
      match reply.outcome with
      | .error trouble => ⟨.error trouble, reply.state, sh.prompt ++ reply.output⟩
      | .ok .stop => ⟨.ok (), reply.state, sh.prompt ++ reply.output⟩
      | .ok _ =>
          let next := converse rest reply.state
          { next with output := sh.prompt ++ reply.output ++ next.output }

/-- A whole conversation, introduced by some words unless they are empty. -/
def run (sh : Shell) (intro : String) (input : RawText) : Reply Shell Unit :=
  let reply := converse input.lines sh
  { reply with output := (if intro.isEmpty then "" else intro ++ "\n") ++ reply.output }

end Shell

end Scriptlet
