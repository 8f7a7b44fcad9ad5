import Scriptlet.Diagnostic.Trouble
import Scriptlet.Evaluation.Eval
import Scriptlet.Tree.Display
import Scriptlet.Tree.Parser

/-!
# Sessions

A session reads inputs into a queue, runs what is queued against scopes that persist, and keeps
the results. It works either on a file or on the lines of a shell.
-/

namespace Scriptlet

/-- What the user chose, and how deep things may go. -/
structure Settings where
  mode : Mode := {}
  /-- Whether the tree of every input is shown. -/
  showTree : Bool := false
  /-- How many levels may be open in a source. A level is an open construct, not a share of a call
  stack: where every call counts, against a limit of 1000, a group takes twelve of them and a unary
  operator one, so there groups run out earlier than here and unary operators later. -/
  nesting : Nat := 500
  /-- How many levels of a tree can be shown. -/
  levels : Nat := 1000

structure Queued where
  source : String
  tree : Node

structure Session where
  reporter : Reporter
  path : String
  settings : Settings
  scopes : Scopes
  /-- By line number. -/
  queue : OrderedMap Int Queued := .empty
  /-- Oldest first. -/
  results : List Value := []

/-- The warnings and the error of a source that was read. -/
def Reporter.parsedText (r : Reporter) (parsed : Parsed) : String :=
  String.join (parsed.skips.map fun s => r.warn s.diagnostic) ++
    match parsed.error with
    | none => ""
    | some e => r.report e.diagnostic

namespace Session

def shellPath : String := "<in>"

def outcomeOf : Verdict → Except Trouble Value
  | .value v => .ok v
  | .error e => .error (.evaluation e)
  | .scopeFault fault => .error (.fault (.scope fault))
  | .meaningless =>
      .error (.general { message := .ofText "cannot evaluate 'AstNode'", internal := true })
  | .tooLong => .error (.fault .unfinished)

/-- Read a source and queue it under a line number. Whatever waits there is replaced. -/
def add (s : Session) (source : String) (line : Int) : Reply Session Unit :=
  let reporter := s.reporter.registerText s.path source (some line)
  let parsed := Parsed.ofBytes s.settings.nesting (Utf8.encode source)
  let notes := reporter.parsedText parsed
  let queued : Session :=
    { s with
      reporter := reporter.clearText s.path
      queue := s.queue.set line ⟨source, parsed.tree⟩ }
  if s.settings.showTree then
    match parsed.tree.display s.settings.levels with
    | none => ⟨.error .stackExhausted, { s with reporter := reporter }, notes⟩
    | some text => ⟨.ok (), queued, notes ++ text ++ "\n"⟩
  else ⟨.ok (), queued, notes⟩

/-- Read a source that came in raw. One that cannot be encoded is not read; what is registered of it
is never shown, since no place in it is spoken of. -/
def addRaw (s : Session) (source : RawText) (line : Int) : Reply Session Unit :=
  match source.read with
  | .ok text => s.add text line
  | .error place =>
      ⟨.error (.fault (.unencodable place)),
        { s with reporter := s.reporter.registerText s.path source.lossy (some line) }, ""⟩

/-- Run one input that was queued under a line number; it leaves the queue however it ends. -/
def runOne (s : Session) (line : Int) (input : Queued) : Reply Session Unit :=
  let reporter := s.reporter.registerText s.path input.source (some line)
  let (verdict, store) := evaluate s.settings.mode input.tree Arena.rootHandle ⟨s.scopes, ""⟩
  let after : Session :=
    { s with reporter := reporter, scopes := store.scopes, queue := s.queue.erase line }
  match outcomeOf verdict with
  | .error trouble => ⟨.error trouble, after, store.output⟩
  | .ok value =>
      ⟨.ok (), { after with reporter := reporter.clearText s.path,
                            results := s.results ++ [value] }, store.output⟩

def runAll : List (Int × Queued) → Session → Reply Session Unit
  | [], s => ⟨.ok (), s, ""⟩
  | (line, input) :: rest, s => (s.runOne line input).andThen fun _ s => runAll rest s

/-- Run what is queued, in order, until something goes wrong. -/
def run (s : Session) : Reply Session Unit := runAll s.queue.entries s

def pop (s : Session) : Reply Session String :=
  match s.results.getLast? with
  | none => ⟨.error (.fault .noResult), s, ""⟩
  | some value => ⟨.ok value.display, { s with results := s.results.dropLast }, ""⟩

def guarded {α : Type} (s : Session) (work : Session → Reply Session α) :
    Reply Session (Option α) :=
  let reply := work s
  match reply.outcome with
  | .ok a => ⟨.ok (some a), reply.state, reply.output⟩
  | .error trouble =>
      let settled := reply.state.reporter.settle trouble
      let state := { reply.state with reporter := settled.state }
      match settled.outcome with
      | .ok () => ⟨.ok none, state, reply.output ++ settled.output⟩
      | .error trouble => ⟨.error trouble, state, reply.output ++ settled.output⟩

def fileText (bytes : List UInt8) : Except Utf8.Malformed String :=
  (Utf8.decode bytes).map fun text => String.ofList (Text.unifyNewlines text.toList)

/-- Begin a session on a path. The bytes are those of the file there, if it can be opened. In a
shell errors are not fatal, and only a shell may use the path of shells. -/
def start (reporter : Reporter) (path : String) (shell : Bool)
    (functions : List (String × Function)) (settings : Settings) (bytes : Option (List UInt8)) :
    Reply Session Unit :=
  let known := reporter.registerPath path
  let reporter := if shell then { known with fatal := false } else known
  let s : Session := ⟨reporter, path, settings, .ofFunctions functions, .empty, []⟩
  if path = shellPath then
    if shell then ⟨.ok (), s, ""⟩
    else ⟨.error (.general (.ofText "'<in>' is a reserved filename")), s, ""⟩
  else if path.toList.contains '\x00' then ⟨.error (.fault .unusablePath), s, ""⟩
  else
    match bytes with
    | none =>
        ⟨.error (.general { message := ⟨[.text "'", .word path, .text "' could not be opened"]⟩
                            excerpt := false }), s, ""⟩
    | some bytes =>
        match fileText bytes with
        | .error place => ⟨.error (.fault (.undecodable place)), s, ""⟩
        | .ok source => s.add source 1

end Session

end Scriptlet
