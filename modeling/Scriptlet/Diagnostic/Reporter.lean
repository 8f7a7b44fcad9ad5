import Scriptlet.Diagnostic.Basic
import Scriptlet.OrderedMap
import Scriptlet.Text.Blank
import Scriptlet.Text.Slice
import Scriptlet.Text.Utf8
import Scriptlet.Token.Scan

/-!
# Reporting

A reporter knows the sources that are being worked on and writes diagnostics with the place in
the newest of them. The offending part of the source line is marked.
-/

namespace Scriptlet

inductive Color where
  | red
  | magenta
  deriving DecidableEq, Repr

def Color.code : Color → String
  | .red => "\x1b[31m"
  | .magenta => "\x1b[35m"

/-- A text in the foreground: the text of a source and the number of its first line. -/
structure Excerpt where
  source : String
  firstLine : Option Int
  deriving DecidableEq, Repr

namespace Excerpt

/-- The number of a line of the text; unless the first line is numbered, and not by zero, lines
count from one. -/
def lineNumber (e : Excerpt) (line : Int) : Int :=
  match e.firstLine with
  | none => line
  | some n => if n = 0 then line else line + (n - 1)

/-- A line of the text, counted from one. -/
def line? (e : Excerpt) (line : Int) : Option String :=
  if line < 1 then none
  else (Text.splitLines e.source.toList)[line.toNat - 1]?.map String.ofList

end Excerpt

structure Reporter where
  /-- Whether an error ends the whole run. -/
  fatal : Bool := true
  color : Bool := false
  /-- The paths known, each with the text being worked on, if any. -/
  sources : OrderedMap String (Option Excerpt) := .empty

namespace Reporter

def paint (r : Reporter) (color : Option Color) (text : String) : String :=
  if r.color then
    "\x1b[1m" ++ (match color with | none => "" | some c => c.code) ++ text ++ "\x1b[0m"
  else text

/-- Know a path, without any text of it. -/
def registerPath (r : Reporter) (path : String) : Reporter :=
  { r with sources := r.sources.set path none }

/-- Work on a text of `path` whose first line has the given number. -/
def registerText (r : Reporter) (path source : String) (firstLine : Option Int) : Reporter :=
  { r with sources := r.sources.set path (some ⟨source, firstLine⟩) }

def clearText (r : Reporter) (path : String) : Reporter := r.registerPath path

def clearAll (r : Reporter) : Reporter :=
  { r with sources := r.sources.mapValues fun _ => none }

/-- The words that locate a position, and the source line it lies in. -/
def location (r : Reporter) (position : Option Position) : String × Option String :=
  match r.sources.last? with
  | none => ("", none)
  | some (path, excerpt) =>
      match position, excerpt with
      | some p, some e =>
          (path ++ ":" ++ toString (e.lineNumber p.line) ++ ":" ++ toString p.column ++ ": ",
            e.line? p.line)
      | _, _ => (path ++ ": ", none)

/-- How many characters are marked: those of the token, or one. -/
def markWidth (token : Option Token) : Nat :=
  match token with
  | none => 1
  | some t => max t.text.length 1

/-- The source line, and a row below it that points at the marked part. The part begins at the
column of the position, or at the end of the line if that comes first. -/
def excerpt (r : Reporter) (line : String) (position : Position) (token : Option Token)
    (color : Color) : String :=
  let chars := line.toList
  let start := min (position.column - 1) chars.length
  let width := markWidth token
  let stop := start + width
  "  " ++ String.ofList (Text.slice chars 0 start) ++
    r.paint color (String.ofList (Text.slice chars start stop)) ++
    String.ofList (Text.sliceFrom chars stop) ++ "\n" ++
    "  " ++ String.ofList (List.replicate start.toNat ' ') ++
    r.paint color (String.ofList ('^' :: List.replicate (width - 1) '~'))

def excerptText (r : Reporter) (d : Diagnostic) (line : Option String) (color : Color) : String :=
  match line, d.position with
  | some line, some position =>
      if !d.internal && d.excerpt then r.excerpt line position d.token color ++ "\n" else ""
  | _, _ => ""

def message (r : Reporter) (d : Diagnostic) : String := d.message.styled (r.paint none)

def warn (r : Reporter) (d : Diagnostic) : String :=
  let (words, line) := r.location d.position
  r.paint none words ++ r.paint (some .magenta) "warning: " ++ r.message d ++ "\n" ++
    r.excerptText d line .magenta

def report (r : Reporter) (d : Diagnostic) : String :=
  let (words, line) := r.location d.position
  r.paint none words ++ (if d.internal then r.paint (some .red) "[internal] " else "") ++
    r.paint (some .red) "error: " ++ r.message d ++ "\n" ++ r.excerptText d line .red

end Reporter

/-- A skipped byte is shown as the character of its code and in hexadecimal. -/
def Skip.diagnostic (s : Skip) : Diagnostic :=
  { message :=
      ⟨[.text "unrecognized byte '", .word (String.singleton (Char.ofNat s.byte.toNat)),
        .text "' (0x", .word (Utf8.hexByte s.byte), .text "), skipping"]⟩
    position := some s.position }

end Scriptlet
