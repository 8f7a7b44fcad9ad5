import Scriptlet.Diagnostic.Message
import Scriptlet.Text.Digit
import Scriptlet.Text.Quoted

/-!
# Templates

A template is a text with fields in braces, each of which stands for a word. A field without a
name takes the word after the one that the last such field took; a field may also give the number
of its word. A doubled brace stands for one brace. The first thing wrong with a template, from
left to right, is what it is refused for.
-/

namespace Scriptlet

inductive TemplateError where
  | loneOpening
  | loneClosing
  | openingInName
  /-- A field ends with the template. -/
  | unclosed
  | missingConversion
  | afterConversion
  | unclosedLayout
  | numberTooLarge
  /-- Fields without a name came first, or fields with a number did. -/
  | mixed (countedFirst : Bool)
  /-- There are not that many words. -/
  | noWord (index : Nat)
  /-- Words have no names. -/
  | named (name : String)
  deriving DecidableEq, Repr

namespace TemplateError

def message : TemplateError → String
  | .loneOpening => "Single '\x7b' encountered in format string"
  | .loneClosing => "Single '\x7d' encountered in format string"
  | .openingInName => "unexpected '\x7b' in field name"
  | .unclosed => "expected '\x7d' before end of string"
  | .missingConversion => "end of string while looking for conversion specifier"
  | .afterConversion => "expected ':' after conversion specifier"
  | .unclosedLayout => "unmatched '\x7b' in format spec"
  | .numberTooLarge => "Too many decimal digits in format string"
  | .mixed true => "cannot switch from automatic field numbering to manual field specification"
  | .mixed false => "cannot switch from manual field specification to automatic field numbering"
  | .noWord index =>
      "Replacement index " ++ toString index ++ " out of range for positional args tuple"
  | .named name => name

end TemplateError

namespace Template

/-- The name of a field, the character that ends it, and what follows. Between square brackets
no character but the closing one counts. -/
def readName (bracketed : Bool) : List Char → Except TemplateError (List Char × Char × List Char)
  | [] => .error .unclosed
  | c :: rest =>
      let longer (bracketed : Bool) := do
        let (name, stop, after) ← readName bracketed rest
        return (c :: name, stop, after)
      if bracketed then longer (c ≠ ']')
      else if c = '\x7b' then .error .openingInName
      else if c = '\x7d' ∨ c = ':' ∨ c = '!' then .ok ([], c, rest)
      else longer (c = '[')

/-- What follows the layout of a field. A layout may hold fields of its own. -/
def afterLayout (depth : Nat) : List Char → Except TemplateError (List Char)
  | [] => .error .unclosedLayout
  | c :: rest =>
      if c = '\x7b' then afterLayout (depth + 1) rest
      else if c = '\x7d' then
        match depth with
        | 0 => .ok rest
        | depth + 1 => afterLayout depth rest
      else afterLayout depth rest

/-- What follows the conversion of a field and the layout behind it. -/
def afterConversion : List Char → Except TemplateError (List Char)
  | [] => .error .missingConversion
  | [_] => .error .unclosedLayout
  | _ :: c :: rest =>
      if c = '\x7d' then .ok rest
      else if c = ':' then afterLayout 0 rest
      else .error .afterConversion

def readField (cs : List Char) : Except TemplateError (List Char × List Char) := do
  let (name, stop, after) ← readName false cs
  if stop = '\x7d' then return (name, after)
  else if stop = '!' then return (name, ← afterConversion after)
  else return (name, ← afterLayout 0 after)

/-- Numbers of words stay below this. -/
def numberBound : Nat := 0x8000000000000000

def readNumber (value : Nat) : List Char → Except TemplateError (Option Nat)
  | [] => .ok (some value)
  | c :: rest =>
      match Text.digitValue? c with
      | none => .ok none
      | some d =>
          if numberBound ≤ value * 10 + d then .error .numberTooLarge
          else readNumber (value * 10 + d) rest

/-- How the fields so far chose their words. -/
inductive Numbering where
  | undecided
  /-- One after the other; the number of the next one is kept. -/
  | counted (next : Nat)
  | given
  deriving DecidableEq, Repr

def wordAt (words : List String) (index : Nat) : Except TemplateError String :=
  match words[index]? with
  | some word => .ok word
  | none => .error (.noWord index)

/-- The word that a field stands for. What follows a point or a bracket in its name says nothing
about which word that is. -/
def choose (words : List String) (numbering : Numbering) (name : List Char) :
    Except TemplateError (String × Numbering) := do
  let first := name.takeWhile fun c => c ≠ '.' && c ≠ '['
  if first.isEmpty then
    match numbering with
    | .given => throw (.mixed false)
    | .undecided => return (← wordAt words 0, .counted 1)
    | .counted next => return (← wordAt words next, .counted (next + 1))
  else
    match ← readNumber 0 first with
    | none => throw (.named (String.ofList first))
    | some index =>
        match numbering with
        | .counted _ => throw (.mixed true)
        | _ => return (← wordAt words index, .given)

theorem readName_length {bracketed : Bool} {cs : List Char} {result : List Char × Char × List Char}
    (h : readName bracketed cs = .ok result) : result.2.2.length < cs.length := by
  induction cs generalizing bracketed result with
  | nil => simp [readName] at h
  | cons c rest ih =>
      have longer {b : Bool} {r : List Char × Char × List Char}
          (hr : (do
            let (name, stop, after) ← readName b rest
            return (c :: name, stop, after)) = Except.ok r)
    : r.2.2.length < (c :: rest).length := by
        cases hb : readName b rest with
        | error e => simp [hb, bind, Except.bind] at hr
        | ok inner =>
            obtain ⟨name, stop, after⟩ := inner
            have shorter : after.length < rest.length := ih hb
            simp only [hb, bind, Except.bind, pure, Except.pure, Except.ok.injEq] at hr
            subst hr
            exact Nat.lt_succ_of_lt shorter
      simp only [readName] at h
      split at h
      · exact longer h
      · split at h
        · simp at h
        · split at h
          · cases h
            simp
          · exact longer h

theorem afterLayout_length {depth : Nat} {cs after : List Char}
    (h : afterLayout depth cs = .ok after) : after.length < cs.length := by
  induction cs generalizing depth with
  | nil => simp [afterLayout] at h
  | cons c rest ih =>
      simp only [afterLayout] at h
      split at h
      · exact Nat.lt_succ_of_lt (ih h)
      · split at h
        · split at h
          · cases h
            simp
          · exact Nat.lt_succ_of_lt (ih h)
        · exact Nat.lt_succ_of_lt (ih h)

theorem afterConversion_length {cs after : List Char} (h : afterConversion cs = .ok after) :
    after.length < cs.length := by
  match cs with
  | [] => simp [afterConversion] at h
  | [_] => simp [afterConversion] at h
  | _ :: c :: rest =>
      simp only [afterConversion] at h
      split at h
      · cases h
        simp only [List.length_cons]
        omega
      · split at h
        · have := afterLayout_length h
          simp only [List.length_cons]
          omega
        · simp at h

theorem readField_length {cs : List Char} {result : List Char × List Char}
    (h : readField cs = .ok result) : result.2.length < cs.length := by
  unfold readField at h
  cases hn : readName false cs with
  | error e => simp [hn, bind, Except.bind] at h
  | ok named =>
      obtain ⟨name, stop, after⟩ := named
      have shorter := readName_length hn
      simp only [hn, bind, Except.bind, pure, Except.pure] at h
      split at h
      · cases h
        exact shorter
      · split at h
        · cases hc : afterConversion after with
          | error e => simp [hc] at h
          | ok rest =>
              simp only [hc, Except.ok.injEq] at h
              subst h
              exact Nat.lt_trans (afterConversion_length hc) shorter
        · cases hl : afterLayout 0 after with
          | error e => simp [hl] at h
          | ok rest =>
              simp only [hl, Except.ok.injEq] at h
              subst h
              exact Nat.lt_trans (afterLayout_length hl) shorter

/-- The pieces of a template whose fields stand for `words`. -/
def pieces (words : List String) (numbering : Numbering) :
    List Char → Except TemplateError (List Message.Piece)
  | [] => .ok []
  | c :: rest =>
      if c = '\x7b' then
        match rest with
        | [] => .error .loneOpening
        | d :: after =>
            if d = '\x7b' then do
              return .text (String.singleton c) :: (← pieces words numbering after)
            else
              match h : readField (d :: after) with
              | .error e => .error e
              | .ok (name, behind) => do
                  have : behind.length < (d :: after).length := readField_length h
                  let (word, numbering) ← choose words numbering name
                  return .word word :: (← pieces words numbering behind)
      else if c = '\x7d' then
        match rest with
        | [] => .error .loneClosing
        | d :: after =>
            if d = '\x7d' then do
              return .text (String.singleton c) :: (← pieces words numbering after)
            else .error .loneClosing
      else do return .text (String.singleton c) :: (← pieces words numbering rest)
termination_by cs => cs.length
decreasing_by all_goals (simp only [List.length_cons] at *; omega)

end Template

/-- The message that a template makes of some words; words that no field names are left out. -/
def Message.ofTemplate (template : String) (words : List String) : Except TemplateError Message :=
  (Template.pieces words .undecided template.toList).map Message.mk

end Scriptlet
