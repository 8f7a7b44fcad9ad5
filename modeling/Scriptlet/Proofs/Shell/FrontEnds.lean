import Scriptlet.Proofs.Evaluation.Continuing
import Scriptlet.Proofs.Shell.Endurance
import Scriptlet.Proofs.Syntax.Gist

/-!
# Shell and file agree

A program may be in a file, or it may be typed into a shell line by line. The shell trims each line,
drops the blank ones and puts the others together again, until every parenthesis is closed. If it
takes all lines for one input, then this comes out as the file does: the same output is written, and
the same value is shown or the same error reported.
-/

namespace Scriptlet

/-! ## Open parentheses of lines -/

namespace Shell

theorem marks_of_blank {cs : List Char} (blank : ∀ c ∈ cs, Text.isBlank c = true) :
    cs.filter isMark = [] := by
  apply List.filter_eq_nil_iff.mpr
  intro c hc mark
  have hblank := blank c hc
  simp only [isMark, Bool.or_eq_true, beq_iff_eq] at mark
  rcases mark with (rfl | rfl) | rfl
  all_goals exact absurd hblank (by decide)

theorem marks_trimChars (cs : List Char) :
    (Text.trimChars cs).filter isMark = cs.filter isMark := by
  obtain ⟨front, back, hcs, hfront, hback⟩ := Text.exists_trimmed cs
  have whole := congrArg (List.filter isMark) hcs
  rw [List.filter_append, List.filter_append, marks_of_blank hfront, marks_of_blank hback,
    List.nil_append, List.append_nil] at whole
  exact whole.symm

theorem marks_joinLines (lines : List (List Char)) :
    (Text.joinLines lines).filter isMark = lines.flatMap (List.filter isMark) := by
  induction lines with
  | nil => rfl
  | cons line rest ih =>
      by_cases hrest : rest = []
      · subst hrest
        simp [Text.joinLines]
      · rw [Text.joinLines_cons line hrest, List.filter_append, List.filter_cons_of_neg (by decide),
          ih, List.flatMap_cons]

/-- Whether a string is open behind some characters, if one is open before them or not. -/
def stringOpen (inString : Bool) (cs : List Char) : Bool :=
  cs.foldl (fun inString c => if c = '"' then !inString else inString) inString

theorem openParens_append (inString : Bool) (depth : Int) (cs more : List Char) :
    openParens inString depth (cs ++ more) =
      openParens (stringOpen inString cs) (openParens inString depth cs) more := by
  induction cs generalizing inString depth with
  | nil => rfl
  | cons c rest ih =>
      simp only [List.cons_append, openParens, stringOpen, List.foldl_cons, ih]
      by_cases quote : c = '"'
      · simp [quote]
      · simp only [quote, if_false]
        split <;> (try split) <;> (try split) <;> rfl

/-- Inside of a string nothing counts. -/
theorem openParens_inString (depth : Int) {cs : List Char} (unquoted : '"' ∉ cs) :
    openParens true depth cs = depth := by
  induction cs with
  | nil => rfl
  | cons c rest ih =>
      obtain ⟨first, others⟩ := not_or.mp (List.mem_cons.not.mp unquoted)
      simp [openParens, Ne.symm first, ih others]

theorem stringOpen_eq (inString : Bool) (cs : List Char) :
    stringOpen inString cs = (inString ^^ decide (cs.count '"' % 2 = 1)) := by
  induction cs generalizing inString with
  | nil => simp [stringOpen]
  | cons c rest ih =>
      have step : stringOpen inString (c :: rest) =
          stringOpen (if c = '"' then !inString else inString) rest := rfl
      rw [step, ih, List.count_cons]
      by_cases hc : c = '"'
      · have odd : decide ((rest.count '"' + 1) % 2 = 1) = !decide (rest.count '"' % 2 = 1) := by
          rcases Nat.mod_two_eq_zero_or_one (rest.count '"') with h | h <;> simp [Nat.add_mod, h]
        cases inString <;> simp [hc, odd]
      · simp [hc]

/-! ## One input -/

def spokenLines (lines : List (List Char)) : List (List Char) :=
  lines.filter fun line => Text.trimChars line ≠ []

/-- A shell that is given the lines of the text one by one takes them for one input: parentheses are
open behind all that is not blank but the last line of it. -/
structure OneInput (text : String) : Prop where
  spoken : spokenLines (Text.splitLines text.toList) ≠ []
  waiting : ∀ front back, spokenLines (Text.splitLines text.toList) = front ++ back →
    front ≠ [] → back ≠ [] → 0 < openParens false 0 (Text.joinLines front)
  complete : openParens false 0 text.toList ≤ 0

theorem core_eq (lines : List (List Char)) :
    Text.core lines = (spokenLines lines).map Text.trimChars := by
  unfold Text.core spokenLines
  rw [List.filter_map]
  rfl

theorem spokenLines_cons_of_blank {line : List Char} (blank : Text.trimChars line = [])
    (rest : List (List Char)) : spokenLines (line :: rest) = spokenLines rest := by
  simp [spokenLines, blank]

theorem spokenLines_cons {line : List Char} (spoken : Text.trimChars line ≠ [])
    (rest : List (List Char)) : spokenLines (line :: rest) = line :: spokenLines rest := by
  simp [spokenLines, spoken]

theorem marks_spokenLines (lines : List (List Char)) :
    (Text.joinLines (spokenLines lines)).filter isMark =
      (Text.joinLines lines).filter isMark := by
  rw [marks_joinLines, marks_joinLines]
  induction lines with
  | nil => rfl
  | cons line rest ih =>
      by_cases blank : Text.trimChars line = []
      · have nothing : line.filter isMark = [] := by
          rw [← marks_trimChars, blank]
          rfl
        rw [spokenLines_cons_of_blank blank, ih, List.flatMap_cons, nothing, List.nil_append]
      · rw [spokenLines_cons blank, List.flatMap_cons, List.flatMap_cons, ih]

theorem openParens_map_trimChars (lines : List (List Char)) :
    openParens false 0 (Text.joinLines (lines.map Text.trimChars)) =
      openParens false 0 (Text.joinLines lines) := by
  apply openParens_congr
  rw [marks_joinLines, marks_joinLines, List.flatMap_map]
  simp only [marks_trimChars]

/-- If no string has a line feed in it, then no string is open where a further line of an input
begins. -/
theorem OneInput.closed {text : String} (one : OneInput text)
    (strings : ∀ t ∈ (Scan.ofBytes (Utf8.encode text)).tokens, ∀ s,
      t.lexeme = .string s → '\n' ∉ s.toList)
    {before after : List (List Char)} {line : List Char}
    (hlines : Text.splitLines text.toList = before ++ line :: after)
    (spoken : Text.trimChars line ≠ []) : (Text.gist (Text.joinLines before)).2 = true := by
  by_contra unclosed
  have odd : (Text.joinLines before).count '"' % 2 = 1 := by
    have uneven := (Text.gist_closed_iff _).not.mp unclosed
    omega
  have hbefore : before ≠ [] := by
    rintro rfl
    cases odd
  have htext : text.toList =
      Text.joinLines before ++ '\n' :: Text.joinLines (line :: after) := by
    rw [← Text.joinLines_splitLines text.toList, hlines,
      Text.joinLines_append hbefore (List.cons_ne_nil line after)]
  by_cases quote : '"' ∈ Text.joinLines (line :: after)
  · -- The open string is closed on a later line.
    obtain ⟨t, ht, s, lexeme, newline⟩ :=
      Text.exists_string_across (Bool.eq_false_iff.mpr unclosed) quote
    rw [← htext] at ht
    exact strings t ht s lexeme newline
  · -- It stays open, and so do the parentheses before it.
    have depth : openParens false 0 text.toList = openParens false 0 (Text.joinLines before) := by
      have inside : '"' ∉ '\n' :: Text.joinLines (line :: after) := by simp [quote]
      rw [htext, openParens_append, stringOpen_eq, decide_eq_true odd]
      exact openParens_inString _ inside
    have hspoken : spokenLines (Text.splitLines text.toList) =
        spokenLines before ++ line :: spokenLines after := by
      rw [hlines]
      simp [spokenLines, spoken]
    have hfront : spokenLines before ≠ [] := by
      intro nothing
      have marks := marks_spokenLines before
      rw [nothing] at marks
      have unquoted : '"' ∉ Text.joinLines before := fun h =>
        List.filter_eq_nil_iff.mp marks.symm _ h rfl
      rw [List.count_eq_zero.mpr unquoted] at odd
      cases odd
    have waiting := one.waiting _ _ hspoken hfront (List.cons_ne_nil _ _)
    rw [openParens_congr (marks_spokenLines before), ← depth] at waiting
    exact absurd one.complete (by omega)

/-! ## Lines of one input -/

def pendingOf : List (List Char) → List Char
  | [] => []
  | lines => Text.joinLines (lines.map Text.trimChars) ++ ['\n']

theorem pendingOf_append (done : List (List Char)) (line : List Char) :
    pendingOf done ++ Text.trimChars line =
      Text.joinLines ((done ++ [line]).map Text.trimChars) := by
  cases done with
  | nil => rfl
  | cons first others =>
      rw [List.map_append, Text.joinLines_append (by simp) (by simp)]
      simp [pendingOf, Text.joinLines]

theorem trim_eq_nil_iff (line : List Char) :
    (RawText.ofChars line).trim = [] ↔ Text.trimChars line = [] := by
  rw [RawText.trim_ofChars]
  exact @RawText.ofChars_inj _ []

/-- The shell has taken some lines of its first input, and nothing else. -/
structure Holds (session : Session) (done : List (List Char)) (sh : Shell) : Prop where
  session : sh.session = session
  pending : sh.pending = .ofChars (pendingOf done)
  firstLine : (if sh.pending.isEmpty then sh.lineNumber + 1 else sh.startLine) = 1

section

variable {session : Session} {done : List (List Char)} {sh : Shell} {line : List Char}

theorem Holds.prepare (holds : Holds session done sh) (spoken : Text.trimChars line ≠ []) :
    (prepare (sh.pending ++ (RawText.ofChars line).trim)).1 =
      .ofChars (Text.joinLines ((done ++ [line]).map Text.trimChars)) := by
  rw [← pendingOf_append, ← Text.trimEndChars_append_trimChars spoken, ← RawText.trimEnd_ofChars,
    RawText.ofChars_append, ← holds.pending, ← RawText.trim_ofChars]
  rfl

theorem Holds.more_iff (holds : Holds session done sh) (spoken : Text.trimChars line ≠ []) :
    (Shell.prepare (sh.pending ++ (RawText.ofChars line).trim)).2 = true ↔
      0 < openParens false 0 (Text.joinLines (done ++ [line])) := by
  rw [prepare_more_iff, holds.prepare spoken, RawText.chars_ofChars, openParens_map_trimChars]

theorem Holds.command (holds : Holds session done sh)
    (more : (RawText.ofChars line).trim ≠ .ofString endOfInput)
    (program : done = [] → (RawText.ofChars line).trim ∉ commandWords) :
    sh.command (.ofChars line) = (none, (RawText.ofChars line).trim) := by
  apply command_of_program more
  intro between
  apply program
  have pending := holds.pending
  rw [between] at pending
  cases done with
  | nil => rfl
  | cons first others =>
      have length := congrArg List.length pending
      simp [pendingOf, RawText.ofChars] at length

theorem Holds.execute_of_more (holds : Holds session done sh) (spoken : Text.trimChars line ≠ [])
    (command : sh.command (.ofChars line) = (none, (RawText.ofChars line).trim))
    (more : 0 < openParens false 0 (Text.joinLines (done ++ [line]))) :
    (sh.execute (.ofChars line)).output = "" ∧
      Holds session (done ++ [line]) (sh.execute (.ofChars line)).state := by
  have nonempty := (trim_eq_nil_iff line).not.mpr spoken
  rw [execute_of_program command nonempty, takeLine_of_more ((holds.more_iff spoken).mpr more),
    holds.prepare spoken]
  have pending : (sh.waiting (.ofChars (Text.joinLines ((done ++ [line]).map
      Text.trimChars)))).pending = .ofChars (pendingOf (done ++ [line])) := by
    have whole : pendingOf (done ++ [line]) =
        Text.joinLines ((done ++ [line]).map Text.trimChars) ++ ['\n'] := by
      cases done <;> rfl
    rw [whole, RawText.ofChars_append]
    rfl
  refine ⟨rfl, holds.session, pending, ?_⟩
  have kept : (sh.waiting (.ofChars (Text.joinLines ((done ++ [line]).map
      Text.trimChars)))).pending.isEmpty = false := by
    simp [waiting]
  show (if List.isEmpty _ then _ else _) = 1
  rw [kept]
  exact holds.firstLine

theorem Holds.execute_of_complete (holds : Holds session done sh)
    (spoken : Text.trimChars line ≠ [])
    (command : sh.command (.ofChars line) = (none, (RawText.ofChars line).trim))
    (complete : openParens false 0 (Text.joinLines (done ++ [line])) ≤ 0) :
    (sh.execute (.ofChars line)).output = (session.guarded (runInput
      (.ofChars (Text.joinLines ((done ++ [line]).map Text.trimChars))) 1)).output := by
  have nonempty := (trim_eq_nil_iff line).not.mpr spoken
  have closed : (Shell.prepare (sh.pending ++ (RawText.ofChars line).trim)).2 = false := by
    rw [Bool.eq_false_iff, Ne, holds.more_iff spoken]
    omega
  rw [execute_of_program command nonempty, takeLine_of_complete closed, holds.prepare spoken]
  unfold running
  rw [holds.session, holds.firstLine]

end

theorem output_feed (line : RawText) (rest : List RawText) (sh : Shell) :
    (feed (line :: rest) sh).1 =
      (sh.execute line).output ++ (feed rest (sh.execute line).state).1 := by
  rw [feed]

theorem feed_of_blank {lines : List (List Char)} (blank : spokenLines lines = []) (sh : Shell) :
    (feed (lines.map .ofChars) sh).1 = "" := by
  induction lines with
  | nil => rfl
  | cons line rest ih =>
      have all : ∀ x ∈ line :: rest, Text.trimChars x = [] := by
        simpa [spokenLines] using blank
      have first := (trim_eq_nil_iff line).mpr (all _ List.mem_cons_self)
      rw [spokenLines_cons_of_blank (all _ List.mem_cons_self)] at blank
      rw [List.map_cons, output_feed, execute_of_blank first, ih blank]
      rfl

/-- The remaining lines of an input are taken without a word, and then the input is run. -/
theorem Holds.feed {session : Session} {done : List (List Char)} {sh : Shell}
    {lines : List (List Char)} (holds : Holds session done sh) (spoken : spokenLines lines ≠ [])
    (waiting : ∀ front back, spokenLines lines = front ++ back → front ≠ [] → back ≠ [] →
      0 < openParens false 0 (Text.joinLines (done ++ front)))
    (complete : openParens false 0 (Text.joinLines (done ++ spokenLines lines)) ≤ 0)
    (more : ∀ line ∈ lines, (RawText.ofChars line).trim ≠ .ofString endOfInput)
    (program : done = [] → ∀ line ∈ lines.find? fun line => (RawText.ofChars line).trim ≠ [],
      (RawText.ofChars line).trim ∉ commandWords) :
    (feed (lines.map .ofChars) sh).1 = (session.guarded (runInput (.ofChars (Text.joinLines
      ((done ++ spokenLines lines).map Text.trimChars))) 1)).output := by
  induction lines generalizing done sh with
  | nil => exact absurd rfl spoken
  | cons line rest ih =>
      have others : ∀ x ∈ rest, (RawText.ofChars x).trim ≠ .ofString endOfInput := fun x hx =>
        more x (List.mem_cons_of_mem line hx)
      rw [List.map_cons, output_feed]
      by_cases blank : Text.trimChars line = []
      · have empty := (trim_eq_nil_iff line).mpr blank
        rw [spokenLines_cons_of_blank blank] at spoken waiting complete ⊢
        rw [execute_of_blank empty, ih holds spoken waiting complete others]
        · rfl
        · intro first
          have hprogram := program first
          rwa [List.find?_cons_of_neg (by simp [empty])] at hprogram
      · have nonempty := (trim_eq_nil_iff line).not.mpr blank
        have command := holds.command (more line List.mem_cons_self) fun first =>
          program first line (List.find?_cons_of_pos (by simp [nonempty]))
        rw [spokenLines_cons blank] at spoken waiting complete ⊢
        have next (back : List (List Char)) :
            done ++ line :: back = done ++ [line] ++ back := by simp
        by_cases last : spokenLines rest = []
        · rw [last] at complete ⊢
          rw [holds.execute_of_complete blank command complete, feed_of_blank last,
            String.append_empty]
        · have ⟨quiet, holds⟩ := holds.execute_of_more blank command
            (waiting [line] _ rfl (List.cons_ne_nil _ _) last)
          rw [quiet, next, ih holds last]
          · rfl
          · intro front back split hfront hback
            rw [← next]
            exact waiting (line :: front) back (by rw [split]; rfl) (List.cons_ne_nil _ _) hback
          · rw [← next]
            exact complete
          · exact others
          · intro first
            simp at first

/-- The lines in which a text is typed; a line feed at its end begins no further line. -/
def typedLines (text : String) : List (List Char) :=
  let lines := Text.splitLines text.toList
  if lines.getLast? = some [] then lines.dropLast else lines

theorem lines_ofString (text : String) :
    RawText.lines (.ofString text) = (typedLines text).map .ofChars := by
  have ended (lines : List (List Char)) :
      (lines.map RawText.ofChars).getLast? = some [] ↔ lines.getLast? = some [] := by
    rw [List.getLast?_map, Option.map_eq_some_iff]
    constructor
    · rintro ⟨line, last, nothing⟩
      rw [last, List.map_eq_nil_iff.mp nothing]
    · intro last
      exact ⟨[], last, rfl⟩
  simp only [RawText.lines, RawText.ofString, RawText.splitAt_ofChars, ended, typedLines]
  split
  · exact List.map_dropLast.symm
  · rfl

theorem spokenLines_typedLines (text : String) :
    spokenLines (typedLines text) = spokenLines (Text.splitLines text.toList) := by
  unfold typedLines
  by_cases ended : (Text.splitLines text.toList).getLast? = some []
  · obtain ⟨front, hlines⟩ := List.getLast?_eq_some_iff.mp ended
    simp only [ended, if_true]
    rw [hlines, List.dropLast_concat]
    simp [spokenLines, Text.trimChars, Text.trimEndChars]
  · simp only [if_neg ended]

def inputOf (text : String) : String :=
  String.ofList (Text.joinLines (Text.core (Text.splitLines text.toList)))

/-- A new shell runs a text that is one input, and is silent otherwise. -/
theorem OneInput.feed {text : String} (one : OneInput text)
    (more : ∀ line ∈ RawText.lines (.ofString text), line.trim ≠ .ofString endOfInput)
    (program : ∀ line ∈ (RawText.lines (.ofString text)).find? fun line => line.trim ≠ [],
      line.trim ∉ commandWords) (fatal color : Bool) (settings : Settings) :
    (feed (RawText.lines (.ofString text))
        (CommandLine.newShell ⟨fatal, color, .empty⟩ settings)).1 =
      ((Session.fresh fatal color settings).guarded
        (runInput (.ofString (inputOf text)) 1)).output := by
  rw [lines_ofString] at more program ⊢
  have holds : Holds (Session.fresh fatal color settings) []
      (CommandLine.newShell ⟨fatal, color, .empty⟩ settings) := ⟨rfl, rfl, rfl⟩
  have complete := one.complete
  rw [← Text.joinLines_splitLines text.toList, ← openParens_congr (marks_spokenLines _)] at complete
  have lines := spokenLines_typedLines text
  have output := holds.feed (by rw [lines]; exact one.spoken) (by rw [lines]; exact one.waiting)
    (by rw [lines]; exact complete) (fun line hline => more _ (List.mem_map_of_mem hline))
    fun _ line first => by
      apply program
      rw [List.find?_map]
      exact Option.mem_map_of_mem _ first
  rw [lines, List.nil_append, ← core_eq] at output
  rw [output, RawText.ofString, inputOf, String.toList_ofList]

end Shell

/-! ## Files -/

namespace Session

/-- A session for a file, before the file is read. -/
def opened (color : Bool) (path : String) (settings : Settings) : Session :=
  ⟨⟨true, color, .singleton path none⟩, path, settings, .ofFunctions builtinFunctions, .empty, []⟩

theorem idle_opened (color : Bool) (path : String) (settings : Settings) :
    (opened color path settings).Idle := ⟨rfl, rfl⟩

end Session

namespace CommandLine

section

variable {color : Bool} {path text : String} {settings : Settings}

theorem runFile_eq (file : path ≠ Session.shellPath) (usable : '\x00' ∉ path.toList)
    (unix : '\r' ∉ text.toList) :
    runFile ⟨true, color, .empty⟩ path settings (some (Utf8.encode text)) =
      ((Session.opened color path settings).enter text 1).andThen fun _ s =>
        ⟨.ok (), { s with results := [] }, resultLines s.results⟩ := by
  have read : Session.fileText (Utf8.encode text) = .ok text := by
    unfold Session.fileText
    rw [Utf8.decode_encode]
    show Except.ok (String.ofList (Text.unifyNewlines text.toList)) = _
    rw [Text.unifyNewlines_eq_self unix, String.ofList_toList]
  have started : Session.start ⟨true, color, .empty⟩ path false builtinFunctions settings
      (some (Utf8.encode text)) = (Session.opened color path settings).add text 1 := by
    unfold Session.start
    simp only [if_neg file, List.contains_iff_mem, usable, if_false, read]
    rfl
  unfold runFile Session.enter
  rw [started, Reply.andThen_assoc]

theorem settleAll_of_report {s : Session} {trouble : Trouble} {output : String} {d : Diagnostic}
    (fatal : s.reporter.fatal = true)
    (reported : s.reporter.settle trouble = s.reporter.throw d) :
    settleAll ⟨.error trouble, s, output⟩ =
      ⟨.error (.exit d.exitCode), output ++ s.reporter.report d, ""⟩ := by
  unfold settleAll
  simp only [reported, Reporter.throw, fatal, if_true]

section

variable (file : path ≠ Session.shellPath) (usable : '\x00' ∉ path.toList)
  (unix : '\r' ∉ text.toList)

include file usable unix

theorem settleAll_of_not_showing
    (shown : (Session.opened color path settings).showing text = none) :
    settleAll (runFile ⟨true, color, .empty⟩ path settings (some (Utf8.encode text))) =
      ⟨.error (.exit 1), (Session.opened color path settings).notes text 1 ++
        ((Session.opened color path settings).facing text 1).report
          (.ofText "maximum recursion depth exceeded"), ""⟩ := by
  rw [runFile_eq file usable unix, Session.enter_of_not_showing shown]
  exact settleAll_of_report (d := .ofText "maximum recursion depth exceeded") rfl rfl

theorem settleAll_of_error {tree : String} {e : EvalError}
    (shown : (Session.opened color path settings).showing text = some tree)
    (failed : ((Session.opened color path settings).evaluation text).1 = .error e) :
    settleAll (runFile ⟨true, color, .empty⟩ path settings (some (Utf8.encode text))) =
      ⟨.error (.exit e.kind.exitCode), (Session.opened color path settings).notes text 1 ++ tree ++
        ((Session.opened color path settings).evaluation text).2.output ++
          ((Session.opened color path settings).facing text 1).report e.diagnostic, ""⟩ := by
  have trouble : Session.outcomeOf ((Session.opened color path settings).evaluation text).1 =
      .error (.evaluation e) := by
    rw [failed]
    rfl
  rw [runFile_eq file usable unix,
    Session.enter_of_trouble (Session.idle_opened color path settings) shown trouble]
  exact settleAll_of_report (d := e.diagnostic) rfl rfl

theorem settleAll_of_value {tree : String} {v : Value}
    (shown : (Session.opened color path settings).showing text = some tree)
    (value : ((Session.opened color path settings).evaluation text).1 = .value v) :
    settleAll (runFile ⟨true, color, .empty⟩ path settings (some (Utf8.encode text))) =
      ⟨.ok (), (Session.opened color path settings).notes text 1 ++ tree ++
        ((Session.opened color path settings).evaluation text).2.output ++
          (v.display ++ "\n"), ""⟩ := by
  have done : Session.outcomeOf ((Session.opened color path settings).evaluation text).1 =
      .ok v := by
    rw [value]
    rfl
  have line : resultLines [v] = v.display ++ "\n" := by simp [resultLines]
  rw [runFile_eq file usable unix,
    Session.enter_of_value (Session.idle_opened color path settings) shown done, ← line]
  rfl

end

end

end CommandLine

/-! ## Agreement -/

theorem Verdict.value_of_unplaced {a b : Verdict} {v : Value} (same : a.unplaced = b.unplaced)
    (value : b = .value v) : a = .value v := by
  subst value
  cases a <;> simp_all [unplaced]

theorem Verdict.error_of_unplaced {a b : Verdict} {e : EvalError} (same : a.unplaced = b.unplaced)
    (failed : b = .error e) : ∃ e', a = .error e' ∧ e'.cause = e.cause := by
  subst failed
  cases a <;> simp_all [unplaced]

namespace Session

/-- Two sessions make the same of two texts, up to positions. -/
structure SameRun (s : Session) (source : String) (f : Session) (text : String) : Prop where
  error : (s.reading source).error.map (·.kind) = (f.reading text).error.map (·.kind)
  showing : s.showing source = f.showing text
  verdict : (s.evaluation source).1.unplaced = (f.evaluation text).1.unplaced
  output : (s.evaluation source).2.output = (f.evaluation text).2.output

theorem sameRun_of_gist {s f : Session} {source text : String} (settings : s.settings = f.settings)
    (scopes : s.scopes = f.scopes)
    (same : Scan.gist (Utf8.encode source) = Scan.gist (Utf8.encode text)) :
    s.SameRun source f text := by
  have alike : (s.reading source).Alike (f.reading text) := by
    unfold reading
    rw [settings]
    exact Parsed.alike_of_gist same _
  have runs := evaluate_sameShape f.settings.mode alike.tree Arena.rootHandle ⟨f.scopes, ""⟩
  refine ⟨alike.error, ?_, ?_, ?_⟩
  · unfold showing
    rw [settings, Node.display_of_sameShape alike.tree]
  · unfold evaluation
    rw [settings, scopes]
    exact runs.1
  · unfold evaluation
    rw [settings, scopes]
    have outputs := congrArg Store.output runs.2
    exact outputs

end Session

namespace Shell

theorem OneInput.gist_inputOf {text : String} (one : OneInput text)
    (strings : ∀ t ∈ (Scan.ofBytes (Utf8.encode text)).tokens, ∀ s,
      t.lexeme = .string s → '\n' ∉ s.toList) :
    Scan.gist (Utf8.encode (inputOf text)) = Scan.gist (Utf8.encode text) := by
  have same := Text.gist_core fun _ _ _ hlines spoken => one.closed strings hlines spoken
  rw [Text.joinLines_splitLines] at same
  unfold Utf8.encode inputOf
  rw [String.toList_ofList]
  exact same

/-- What a shell and a file show of the same program. Apart from what is said about the text, both
show its tree if that is wanted, then what the program writes, and then the same value or an error
with the same cause; or they both cannot show the tree. -/
inductive Agree (s : Session) (source : String) (f : Session) (text : String) :
    String → CommandLine.Ran → Prop where
  | value {tree output : String} {v : Value}
      (shown : s.showing source = some tree ∧ f.showing text = some tree)
      (written : (s.evaluation source).2.output = output ∧ (f.evaluation text).2.output = output)
      (values : (s.evaluation source).1 = .value v ∧ (f.evaluation text).1 = .value v) :
      Agree s source f text
        (s.notes source 1 ++ tree ++ output ++ ("=> " ++ v.display ++ "\n"))
        ⟨.ok (), f.notes text 1 ++ tree ++ output ++ (v.display ++ "\n"), ""⟩
  | error {tree output : String} {e e' : EvalError}
      (shown : s.showing source = some tree ∧ f.showing text = some tree)
      (written : (s.evaluation source).2.output = output ∧ (f.evaluation text).2.output = output)
      (errors : (s.evaluation source).1 = .error e ∧ (f.evaluation text).1 = .error e')
      (cause : e.cause = e'.cause) :
      Agree s source f text
        (s.notes source 1 ++ tree ++ output ++ (s.facing source 1).report e.diagnostic)
        ⟨.error (.exit e'.kind.exitCode),
          f.notes text 1 ++ tree ++ output ++ (f.facing text 1).report e'.diagnostic, ""⟩
  | tooDeep (shown : s.showing source = none ∧ f.showing text = none) :
      Agree s source f text
        (s.notes source 1 ++
          (s.facing source 1).report (.ofText "maximum recursion depth exceeded"))
        ⟨.error (.exit 1), f.notes text 1 ++
          (f.facing text 1).report (.ofText "maximum recursion depth exceeded"), ""⟩

/-- Shell and file agree on a text that is one input. The kinds of their syntax errors are the same,
and so is what comes of the evaluation. -/
theorem front_ends_agree (color : Bool) (settings : Settings) (path : String) {text : String}
    (file : path ≠ Session.shellPath) (usable : '\x00' ∉ path.toList)
    (unix : '\r' ∉ text.toList) (one : OneInput text)
    (strings : ∀ t ∈ (Scan.ofBytes (Utf8.encode text)).tokens, ∀ s,
      t.lexeme = .string s → '\n' ∉ s.toList)
    (more : ∀ line ∈ RawText.lines (.ofString text), line.trim ≠ .ofString endOfInput)
    (program : ∀ line ∈ (RawText.lines (.ofString text)).find? fun line => line.trim ≠ [],
      line.trim ∉ commandWords)
    (terminates : ((Session.opened color path settings).evaluation text).1 ≠ .tooLong) :
    let s := Session.fresh true color settings
    let f := Session.opened color path settings
    (s.reading (inputOf text)).error.map (·.kind) = (f.reading text).error.map (·.kind) ∧
      Agree s (inputOf text) f text
        (feed (RawText.lines (.ofString text))
          (CommandLine.newShell ⟨true, color, .empty⟩ settings)).1
        (CommandLine.settleAll (CommandLine.runFile ⟨true, color, .empty⟩ path settings
          (some (Utf8.encode text)))) := by
  intro s f
  have same : s.SameRun (inputOf text) f text :=
    Session.sameRun_of_gist rfl rfl (one.gist_inputOf strings)
  have ready : s.Ready fun _ => True := Session.ready_fresh true color settings
  have tree : Located (fun _ => True) (f.reading text).tree :=
    (located_tree (List.mem_singleton_self _) _).imp fun _ _ => trivial
  refine ⟨same.error, ?_⟩
  rw [one.feed more program]
  cases shown : f.showing text with
  | none =>
      have shown' := same.showing.trans shown
      rw [guarded_runInput_of_not_showing ready.idle ready.lenient shown',
        CommandLine.settleAll_of_not_showing file usable unix shown]
      exact .tooDeep ⟨shown', shown⟩
  | some shownTree =>
      have shown' := same.showing.trans shown
      rcases (evaluate_cases (s := ⟨f.scopes, ""⟩) .builtins tree).2 with
        long | ⟨v, value⟩ | ⟨e, failed, -⟩
      · exact absurd long terminates
      · have value' := Verdict.value_of_unplaced same.verdict value
        rw [guarded_runInput_of_value ready.idle rfl shown' value',
          CommandLine.settleAll_of_value file usable unix shown value, same.output]
        exact .value ⟨shown', shown⟩ ⟨same.output, rfl⟩ ⟨value', value⟩
      · obtain ⟨e', failed', cause⟩ := Verdict.error_of_unplaced same.verdict failed
        rw [guarded_runInput_of_error ready.idle ready.lenient shown' failed',
          CommandLine.settleAll_of_error file usable unix shown failed, same.output]
        exact .error ⟨shown', shown⟩ ⟨same.output, rfl⟩ ⟨failed', failed⟩ cause

/-- The text is `println(`, a blank line and `"a")`, with blanks around the lines. -/
theorem front_ends_agree_on_call :
    let text := " println(\n \n\t\"a\") \n"
    let settings : Settings := { mode := { depth := 5 }, nesting := 2 }
    let s := Session.fresh true false settings
    let f := Session.opened false "a.ktb" settings
    OneInput text ∧ inputOf text = "println(\n\"a\")" ∧
      (f.evaluation text).1 = .value .nil ∧ (f.evaluation text).2.output = "a\n" ∧
      (s.reading (inputOf text)).error.map (·.kind) = (f.reading text).error.map (·.kind) ∧
      Agree s (inputOf text) f text
        (feed (RawText.lines (.ofString text))
          (CommandLine.newShell ⟨true, false, .empty⟩ settings)).1
        (CommandLine.settleAll (CommandLine.runFile ⟨true, false, .empty⟩ "a.ktb" settings
          (some (Utf8.encode text)))) := by
  intro text settings s f
  have bytes : Utf8.encode text =
      [32, 112, 114, 105, 110, 116, 108, 110, 40, 10, 32, 10, 9, 34, 97, 34, 41, 32, 10] := by
    unfold text
    decide
  have lines : spokenLines (Text.splitLines text.toList) =
      [" println(".toList, "\t\"a\") ".toList] := by
    unfold text
    decide
  have one : OneInput text := by
    refine ⟨by rw [lines]; exact List.cons_ne_nil _ _, ?_, by unfold text; decide⟩
    intro front back split hfront hback
    rw [lines] at split
    cases front with
    | nil => exact absurd rfl hfront
    | cons first others =>
        cases others with
        | nil =>
            cases split
            decide
        | cons second others =>
            cases others with
            | nil =>
                cases split
                exact absurd rfl hback
            | cons third others => cases split
  have lexemes : (Scan.ofBytes (Utf8.encode text)).tokens.map (·.lexeme) =
      [.identifier "println", .symbol .openParen, .string "a", .symbol .closeParen] := by
    rw [bytes]
    rfl
  have strings : ∀ t ∈ (Scan.ofBytes (Utf8.encode text)).tokens, ∀ s,
      t.lexeme = .string s → '\n' ∉ s.toList := by
    intro t ht s hs
    have lexeme : Lexeme.string s ∈ (Scan.ofBytes (Utf8.encode text)).tokens.map (·.lexeme) :=
      hs ▸ List.mem_map_of_mem ht
    rw [lexemes] at lexeme
    simp only [List.mem_cons, List.not_mem_nil, reduceCtorEq, or_false, false_or,
      Lexeme.string.injEq] at lexeme
    subst lexeme
    decide
  have tree : (f.reading text).tree =
      .root [.call "println" [.string "a" (some ⟨3, 2⟩)] (some ⟨1, 2⟩)] (some ⟨1, 2⟩) := by
    unfold Session.reading
    rw [bytes]
    rfl
  have evaluation : (f.evaluation text).1 = .value .nil ∧ (f.evaluation text).2.output = "a\n" := by
    unfold Session.evaluation
    rw [tree]
    exact ⟨rfl, rfl⟩
  have agree := front_ends_agree false settings "a.ktb" (by decide) (by decide)
    (by unfold text; decide) one strings (by unfold text; decide +kernel)
    (by unfold text; decide +kernel) (by rw [evaluation.1]; exact Verdict.noConfusion)
  exact ⟨one, by unfold text; decide +kernel, evaluation.1, evaluation.2, agree⟩

end Shell

end Scriptlet
