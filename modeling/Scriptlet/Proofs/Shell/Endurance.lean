import Scriptlet.CommandLine
import Scriptlet.Proofs.Session.Inputs
import Scriptlet.Proofs.Text.Raw

/-!
# Lines that break the shell

Behind every line the shell is ready for the next one: nothing is queued, no result is left over, no
text is being worked on, and of the scopes only the root is live. The shell asks for more lines
exactly while parentheses are open. It deals with all that a line may bring, with one exception: an
input with a surrogate in it cannot be encoded, and this is reported but ends the conversation.
-/

namespace Scriptlet

/-- Work in three parts may be taken as two and one, or as one and two. -/
theorem Reply.andThen_assoc {σ α β γ : Type} (r : Reply σ α) (f : α → σ → Reply σ β)
    (g : β → σ → Reply σ γ) :
    (r.andThen f).andThen g = r.andThen fun a s => (f a s).andThen g := by
  obtain ⟨outcome, state, output⟩ := r
  cases outcome with
  | error trouble => rfl
  | ok a =>
      simp only [andThen]
      cases (f a state).outcome with
      | error trouble => rfl
      | ok b => simp only [String.append_assoc]

namespace Shell

/-! ## Complete inputs -/

/-- Show the newest result, if there is one, and forget it. -/
def present (s : Session) : Reply Session Unit :=
  if s.results.isEmpty then ⟨.ok (), s, ""⟩
  else
    let popped := s.pop
    match popped.outcome with
    | .ok text => ⟨.ok (), popped.state, "=> " ++ text ++ "\n"⟩
    | .error trouble => ⟨.error trouble, popped.state, ""⟩

theorem runInput_ofString (source : String) (line : Nat) (s : Session) :
    runInput (.ofString source) line s = (s.enter source line).andThen fun _ => present := by
  have read : s.addRaw (.ofString source) line = s.add source line := by
    rw [Session.addRaw, RawText.read_ofString]
  unfold Session.enter
  rw [Reply.andThen_assoc, runInput, read]
  rfl

section

variable {s : Session} {source : String} {line : Nat}

theorem guarded_runInput_of_not_showing (idle : s.Idle) (lenient : s.reporter.fatal = false)
    (shown : s.showing source = none) :
    s.guarded (runInput (.ofString source) line) =
      ⟨.ok none, s, s.notes source line ++
        (s.facing source line).report (.ofText "maximum recursion depth exceeded")⟩ := by
  have stopped : runInput (.ofString source) line s =
      ⟨.error .stackExhausted, { s with reporter := s.facing source line },
        s.notes source line⟩ := by
    rw [runInput_ofString, Session.enter_of_not_showing shown]
    rfl
  exact Session.guarded_of_report idle lenient stopped rfl

theorem guarded_runInput_of_error (idle : s.Idle) (lenient : s.reporter.fatal = false)
    {text : String} (shown : s.showing source = some text) {e : EvalError}
    (failed : (s.evaluation source).1 = .error e) :
    s.guarded (runInput (.ofString source) line) =
      ⟨.ok none, { s with scopes := (s.evaluation source).2.scopes },
        s.notes source line ++ text ++ (s.evaluation source).2.output ++
          (s.facing source line).report e.diagnostic⟩ := by
  have trouble : Session.outcomeOf (s.evaluation source).1 = .error (.evaluation e) := by
    rw [failed]
    rfl
  have stopped : runInput (.ofString source) line s =
      ⟨.error (.evaluation e),
        { s with reporter := s.facing source line, scopes := (s.evaluation source).2.scopes },
        s.notes source line ++ text ++ (s.evaluation source).2.output⟩ := by
    rw [runInput_ofString, Session.enter_of_trouble idle shown trouble]
    rfl
  exact Session.guarded_of_report idle lenient stopped rfl

theorem guarded_runInput_of_value (idle : s.Idle) (results : s.results = []) {text : String}
    (shown : s.showing source = some text) {v : Value}
    (value : (s.evaluation source).1 = .value v) :
    s.guarded (runInput (.ofString source) line) =
      ⟨.ok (some ()), { s with scopes := (s.evaluation source).2.scopes },
        s.notes source line ++ text ++ (s.evaluation source).2.output ++
          ("=> " ++ v.display ++ "\n")⟩ := by
  have done : Session.outcomeOf (s.evaluation source).1 = .ok v := by
    rw [value]
    rfl
  have run : runInput (.ofString source) line s =
      ⟨.ok (), { s with scopes := (s.evaluation source).2.scopes },
        s.notes source line ++ text ++ (s.evaluation source).2.output ++
          ("=> " ++ v.display ++ "\n")⟩ := by
    rw [runInput_ofString, Session.enter_of_value idle shown done, results]
    rfl
  unfold Session.guarded
  rw [run]

/-- An input that cannot be encoded is reported. Then the fault passes on, and the session is as it
was before the input. -/
theorem guarded_runInput_of_unencodable (idle : s.Idle) (lenient : s.reporter.fatal = false)
    {source : RawText} {place : Unencodable} (unread : source.read = .error place) :
    ∃ d, Reporter.unknown (.unencodable place) = .ok d ∧
      s.guarded (runInput source line) =
        ⟨.error (.fault (.unencodable place)), s, (s.facing source.lossy line).report d⟩ := by
  obtain ⟨d, known⟩ := Reporter.exists_unknown_unencodable place
  refine ⟨d, known, ?_⟩
  have refused : runInput source line s =
      ⟨.error (.fault (.unencodable place)), { s with reporter := s.facing source.lossy line },
        ""⟩ := by
    rw [runInput, Session.addRaw, unread]
    rfl
  have thrown : (s.facing source.lossy line).throw d =
      ⟨.ok (), s.reporter, (s.facing source.lossy line).report d⟩ := by
    have hfatal : (s.facing source.lossy line).fatal = false := lenient
    unfold Reporter.throw
    rw [hfatal, idle.clearAll source.lossy line]
    rfl
  unfold Session.guarded
  simp only [refused, Reporter.settle, known, thrown, String.empty_append]

end

/-! ## Open parentheses -/

def isMark (c : Char) : Bool := c == '"' || c == '(' || c == ')'

theorem openParens_marks (inString : Bool) (depth : Int) (cs : List Char) :
    openParens inString depth (cs.filter isMark) = openParens inString depth cs := by
  induction cs generalizing inString depth with
  | nil => rfl
  | cons c rest ih =>
      by_cases mark : isMark c = true
      · rw [List.filter_cons_of_pos mark]
        simp only [openParens, ih]
      · have others : c ≠ '"' ∧ c ≠ '(' ∧ c ≠ ')' := by
          simpa [isMark, not_or, and_assoc] using mark
        rw [List.filter_cons_of_neg mark, ih]
        simp [openParens, others]

theorem openParens_congr {cs cs' : List Char} (same : cs.filter isMark = cs'.filter isMark) :
    openParens false 0 cs = openParens false 0 cs' := by
  rw [← openParens_marks, same, openParens_marks]

/-! ## Single lines -/

/-- The input that a line completes. -/
def completed? (sh : Shell) (line : RawText) : Option RawText :=
  let (word, text) := sh.command line
  if text.isEmpty || word.isSome then none
  else
    let (whole, more) := prepare (sh.pending ++ text)
    if more then none else some whole

/-- The line ends the conversation: it is the end of input, or it says so between two inputs. -/
def Leaves (sh : Shell) (line : RawText) : Prop :=
  line.trim = .ofString endOfInput ∨ line.trim = .ofString "exit" ∧ sh.pending = []

instance (sh : Shell) (line : RawText) : Decidable (sh.Leaves line) :=
  inferInstanceAs (Decidable (_ ∨ _ ∧ _))

section

variable {sh : Shell} {line : RawText}

def waiting (sh : Shell) (text : RawText) : Shell :=
  { sh with
    pending := text ++ [.char '\n']
    startLine := if sh.pending.isEmpty then sh.lineNumber + 1 else sh.startLine
    lineNumber := sh.lineNumber + 1
    prompt := morePrompt }

def past (sh : Shell) (session : Session) : Shell :=
  ⟨session, [], if sh.pending.isEmpty then sh.lineNumber + 1 else sh.startLine,
    sh.lineNumber + 1, mainPrompt⟩

def running (sh : Shell) (source : RawText) : Reply Session (Option Unit) :=
  sh.session.guarded
    (runInput source (if sh.pending.isEmpty then sh.lineNumber + 1 else sh.startLine))

/-- Everything that can come of a line. -/
inductive Deals (sh : Shell) (line : RawText) : Reply Shell Answer → Prop where
  | blank (trim : line.trim = []) (none : sh.completed? line = none) :
      Deals sh line ⟨.ok .blank, sh, ""⟩
  | leaves (leaves : sh.Leaves line) (output : String) : Deals sh line ⟨.ok .stop, sh, output⟩
  | helps (stays : ¬sh.Leaves line) (none : sh.completed? line = none) :
      Deals sh line ⟨.ok .goOn, sh, helpText⟩
  | waits (stays : ¬sh.Leaves line) (none : sh.completed? line = none) (text : RawText)
      (more : 0 < openParens false 0 text.chars) :
      Deals sh line ⟨.ok .goOn, sh.waiting text, ""⟩
  | runs (stays : ¬sh.Leaves line) (source : RawText) (complete : source ∈ sh.completed? line) :
      Deals sh line ⟨(sh.running source).outcome.map fun _ => .goOn,
        sh.past (sh.running source).state, (sh.running source).output⟩

theorem prepare_more_iff (text : RawText) :
    (prepare text).2 = true ↔ 0 < openParens false 0 (prepare text).1.chars := by
  simp only [prepare, decide_eq_true_eq]

theorem takeLine_of_more {text : RawText} (more : (prepare (sh.pending ++ text)).2 = true) :
    sh.takeLine text = ⟨.ok (), sh.waiting (prepare (sh.pending ++ text)).1, ""⟩ := by
  unfold takeLine
  simp only [more]
  rfl

theorem takeLine_of_complete {text : RawText}
    (complete : (prepare (sh.pending ++ text)).2 = false) :
    sh.takeLine text =
      ⟨(sh.running (prepare (sh.pending ++ text)).1).outcome.map fun _ => (),
        sh.past (sh.running (prepare (sh.pending ++ text)).1).state,
        (sh.running (prepare (sh.pending ++ text)).1).output⟩ := by
  unfold takeLine
  simp only [complete]
  rfl

theorem execute_of_program {text : RawText} (command : sh.command line = (none, text))
    (nonempty : text ≠ []) :
    sh.execute line =
      ⟨(sh.takeLine text).outcome.map fun _ => .goOn, (sh.takeLine text).state,
        (sh.takeLine text).output⟩ := by
  unfold execute
  simp only [command, List.isEmpty_iff, nonempty, if_false]

theorem execute_of_blank (trim : line.trim = []) : sh.execute line = ⟨.ok .blank, sh, ""⟩ := by
  unfold execute command
  simp [trim, endOfInput]

theorem completed?_of_blank (trim : line.trim = []) : sh.completed? line = none := by
  unfold completed? command
  simp [trim, endOfInput]

def commandWords : List RawText := [.ofString "?", .ofString "help", .ofString "exit"]

theorem command_of_program (more : line.trim ≠ .ofString endOfInput)
    (other : sh.pending = [] → line.trim ∉ commandWords) :
    sh.command line = (none, line.trim) := by
  unfold command
  by_cases between : sh.pending = []
  · have hother := other between
    simp only [commandWords, List.mem_cons, List.not_mem_nil, or_false, not_or] at hother
    simp [hother, more]
  · have hhelp : "help" ≠ endOfInput := by decide
    by_cases question : line.trim = .ofString "?"
    · simp [question, between, hhelp]
    · simp [question, between, more]

theorem execute_of_leaves (leaves : sh.Leaves line) :
    ∃ output, sh.execute line = ⟨.ok .stop, sh, output⟩ := by
  unfold execute command
  rcases leaves with ending | ⟨leaving, between⟩
  · exact ⟨"\n", by simp [ending, endOfInput]⟩
  · exact ⟨"", by simp [leaving, between, endOfInput]⟩

theorem execute_of_help (help : line.trim = .ofString "help" ∨ line.trim = .ofString "?")
    (between : sh.pending = []) : sh.execute line = ⟨.ok .goOn, sh, helpText⟩ := by
  unfold execute command
  rcases help with help | help
  · simp [help, between, endOfInput]
  · simp [help, between, endOfInput]

theorem completed?_of_help (help : line.trim = .ofString "help" ∨ line.trim = .ofString "?")
    (between : sh.pending = []) : sh.completed? line = none := by
  unfold completed? command
  rcases help with help | help
  · simp [help, between, endOfInput]
  · simp [help, between, endOfInput]

theorem deals_of_program (nonempty : line.trim ≠ []) (stays : ¬sh.Leaves line)
    (command : sh.command line = (none, line.trim)) : Deals sh line (sh.execute line) := by
  rw [execute_of_program command nonempty]
  cases more : (prepare (sh.pending ++ line.trim)).2 with
  | true =>
      rw [takeLine_of_more more]
      have unfinished : sh.completed? line = none := by
        simp [completed?, command, nonempty, more]
      exact .waits stays unfinished _ ((prepare_more_iff _).mp more)
  | false =>
      have complete : (prepare (sh.pending ++ line.trim)).1 ∈ sh.completed? line := by
        simp [completed?, command, nonempty, more]
      have deals := Deals.runs stays _ complete
      rw [takeLine_of_complete more]
      generalize sh.running (prepare (sh.pending ++ line.trim)).1 = reply at deals ⊢
      obtain ⟨outcome, state, output⟩ := reply
      cases outcome with
      | error trouble => exact deals
      | ok done => exact deals

theorem deals_execute (sh : Shell) (line : RawText) : Deals sh line (sh.execute line) := by
  by_cases blank : line.trim = []
  · rw [execute_of_blank blank]
    exact .blank blank (completed?_of_blank blank)
  by_cases leaves : sh.Leaves line
  · obtain ⟨output, executed⟩ := execute_of_leaves leaves
    rw [executed]
    exact .leaves leaves output
  by_cases help : (line.trim = .ofString "help" ∨ line.trim = .ofString "?") ∧ sh.pending = []
  · rw [execute_of_help help.1 help.2]
    exact .helps leaves (completed?_of_help help.1 help.2)
  · apply deals_of_program blank leaves
    apply command_of_program
    · exact fun ending => leaves (.inl ending)
    · intro between hword
      simp only [commandWords, List.mem_cons, List.not_mem_nil, or_false] at hword
      rcases hword with question | word | leaving
      · exact help ⟨.inr question, between⟩
      · exact help ⟨.inl word, between⟩
      · exact leaves (.inr ⟨leaving, between⟩)

end

/-! ## Line after line -/

/-- Take line after line, also behind one that ends the conversation, and collect all that is
written. -/
def feed : List RawText → Shell → String × Shell
  | [], sh => ("", sh)
  | line :: rest, sh =>
      let reply := sh.execute line
      let later := feed rest reply.state
      (reply.output ++ later.1, later.2)

/-- If the line completes an input and this gets as far as its evaluation, then the evaluation comes
to an end. -/
def Terminates (sh : Shell) (line : RawText) : Prop :=
  ∀ source : String, .ofString source ∈ sh.completed? line →
    sh.session.showing source ≠ none → (sh.session.evaluation source).1 ≠ .tooLong

def AllTerminate : List RawText → Shell → Prop
  | [], _ => True
  | line :: rest, sh => sh.Terminates line ∧ AllTerminate rest (sh.execute line).state

theorem feed_cons (line : RawText) (rest : List RawText) (sh : Shell) :
    (feed (line :: rest) sh).2 = (feed rest (sh.execute line).state).2 := by
  rw [feed]

theorem allTerminate_cons {line : RawText} {rest : List RawText} {sh : Shell} :
    AllTerminate (line :: rest) sh ↔
      sh.Terminates line ∧ AllTerminate rest (sh.execute line).state := by
  rw [AllTerminate]

/-- The shell has dealt with everything it was given. What is pending has open parentheses, and the
prompt tells whether something is. -/
structure AtRest (sh : Shell) : Prop where
  queue : sh.session.queue.entries = []
  results : sh.session.results = []
  sources : ∀ entry ∈ sh.session.reporter.sources.entries, entry.2 = none
  scopes : sh.session.scopes.handles = [Arena.rootHandle]
  prompt : sh.pending ≠ [] ↔ sh.prompt = morePrompt
  pending : sh.pending ≠ [] → 0 < openParens false 0 sh.pending.chars

/-! ## What every line keeps -/

/-- What holds of the shell between lines, in the form that each line keeps. -/
structure Calm (sh : Shell) : Prop where
  ready : sh.session.Ready fun _ => True
  results : sh.session.results = []
  prompt : sh.pending ≠ [] ↔ sh.prompt = morePrompt
  pending : sh.pending ≠ [] → 0 < openParens false 0 sh.pending.chars

theorem calm_newShell (fatal color : Bool) (settings : Settings) :
    (CommandLine.newShell ⟨fatal, color, .empty⟩ settings).Calm :=
  ⟨Session.ready_fresh fatal color settings, rfl,
    by simp [CommandLine.newShell, morePrompt], fun h => absurd rfl h⟩

section

variable {sh : Shell}

theorem Calm.atRest (calm : sh.Calm) : sh.AtRest := by
  refine ⟨by rw [calm.ready.idle.queue]; rfl, calm.results, ?_, ?_, calm.prompt, calm.pending⟩
  · rw [calm.ready.idle.sources]
    simp
  · rw [← outline_keys, calm.ready.outline]
    rfl

theorem Calm.waiting (calm : sh.Calm) {text : RawText} (more : 0 < openParens false 0 text.chars) :
    (sh.waiting text).Calm := by
  have pending : (sh.waiting text).pending = text ++ [.char '\n'] := rfl
  refine ⟨calm.ready, calm.results, ?_, fun _ => ?_⟩
  · rw [pending]
    simp [Shell.waiting]
  · have newline : (RawText.chars (text ++ [.char '\n'])).filter isMark =
        text.chars.filter isMark := by
      simp [RawText.chars, CodePoint.char?, isMark]
    rw [pending, openParens_congr newline]
    exact more

theorem calm_past {session : Session} (ready : session.Ready fun _ => True)
    (results : session.results = []) : (sh.past session).Calm :=
  ⟨ready, results, by simp [Shell.past, mainPrompt, morePrompt], fun h => absurd rfl h⟩

/-- An input that is evaluated to the end, be it to a value or to an error, is dealt with. -/
theorem Calm.running (calm : sh.Calm) {source : String}
    (terminates : sh.session.showing source ≠ none →
      (sh.session.evaluation source).1 ≠ .tooLong) :
    ∃ done, (sh.running (.ofString source)).outcome = .ok done ∧
      (sh.past (sh.running (.ofString source)).state).Calm := by
  have idle := calm.ready.idle
  have tree : Located (fun _ => True) (sh.session.reading source).tree :=
    (located_tree (List.mem_singleton_self _) _).imp fun _ _ => trivial
  have after := calm.ready.scopes tree
  unfold Shell.running
  cases shown : sh.session.showing source with
  | none =>
      rw [guarded_runInput_of_not_showing idle calm.ready.lenient shown]
      exact ⟨none, rfl, calm_past calm.ready calm.results⟩
  | some text =>
      rcases (evaluate_cases (s := ⟨sh.session.scopes, ""⟩) calm.ready.wellScoped tree).2 with
        long | ⟨v, value⟩ | ⟨e, failed, -⟩
      · exact absurd long (terminates (by rw [shown]; exact Option.some_ne_none text))
      · rw [guarded_runInput_of_value idle calm.results shown value]
        exact ⟨some (), rfl, calm_past after calm.results⟩
      · rw [guarded_runInput_of_error idle calm.ready.lenient shown failed]
        exact ⟨none, rfl, calm_past after calm.results⟩

theorem Calm.running_of_unencodable (calm : sh.Calm) {source : RawText} {place : Unencodable}
    (unread : source.read = .error place) :
    (sh.running source).outcome = .error (.fault (.unencodable place)) ∧
      (sh.past (sh.running source).state).Calm := by
  obtain ⟨d, -, refused⟩ :=
    guarded_runInput_of_unencodable calm.ready.idle calm.ready.lenient unread
  unfold Shell.running
  rw [refused]
  exact ⟨rfl, calm_past calm.ready calm.results⟩

inductive Ends (sh : Shell) (line : RawText) : Except Trouble Answer → Prop where
  | leaves (leaves : sh.Leaves line) : Ends sh line (.ok .stop)
  | goesOn (stays : ¬sh.Leaves line) (read : ∀ input ∈ sh.completed? line, ∃ s, input.read = .ok s)
      {answer : Answer} (known : answer = .goOn ∨ answer = .blank) : Ends sh line (.ok answer)
  | breaks (stays : ¬sh.Leaves line) {input : RawText} (complete : input ∈ sh.completed? line)
      {place : Unencodable} (unread : input.read = .error place) :
      Ends sh line (.error (.fault (.unencodable place)))

theorem Calm.execute (calm : sh.Calm) {line : RawText} (terminates : sh.Terminates line) :
    (sh.execute line).state.Calm ∧ Ends sh line (sh.execute line).outcome := by
  have deals := deals_execute sh line
  generalize sh.execute line = reply at deals
  cases deals with
  | blank trim none =>
      have stays : ¬sh.Leaves line := by
        rintro (ending | ⟨leaving, -⟩)
        · rw [trim] at ending
          exact absurd ending (by decide)
        · rw [trim] at leaving
          exact absurd leaving (by decide)
      exact ⟨calm, .goesOn stays (by simp [none]) (.inr rfl)⟩
  | leaves leaves output => exact ⟨calm, .leaves leaves⟩
  | helps stays none => exact ⟨calm, .goesOn stays (by simp [none]) (.inl rfl)⟩
  | waits stays none text more =>
      exact ⟨calm.waiting more, .goesOn stays (by simp [none]) (.inl rfl)⟩
  | runs stays source complete =>
      show (sh.past _).Calm ∧ Ends sh line ((sh.running source).outcome.map _)
      cases read : source.read with
      | error place =>
          obtain ⟨outcome, after⟩ := calm.running_of_unencodable read
          rw [outcome]
          exact ⟨after, .breaks stays complete read⟩
      | ok text =>
          rw [RawText.eq_ofString_of_read read] at complete ⊢
          obtain ⟨done, outcome, after⟩ := calm.running (terminates text complete)
          rw [outcome]
          refine ⟨after, .goesOn stays (fun input hinput => ⟨text, ?_⟩) (.inl rfl)⟩
          rw [Option.mem_unique hinput complete, RawText.read_ofString]

theorem Calm.feed (calm : sh.Calm) {lines : List RawText} (terminates : AllTerminate lines sh) :
    (feed lines sh).2.Calm := by
  induction lines generalizing sh with
  | nil => exact calm
  | cons line rest ih =>
      rw [feed_cons]
      have ⟨first, others⟩ := allTerminate_cons.mp terminates
      exact ih (calm.execute first).1 others

theorem AllTerminate.last {lines : List RawText} {line : RawText}
    (terminates : AllTerminate (lines ++ [line]) sh) :
    AllTerminate lines sh ∧ (Shell.feed lines sh).2.Terminates line := by
  induction lines generalizing sh with
  | nil => exact ⟨trivial, terminates.1⟩
  | cons first rest ih =>
      rw [List.cons_append, allTerminate_cons] at terminates
      have ⟨others, last⟩ := ih terminates.2
      rw [allTerminate_cons, feed_cons]
      exact ⟨⟨terminates.1, others⟩, last⟩

end

/-- Which lines break a shell. Unless a line says that the conversation ends, the shell goes on
behind it if the line completes no input with a surrogate in it. If it does complete such an input,
the fault of this leaves the shell. Behind every line, be it one that breaks the shell, the shell is
at rest. -/
theorem shell_endures_encodable_inputs (fatal color : Bool) (settings : Settings)
    (lines : List RawText) (line : RawText)
    (terminates : AllTerminate (lines ++ [line])
      (CommandLine.newShell ⟨fatal, color, .empty⟩ settings)) :
    let sh := (feed lines (CommandLine.newShell ⟨fatal, color, .empty⟩ settings)).2
    (sh.Leaves line → (sh.execute line).outcome = .ok .stop) ∧
      (¬sh.Leaves line → (∀ input ∈ sh.completed? line, ∀ p ∈ input, p.isSurrogate = false) →
        (sh.execute line).outcome = .ok .goOn ∨ (sh.execute line).outcome = .ok .blank) ∧
      (¬sh.Leaves line → ∀ input ∈ sh.completed? line, (∃ p ∈ input, p.isSurrogate = true) →
        ∃ place, input.read = .error place ∧
          (sh.execute line).outcome = .error (.fault (.unencodable place))) ∧
      (sh.execute line).state.AtRest := by
  intro sh
  have ⟨earlier, last⟩ := terminates.last
  have ⟨after, ends⟩ := ((calm_newShell fatal color settings).feed earlier).execute last
  refine ⟨fun leaves => ?_, fun stays whole => ?_, fun stays input complete broken => ?_,
    after.atRest⟩
  · generalize (Shell.execute _ line).outcome = outcome at ends ⊢
    cases ends with
    | leaves _ => rfl
    | goesOn stays _ _ => exact absurd leaves stays
    | breaks stays _ _ => exact absurd leaves stays
  · generalize (Shell.execute _ line).outcome = outcome at ends ⊢
    cases ends with
    | leaves leaves => exact absurd leaves stays
    | goesOn _ _ known =>
        rcases known with rfl | rfl
        · exact .inl rfl
        · exact .inr rfl
    | @breaks _ input complete place unread =>
        obtain ⟨s, read⟩ := RawText.exists_read_of_whole (whole input complete)
        rw [read] at unread
        cases unread
  · obtain ⟨place, unread⟩ := RawText.exists_unencodable broken
    refine ⟨place, unread, ?_⟩
    generalize (Shell.execute _ line).outcome = outcome at ends ⊢
    cases ends with
    | leaves leaves => exact absurd leaves stays
    | goesOn _ read _ =>
        obtain ⟨s, hs⟩ := read input complete
        rw [unread] at hs
        cases hs
    | @breaks _ input' complete' place' unread' =>
        rw [Option.mem_unique complete' complete, unread] at unread'
        cases unread'
        rfl

theorem completed?_byte (settings : Settings) :
    (CommandLine.newShell ⟨true, false, .empty⟩ settings).completed? [.ofByte 0xFF] =
      some [.ofByte 0xFF] := rfl

theorem allTerminate_byte (settings : Settings) :
    AllTerminate [[.ofByte 0xFF]] (CommandLine.newShell ⟨true, false, .empty⟩ settings) := by
  refine ⟨fun source complete => ?_, trivial⟩
  rw [completed?_byte] at complete
  have read := congrArg RawText.read (Option.some.inj complete)
  rw [RawText.read_ofString] at read
  cases read

/-- The line that closes an input is dealt with, and a byte that spells no character is not. -/
theorem shell_endures_closing_line :
    let settings : Settings := { mode := { depth := 5 }, nesting := 1 }
    let start := CommandLine.newShell ⟨true, false, .empty⟩ settings
    let lines : List RawText := [.ofString "(z", .ofString " "]
    let sh := (feed lines start).2
    (sh.pending = .ofString "(z\n" ∧ sh.prompt = morePrompt ∧
        (sh.session.evaluation "(z\n)").1 = .error ⟨.undefinedVariable "z", some ⟨1, 2⟩⟩ ∧
        ((sh.execute (.ofString ")")).outcome = .ok .goOn ∨
          (sh.execute (.ofString ")")).outcome = .ok .blank) ∧
        (sh.execute (.ofString ")")).state.AtRest) ∧
      (∃ place, (start.execute [.ofByte 0xFF]).outcome = .error (.fault (.unencodable place))) ∧
      (start.execute [.ofByte 0xFF]).state.AtRest := by
  intro settings start lines sh
  have fed : sh = ((start.execute (.ofString "(z")).state.execute (.ofString " ")).state := by
    unfold sh lines
    rw [feed_cons, feed_cons, feed]
  have opened : start.completed? (.ofString "(z") = none := by
    unfold start settings
    decide +kernel
  have closed : sh.completed? (.ofString ")") = some (.ofString "(z\n)") := by
    unfold sh lines start settings
    decide +kernel
  have failed : (sh.session.evaluation "(z\n)").1 =
      .error ⟨.undefinedVariable "z", some ⟨1, 2⟩⟩ := by
    unfold sh lines start settings
    rfl
  have terminates : AllTerminate (lines ++ [.ofString ")"]) start := by
    refine ⟨?_, ?_, ?_, trivial⟩
    · intro source complete _
      rw [opened] at complete
      cases complete
    · intro source complete _
      rw [completed?_of_blank (by decide)] at complete
      cases complete
    · intro source complete _
      rw [← fed, closed] at complete
      cases RawText.ofString_inj.mp (Option.some.inj complete)
      rw [← fed, failed]
      exact Verdict.noConfusion
  have stays : ¬sh.Leaves (.ofString ")") := by
    unfold sh lines start settings
    decide +kernel
  have whole : ∀ input ∈ sh.completed? (.ofString ")"), ∀ p ∈ input, p.isSurrogate = false := by
    intro input complete p hp
    rw [closed] at complete
    cases complete
    exact RawText.isSurrogate_of_mem_ofString hp
  have ⟨_, goesOn, _, rests⟩ :=
    shell_endures_encodable_inputs true false settings lines (.ofString ")") terminates
  have ⟨_, _, breaks, rests'⟩ := shell_endures_encodable_inputs true false settings []
    [.ofByte 0xFF] (allTerminate_byte settings)
  have ⟨place, _, broken⟩ := breaks (by decide) _ (completed?_byte settings)
    ⟨.ofByte 0xFF, List.mem_singleton_self _, rfl⟩
  exact ⟨⟨by unfold sh lines start settings; decide +kernel,
    by unfold sh lines start settings; decide +kernel, failed, goesOn stays whole, rests⟩,
    ⟨place, broken⟩, rests'⟩

/-- The byte 255 alone on a line does not say that the conversation ends, and yet a new shell does
not go on behind it. -/
theorem shell_broken_by_byte :
    let start := CommandLine.newShell ⟨true, false, .empty⟩ {}
    let line := RawText.ofBytes [0xFF]
    ¬start.Leaves line ∧ AllTerminate [line] start ∧
      (start.execute line).outcome =
        .error (.fault (.unencodable ⟨⟨0xDCFF, by decide, by decide⟩, 0, 1⟩)) := by
  intro start line
  exact ⟨by unfold start line; decide +kernel, allTerminate_byte {},
    by unfold start line; decide +kernel⟩

end Shell

end Scriptlet
