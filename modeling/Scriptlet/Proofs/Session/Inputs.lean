import Scriptlet.Proofs.Evaluation.MatchedRuns
import Scriptlet.Proofs.Evaluation.Safety
import Scriptlet.Session

/-!
# Inputs of a session

Between two inputs a session has nothing queued, and no text is being worked on. The next input is
read, shown if that is wanted, and evaluated in the root scope. What comes of it is said here once
for all who enter inputs: shells, files, and sessions that are used directly.
-/

namespace Scriptlet

open Eval

/-! ## Trees that were read -/

section

variable {P Q : Position → Prop}

theorem Placed.imp {n : Node} (placed : Placed P n) (h : ∀ p, P p → Q p) : Placed Q n := by
  induction placed with
  | mk position holds _ ih => exact .mk position (h _ holds) ih

theorem Located.imp {n : Node} (located : Located P n) (h : ∀ p, P p → Q p) : Located Q n := by
  refine ⟨located.meaningful, ?_, fun child hchild => (located.children child hchild).imp h⟩
  intro q hq
  obtain ⟨p, hp, holds⟩ := located.places q hq
  exact ⟨p, hp, h p holds⟩

/-- A tree that was read gives a value or an error that is placed in it or in a stored function,
unless it runs out of rounds. The scopes keep their outline. -/
theorem evaluate_cases {mode : Mode} {tree : Node} {s : Store}
    (hs : WellScoped (Located P) s.scopes) (ht : Located P tree) :
    SteadyStore (Located P) s.scopes.outline (evaluate mode tree Arena.rootHandle s).2 ∧
      ((evaluate mode tree Arena.rootHandle s).1 = .tooLong ∨
        (∃ v, (evaluate mode tree Arena.rootHandle s).1 = .value v) ∨
        ∃ e, (evaluate mode tree Arena.rootHandle s).1 = .error e ∧
          (e = ⟨.tooDeep, tree.position⟩ ∨ ∃ p, e.position = some p ∧ P p)) := by
  let S := Simulation.steady (Located P) (fun q => ∃ p, q = some p ∧ P p) (fun _ => False) id
  have visits : S.Visits (nested mode mode.depth) (nested mode mode.depth) :=
    S.visits_nested (fun trees => hereditary_located.alike trees) mode mode.depth
  have ends := visits (w := s.scopes.outline) ⟨rfl, ht⟩ ⟨rfl, none, hs.valid.rooted⟩ s s
    ⟨rfl, rfl, hs⟩
  refine ⟨by rw [evaluate_store]; exact ends.steady, ?_⟩
  rcases evaluate_of_ends ends with hdeep | hlong | hvalue | ⟨e, p, herror, hplace⟩
  · right; right
    refine ⟨_, ?_, .inl rfl⟩
    rw [evaluate_eq, hdeep]
    rfl
  · left
    rw [evaluate_eq, hlong]
    rfl
  · exact .inr (.inl hvalue)
  · exact .inr (.inr ⟨e, herror, .inr ⟨p, hplace⟩⟩)

end

namespace Session

/-! ## Reading and running one input -/

/-- Nothing is queued, and no text of the one path that is known is being worked on. -/
structure Idle (s : Session) : Prop where
  queue : s.queue = .empty
  sources : s.reporter.sources = .singleton s.path none

def enter (source : String) (line : Int) (s : Session) : Reply Session Unit :=
  (s.add source line).andThen fun _ s => s.run

def facing (s : Session) (source : String) (line : Int) : Reporter :=
  s.reporter.registerText s.path source (some line)

def reading (s : Session) (source : String) : Parsed :=
  Parsed.ofBytes s.settings.nesting (Utf8.encode source)

def notes (s : Session) (source : String) (line : Int) : String :=
  (s.facing source line).parsedText (s.reading source)

/-- What is shown of the tree of an input. There is nothing if it has too many levels. -/
def showing (s : Session) (source : String) : Option String :=
  if s.settings.showTree then
    ((s.reading source).tree.display s.settings.levels).map (· ++ "\n")
  else some ""

def evaluation (s : Session) (source : String) : Verdict × Store :=
  evaluate s.settings.mode (s.reading source).tree Arena.rootHandle ⟨s.scopes, ""⟩

section

variable {s : Session}

theorem Idle.registerText (idle : s.Idle) (source : String) (line : Int) :
    (s.facing source line).sources = .singleton s.path (some ⟨source, some line⟩) := by
  rw [facing, Reporter.registerText, idle.sources, OrderedMap.set_singleton]

theorem Idle.clearText (idle : s.Idle) (source : String) (line : Int) :
    (s.facing source line).clearText s.path = s.reporter := by
  have hsources := idle.registerText source line
  have hback : ((s.facing source line).sources.set s.path none) = s.reporter.sources := by
    rw [hsources, idle.sources, OrderedMap.set_singleton]
  show Reporter.mk s.reporter.fatal s.reporter.color _ = _
  rw [hback]

def queued (s : Session) (source : String) (line : Int) : Session :=
  { s with queue := .singleton line ⟨source, (s.reading source).tree⟩ }

theorem add_of_shown {source : String} {line : Int} {text : String}
    (shown : s.showing source = some text) :
    s.add source line =
      ⟨.ok (),
        { s with reporter := (s.facing source line).clearText s.path,
                 queue := s.queue.set line ⟨source, (s.reading source).tree⟩ },
        s.notes source line ++ text⟩ := by
  unfold showing reading at shown
  unfold add notes facing reading
  by_cases hshow : s.settings.showTree = true
  · rw [if_pos hshow] at shown ⊢
    obtain ⟨tree, htree, rfl⟩ := Option.map_eq_some_iff.mp shown
    rw [htree]
    simp only [String.append_assoc]
  · rw [if_neg hshow] at shown ⊢
    cases shown
    rw [String.append_empty]

theorem add_of_showing (idle : s.Idle) {source : String} {line : Int} {text : String}
    (shown : s.showing source = some text) :
    s.add source line = ⟨.ok (), s.queued source line, s.notes source line ++ text⟩ := by
  rw [add_of_shown shown, idle.clearText, idle.queue]
  rfl

theorem add_of_not_showing {source : String} {line : Int} (shown : s.showing source = none) :
    s.add source line =
      ⟨.error .stackExhausted, { s with reporter := s.facing source line },
        s.notes source line⟩ := by
  unfold showing reading at shown
  unfold add notes facing reading
  by_cases hshow : s.settings.showTree = true
  · rw [if_pos hshow] at shown
    simp only [if_pos hshow, Option.map_eq_none_iff.mp shown]
  · rw [if_neg hshow] at shown
    cases shown

theorem enter_of_not_showing {source : String} {line : Int} (shown : s.showing source = none) :
    s.enter source line =
      ⟨.error .stackExhausted, { s with reporter := s.facing source line },
        s.notes source line⟩ := by
  unfold enter
  rw [add_of_not_showing shown]
  rfl

theorem run_queued_of_trouble (idle : s.Idle) {source : String} {line : Int} {trouble : Trouble}
    (failed : outcomeOf (s.evaluation source).1 = .error trouble) :
    (s.queued source line).run =
      ⟨.error trouble,
        { s with reporter := s.facing source line, scopes := (s.evaluation source).2.scopes },
        (s.evaluation source).2.output⟩ := by
  unfold evaluation at failed ⊢
  unfold run queued
  rw [OrderedMap.entries_singleton]
  unfold runAll runOne
  simp only [Reply.andThen, failed, OrderedMap.erase_singleton, ← idle.queue]
  rfl

theorem run_queued_of_value (idle : s.Idle) {source : String} {line : Int} {value : Value}
    (done : outcomeOf (s.evaluation source).1 = .ok value) :
    (s.queued source line).run =
      ⟨.ok (),
        { s with scopes := (s.evaluation source).2.scopes, results := s.results ++ [value] },
        (s.evaluation source).2.output⟩ := by
  have hreporter := idle.clearText source line
  unfold facing at hreporter
  unfold evaluation at done ⊢
  unfold run queued
  rw [OrderedMap.entries_singleton]
  unfold runAll runOne
  simp only [Reply.andThen, done, OrderedMap.erase_singleton, hreporter, ← idle.queue, runAll,
    String.append_empty]

/-- An input that is evaluated to no value leaves its text in the foreground. -/
theorem enter_of_trouble (idle : s.Idle) {source : String} {line : Int} {text : String}
    {trouble : Trouble} (shown : s.showing source = some text)
    (failed : outcomeOf (s.evaluation source).1 = .error trouble) :
    s.enter source line =
      ⟨.error trouble,
        { s with reporter := s.facing source line, scopes := (s.evaluation source).2.scopes },
        s.notes source line ++ text ++ (s.evaluation source).2.output⟩ := by
  unfold enter
  rw [add_of_showing idle shown]
  simp only [Reply.andThen, run_queued_of_trouble idle failed]

theorem enter_of_value (idle : s.Idle) {source : String} {line : Int} {text : String}
    {value : Value} (shown : s.showing source = some text)
    (done : outcomeOf (s.evaluation source).1 = .ok value) :
    s.enter source line =
      ⟨.ok (),
        { s with scopes := (s.evaluation source).2.scopes, results := s.results ++ [value] },
        s.notes source line ++ text ++ (s.evaluation source).2.output⟩ := by
  unfold enter
  rw [add_of_showing idle shown]
  simp only [Reply.andThen, run_queued_of_value idle done]

/-! ## Dealing with trouble -/

theorem Idle.clearAll (idle : s.Idle) (source : String) (line : Int) :
    (s.facing source line).clearAll = s.reporter := by
  have hsources := idle.registerText source line
  have hback : ((s.facing source line).sources.mapValues fun _ => none) = s.reporter.sources := by
    rw [hsources, idle.sources]
    rfl
  show Reporter.mk s.reporter.fatal s.reporter.color _ = _
  rw [hback]

/-- Trouble with an input is reported at the text of that input, and if it is not fatal the session
goes on as if nothing was being worked on. -/
theorem guarded_of_report {α : Type} (idle : s.Idle) (lenient : s.reporter.fatal = false)
    {source : String} {line : Int} {work : Session → Reply Session α} {trouble : Trouble}
    {scopes : Scopes} {output : String} {d : Diagnostic}
    (stopped : work s =
      ⟨.error trouble, { s with reporter := s.facing source line, scopes := scopes }, output⟩)
    (reported : (s.facing source line).settle trouble = (s.facing source line).throw d) :
    s.guarded work =
      ⟨.ok none, { s with scopes := scopes },
        output ++ (s.facing source line).report d⟩ := by
  have hfatal : (s.facing source line).fatal = false := lenient
  have hthrow : (s.facing source line).throw d =
      ⟨.ok (), s.reporter, (s.facing source line).report d⟩ := by
    unfold Reporter.throw
    rw [hfatal, idle.clearAll source line]
    rfl
  unfold guarded
  simp only [stopped, reported, hthrow]

end

/-! ## Sessions between inputs -/

/-- The session waits for an input: what the next one brings is reported and not fatal. Of the
scopes, only the root is live, and whatever is stored in it was read from sources. -/
structure Ready (P : Position → Prop) (s : Session) : Prop where
  idle : s.Idle
  lenient : s.reporter.fatal = false
  wellScoped : WellScoped (Located P) s.scopes
  outline : s.scopes.outline = startStore.scopes.outline

def fresh (fatal color : Bool) (settings : Settings) : Session :=
  (start ⟨fatal, color, .empty⟩ shellPath true builtinFunctions settings none).state

theorem ready_fresh {P : Position → Prop} (fatal color : Bool) (settings : Settings) :
    (fresh fatal color settings).Ready P :=
  ⟨⟨rfl, rfl⟩, rfl, .builtins, rfl⟩

section

variable {P : Position → Prop} {s : Session}

/-- An input leaves the scopes of a session as orderly as it found them. -/
theorem Ready.scopes (ready : s.Ready P) {source : String}
    (tree : Located P (s.reading source).tree) :
    Ready P { s with scopes := (s.evaluation source).2.scopes } := by
  have steady : SteadyStore (Located P) s.scopes.outline (s.evaluation source).2 :=
    (evaluate_cases (s := ⟨s.scopes, ""⟩) ready.wellScoped tree).1
  exact ⟨⟨ready.idle.queue, ready.idle.sources⟩, ready.lenient, steady.2,
    steady.1.trans ready.outline⟩

end

end Session

end Scriptlet
