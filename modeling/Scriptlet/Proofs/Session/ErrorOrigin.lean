import Mathlib.Logic.Equiv.Nat
import Scriptlet.Proofs.Session.Inputs

/-!
# Where the errors of a session come from

A function outlives the input that declares it, and so do the positions in its body. An error in
such a body belongs to the earlier input, although it is raised while a later one is run. To say
which input an error comes from, the inputs are moved about, each on its own: the place of the error
moves with one of them.

An error is always shown as if its position was one in the input that is being run. That is right
for errors that come from this input, and for no others in general.
-/

namespace Scriptlet

open Eval

/-! ## Moving trees -/

namespace Node

def relocated (f : Position → Position) : Node → Node := rebuild (Option.map f) id

theorem relocated_eq (f : Position → Position) (n : Node) :
    n.relocated f = n.mapParts (Option.map f) (relocated f) := rebuild_eq n

theorem position_relocated (f : Position → Position) (n : Node) :
    (n.relocated f).position = n.position.map f := by
  rw [relocated_eq, position_mapParts rfl]

theorem relocated_id (n : Node) : n.relocated id = n := by
  induction n using induction_children with
  | step n ih =>
      rw [relocated_eq, Option.map_id]
      exact mapParts_eq_self ih

end Node

/-! ## Moving the inputs of a run -/

def TokenOf (sources : List String) (k : Nat) (p : Position) : Prop :=
  ∃ source, sources[k]? = some source ∧
    ∃ t ∈ (Scan.ofBytes (Utf8.encode source)).tokens, t.position = p

/-- The same tree of the `k`-th source, moved in two ways. -/
def Moved (sources : List String) (a b : Nat → Position → Position) (n n' : Node) : Prop :=
  ∃ k tree, Located (TokenOf sources k) tree ∧ n = tree.relocated (a k) ∧ n' = tree.relocated (b k)

def MovedPlaces (sources : List String) (a b : Nat → Position → Position)
    (p p' : Option Position) : Prop :=
  ∃ k q, TokenOf sources k q ∧ p = some (a k q) ∧ p' = some (b k q)

section

variable {sources : List String} {a b : Nat → Position → Position}

def movedRuns (sources : List String) (a b : Nat → Position → Position) : Correspondence :=
  matchedRuns (Moved sources a b) (MovedPlaces sources a b) fun _ => False

theorem Located.movedPlaces {k : Nat} {n : Node} (located : Located (TokenOf sources k) n)
    {q : Option Position} (hq : q ∈ n.errorPlaces) :
    MovedPlaces sources a b (q.map (a k)) (q.map (b k)) := by
  obtain ⟨p, rfl, hp⟩ := located.places q hq
  exact ⟨k, p, hp, rfl, rfl⟩

theorem Located.moved {k : Nat} {n child : Node} (located : Located (TokenOf sources k) n)
    (hchild : child ∈ n.children) :
    Moved sources a b (child.relocated (a k)) (child.relocated (b k)) :=
  ⟨k, child, (located.children child hchild).located, rfl, rfl⟩

theorem movedRuns_alike {n n' : Node} (moved : Moved sources a b n n') :
    (movedRuns sources a b).Alike n n' := by
  obtain ⟨k, tree, located, rfl, rfl⟩ := moved
  rw [Node.relocated_eq, Node.relocated_eq]
  refine .mapParts (fun c hc => located.moved hc) (fun q hq => located.movedPlaces hq)
    (fun c hc => ?_) (fun _ _ _ _ => trivial) fun blank => absurd blank located.meaningful
  rw [Node.position_relocated, Node.position_relocated]
  exact located.movedPlaces hc

/-- An error with this cause that is raised while the `k`-th source is run may be placed there in
the `j`-th source: the error stands at a token, or if depth ran out, where the run began. -/
def ErrorPlace (sources : List String) (k : Nat) (tree : Node) (cause : EvalError.Cause) (j : Nat)
    (q : Option Position) : Prop :=
  (cause = .tooDeep ∧ j = k ∧ q = tree.position) ∨ ∃ p, q = some p ∧ TokenOf sources j p

/-- A run after the inputs were moved in one way comes out as after they were moved in another,
apart from positions. -/
theorem evaluate_moved (mode : Mode) {k : Nat} {tree : Node}
    (located : Located (TokenOf sources k) tree) (h : Handle) {s t : Store}
    (stores : s.Matched (Moved sources a b) t) :
    (evaluate mode (tree.relocated (a k)) h s).2.Matched (Moved sources a b)
        (evaluate mode (tree.relocated (b k)) h t).2 ∧
      ∀ e, (evaluate mode (tree.relocated (a k)) h s).1 = .error e →
        ∃ j q, ErrorPlace sources k tree e.cause j q ∧ e.position = q.map (a j) ∧
          (evaluate mode (tree.relocated (b k)) h t).1 = .error ⟨e.cause, q.map (b j)⟩ := by
  let S := Simulation.matchedRuns (Moved sources a b) (MovedPlaces sources a b) (fun _ => False) id
  have visits : (movedRuns sources a b).Visits (nested mode mode.depth) (nested mode mode.depth) :=
    S.visits_nested movedRuns_alike mode mode.depth
  have ends : (movedRuns sources a b).Ends [] Eq
      (nested mode mode.depth (tree.relocated (a k)) h s)
      (nested mode mode.depth (tree.relocated (b k)) h t) :=
    ends_of_visits visits ⟨k, tree, located, rfl, rfl⟩ stores h
  rw [evaluate_eq, evaluate_eq, Node.position_relocated, Node.position_relocated]
  generalize nested mode mode.depth (tree.relocated (a k)) h s = x at ends
  generalize nested mode mode.depth (tree.relocated (b k)) h t = y at ends
  cases ends with
  | done results stores =>
      refine ⟨stores.1, fun e he => ?_⟩
      cases he
  | gaveUp excuse left => exact excuse.elim
  | stopped stops stores =>
      refine ⟨stores.1, fun e he => ?_⟩
      cases stops with
      | failed places =>
          obtain ⟨j, p, hp, rfl, rfl⟩ := places
          cases he
          exact ⟨j, some p, .inr ⟨p, rfl, hp⟩, rfl, rfl⟩
      | tooDeep =>
          cases he
          exact ⟨k, tree.position, .inl ⟨rfl, rfl, rfl⟩, rfl, rfl⟩
      | returned | scopeFault | meaningless | tooLong => cases he

end

namespace Session

/-! ## Inputs in turn -/

def enterAll : List (String × Int) → Session → Session
  | [], s => s
  | (source, line) :: rest, s => enterAll rest (s.guarded (enter source line)).state

/-- The scopes that an input leaves. One that cannot be shown is not run. -/
def behind (s : Session) (source : String) : Scopes :=
  if (s.showing source).isSome then (s.evaluation source).2.scopes else s.scopes

section

variable {s : Session}

/-- Trouble that nothing in the language accounts for passes the guard, but it leaves the session
as other trouble does. -/
theorem settle_unfinished (r : Reporter) (lenient : r.fatal = false) :
    (r.settle (.fault .unfinished)).state = r.clearAll := by
  have readable : (Reporter.unknown .unfinished).isOk = true := by decide +kernel
  cases known : Reporter.unknown .unfinished with
  | error e =>
      rw [known] at readable
      cases readable
  | ok d => simp [Reporter.settle, known, Reporter.throw, lenient]

theorem Ready.enter (ready : s.Ready fun _ => True) (source : String) (line : Int) :
    ∃ results, (s.guarded (enter source line)).state =
        { s with scopes := s.behind source, results := results } ∧
      (s.guarded (enter source line)).state.Ready fun _ => True := by
  have idle := ready.idle
  have tree : Located (fun _ => True) (s.reading source).tree :=
    (located_tree (List.mem_singleton_self _) _).imp fun _ _ => trivial
  have after := ready.scopes tree
  cases shown : s.showing source with
  | none =>
      have stopped : s.enter source line = _ := enter_of_not_showing shown
      rw [guarded_of_report idle ready.lenient stopped rfl, behind, shown]
      exact ⟨s.results, rfl, ready⟩
  | some text =>
      have scopes : s.behind source = (s.evaluation source).2.scopes := by
        rw [behind, shown]
        rfl
      rw [scopes]
      rcases (evaluate_cases (s := ⟨s.scopes, ""⟩) ready.wellScoped tree).2 with
        long | ⟨v, value⟩ | ⟨e, failed, -⟩
      · have trouble : outcomeOf (s.evaluation source).1 = .error (.fault .unfinished) := by
          rw [evaluation, long]
          rfl
        have entered : s.enter source line = _ := enter_of_trouble idle shown trouble
        have state : (s.guarded (Session.enter source line)).state =
            { s with scopes := (s.evaluation source).2.scopes } := by
          have settled := settle_unfinished (s.facing source line) ready.lenient
          rw [idle.clearAll source line] at settled
          unfold guarded
          rw [entered]
          dsimp only
          cases ((s.facing source line).settle (.fault .unfinished)).outcome with
          | ok done => rw [settled]
          | error trouble => rw [settled]
        rw [state]
        exact ⟨s.results, rfl, after⟩
      · have done : outcomeOf (s.evaluation source).1 = .ok v := by
          rw [evaluation, value]
          rfl
        have entered : s.enter source line = _ := enter_of_value idle shown done
        refine ⟨s.results ++ [v], ?_⟩
        unfold guarded
        rw [entered]
        exact ⟨rfl, ⟨idle.queue, idle.sources⟩, ready.lenient, after.wellScoped, after.outline⟩
      · have trouble : outcomeOf (s.evaluation source).1 = .error (.evaluation e) := by
          rw [evaluation, failed]
          rfl
        have entered : s.enter source line = _ := enter_of_trouble idle shown trouble
        rw [guarded_of_report idle ready.lenient entered rfl]
        exact ⟨s.results, rfl, after⟩

end

/-! ## Moved inputs in turn -/

def movedEvaluation (s : Session) (move : Position → Position) (source : String)
    (scopes : Scopes) : Verdict × Store :=
  evaluate s.settings.mode ((s.reading source).tree.relocated move) Arena.rootHandle ⟨scopes, ""⟩

/-- The scopes behind inputs whose trees were moved, each in its own way, counted from `k`. -/
def movedScopes (s : Session) (move : Nat → Position → Position) :
    (k : Nat) → List (String × Int) → Scopes → Scopes
  | _, [], scopes => scopes
  | k, (source, _) :: rest, scopes =>
      movedScopes s move (k + 1) rest
        (if (s.showing source).isSome then (s.movedEvaluation (move k) source scopes).2.scopes
         else scopes)

/-- The error comes from the `k`-th of the inputs that end with `source`: wherever the inputs are
moved, the place of the error moves with this one. -/
def ComesFrom (s : Session) (earlier : List (String × Int)) (source : String) (k : Nat)
    (e : EvalError) : Prop :=
  ∀ move : Nat → Position → Position,
    (s.movedEvaluation (move earlier.length) source (s.movedScopes move 0 earlier s.scopes)).1 =
      .error ⟨e.cause, e.position.map (move k)⟩

section

variable {s : Session}

theorem movedEvaluation_id (source : String) :
    s.movedEvaluation id source s.scopes = s.evaluation source := by
  unfold movedEvaluation
  rw [Node.relocated_id]
  rfl

theorem movedScopes_congr {t : Session} (same : t.settings = s.settings)
    (move : Nat → Position → Position) (k : Nat) (inputs : List (String × Int)) (scopes : Scopes) :
    t.movedScopes move k inputs scopes = s.movedScopes move k inputs scopes := by
  induction inputs generalizing k scopes with
  | nil => rfl
  | cons input rest ih =>
      have read : t.reading input.1 = s.reading input.1 := by rw [reading, same]; rfl
      have shown : t.showing input.1 = s.showing input.1 := by rw [showing, read, same]; rfl
      simp only [movedScopes, movedEvaluation, read, shown, same, ih]

theorem Ready.enterAll (ready : s.Ready fun _ => True) (k : Nat) (inputs : List (String × Int)) :
    ∃ results, Session.enterAll inputs s =
        { s with scopes := s.movedScopes (fun _ => id) k inputs s.scopes, results := results } ∧
      (Session.enterAll inputs s).Ready fun _ => True := by
  induction inputs generalizing s k with
  | nil => exact ⟨s.results, rfl, ready⟩
  | cons input rest ih =>
      obtain ⟨source, line⟩ := input
      obtain ⟨first, state, next⟩ := ready.enter source line
      obtain ⟨results, others, last⟩ := ih next (k + 1)
      refine ⟨results, ?_, last⟩
      have scopes : (s.guarded (Session.enter source line)).state.scopes =
          if (s.showing source).isSome then (s.movedEvaluation id source s.scopes).2.scopes
          else s.scopes := by
        rw [state, movedEvaluation_id]
        rfl
      have settings : (s.guarded (Session.enter source line)).state.settings = s.settings := by
        rw [state]
      show Session.enterAll rest _ = _
      rw [others, movedScopes_congr settings, scopes, state]
      rfl

/-- What becomes of the next input is what becomes of it if no input is moved. -/
theorem Ready.evaluation_enterAll (ready : s.Ready fun _ => True) (inputs : List (String × Int))
    (source : String) :
    (Session.enterAll inputs s).path = s.path ∧
      (Session.enterAll inputs s).showing source = s.showing source ∧
      (Session.enterAll inputs s).evaluation source =
        s.movedEvaluation id source (s.movedScopes (fun _ => id) 0 inputs s.scopes) := by
  obtain ⟨results, state, -⟩ := ready.enterAll 0 inputs
  rw [← movedEvaluation_id, state]
  exact ⟨rfl, rfl, rfl⟩

/-! ## The input that an error comes from -/

theorem located_reading {sources : List String} {k : Nat} {source : String}
    (known : sources[k]? = some source) :
    Located (TokenOf sources k) (s.reading source).tree := by
  apply (located_tree (List.mem_singleton_self _) _).imp
  intro p hp
  obtain ⟨bytes, hbytes, t, ht, rfl⟩ := hp
  cases List.mem_singleton.mp hbytes
  exact ⟨source, known, t, ht, rfl⟩

theorem matched_movedScopes (s : Session) {sources : List String}
    {a b : Nat → Position → Position} {k : Nat} {inputs : List (String × Int)} {x y : Scopes}
    (known : ∀ i input, inputs[i]? = some input → sources[k + i]? = some input.1)
    (matched : x.Matched (Function.Matched (Moved sources a b)) y) :
    (s.movedScopes a k inputs x).Matched (Function.Matched (Moved sources a b))
      (s.movedScopes b k inputs y) := by
  induction inputs generalizing k x y with
  | nil => exact matched
  | cons input rest ih =>
      have later : ∀ i next, rest[i]? = some next → sources[k + 1 + i]? = some next.1 := by
        intro i next hi
        rw [Nat.add_assoc, Nat.add_comm 1 i]
        exact known (i + 1) next hi
      apply ih later
      cases (s.showing input.1).isSome with
      | false => exact matched
      | true =>
          have first := located_reading (s := s) (known 0 input rfl)
          have stores : Store.Matched (Moved sources a b) ⟨x, ""⟩ ⟨y, ""⟩ := ⟨matched, rfl⟩
          exact (evaluate_moved s.settings.mode first Arena.rootHandle stores).1.scopes

/-- Positions of different inputs, and different positions of one, are kept apart. -/
def tagged (k : Nat) (p : Position) : Position := ⟨p.line, Nat.pair k (Equiv.intEquivNat p.column)⟩

theorem tagged_inj {j k : Nat} {p q : Position} (h : tagged j p = tagged k q) : j = k ∧ p = q := by
  have ⟨line, column⟩ := Position.mk.inj h
  have ⟨number, code⟩ := Nat.pair_eq_pair.mp (Int.ofNat.inj column)
  refine ⟨number, ?_⟩
  cases p
  cases q
  rw [Position.mk.injEq]
  exact ⟨line, Equiv.intEquivNat.injective code⟩

/-- An error after the inputs were moved in one way is there after they were moved in another. -/
theorem movedEvaluation_error (s : Session) (start : s.scopes = startStore.scopes)
    (earlier : List (String × Int)) (source : String) (a b : Nat → Position → Position)
    {e : EvalError}
    (failed : (s.movedEvaluation (a earlier.length) source
      (s.movedScopes a 0 earlier s.scopes)).1 = .error e) :
    ∃ j q, ErrorPlace (earlier.map (·.1) ++ [source]) earlier.length (s.reading source).tree
        e.cause j q ∧
      e.position = q.map (a j) ∧
      (s.movedEvaluation (b earlier.length) source (s.movedScopes b 0 earlier s.scopes)).1 =
        .error ⟨e.cause, q.map (b j)⟩ := by
  have known : ∀ i input, earlier[i]? = some input →
      (earlier.map (·.1) ++ [source])[0 + i]? = some input.1 := by
    intro i input hi
    have inside : i < (earlier.map (·.1)).length := by
      rw [List.length_map]
      exact (List.getElem?_eq_some_iff.mp hi).1
    rw [Nat.zero_add, List.getElem?_append_left inside, List.getElem?_map, hi]
    rfl
  have last : (earlier.map (·.1) ++ [source])[earlier.length]? = some source := by
    rw [List.getElem?_append_right (by rw [List.length_map]), List.length_map, Nat.sub_self]
    rfl
  have builtins : startStore.Matched (Moved (earlier.map (·.1) ++ [source]) a b) startStore :=
    Store.matched_self fun body hbody => by cases hbody
  have scopes := matched_movedScopes s known (start ▸ builtins.scopes)
  have stores : Store.Matched (Moved (earlier.map (·.1) ++ [source]) a b)
      ⟨s.movedScopes a 0 earlier s.scopes, ""⟩ ⟨s.movedScopes b 0 earlier s.scopes, ""⟩ :=
    ⟨scopes, rfl⟩
  exact (evaluate_moved s.settings.mode (located_reading last) Arena.rootHandle stores).2 e failed

theorem exists_comesFrom (s : Session) (start : s.scopes = startStore.scopes)
    (earlier : List (String × Int)) (source : String) {e : EvalError}
    (failed : (s.movedEvaluation id source
      (s.movedScopes (fun _ => id) 0 earlier s.scopes)).1 = .error e) :
    ∃ k, ErrorPlace (earlier.map (·.1) ++ [source]) earlier.length (s.reading source).tree
        e.cause k e.position ∧
      s.ComesFrom earlier source k e := by
  have tagging := movedEvaluation_error s start earlier source (fun _ => id) tagged failed
  obtain ⟨k, q, place, position, failedTagged⟩ := tagging
  rw [Option.map_id_apply] at position
  subst position
  refine ⟨k, place, fun move => ?_⟩
  -- The tag tells which input and which position of it the second run is about.
  obtain ⟨j, r, -, tag, failedMoved⟩ :=
    movedEvaluation_error s start earlier source tagged move failedTagged
  have same : r.map (move j) = e.position.map (move k) := by
    cases hp : e.position with
    | none =>
        rw [hp] at tag
        rw [Option.map_eq_none_iff.mp tag.symm]
        rfl
    | some p =>
        rw [hp] at tag
        obtain ⟨p', rfl, hp'⟩ := Option.map_eq_some_iff.mp tag.symm
        obtain ⟨rfl, rfl⟩ := tagged_inj hp'
        rfl
  rw [failedMoved, same]

theorem ComesFrom.unique {earlier : List (String × Int)} {source : String} {j k : Nat}
    {e : EvalError} (first : s.ComesFrom earlier source j e)
    (second : s.ComesFrom earlier source k e) {p : Position} (position : e.position = some p) :
    j = k := by
  have same := (first tagged).symm.trans (second tagged)
  rw [position] at same
  simp only [Verdict.error.injEq, EvalError.mk.injEq, Option.map_some, Option.some.injEq] at same
  exact (tagged_inj same.2).1

/-! ## What is shown -/

/-- How a position in an input is shown: with the number of its line, and with that line. -/
def placeIn (path : String) (input : String × Int) (p : Position) : String × Option String :=
  (path ++ ":" ++ toString (Excerpt.lineNumber ⟨input.1, some input.2⟩ p.line) ++ ":" ++
      toString p.column ++ ": ",
    Excerpt.line? ⟨input.1, some input.2⟩ p.line)

theorem Idle.location (idle : s.Idle) (source : String) (line : Int) (p : Position) :
    (s.facing source line).location (some p) = placeIn s.path (source, line) p := by
  unfold Reporter.location
  rw [idle.registerText source line]
  rfl

theorem evaluation_of_enter (idle : s.Idle) {source : String} {line : Int} {e : EvalError}
    (failed : (s.enter source line).outcome = .error (.evaluation e)) :
    (s.evaluation source).1 = .error e ∧
      s.enter source line =
        ⟨.error (.evaluation e),
          { s with reporter := s.facing source line, scopes := (s.evaluation source).2.scopes },
          (s.enter source line).output⟩ := by
  cases shown : s.showing source with
  | none =>
      rw [enter_of_not_showing shown] at failed
      cases failed
  | some text =>
      cases verdict : outcomeOf (s.evaluation source).1 with
      | ok v =>
          rw [enter_of_value idle shown verdict] at failed
          cases failed
      | error trouble =>
          have entered : s.enter source line = _ := enter_of_trouble idle shown verdict
          rw [entered] at failed
          cases failed
          refine ⟨?_, by rw [entered]⟩
          generalize (s.evaluation source).1 = v at verdict
          cases v <;> cases verdict
          rfl

end

/-- Where an error is shown, for every sequence of inputs. The error comes from one of them, and it
stands at a token of that input, unless depth ran out. What is shown with it is the line that has
its number in the input that is being run, so the right line if the error comes from there. -/
theorem eval_error_shown_in_running_input (fatal color : Bool) (settings : Settings)
    (earlier : List (String × Int)) (source : String) (line : Int) (e : EvalError)
    (failed : ((enterAll earlier (fresh fatal color settings)).enter source line).outcome =
      .error (.evaluation e)) :
    let s := enterAll earlier (fresh fatal color settings)
    (s.guarded (enter source line)).output =
        (s.enter source line).output ++ (s.facing source line).report e.diagnostic ∧
      ∃ k input, (earlier ++ [(source, line)])[k]? = some input ∧
        (fresh fatal color settings).ComesFrom earlier source k e ∧
        (∀ j, (fresh fatal color settings).ComesFrom earlier source j e →
          e.position ≠ none → j = k) ∧
        (e.cause = .tooDeep ∧ k = earlier.length ∨
          ∃ t ∈ (Scan.ofBytes (Utf8.encode input.1)).tokens, e.position = some t.position) ∧
        ∀ p, e.position = some p →
          (s.facing source line).location e.diagnostic.position =
              placeIn shellPath (source, line) p ∧
            (k = earlier.length → (s.facing source line).location e.diagnostic.position =
              placeIn shellPath input p) := by
  intro s
  obtain ⟨-, -, ready⟩ := (ready_fresh fatal color settings).enterAll 0 earlier
  obtain ⟨path, -, evaluation⟩ :=
    (ready_fresh fatal color settings).evaluation_enterAll earlier source
  obtain ⟨verdict, entered⟩ := evaluation_of_enter ready.idle failed
  have guarded := guarded_of_report ready.idle ready.lenient entered rfl
  rw [evaluation] at verdict
  obtain ⟨k, place, comes⟩ := exists_comesFrom _ rfl earlier source verdict
  have shown : ∀ p, e.position = some p →
      (s.facing source line).location e.diagnostic.position =
        placeIn shellPath (source, line) p := by
    intro p position
    rw [show e.diagnostic.position = some p from position, ready.idle.location, path]
    rfl
  refine ⟨congrArg Reply.output guarded, ?_⟩
  have unique : ∀ j, (fresh fatal color settings).ComesFrom earlier source j e →
      e.position ≠ none → j = k := by
    intro j other placed
    obtain ⟨p, position⟩ := Option.ne_none_iff_exists'.mp placed
    exact other.unique comes position
  have last : (earlier ++ [(source, line)])[earlier.length]? = some (source, line) := by simp
  rcases place with ⟨deep, rfl, -⟩ | ⟨p, position, source', known, t, ht, rfl⟩
  · exact ⟨_, _, last, comes, unique, .inl ⟨deep, rfl⟩,
      fun p hp => ⟨shown p hp, fun _ => shown p hp⟩⟩
  · have inputs : earlier.map (·.1) ++ [source] = (earlier ++ [(source, line)]).map (·.1) := by simp
    rw [inputs, List.getElem?_map] at known
    obtain ⟨input, hinput, rfl⟩ := Option.map_eq_some_iff.mp known
    refine ⟨k, input, hinput, comes, unique, .inr ⟨t, ht, position⟩, fun p hp => ⟨shown p hp, ?_⟩⟩
    rintro rfl
    rw [last] at hinput
    cases hinput
    exact shown p hp

/-- The second line of an input that was entered as line 7, behind one that the first line of it
depends on. -/
theorem eval_error_shown_in_second_line :
    let settings : Settings := { mode := { depth := 6 }, nesting := 5 }
    let assignment : String × Int := ("x = nil", 1)
    let s := enterAll [assignment] (fresh true false settings)
    let e : EvalError := ⟨.undefinedVariable "y", some ⟨2, 1⟩⟩
    (s.enter "x,\ny" 7).outcome = .error (.evaluation e) ∧
      (fresh true false settings).ComesFrom [assignment] "x,\ny" 1 e ∧
      (s.facing "x,\ny" 7).location e.diagnostic.position = ("<in>:8:1: ", some "y") := by
  intro settings assignment s e
  have first : ((fresh true false settings).reading "x = nil").tree =
      .root [.assign "x" (.nil (some ⟨1, 5⟩)) false (some ⟨1, 1⟩)] (some ⟨1, 1⟩) := by
    rw [reading, show Utf8.encode "x = nil" = [120, 32, 61, 32, 110, 105, 108] by decide]
    rfl
  have second : ((fresh true false settings).reading "x,\ny").tree =
      .root [.reference "x" (some ⟨1, 1⟩), .reference "y" (some ⟨2, 1⟩)] (some ⟨1, 1⟩) := by
    rw [reading, show Utf8.encode "x,\ny" = [120, 44, 10, 121] by decide]
    rfl
  have comes : (fresh true false settings).ComesFrom [assignment] "x,\ny" 1 e := by
    intro move
    have shown : ((fresh true false settings).showing "x = nil").isSome = true := rfl
    unfold assignment
    simp only [movedScopes, movedEvaluation, first, second, shown, if_true]
    rfl
  obtain ⟨-, -, ready⟩ := (ready_fresh true false settings).enterAll 0 [assignment]
  obtain ⟨-, shown, evaluation⟩ :=
    (ready_fresh true false settings).evaluation_enterAll [assignment] "x,\ny"
  have verdict : (s.evaluation "x,\ny").1 = .error e :=
    (congrArg Prod.fst evaluation).trans (comes fun _ => id)
  have failed : (s.enter "x,\ny" 7).outcome = .error (.evaluation e) := by
    rw [enter_of_trouble ready.idle shown (congrArg outcomeOf verdict)]
  have ⟨_, k, input, known, _, unique, _, place⟩ :=
    eval_error_shown_in_running_input true false settings [assignment] "x,\ny" 7 e failed
  have last : 1 = k := unique 1 comes (Option.some_ne_none _)
  subst last
  cases known
  refine ⟨failed, comes, ((place ⟨2, 1⟩ rfl).2 rfl).trans ?_⟩
  decide +kernel

/-- An error in a function that an earlier input declares is shown in the input that calls it. -/
theorem eval_error_shown_in_wrong_input :
    let settings : Settings := { mode := { depth := 6 }, nesting := 5 }
    let declaration : String × Int := ("fn f(): x;", 1)
    let s := enterAll [declaration] (fresh true false settings)
    let e : EvalError := ⟨.undefinedVariable "x", some ⟨1, 9⟩⟩
    (s.enter "f()" 2).outcome = .error (.evaluation e) ∧
      (fresh true false settings).ComesFrom [declaration] "f()" 0 e ∧
      (s.facing "f()" 2).location e.diagnostic.position = ("<in>:2:9: ", some "f()") ∧
      placeIn shellPath declaration ⟨1, 9⟩ = ("<in>:1:9: ", some "fn f(): x;") := by
  intro settings declaration s e
  have first : ((fresh true false settings).reading "fn f(): x;").tree =
      .root [.function "f" [] (.block [.reference "x" (some ⟨1, 9⟩)] (some ⟨1, 9⟩)) (some ⟨1, 1⟩)]
        (some ⟨1, 1⟩) := by
    rw [reading, show Utf8.encode "fn f(): x;" = [102, 110, 32, 102, 40, 41, 58, 32, 120, 59] by
      decide]
    rfl
  have second : ((fresh true false settings).reading "f()").tree =
      .root [.call "f" [] (some ⟨1, 1⟩)] (some ⟨1, 1⟩) := by
    rw [reading, show Utf8.encode "f()" = [102, 40, 41] by decide]
    rfl
  have comes : (fresh true false settings).ComesFrom [declaration] "f()" 0 e := by
    intro move
    have shown : ((fresh true false settings).showing "fn f(): x;").isSome = true := rfl
    unfold declaration
    simp only [movedScopes, movedEvaluation, first, second, shown, if_true]
    rfl
  obtain ⟨-, -, ready⟩ := (ready_fresh true false settings).enterAll 0 [declaration]
  obtain ⟨path, shown, evaluation⟩ :=
    (ready_fresh true false settings).evaluation_enterAll [declaration] "f()"
  have verdict : (s.evaluation "f()").1 = .error e :=
    (congrArg Prod.fst evaluation).trans (comes fun _ => id)
  refine ⟨?_, comes, ?_, by decide +kernel⟩
  · rw [enter_of_trouble ready.idle shown (congrArg outcomeOf verdict)]
  · rw [show e.diagnostic.position = some ⟨1, 9⟩ from rfl, ready.idle.location, path]
    decide +kernel

end Session

end Scriptlet
