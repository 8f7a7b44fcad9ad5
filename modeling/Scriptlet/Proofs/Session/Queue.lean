import Scriptlet.Proofs.Session.Inputs

/-!
# The queue of a session

Inputs wait in a map from line numbers. As long as their numbers are distinct they are run once
each, in the order in which they were added. An input that is added under the number of another one
takes its place, and the other one is never run.
-/

namespace Scriptlet

/-! ## Writing many entries -/

namespace OrderedMap

variable {κ α : Type} [DecidableEq κ]

def setAll (m : OrderedMap κ α) (entries : List (κ × α)) : OrderedMap κ α :=
  entries.foldl (fun m entry => m.set entry.1 entry.2) m

@[simp] theorem setAll_nil (m : OrderedMap κ α) : m.setAll [] = m := rfl

@[simp] theorem setAll_cons (m : OrderedMap κ α) (entry : κ × α) (entries : List (κ × α)) :
    m.setAll (entry :: entries) = (m.set entry.1 entry.2).setAll entries := rfl

theorem eraseDups_of_nodup {ks : List κ} (h : ks.Nodup) : ks.eraseDups = ks := by
  induction ks with
  | nil => rfl
  | cons k ks ih =>
      obtain ⟨fresh, distinct⟩ := List.nodup_cons.mp h
      have others : ks.filter (fun k' => !k' == k) = ks := by
        refine List.filter_eq_self.mpr fun k' hk' => ?_
        simp only [Bool.not_eq_true', beq_eq_false_iff_ne]
        rintro rfl
        exact fresh hk'
      rw [List.eraseDups_cons, others, ih distinct]

theorem keys_setAll (m : OrderedMap κ α) (entries : List (κ × α)) :
    (m.setAll entries).keys = (m.keys ++ entries.map (·.1)).eraseDups := by
  induction entries generalizing m with
  | nil => rw [List.map_nil, List.append_nil, eraseDups_of_nodup m.nodup_keys, setAll_nil]
  | cons entry entries ih =>
      rw [setAll_cons, ih, List.map_cons]
      by_cases known : entry.1 ∈ m.keys
      · rw [m.keys_set_of_mem _ known, List.eraseDups_append, List.eraseDups_append,
          List.cons_removeAll, if_neg (by simpa using known)]
      · rw [m.keys_set_of_not_mem _ known, List.append_assoc, List.singleton_append]

theorem valueAmong?_append (key : κ) (first second : List (κ × α)) :
    valueAmong? key (first ++ second) = (valueAmong? key first).or (valueAmong? key second) := by
  induction first with
  | nil => rfl
  | cons entry first ih =>
      obtain ⟨k, a⟩ := entry
      by_cases hk : k = key
      · simp [valueAmong?, hk]
      · simp only [List.cons_append, valueAmong?, if_neg hk, ih]

theorem get?_setAll (m : OrderedMap κ α) (entries : List (κ × α)) (key : κ) :
    (m.setAll entries).get? key = (valueAmong? key entries.reverse).or (m.get? key) := by
  induction entries generalizing m with
  | nil => rfl
  | cons entry entries ih =>
      obtain ⟨k, a⟩ := entry
      rw [setAll_cons, ih, List.reverse_cons, valueAmong?_append, Option.or_assoc]
      congr 1
      by_cases hk : k = key
      · subst hk
        simp [m.get?_set_self k a, valueAmong?]
      · simp [m.get?_set_of_ne a (Ne.symm hk), valueAmong?, hk]

theorem entries_setAll {m : OrderedMap κ α} {entries : List (κ × α)}
    (h : (m.keys ++ entries.map (·.1)).Nodup) :
    (m.setAll entries).entries = m.entries ++ entries := by
  induction entries generalizing m with
  | nil => simp
  | cons entry entries ih =>
      have fresh : entry.1 ∉ m.keys := by
        intro known
        exact (List.nodup_append.mp h).2.2 _ known _ (by simp) rfl
      rw [setAll_cons, ih (by rw [m.keys_set_of_not_mem _ fresh]; simpa using h),
        m.entries_set_of_not_mem _ fresh]
      simp

end OrderedMap

namespace Session

/-! ## Adding inputs -/

def addAll (s : Session) (inputs : List (String × Int)) : Session :=
  inputs.foldl (fun s input => (s.add input.1 input.2).state) s

/-- The entries that adding inputs writes. An input whose tree cannot be shown is not queued. -/
def added (s : Session) (inputs : List (String × Int)) : List (Int × Queued) :=
  inputs.filterMap fun input =>
    (s.showing input.1).map fun _ => (input.2, ⟨input.1, (s.reading input.1).tree⟩)

theorem added_cons_of_not_showing {s : Session} {input : String × Int}
    (shown : s.showing input.1 = none) (inputs : List (String × Int)) :
    s.added (input :: inputs) = s.added inputs := by
  simp [added, shown]

theorem added_cons_of_shown {s : Session} {input : String × Int} {text : String}
    (shown : s.showing input.1 = some text) (inputs : List (String × Int)) :
    s.added (input :: inputs) =
      (input.2, ⟨input.1, (s.reading input.1).tree⟩) :: s.added inputs := by
  simp [added, shown]

theorem exists_reporter_addAll (s : Session) (inputs : List (String × Int)) :
    ∃ reporter, s.addAll inputs =
      { s with reporter := reporter, queue := s.queue.setAll (s.added inputs) } := by
  induction inputs generalizing s with
  | nil => exact ⟨s.reporter, rfl⟩
  | cons input inputs ih =>
      obtain ⟨reporter, hrest⟩ := ih (s.add input.1 input.2).state
      refine ⟨reporter, hrest.trans ?_⟩
      cases shown : s.showing input.1 with
      | none =>
          rw [add_of_not_showing shown, added_cons_of_not_showing shown]
          rfl
      | some text =>
          rw [add_of_shown shown, added_cons_of_shown shown]
          rfl

/-! ## Running what is queued -/

/-- What becomes of one queued input in the scopes that are there. -/
def outcomeIn (mode : Mode) (scopes : Scopes) (input : Queued) : Except Trouble Value × Store :=
  let result := evaluate mode input.tree Arena.rootHandle ⟨scopes, ""⟩
  (outcomeOf result.1, result.2)

/-- The entries are evaluated one after the other, each in the scopes that the one before it left.
Each gives one value. -/
inductive Evaluated (mode : Mode) :
    Scopes → List (Int × Queued) → List Value → Scopes → (output : String) → Prop where
  | nil (scopes : Scopes) : Evaluated mode scopes [] [] scopes ""
  | cons (line : Int) {scopes last : Scopes} {input : Queued} {entries : List (Int × Queued)}
      {value : Value} {values : List Value} {output : String}
      (first : (outcomeIn mode scopes input).1 = .ok value)
      (rest : Evaluated mode (outcomeIn mode scopes input).2.scopes entries values last output) :
      Evaluated mode scopes ((line, input) :: entries) (value :: values) last
        ((outcomeIn mode scopes input).2.output ++ output)

theorem runOne_of_value {s : Session} (line : Int) {input : Queued} {value : Value}
    (done : (outcomeIn s.settings.mode s.scopes input).1 = .ok value) :
    ∃ reporter, s.runOne line input =
      ⟨.ok (),
        { s with reporter := reporter, queue := s.queue.erase line,
                 scopes := (outcomeIn s.settings.mode s.scopes input).2.scopes,
                 results := s.results ++ [value] },
        (outcomeIn s.settings.mode s.scopes input).2.output⟩ := by
  unfold outcomeIn at done ⊢
  unfold runOne
  dsimp only at done ⊢
  rw [done]
  exact ⟨_, rfl⟩

theorem runOne_of_trouble {s : Session} (line : Int) {input : Queued} {trouble : Trouble}
    (failed : (outcomeIn s.settings.mode s.scopes input).1 = .error trouble) :
    ∃ reporter, s.runOne line input =
      ⟨.error trouble,
        { s with reporter := reporter, queue := s.queue.erase line,
                 scopes := (outcomeIn s.settings.mode s.scopes input).2.scopes },
        (outcomeIn s.settings.mode s.scopes input).2.output⟩ := by
  unfold outcomeIn at failed ⊢
  unfold runOne
  dsimp only at failed ⊢
  rw [failed]
  exact ⟨_, rfl⟩

/-- What comes of running a queue: every entry gave a value and none is left, or some entry gave
trouble. Then those before it gave values, it is gone, and those behind it still wait. -/
inductive Ran (s : Session) : Reply Session Unit → Prop where
  | all {values : List Value} {output : String} {after : Session}
      (evaluated : Evaluated s.settings.mode s.scopes s.queue.entries values after.scopes output)
      (queue : after.queue.entries = []) (results : after.results = s.results ++ values) :
      Ran s ⟨.ok (), after, output⟩
  | stopped {front back : List (Int × Queued)} {line : Int} {input : Queued} {values : List Value}
      {scopes : Scopes} {output : String} {trouble : Trouble} {after : Session}
      (entries : s.queue.entries = front ++ (line, input) :: back)
      (evaluated : Evaluated s.settings.mode s.scopes front values scopes output)
      (failed : (outcomeIn s.settings.mode scopes input).1 = .error trouble)
      (left : after.scopes = (outcomeIn s.settings.mode scopes input).2.scopes)
      (queue : after.queue.entries = back) (results : after.results = s.results ++ values) :
      Ran s ⟨.error trouble, after, output ++ (outcomeIn s.settings.mode scopes input).2.output⟩

theorem Ran.cons {s next : Session} {line : Int} {input : Queued} {rest : List (Int × Queued)}
    {value : Value} {reply : Reply Session Unit} (ran : next.Ran reply)
    (entries : s.queue.entries = (line, input) :: rest)
    (first : (outcomeIn s.settings.mode s.scopes input).1 = .ok value)
    (settings : next.settings = s.settings)
    (scopes : next.scopes = (outcomeIn s.settings.mode s.scopes input).2.scopes)
    (queue : next.queue.entries = rest) (results : next.results = s.results ++ [value]) :
    s.Ran { reply with
      output := (outcomeIn s.settings.mode s.scopes input).2.output ++ reply.output } := by
  cases ran with
  | all evaluated left gained =>
      rw [settings, scopes, queue] at evaluated
      have whole := Evaluated.cons line first evaluated
      rw [← entries] at whole
      exact .all whole left (by simp [gained, results])
  | stopped parted evaluated failed last left gained =>
      rw [settings, scopes] at evaluated
      rw [settings] at failed last ⊢
      rw [← String.append_assoc]
      rw [← queue, parted] at entries
      exact .stopped (entries.trans List.cons_append.symm) (.cons line first evaluated) failed last
        left (by simp [gained, results])

/-- The snapshot that is walked stays the queue: each entry is the first one when its turn comes. -/
theorem ran_runAll {entries : List (Int × Queued)} {s : Session} (h : s.queue.entries = entries) :
    s.Ran (runAll entries s) := by
  induction entries generalizing s with
  | nil => exact .all (h ▸ .nil s.scopes) h (List.append_nil _).symm
  | cons entry rest ih =>
      obtain ⟨line, input⟩ := entry
      have erased := OrderedMap.entries_erase_of_cons h
      cases outcome : (outcomeIn s.settings.mode s.scopes input).1 with
      | error trouble =>
          obtain ⟨reporter, hrun⟩ := runOne_of_trouble line outcome
          have silent : (outcomeIn s.settings.mode s.scopes input).2.output =
              "" ++ (outcomeIn s.settings.mode s.scopes input).2.output := String.empty_append.symm
          rw [runAll, hrun, silent]
          exact .stopped h (.nil s.scopes) outcome rfl erased (List.append_nil _).symm
      | ok value =>
          obtain ⟨reporter, hrun⟩ := runOne_of_value line outcome
          have later := @ih { s with
            reporter := reporter, queue := s.queue.erase line,
            scopes := (outcomeIn s.settings.mode s.scopes input).2.scopes,
            results := s.results ++ [value] } erased
          rw [runAll, hrun]
          exact later.cons h outcome rfl rfl erased rfl

/-- What becomes of the inputs that are added to a session, however it was used before. The queue
has one entry for each number, at the place where the number first arrived and with the input that
was added last under it. So inputs with distinct numbers wait in the order in which they were added.
A run evaluates the entries once each, in order, up to the first that gives trouble: those before it
add one result each, and those behind it wait for the next run. -/
theorem queue_runs_each_number_once (s : Session) (inputs : List (String × Int)) :
    (s.addAll inputs).results = s.results ∧ (s.addAll inputs).scopes = s.scopes ∧
      (s.addAll inputs).queue.keys = (s.queue.keys ++ (s.added inputs).map (·.1)).eraseDups ∧
      (∀ line, (s.addAll inputs).queue.get? line =
        (OrderedMap.valueAmong? line (s.added inputs).reverse).or (s.queue.get? line)) ∧
      ((s.queue.keys ++ (s.added inputs).map (·.1)).Nodup →
        (s.addAll inputs).queue.entries = s.queue.entries ++ s.added inputs) ∧
      (s.addAll inputs).Ran (s.addAll inputs).run := by
  have ran : (s.addAll inputs).Ran (s.addAll inputs).run := ran_runAll rfl
  obtain ⟨reporter, hadded⟩ := s.exists_reporter_addAll inputs
  refine ⟨by rw [hadded], by rw [hadded], ?_, fun line => ?_, fun fresh => ?_, ran⟩
  · rw [hadded]
    exact OrderedMap.keys_setAll _ _
  · rw [hadded]
    exact OrderedMap.get?_setAll _ _ line
  · rw [hadded]
    exact OrderedMap.entries_setAll fresh

/-- Of three inputs with distinct numbers the second has no value. The first leaves its result, and
the third still waits. -/
theorem queue_runs_each_number_once_of_three :
    ∃ s inputs, s = fresh true false { mode := { depth := 2 }, nesting := 1 } ∧
      inputs = [("true", 5), ("x", 2), ("nil", 9)] ∧
      (s.queue.keys ++ (s.added inputs).map (·.1)).Nodup ∧
      (s.addAll inputs).queue.entries = s.added inputs ∧
      (s.addAll inputs).Ran (s.addAll inputs).run ∧
      (s.addAll inputs).run.outcome =
        .error (.evaluation ⟨.undefinedVariable "x", some ⟨1, 1⟩⟩) ∧
      (s.addAll inputs).run.state.results = [.boolean true] ∧
      (s.addAll inputs).run.state.queue.entries.map (fun entry => (entry.1, entry.2.source)) =
        [(9, "nil")] := by
  let s := fresh true false { mode := { depth := 2 }, nesting := 1 }
  have distinct : (s.queue.keys ++
      (s.added [("true", 5), ("x", 2), ("nil", 9)]).map (·.1)).Nodup := by
    show [(5 : Int), 2, 9].Nodup
    decide
  obtain ⟨-, -, -, -, order, ran⟩ := queue_runs_each_number_once s
    [("true", 5), ("x", 2), ("nil", 9)]
  have entries : (s.addAll [("true", 5), ("x", 2), ("nil", 9)]).queue.entries =
      [(5, ⟨"true", .root [.boolean true (some ⟨1, 1⟩)] (some ⟨1, 1⟩)⟩),
       (2, ⟨"x", .root [.reference "x" (some ⟨1, 1⟩)] (some ⟨1, 1⟩)⟩),
       (9, ⟨"nil", .root [.nil (some ⟨1, 1⟩)] (some ⟨1, 1⟩)⟩)] := by
    rw [order distinct]
    simp only [added, showing, reading, List.filterMap]
    rw [show Utf8.encode "true" = [116, 114, 117, 101] by decide,
      show Utf8.encode "x" = [120] by decide, show Utf8.encode "nil" = [110, 105, 108] by decide]
    rfl
  obtain ⟨reporter, hadded⟩ := s.exists_reporter_addAll [("true", 5), ("x", 2), ("nil", 9)]
  refine ⟨s, _, rfl, rfl, distinct, order distinct, ran, ?_, ?_, ?_⟩
  · rw [run, entries, hadded]
    rfl
  · rw [run, entries, hadded]
    rfl
  · rw [run, entries, hadded]
    rfl

/-- Of two inputs that are added under one number, only the second is queued and run. -/
theorem queue_loses_input_of_same_number :
    ∃ s inputs, s = fresh true false { mode := { depth := 2 }, nesting := 1 } ∧
      inputs = [("true", 1), ("false", 1)] ∧
      (s.added inputs).map (fun entry => entry.2.source) = ["true", "false"] ∧
      (s.addAll inputs).queue.entries.map (fun entry => (entry.1, entry.2.source)) =
        [(1, "false")] ∧
      (s.addAll inputs).run.outcome = .ok () ∧
      (s.addAll inputs).run.state.results = [.boolean false] := by
  let s := fresh true false { mode := { depth := 2 }, nesting := 1 }
  have tree : (s.reading "false").tree =
      .root [.boolean false (some ⟨1, 1⟩)] (some ⟨1, 1⟩) := by
    rw [reading, show Utf8.encode "false" = [102, 97, 108, 115, 101] by decide]
    rfl
  obtain ⟨reporter, hadded⟩ := s.exists_reporter_addAll [("true", 1), ("false", 1)]
  have entries : (s.addAll [("true", 1), ("false", 1)]).queue.entries =
      [(1, ⟨"false", .root [.boolean false (some ⟨1, 1⟩)] (some ⟨1, 1⟩)⟩)] := by
    rw [hadded, ← tree]
    rfl
  refine ⟨s, _, rfl, rfl, rfl, by rw [entries]; rfl, ?_, ?_⟩
  · rw [run, entries, hadded]
    rfl
  · rw [run, entries, hadded]
    rfl

end Session

end Scriptlet
