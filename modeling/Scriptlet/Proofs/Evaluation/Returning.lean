import Scriptlet.Proofs.Evaluation.MatchedRuns

/-!
# Where a return goes

A `ret` stops the evaluation with a value on its way. Every node that is open around it passes the
stop on without doing anything further, apart from a block, which closes its scope. The stop ends at
the call whose function is running, or else with the tree: `Returns` follows it node by node, and
goes into no function.
-/

namespace Scriptlet

namespace Eval

variable {α β : Type}

/-- The computation stops with a value on its way to the nearest call. -/
def Unwinds (m : Eval α) (s : Store) (v : Value) (t : Store) : Prop :=
  m s = (.stopped (.returned v), t)

variable {s t : Store} {v : Value}

theorem unwinds_of_outcome {m : Eval α} (h : (m s).1 = .stopped (.returned v)) :
    m.Unwinds s v (m s).2 :=
  Prod.ext h rfl

theorem bind_unwinds_iff {m : Eval α} {f : α → Eval β} :
    (m >>= f).Unwinds s v t ↔
      m.Unwinds s v t ∨ ∃ a s', m s = (.done a, s') ∧ (f a).Unwinds s' v t := by
  unfold Unwinds
  generalize hm : m s = x
  obtain ⟨outcome, s'⟩ := x
  cases outcome with
  | done a =>
      rw [bind_of_done hm]
      constructor
      · exact fun second => .inr ⟨a, s', rfl, second⟩
      · rintro (first | ⟨_, _, first, second⟩)
        · cases first
        · cases first
          exact second
  | stopped why =>
      rw [bind_of_stopped hm]
      constructor
      · intro first
        cases first
        exact .inl rfl
      · rintro (first | ⟨_, _, first, _⟩)
        · cases first
          rfl
        · cases first

theorem bind_unwinds_iff_left {m : Eval α} {f : α → Eval β}
    (second : ∀ a s', ¬ (f a).Unwinds s' v t) : (m >>= f).Unwinds s v t ↔ m.Unwinds s v t := by
  rw [bind_unwinds_iff]
  exact or_iff_left fun ⟨a, s', _, later⟩ => second a s' later

theorem not_unwinds_pure (a : α) : ¬ (Pure.pure a : Eval α).Unwinds s v t := nofun

theorem not_unwinds_fail (cause : EvalError.Cause) (position : Option Position) :
    ¬ (fail cause position : Eval α).Unwinds s v t := nofun

theorem query_of_ok {ask : Scopes → Except Arena.Fault α} {fault : Arena.Fault → Stop} {a : α}
    (h : ask s.scopes = .ok a) : query ask fault s = (.done a, s) := by
  simp only [query, h]

theorem query_of_error {ask : Scopes → Except Arena.Fault α} {fault : Arena.Fault → Stop}
    {e : Arena.Fault} (h : ask s.scopes = .error e) :
    query ask fault s = (.stopped (fault e), s) := by
  simp only [query, h]

theorem not_unwinds_query {ask : Scopes → Except Arena.Fault α} {fault : Arena.Fault → Stop}
    (h : ∀ e, fault e ≠ .returned v) : ¬ (query ask fault).Unwinds s v t := by
  unfold Unwinds
  cases hask : ask s.scopes with
  | ok a =>
      rw [query_of_ok hask]
      nofun
  | error e =>
      rw [query_of_error hask]
      exact fun stopped => h e (Outcome.stopped.inj (Prod.mk.inj stopped).1)

theorem not_unwinds_update (action : Arena.Action Value Function α) :
    ¬ (update action).Unwinds s v t := by
  unfold Unwinds update
  split <;> nofun

theorem inChild_of_discard {parent child : Handle} {work : Handle → Eval α} {scopes : Scopes}
    {outcome : Outcome α} {t' : Store}
    (entered : Arena.extend parent s.scopes = (.ok child, scopes))
    (result : work child { s with scopes := scopes } = (outcome, t))
    (closed : discard child t = (.done (), t')) : inChild parent work s = (outcome, t') := by
  rw [inChild_of_extend entered, result]
  simp only [closed]

theorem inChild_unwinds_iff {parent : Handle} {work : Handle → Eval α} :
    (inChild parent work).Unwinds s v t ↔
      ∃ child scopes t', Arena.extend parent s.scopes = (.ok child, scopes) ∧
        (work child).Unwinds { s with scopes := scopes } v t' ∧
        discard child t' = (.done (), t) := by
  unfold Unwinds
  cases live : s.scopes.contains parent with
  | false =>
      have hextend := Arena.extend_of_dead live
      rw [inChild_of_fault hextend]
      constructor
      · nofun
      · rintro ⟨_, _, _, entered, _⟩
        rw [hextend] at entered
        cases entered
  | true =>
      obtain ⟨_, hparent⟩ := Arena.contains_iff.mp live
      have hextend := Arena.extend_of_live hparent
      constructor
      · intro run
        rw [inChild_of_extend hextend] at run
        generalize hwork : work s.scopes.next { s with scopes := _ } = x at run
        obtain ⟨outcome, t'⟩ := x
        generalize hleave : discard s.scopes.next t' = y at run
        obtain ⟨left, t''⟩ := y
        cases left with
        | done _ =>
            cases run
            exact ⟨_, _, t', hextend, hwork, hleave⟩
        | stopped why =>
            cases run
            exact absurd hleave (not_unwinds_update _)
      · rintro ⟨_, _, _, entered, run, left⟩
        exact inChild_of_discard entered run left

theorem not_unwinds_catchReturn (work : Eval Value) : ¬ (catchReturn work).Unwinds s v t := by
  unfold Unwinds catchReturn
  split
  · nofun
  · rename_i other
    intro run
    exact other _ _ run

/-! ## Loops over nodes -/

theorem bind_eq_done_iff {m : Eval α} {f : α → Eval β} {b : β} :
    (m >>= f) s = (.done b, t) ↔ ∃ a s', m s = (.done a, s') ∧ f a s' = (.done b, t) := by
  generalize hm : m s = x
  obtain ⟨outcome, s'⟩ := x
  cases outcome with
  | done a =>
      rw [bind_of_done hm]
      constructor
      · exact fun second => ⟨a, s', rfl, second⟩
      · rintro ⟨_, _, first, second⟩
        cases first
        exact second
  | stopped why =>
      rw [bind_of_stopped hm]
      constructor
      · nofun
      · rintro ⟨_, _, first, _⟩
        cases first

theorem bind_assoc {γ : Type} (m : Eval α) (f : α → Eval β) (k : β → Eval γ) :
    (m >>= f) >>= k = m >>= fun a => f a >>= k := by
  funext s
  generalize hm : m s = x
  obtain ⟨outcome, s'⟩ := x
  cases outcome with
  | done a =>
      rw [bind_of_done hm]
      change Eval.bind (m >>= f) k s = Eval.bind (f a) k s'
      unfold Eval.bind
      rw [bind_of_done hm]
  | stopped why => rw [bind_of_stopped hm, bind_of_stopped (bind_of_stopped hm)]

section

variable {visit : Visit} {h : Handle}

theorem sequence_append (value : Value) (xs ys : List Node) :
    sequence visit h value (xs ++ ys) =
      sequence visit h value xs >>= fun last => sequence visit h last ys := by
  induction xs generalizing value with
  | nil => rfl
  | cons x xs ih =>
      change (visit x h >>= fun a => sequence visit h a (xs ++ ys)) =
        (visit x h >>= fun a => sequence visit h a xs) >>= _
      rw [bind_assoc]
      simp only [ih]

theorem sequence_unwinds_iff {value : Value} {xs : List Node} :
    (sequence visit h value xs).Unwinds s v t ↔
      ∃ before x after a s', xs = before ++ x :: after ∧
        sequence visit h value before s = (.done a, s') ∧ (visit x h).Unwinds s' v t := by
  constructor
  · induction xs generalizing value s with
    | nil => nofun
    | cons x xs ih =>
        intro run
        rcases bind_unwinds_iff.mp run with first | ⟨a, s', first, later⟩
        · exact ⟨[], x, xs, value, s, rfl, rfl, first⟩
        · obtain ⟨before, y, after, b, s'', rfl, earlier, last⟩ := ih later
          exact ⟨x :: before, y, after, b, s'', rfl, (bind_of_done first).trans earlier, last⟩
  · rintro ⟨before, x, after, a, s', rfl, earlier, last⟩
    rw [sequence_append]
    exact bind_unwinds_iff.mpr (.inr ⟨a, s', earlier, bind_unwinds_iff.mpr (.inl last)⟩)

theorem arguments_unwinds_iff {xs : List Node} :
    (arguments visit h xs).Unwinds s v t ↔
      ∃ before x after as s', xs = before ++ x :: after ∧
        arguments visit h before s = (.done as, s') ∧ (visit x h).Unwinds s' v t := by
  constructor
  · induction xs generalizing s with
    | nil => nofun
    | cons x xs ih =>
        intro run
        rcases bind_unwinds_iff.mp run with first | ⟨a, s', first, rest⟩
        · exact ⟨[], x, xs, [], s, rfl, rfl, first⟩
        · rcases bind_unwinds_iff.mp rest with later | ⟨_, _, _, none⟩
          · obtain ⟨before, y, after, as, s'', rfl, earlier, last⟩ := ih later
            exact ⟨x :: before, y, after, a :: as, s'', rfl,
              (bind_of_done first).trans (bind_of_done earlier), last⟩
          · exact absurd none (not_unwinds_pure _)
  · rintro ⟨before, x, after, as, s', rfl, earlier, last⟩
    induction before generalizing s as with
    | nil =>
        cases earlier
        exact bind_unwinds_iff.mpr (.inl last)
    | cons y before ih =>
        obtain ⟨a, s₁, first, rest⟩ := bind_eq_done_iff.mp earlier
        obtain ⟨bs, s₂, middle, hpure⟩ := bind_eq_done_iff.mp rest
        cases hpure
        have later := ih bs middle
        exact bind_unwinds_iff.mpr (.inr ⟨a, s₁, first, bind_unwinds_iff.mpr (.inl later)⟩)

end

/-- The loop goes round the given number of times. -/
inductive Rounds (condition : Eval Bool) (body : Eval Value) : Nat → Store → Store → Prop where
  | none (s : Store) : Rounds condition body 0 s s
  | more {count : Nat} {s s' s'' t : Store} {a : Value} (holds : condition s = (.done true, s'))
      (work : body s' = (.done a, s'')) (rest : Rounds condition body count s'' t) :
      Rounds condition body (count + 1) s t

theorem repeatWhile_unwinds_iff {condition : Eval Bool} {body : Eval Value} {rounds : Nat} :
    Unwinds (repeatWhile condition body rounds) s v t ↔
      ∃ count s', count < rounds ∧ Rounds condition body count s s' ∧
        (condition.Unwinds s' v t ∨
          ∃ s'', condition s' = (.done true, s'') ∧ body.Unwinds s'' v t) := by
  induction rounds generalizing s with
  | zero =>
      constructor
      · nofun
      · rintro ⟨_, _, fewer, _⟩
        cases fewer
  | succ rounds ih =>
      unfold Unwinds at ih ⊢
      constructor
      · intro run
        unfold repeatWhile at run
        generalize hc : condition s = x at run
        obtain ⟨outcome, s'⟩ := x
        rcases outcome with (_ | _) | why
        · cases run
        · dsimp only at run
          generalize hb : body s' = y at run
          obtain ⟨outcome, s''⟩ := y
          cases outcome with
          | stopped why =>
              cases run
              exact ⟨0, s, Nat.succ_pos _, .none s, .inr ⟨s', hc, hb⟩⟩
          | done a =>
              obtain ⟨count, u, fewer, before, last⟩ := ih.mp run
              exact ⟨count + 1, u, Nat.succ_lt_succ fewer, .more hc hb before, last⟩
        · cases run
          exact ⟨0, s, Nat.succ_pos _, .none s, .inl hc⟩
      · rintro ⟨count, u, fewer, before, last⟩
        cases before with
        | none =>
            unfold repeatWhile
            rcases last with hc | ⟨s'', hc, hb⟩
            · rw [show condition s = _ from hc]
            · simp only [hc, show body s'' = _ from hb]
        | more holds work rest =>
            unfold repeatWhile
            simp only [holds, work]
            exact ih.mpr ⟨_, u, Nat.lt_of_succ_lt_succ fewer, rest, last⟩

/-! ## Nodes -/

section

variable {visit : Visit} {h : Handle}

theorem condition_unwinds_iff {construct : String} {x : Node} :
    (condition visit h construct x).Unwinds s v t ↔ (visit x h).Unwinds s v t := by
  refine bind_unwinds_iff_left fun a s' => ?_
  cases a with
  | boolean b => exact not_unwinds_pure b
  | number | string | nil => exact not_unwinds_fail _ _

theorem unary_unwinds_iff {operator : Kind} {x : Node} {p : Option Position} :
    (unary visit h operator x p).Unwinds s v t ↔ (visit x h).Unwinds s v t := by
  refine bind_unwinds_iff_left fun a s' => ?_
  cases Operator.unary? operator a with
  | some result => exact not_unwinds_pure result
  | none => exact not_unwinds_fail _ _

theorem strict_unwinds_iff {operator : Kind} {x y : Node} {p : Option Position} :
    (strict visit h operator x y p).Unwinds s v t ↔ (visit x h).Unwinds s v t ∨
      ∃ a s', visit x h s = (.done a, s') ∧ (visit y h).Unwinds s' v t := by
  refine bind_unwinds_iff.trans (or_congr_right ?_)
  refine exists_congr fun a => exists_congr fun s' => and_congr_right fun _ => ?_
  refine bind_unwinds_iff_left fun b s'' => ?_
  cases Operator.strict? operator a b with
  | some result => exact not_unwinds_pure result
  | none => exact not_unwinds_fail _ _

theorem logicalRest_unwinds_iff {operator : Kind} {join : Bool → Bool → Bool} {a : Value}
    {y : Node} {p : Option Position} :
    (logicalRest visit h operator join a y p).Unwinds s v t ↔ (visit y h).Unwinds s v t := by
  refine bind_unwinds_iff_left fun b s' => ?_
  split
  · exact not_unwinds_pure _
  · exact not_unwinds_fail _ _

theorem logical_unwinds_iff {mode : Mode} {operator : Kind} {decisive : Bool}
    {join : Bool → Bool → Bool} {x y : Node} {p : Option Position} :
    (logical mode visit h operator decisive join x y p).Unwinds s v t ↔
      (visit x h).Unwinds s v t ∨
        ∃ a s', visit x h s = (.done a, s') ∧
          (mode.shortCircuit = true → a = .boolean !decisive) ∧
          (visit y h).Unwinds s' v t := by
  refine bind_unwinds_iff.trans (or_congr_right ?_)
  refine exists_congr fun a => exists_congr fun s' => and_congr_right fun _ => ?_
  cases mode.shortCircuit with
  | false => simpa using logicalRest_unwinds_iff
  | true =>
      cases a with
      | boolean b =>
          by_cases hb : b = decisive
          · subst hb
            simpa using not_unwinds_pure _
          · have hother : b = !decisive := by
              cases b <;> cases decisive <;> simp_all
            simpa [hother] using logicalRest_unwinds_iff
      | number | string | nil => simpa using not_unwinds_fail _ _

theorem not_unwinds_bindAll (names : List String) (values : List Value) :
    ¬ (bindAll h names values).Unwinds s v t := by
  induction names generalizing s values with
  | nil => exact not_unwinds_pure ()
  | cons name names ih =>
      cases values with
      | nil => exact not_unwinds_pure ()
      | cons value values =>
          intro run
          exact not_unwinds_update _ ((bind_unwinds_iff_left fun _ _ => ih values).mp run)

theorem not_unwinds_applyFunction (f : Function) (args : List Value) (p : Option Position) :
    ¬ (applyFunction visit f args p).Unwinds s v t := by
  cases f with
  | builtin b =>
      change locate p (b.apply args) s ≠ _
      unfold locate
      rcases b.apply_cases args with ⟨value, text, happly⟩ | ⟨cause, happly⟩
      · rw [happly s]
        nofun
      · rw [happly s]
        nofun
  | user f =>
      by_cases hlen : args.length = f.params.length
      · simp only [applyFunction, if_pos hlen]
        intro run
        obtain ⟨child, scopes, t', _, work, _⟩ := inChild_unwinds_iff.mp run
        rw [bind_unwinds_iff_left fun _ _ => not_unwinds_catchReturn _] at work
        exact not_unwinds_bindAll _ _ work
      · simp only [applyFunction, if_neg hlen]
        exact not_unwinds_fail _ _

theorem call_unwinds_iff {name : String} {xs : List Node} {p : Option Position} :
    (call visit h name xs p).Unwinds s v t ↔
      (∃ f, s.scopes.lookupFunction h name = .ok f) ∧ (arguments visit h xs).Unwinds s v t := by
  have passed (f : Function) (s' : Store) :
      (arguments visit h xs >>= fun values => applyFunction visit f values p).Unwinds s' v t ↔
        (arguments visit h xs).Unwinds s' v t :=
    bind_unwinds_iff_left fun values _ => not_unwinds_applyFunction f values p
  unfold Unwinds call
  cases hlookup : s.scopes.lookupFunction h name with
  | ok f =>
      rw [bind_of_done (query_of_ok hlookup)]
      exact (passed f s).trans ⟨fun stopped => ⟨⟨f, rfl⟩, stopped⟩, And.right⟩
  | error fault =>
      rw [bind_of_stopped (query_of_error hlookup)]
      constructor
      · nofun
      · rintro ⟨⟨_, found⟩, _⟩
        cases found

end

/-- Evaluating a node in a scope comes to evaluating one that stands directly in it: everything that
is evaluated before has given a value. The bodies of functions that are called do not count. -/
inductive ComesTo (mode : Mode) (visit : Visit) :
    Node → Handle → Store → Node → Handle → Store → Prop where
  | group {x : Node} {p : Option Position} {h : Handle} {s : Store} :
      ComesTo mode visit (.group x p) h s x h s
  | unary {operator : Kind} {x : Node} {p : Option Position} {h : Handle} {s : Store} :
      ComesTo mode visit (.unary operator x p) h s x h s
  | left {operator : Kind} {x y : Node} {p : Option Position} {h : Handle} {s : Store} :
      ComesTo mode visit (.binary operator x y p) h s x h s
  /-- The left operand may decide alone only if the mode lets it. -/
  | right {operator : Kind} {x y : Node} {p : Option Position} {h : Handle} {s s' : Store}
      {a : Value} (first : visit x h s = (.done a, s'))
      (needed : ∀ decisive join, Operator.logical? operator = some (decisive, join) →
        mode.shortCircuit = true → a = .boolean !decisive) :
      ComesTo mode visit (.binary operator x y p) h s y h s'
  | assigned {name : String} {x : Node} {outer : Bool} {p : Option Position} {h : Handle}
      {s : Store} : ComesTo mode visit (.assign name x outer p) h s x h s
  | statement {before after : List Node} {x : Node} {p : Option Position} {h : Handle}
      {s s' : Store} {a : Value} (earlier : sequence visit h .nil before s = (.done a, s')) :
      ComesTo mode visit (.root (before ++ x :: after) p) h s x h s'
  | inside {before after : List Node} {x : Node} {p : Option Position} {h child : Handle}
      {s s' : Store} {scopes : Scopes} {a : Value}
      (entered : Arena.extend h s.scopes = (.ok child, scopes))
      (earlier : sequence visit child .nil before { s with scopes := scopes } = (.done a, s')) :
      ComesTo mode visit (.block (before ++ x :: after) p) h s x child s'
  | test {c x : Node} {p : Option Position} {h : Handle} {s : Store} :
      ComesTo mode visit (.ifThen c x p) h s c h s
  | chosen {c x : Node} {p : Option Position} {h : Handle} {s s' : Store}
      (holds : condition visit h "if" c s = (.done true, s')) :
      ComesTo mode visit (.ifThen c x p) h s x h s'
  | testOfTwo {c x y : Node} {p : Option Position} {h : Handle} {s : Store} :
      ComesTo mode visit (.ifElse c x y p) h s c h s
  | chosenOfTwo {c x y : Node} {p : Option Position} {h : Handle} {s s' : Store} {b : Bool}
      (decided : condition visit h "if" c s = (.done b, s')) :
      ComesTo mode visit (.ifElse c x y p) h s (if b then x else y) h s'
  | testOfRound {c x : Node} {p : Option Position} {h : Handle} {s s' : Store} {count : Nat}
      (fewer : count < mode.rounds)
      (earlier : Rounds (condition visit h "while" c) (visit x h) count s s') :
      ComesTo mode visit (.whileLoop c x p) h s c h s'
  | bodyOfRound {c x : Node} {p : Option Position} {h : Handle} {s s' s'' : Store} {count : Nat}
      (fewer : count < mode.rounds)
      (earlier : Rounds (condition visit h "while" c) (visit x h) count s s')
      (holds : condition visit h "while" c s' = (.done true, s'')) :
      ComesTo mode visit (.whileLoop c x p) h s x h s''
  | argument {name : String} {before after : List Node} {x : Node} {p : Option Position}
      {h : Handle} {s s' : Store} {f : Function} {values : List Value}
      (found : s.scopes.lookupFunction h name = .ok f)
      (earlier : arguments visit h before s = (.done values, s')) :
      ComesTo mode visit (.call name (before ++ x :: after) p) h s x h s'
  | value {x : Node} {p : Option Position} {h : Handle} {s : Store} :
      ComesTo mode visit (.ret x p) h s x h s

/-- What is left to do for a node when a stop passes it that came out of scope `g`. -/
def close : Node → (g : Handle) → Eval Unit
  | .block _ _, g => discard g
  | _, _ => return ()

section

variable {mode : Mode} {visit : Visit} {n : Node} {h : Handle}

/-- A stop that comes out of a part of a node comes out of the node. -/
theorem ComesTo.unwinds {m : Node} {g : Handle} {s' t' : Store}
    (part : ComesTo mode visit n h s m g s') (below : (visit m g).Unwinds s' v t')
    (closed : close n g t' = (.done (), t)) : (node mode visit n h).Unwinds s v t := by
  cases part with
  | inside entered earlier =>
      refine inChild_unwinds_iff.mpr ⟨g, _, t', entered, ?_, closed⟩
      exact sequence_unwinds_iff.mpr ⟨_, m, _, _, s', rfl, earlier, below⟩
  | group =>
      cases closed
      exact below
  | unary =>
      cases closed
      exact unary_unwinds_iff.mpr below
  | @left operator x y p =>
      cases closed
      cases hop : Operator.logical? operator with
      | none =>
          rw [node_of_strict hop]
          exact strict_unwinds_iff.mpr (.inl below)
      | some pair =>
          rw [node_of_logical hop]
          exact logical_unwinds_iff.mpr (.inl below)
  | @right operator x y p _ _ _ a first needed =>
      cases closed
      cases hop : Operator.logical? operator with
      | none =>
          rw [node_of_strict hop]
          exact strict_unwinds_iff.mpr (.inr ⟨a, s', first, below⟩)
      | some pair =>
          rw [node_of_logical hop]
          exact logical_unwinds_iff.mpr (.inr ⟨a, s', first, needed _ _ hop, below⟩)
  | assigned =>
      cases closed
      exact bind_unwinds_iff.mpr (.inl below)
  | statement earlier =>
      cases closed
      exact sequence_unwinds_iff.mpr ⟨_, m, _, _, s', rfl, earlier, below⟩
  | test =>
      cases closed
      exact bind_unwinds_iff.mpr (.inl (condition_unwinds_iff.mpr below))
  | chosen holds =>
      cases closed
      exact bind_unwinds_iff.mpr (.inr ⟨true, s', holds, below⟩)
  | testOfTwo =>
      cases closed
      exact bind_unwinds_iff.mpr (.inl (condition_unwinds_iff.mpr below))
  | @chosenOfTwo c x y p _ _ _ b decided =>
      cases closed
      refine bind_unwinds_iff.mpr (.inr ⟨b, s', decided, ?_⟩)
      cases b with
      | true => exact below
      | false => exact below
  | testOfRound fewer earlier =>
      cases closed
      refine bind_unwinds_iff.mpr (.inl (repeatWhile_unwinds_iff.mpr ?_))
      exact ⟨_, s', fewer, earlier, .inl (condition_unwinds_iff.mpr below)⟩
  | bodyOfRound fewer earlier holds =>
      cases closed
      refine bind_unwinds_iff.mpr (.inl (repeatWhile_unwinds_iff.mpr ?_))
      exact ⟨_, _, fewer, earlier, .inr ⟨s', holds, below⟩⟩
  | argument found earlier =>
      cases closed
      refine call_unwinds_iff.mpr ⟨⟨_, found⟩, ?_⟩
      exact arguments_unwinds_iff.mpr ⟨_, m, _, _, s', rfl, earlier, below⟩
  | value =>
      cases closed
      exact bind_unwinds_iff.mpr (.inl below)

/-- A node stops with a value on its way only if it is a `ret` and has the value, or if the stop
comes out of one of its parts. -/
theorem node_unwinds (run : (node mode visit n h).Unwinds s v t) :
    (∃ x p, n = .ret x p ∧ visit x h s = (.done v, t)) ∨
      ∃ m g s' t', ComesTo mode visit n h s m g s' ∧ (visit m g).Unwinds s' v t' ∧
        close n g t' = (.done (), t) := by
  cases n with
  | number | boolean | string | nil | blank => cases run
  | group x p => exact .inr ⟨x, h, s, t, .group, run, rfl⟩
  | reference name p =>
      change (query (fun scopes => scopes.lookup h name) fun _ =>
        .failed ⟨.undefinedVariable name, p⟩).Unwinds s v t at run
      exact absurd run (not_unwinds_query nofun)
  | unary operator x p => exact .inr ⟨x, h, s, t, .unary, unary_unwinds_iff.mp run, rfl⟩
  | binary operator x y p =>
      cases hop : Operator.logical? operator with
      | none =>
          rw [node_of_strict hop] at run
          rcases strict_unwinds_iff.mp run with first | ⟨a, s', first, second⟩
          · exact .inr ⟨x, h, s, t, .left, first, rfl⟩
          · refine .inr ⟨y, h, s', t, .right first fun _ _ logical => ?_, second, rfl⟩
            rw [hop] at logical
            cases logical
      | some pair =>
          obtain ⟨decisive, join⟩ := pair
          rw [node_of_logical hop] at run
          rcases logical_unwinds_iff.mp run with first | ⟨a, s', first, needed, second⟩
          · exact .inr ⟨x, h, s, t, .left, first, rfl⟩
          · refine .inr ⟨y, h, s', t, .right first fun _ _ logical => ?_, second, rfl⟩
            rw [hop] at logical
            cases logical
            exact needed
  | assign name x outer p =>
      refine .inr ⟨x, h, s, t, .assigned, (bind_unwinds_iff_left fun a s' => ?_).mp run, rfl⟩
      cases outer with
      | true =>
          intro later
          rw [if_pos rfl] at later
          rw [bind_unwinds_iff_left fun _ _ => not_unwinds_pure _] at later
          exact not_unwinds_update _ later
      | false =>
          intro later
          rw [if_neg nofun] at later
          rw [bind_unwinds_iff_left fun _ _ => not_unwinds_pure _] at later
          exact not_unwinds_update _ later
  | root xs p =>
      obtain ⟨before, x, after, a, s', rfl, earlier, last⟩ := sequence_unwinds_iff.mp run
      exact .inr ⟨x, h, s', t, .statement earlier, last, rfl⟩
  | block xs p =>
      obtain ⟨child, scopes, t', entered, work, left⟩ := inChild_unwinds_iff.mp run
      obtain ⟨before, x, after, a, s', rfl, earlier, last⟩ := sequence_unwinds_iff.mp work
      exact .inr ⟨x, child, s', t', .inside entered earlier, last, left⟩
  | ifThen c x p =>
      rcases bind_unwinds_iff.mp run with first | ⟨b, s', holds, later⟩
      · exact .inr ⟨c, h, s, t, .test, condition_unwinds_iff.mp first, rfl⟩
      · cases b with
        | true => exact .inr ⟨x, h, s', t, .chosen holds, later, rfl⟩
        | false => cases later
  | ifElse c x y p =>
      rcases bind_unwinds_iff.mp run with first | ⟨b, s', decided, later⟩
      · exact .inr ⟨c, h, s, t, .testOfTwo, condition_unwinds_iff.mp first, rfl⟩
      · refine .inr ⟨if b then x else y, h, s', t, .chosenOfTwo decided, ?_, rfl⟩
        cases b with
        | true => exact later
        | false => exact later
  | whileLoop c x p =>
      have loop := (bind_unwinds_iff_left fun _ _ => not_unwinds_pure _).mp run
      obtain ⟨count, s', fewer, earlier, last⟩ := repeatWhile_unwinds_iff.mp loop
      rcases last with test | ⟨s'', holds, body⟩
      · exact .inr ⟨c, h, s', t, .testOfRound fewer earlier, condition_unwinds_iff.mp test, rfl⟩
      · exact .inr ⟨x, h, s'', t, .bodyOfRound fewer earlier holds, body, rfl⟩
  | function name params body p =>
      have first := (bind_unwinds_iff_left fun _ _ => not_unwinds_pure _).mp run
      exact absurd first (not_unwinds_update _)
  | call name xs p =>
      obtain ⟨⟨f, found⟩, passed⟩ := call_unwinds_iff.mp run
      obtain ⟨before, x, after, as, s', rfl, earlier, last⟩ := arguments_unwinds_iff.mp passed
      exact .inr ⟨x, h, s', t, .argument found earlier, last, rfl⟩
  | ret x p =>
      rcases bind_unwinds_iff.mp run with first | ⟨a, s', first, stopped⟩
      · exact .inr ⟨x, h, s, t, .value, first, rfl⟩
      · cases stopped
        exact .inl ⟨x, p, rfl, first⟩

end

/-! ## Trees -/

/-- A `ret` in the tree is reached, and its value goes up to the top of the tree. -/
inductive Returns (mode : Mode) : Nat → Node → Handle → Store → Value → Store → Prop where
  | here {depth : Nat} {x : Node} {p : Option Position} {h : Handle} {s t : Store} {v : Value}
      (value : nested mode depth x h s = (.done v, t)) :
      Returns mode (depth + 1) (.ret x p) h s v t
  | through {depth : Nat} {n m : Node} {h g : Handle} {s s' t t' : Store} {v : Value}
      (part : ComesTo mode (nested mode depth) n h s m g s')
      (below : Returns mode depth m g s' v t') (closed : close n g t' = (.done (), t)) :
      Returns mode (depth + 1) n h s v t

theorem nested_unwinds_iff {mode : Mode} {depth : Nat} {n : Node} {h : Handle} :
    (nested mode depth n h).Unwinds s v t ↔ Returns mode depth n h s v t := by
  constructor
  · intro run
    induction depth generalizing n h s t with
    | zero => cases run
    | succ depth ih =>
        rcases node_unwinds run with ⟨x, p, rfl, value⟩ | ⟨m, g, s', t', part, below, closed⟩
        · exact .here value
        · exact .through part (ih below) closed
  · intro returns
    induction returns with
    | here value => exact bind_of_done value
    | through part _ closed ih => exact part.unwinds ih closed

/-- The body of a function begins in a scope of its own with the parameters bound. -/
structure Enters (f : UserFunction) (args : List Value) (s : Store) (child : Handle) (s' : Store) :
    Prop where
  arity : args.length = f.params.length
  scope : ∃ scopes, Arena.extend f.closure s.scopes = (.ok child, scopes) ∧
    bindAll child f.params args { s with scopes := scopes } = (.done (), s')

/-- A value that is returned in the body of a function is the value of the call, which then closes
the scope of the call. -/
theorem applyFunction_of_returns {mode : Mode} {depth : Nat} {f : UserFunction} {args : List Value}
    {child : Handle} {s' : Store} (enters : Enters f args s child s')
    (returns : Returns mode depth f.body child s' v t) (position : Option Position) :
    ∃ t', discard child t = (.done (), t') ∧
      applyFunction (nested mode depth) (.user f) args position s = (.done v, t') := by
  obtain ⟨arity, scopes, entered, bound⟩ := enters
  let work (h : Handle) : Eval Value := do
    bindAll h f.params args
    catchReturn (nested mode depth f.body h)
  have result : work child { s with scopes := scopes } = (.done v, t) := by
    refine (bind_of_done bound).trans ?_
    unfold catchReturn
    rw [show nested mode depth f.body child s' = _ from nested_unwinds_iff.mpr returns]
  -- Whatever the work does, the scope that it was done in is still there.
  let S := Simulation.matchedRuns Eq Eq (fun _ => False) id
  have visits : S.Visits (nested mode depth) (nested mode depth) := by
    refine S.visits_nested ?_ mode depth
    rintro n _ rfl
    exact .refl (fun _ _ => rfl) (fun _ _ => rfl) (fun _ _ _ _ => trivial) fun _ => rfl
  have stores : S.Stores [] s s := ⟨Store.matched_self fun _ _ => rfl, nofun⟩
  rcases S.enter stores rfl with ⟨w, g, _, a, _, ha, hb, same, inner, leave, _⟩ | ⟨_, _, fault, _⟩
  · cases same
    cases entered.symm.trans ha
    cases entered.symm.trans hb
    have coupled : S.Coupled w Eq (work child) (work child) :=
      .bind (S.coupled_bindAll rfl f.params args) fun _ _ _ =>
        S.coupled_catchReturn (visits rfl rfl)
    have ends := coupled _ _ inner
    rw [result] at ends
    cases ends with
    | done _ after =>
        obtain ⟨_, _, c, _, left, _, _⟩ := leave after
        have closed : discard child t = (.done (), { t with scopes := c }) := by
          simp only [discard, update, left]
        refine ⟨_, closed, ?_⟩
        simp only [applyFunction, if_pos arity]
        exact inChild_of_discard entered result closed
  · rw [entered] at fault
    cases fault

theorem call_of_returns {mode : Mode} {depth : Nat} {name : String} {xs : List Node} {h : Handle}
    {f : UserFunction} {args : List Value} {child : Handle} {s₁ s' : Store}
    (found : s.scopes.lookupFunction h name = .ok (.user f))
    (passed : arguments (nested mode depth) h xs s = (.done args, s₁))
    (enters : Enters f args s₁ child s') (returns : Returns mode depth f.body child s' v t)
    (position : Option Position) :
    ∃ t', discard child t = (.done (), t') ∧
      nested mode (depth + 1) (.call name xs position) h s = (.done v, t') := by
  obtain ⟨t', closed, result⟩ := applyFunction_of_returns enters returns position
  refine ⟨t', closed, ?_⟩
  exact (bind_of_done (query_of_ok found)).trans ((bind_of_done passed).trans result)

end Eval

end Scriptlet
