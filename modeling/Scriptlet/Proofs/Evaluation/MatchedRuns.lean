import Scriptlet.Proofs.Evaluation.ScopeDiscipline
import Scriptlet.Proofs.Scope.Matching

/-!
# Runs on matched stores

Two runs whose stores differ in nothing but the bodies of declared functions go through the same
scopes under the same handles. No scope needs to be there for that: one that is missing is missing
in both runs. So whatever is to be replaced in a tree may be replaced in all stored bodies at once.

The first use is a run beside a copy of itself that has more depth.
-/

namespace Scriptlet

open Eval

/-! ## Stores -/

/-- Functions that differ at most in their bodies, which `R` relates. -/
inductive Function.Matched (R : Node → Node → Prop) : Function → Function → Prop where
  | builtin (b : Builtin) : Function.Matched R (.builtin b) (.builtin b)
  | user {name : String} {params : List String} {body body' : Node} {closure : Handle}
      (bodies : R body body') :
      Function.Matched R (.user ⟨name, params, body, closure⟩)
        (.user ⟨name, params, body', closure⟩)

structure Store.Matched (R : Node → Node → Prop) (s t : Store) : Prop where
  scopes : s.scopes.Matched (Function.Matched R) t.scopes
  output : s.output = t.output

def Function.body? : Function → Option Node
  | .builtin _ => none
  | .user f => some f.body

def Store.bodies (s : Store) : List Node := s.scopes.functions.filterMap Function.body?

def Function.mapBody (k : Node → Node) : Function → Function
  | .builtin b => .builtin b
  | .user f => .user { f with body := k f.body }

def Store.mapBodies (k : Node → Node) (s : Store) : Store :=
  { s with scopes := s.scopes.mapFunctions (Function.mapBody k) }

section

variable {R : Node → Node → Prop} {s t : Store}

theorem Function.matched_mapBody_iff {k : Node → Node} {f g : Function} :
    Function.Matched (fun n n' => n' = k n) f g ↔ f.mapBody k = g := by
  constructor
  · intro h
    cases h with
    | builtin b => rfl
    | user bodies => rw [bodies]; rfl
  · rintro rfl
    cases f with
    | builtin b => exact .builtin b
    | user f => exact .user rfl

theorem Store.matched_mapBodies_iff {k : Node → Node} :
    s.Matched (fun n n' => n' = k n) t ↔ t = s.mapBodies k := by
  constructor
  · intro h
    have scopes := Arena.matched_mapFunctions.mpr
      (h.scopes.imp fun _ _ => Function.matched_mapBody_iff.mp)
    rw [Store.mapBodies, scopes.eq, h.output]
  · rintro rfl
    refine ⟨?_, rfl⟩
    have scopes := Arena.matched_mapFunctions.mp
      (Arena.matched_self (a := s.scopes.mapFunctions (Function.mapBody k)) fun _ _ => rfl)
    exact scopes.imp fun _ _ => Function.matched_mapBody_iff.mpr

theorem Store.matched_self (h : ∀ body ∈ s.bodies, R body body) : s.Matched R s := by
  refine ⟨Arena.matched_self fun f hf => ?_, rfl⟩
  cases f with
  | builtin b => exact .builtin b
  | user f => exact .user (h f.body (List.mem_filterMap.mpr ⟨_, hf, rfl⟩))

theorem Store.Matched.eq (h : s.Matched R t) (hR : ∀ n n', R n n' → n = n') : s = t := by
  have scopes : s.scopes.Matched Eq t.scopes := by
    apply h.scopes.imp
    intro f g hfg
    cases hfg with
    | builtin b => rfl
    | user bodies => rw [hR _ _ bodies]
  cases s
  cases t
  rw [Store.mk.injEq]
  exact ⟨scopes.eq, h.output⟩

theorem Store.Matched.of_scopes (h : s.Matched R t) {a b : Scopes}
    (hab : a.Matched (Function.Matched R) b) :
    Store.Matched R { s with scopes := a } { t with scopes := b } :=
  ⟨hab, h.output⟩

end

/-! ## Scopes that have been entered -/

/-- The scopes that have been entered and not yet left are there, and no handle that is still to
be given out is one of theirs. -/
def Opened (opened : List Handle) (a : Scopes) : Prop :=
  ∀ g : Int, g ∈ opened → a.contains g = true ∧ g < a.next

section

variable {opened : List Handle} {a b : Scopes}

theorem Opened.put (h : Opened opened a) (g : Handle) (x : Scope Value Function) :
    Opened opened (a.put g x) := by
  intro k hk
  refine ⟨?_, (h k hk).2⟩
  have live := (h k hk).1
  unfold Arena.contains OrderedMap.contains at live ⊢
  rw [Arena.put_get?]
  by_cases hkg : k = g
  · simp [hkg]
  · rw [if_neg hkg]
    exact live

theorem Opened.assign (h : Opened opened a) {g : Handle} {name : String} {value : Value}
    (hb : Arena.assign g name value a = (.ok (), b)) : Opened opened b := by
  cases hs : a.scopes.get? g with
  | none =>
      rw [Arena.assign_of_dead hs] at hb
      cases hb
  | some scope =>
      rw [Arena.assign_of_get? hs] at hb
      cases hb
      exact h.put g _

theorem Opened.declare (h : Opened opened a) {g : Handle} {name : String} {f : Function}
    (hb : Arena.declare g name f a = (.ok (), b)) : Opened opened b := by
  cases hs : a.scopes.get? g with
  | none =>
      rw [Arena.declare_of_dead hs] at hb
      cases hb
  | some scope =>
      rw [Arena.declare_of_get? hs] at hb
      cases hb
      exact h.put g _

theorem Opened.assignOuter (h : Opened opened a) {g : Handle} {name : String} {value : Value}
    {found : Bool} (hb : Arena.assignOuter g name value a = (.ok found, b)) :
    Opened opened b := by
  rw [Arena.assignOuter_eq] at hb
  split at hb
  · cases hb
    exact h.put _ _
  · split at hb
    · cases hb
    · cases hb
      exact h

theorem Opened.grown (h : Opened opened a) (g : Handle) :
    Opened (a.next :: opened) (a.grown g) := by
  have hnext : (a.grown g).next = a.next + 1 := rfl
  intro k hk
  unfold Arena.contains OrderedMap.contains
  rw [Arena.grown_get?, hnext]
  by_cases hnew : k = a.next
  · rw [if_pos hnew]
    exact ⟨rfl, by omega⟩
  · rw [if_neg hnew]
    obtain ⟨live, older⟩ := h k ((List.mem_cons.mp hk).resolve_left hnew)
    exact ⟨live, by omega⟩

/-- The scope that was entered last can be left, whatever has happened in between. -/
theorem Opened.leave (h : Opened opened a) (after : Opened (a.next :: opened) b) :
    ∃ c, Arena.discard a.next b = (.ok (), c) ∧ Opened opened c := by
  by_cases hroot : a.next = Arena.rootHandle
  · rw [hroot, Arena.discard_root]
    exact ⟨b, rfl, fun k hk => after k (List.mem_cons_of_mem _ hk)⟩
  · obtain ⟨_, live⟩ := Arena.contains_iff.mp (after a.next List.mem_cons_self).1
    refine ⟨_, Arena.discard_of_live live hroot, ?_⟩
    intro k hk
    obtain ⟨live, young⟩ := after k (List.mem_cons_of_mem _ hk)
    refine ⟨?_, young⟩
    have older := (h k hk).2
    have hne : k ≠ a.next := by omega
    unfold Arena.contains OrderedMap.contains at live ⊢
    rw [Arena.without_get?, if_neg hne]
    exact live

end

/-! ## The simulation -/

/-- Runs of trees that `R` relates, on stores whose bodies it relates. -/
def matchedRuns (R : Node → Node → Prop) (P : Option Position → Option Position → Prop)
    (E : Stop → Prop) : Correspondence where
  World := List Handle
  Stores opened s t := s.Matched R t ∧ Opened opened s.scopes
  Left opened s := Opened opened s.scopes
  Handles _ g h := g = h
  Trees := R
  Places := P
  Faulty := True
  GivesUp := E

section

variable {R : Node → Node → Prop} {P : Option Position → Option Position → Prop} {E : Stop → Prop}

theorem Function.Matched.functions {f g : Function} (h : Function.Matched R f g)
    (opened : List Handle) : (matchedRuns R P E).Functions opened f g := by
  cases h with
  | builtin b => exact .builtin b
  | user bodies => exact .user bodies rfl

end

def Simulation.matchedRuns (R : Node → Node → Prop)
    (P : Option Position → Option Position → Prop) (E : Stop → Prop)
    (hE : ∀ {v}, ¬ E (.returned v)) : Simulation where
  toCorrespondence := Scriptlet.matchedRuns R P E
  left stores := stores.2
  not_givesUp_returned := hE
  closure := id
  write stores text := ⟨⟨stores.1.scopes, by rw [stores.1.output]⟩, stores.2⟩
  lookup := by
    intro opened s t g h stores same name
    cases same
    rw [stores.1.scopes.lookup g name]
    cases t.scopes.lookup g name with
    | ok v => exact .inl ⟨v, rfl, rfl⟩
    | error e => exact .inr ⟨e, e, rfl, rfl⟩
  lookupFunction := by
    intro opened s t g h stores same name
    cases same
    rcases stores.1.scopes.lookupFunction g name with ⟨f, k, hf, hk, related⟩ | ⟨e, hf, hk⟩
    · exact .inl ⟨f, k, hf, hk, related.functions opened⟩
    · exact .inr ⟨e, e, hf, hk⟩
  assign := by
    intro opened s t g h stores same name value
    cases same
    rcases stores.1.scopes.assign g name value with
      ⟨_, a, b, ha, hb, after⟩ | faults
    · exact .inl ⟨_, _, a, b, ha, hb, stores.1.of_scopes after, stores.2.assign ha⟩
    · exact .inr ⟨trivial, faults⟩
  assignOuter := by
    intro opened s t g h _ stores same name value
    cases same
    rcases stores.1.scopes.assignOuter g name value with
      ⟨_, a, b, ha, hb, after⟩ | faults
    · exact .inl ⟨_, _, a, b, ha, hb, stores.1.of_scopes after, stores.2.assignOuter ha⟩
    · exact .inr ⟨trivial, faults⟩
  declare := by
    intro opened s t g h x y stores same trees name params
    cases same
    rcases stores.1.scopes.declare g name (.user trees) with
      ⟨_, a, b, ha, hb, after⟩ | faults
    · exact .inl ⟨_, _, a, b, ha, hb, stores.1.of_scopes after, stores.2.declare ha⟩
    · exact .inr ⟨trivial, faults⟩
  enter := by
    intro opened s t g h stores same
    cases same
    rcases stores.1.scopes.extend g with ⟨ha, hb⟩ | faults
    · refine .inl ⟨s.scopes.next :: opened, _, _, _, _, ha, hb, rfl,
        ⟨stores.1.of_scopes (stores.1.scopes.grown g), stores.2.grown g⟩, ?_, ?_⟩
      · intro s' t' after
        obtain ⟨c, hc, left⟩ := stores.2.leave after.2
        rcases after.1.scopes.discard s.scopes.next with
          ⟨u, _, d, hu, hd, matched⟩ | ⟨e, he, _⟩
        · rw [hc] at hu
          cases hu
          exact ⟨_, _, c, d, hc, hd, after.1.of_scopes matched, left⟩
        · rw [hc] at he
          cases he
      · exact fun after => stores.2.leave after
    · exact .inr ⟨trivial, faults⟩

section

variable {R : Node → Node → Prop} {P : Option Position → Option Position → Prop} {E : Stop → Prop}

theorem ends_of_visits {visit visit' : Visit} (visits : (matchedRuns R P E).Visits visit visit')
    {n n' : Node} (trees : R n n') {s t : Store} (stores : s.Matched R t) (h : Handle) :
    (matchedRuns R P E).Ends [] Eq (visit n h s) (visit' n' h t) :=
  visits trees rfl s t ⟨stores, fun _ hmem => by cases hmem⟩

/-! ## Runs of different depth -/

/-- If related trees have the same form, or the first is a group around a tree that is related as
well, their runs end alike. The second run gets by with the same depth, and may have more. -/
theorem visits_deeper (mode : Mode)
    (form : ∀ {n n'}, R n n' → (matchedRuns R P (· = .tooDeep)).Alike n n' ∨
      ∃ inner p, n = .group inner p ∧ R inner n')
    {depth depth' : Nat} (enough : depth ≤ depth') :
    (matchedRuns R P (· = .tooDeep)).Visits (nested mode depth) (nested mode depth') := by
  let S := Simulation.matchedRuns R P (· = .tooDeep) Stop.noConfusion
  induction depth generalizing depth' with
  | zero =>
      intro w n n' g h _ _ s t stores
      exact .gaveUp rfl stores.2
  | succ depth ih =>
      intro w n n' g h trees handles
      rcases form trees with alike | ⟨inner, p, rfl, within⟩
      · obtain ⟨below, rfl⟩ : ∃ below, depth' = below + 1 := ⟨depth' - 1, by omega⟩
        have visits : S.Visits (nested mode depth) (nested mode below) :=
          ih (Nat.le_of_succ_le_succ enough)
        exact S.coupled_node rfl rfl visits alike handles
      · -- The group takes up a level that the second run still has.
        exact ih (Nat.le_of_succ_le enough) within handles

end

/-- A run that does not run out of depth goes the same way with more of it. -/
theorem nested_deeper {mode : Mode} {depth depth' : Nat} (enough : depth ≤ depth') {n : Node}
    {h : Handle} {s : Store} (hdeep : (nested mode depth n h s).1 ≠ .stopped .tooDeep) :
    nested mode depth' n h s = nested mode depth n h s := by
  have form : ∀ {n n' : Node}, n = n' → (matchedRuns Eq Eq (· = .tooDeep)).Alike n n' ∨
      ∃ inner p, n = .group inner p ∧ inner = n' := by
    rintro n _ rfl
    exact .inl (.refl (fun _ _ => rfl) (fun _ _ => rfl) (fun _ _ _ _ => trivial) fun _ => rfl)
  have ends : (matchedRuns Eq Eq (· = .tooDeep)).Ends [] Eq (nested mode depth n h s)
      (nested mode depth' n h s) :=
    ends_of_visits (visits_deeper mode form enough) rfl (Store.matched_self fun _ _ => rfl) h
  generalize nested mode depth n h s = x at ends hdeep
  generalize nested mode depth' n h s = y at ends
  cases ends with
  | done results stores => rw [results, stores.1.eq fun _ _ => id]
  | gaveUp excuse left => exact absurd (congrArg Outcome.stopped excuse) hdeep
  | stopped stops stores =>
      rw [stores.1.eq fun _ _ => id]
      cases stops with
      | failed places => rw [places]
      | returned | scopeFault | meaningless | tooDeep | tooLong => rfl

/-- How deep the mode lets a whole tree go is of no matter to the single node. -/
theorem nested_withDepth (mode : Mode) (limit depth : Nat) :
    nested { mode with depth := limit } depth = nested mode depth := by
  induction depth with
  | zero => rfl
  | succ depth ih =>
      funext n h
      simp only [nested, ih]
      cases n <;> rfl

/-! ## Verdicts -/

def Outcome.verdict (position : Option Position) : Outcome Value → Verdict
  | .done v => .value v
  | .stopped (.returned v) => .value v
  | .stopped (.failed e) => .error e
  | .stopped (.scopeFault fault) => .scopeFault fault
  | .stopped .meaningless => .meaningless
  | .stopped .tooDeep => .error ⟨.tooDeep, position⟩
  | .stopped .tooLong => .tooLong

theorem evaluate_eq (mode : Mode) (tree : Node) (h : Handle) (s : Store) :
    evaluate mode tree h s =
      ((nested mode mode.depth tree h s).1.verdict tree.position,
        (nested mode mode.depth tree h s).2) := by
  unfold evaluate
  generalize nested mode mode.depth tree h s = run
  obtain ⟨outcome, after⟩ := run
  cases outcome with
  | done v => rfl
  | stopped why => cases why <;> rfl

end Scriptlet
