import Scriptlet.Proofs.Evaluation.MatchedRuns
import Scriptlet.Proofs.Syntax.Expressions

/-!
# Skipping right operands

Whether `and` and `or` evaluate a right operand that cannot matter is a question of the mode. If no
such operand assigns or calls, it does nothing but give a value or fail. So where the strict mode
comes to a value, the other one comes to the same value, with the same store.
-/

namespace Scriptlet

open Eval Node

/-! ## Operands that may be skipped -/

def Node.skippable? : Node → Option Node
  | .binary operator _ right _ => if (Operator.logical? operator).isSome then some right else none
  | _ => none

def Node.Inert (n : Node) : Prop := Everywhere (fun m => m.acts = false) n

def Node.SkipsInert (n : Node) : Prop :=
  Everywhere (fun m => ∀ right ∈ m.skippable?, right.Inert) n

/-- Values, variables and operators. -/
def Node.Quiet (n : Node) : Prop :=
  Everywhere (fun m => m.isExpression = true ∧ m.acts = false) n

def Node.SkipsQuiet (n : Node) : Prop :=
  Everywhere (fun m => ∀ right ∈ m.skippable?, right.Quiet) n

theorem skippable?_eq_some {n right : Node} (h : n.skippable? = some right) :
    ∃ operator left p decisive join, n = .binary operator left right p ∧
      Operator.logical? operator = some (decisive, join) := by
  unfold Node.skippable? at h
  split at h
  · next operator left right' p =>
      cases hop : Operator.logical? operator with
      | none => simp [hop] at h
      | some pair =>
          simp only [hop, Option.isSome_some, if_true, Option.some.injEq] at h
          exact ⟨operator, left, p, pair.1, pair.2, by rw [h], hop⟩
  · cases h

/-- In a tree that was read, operands that do not act are quiet. -/
theorem Node.SkipsInert.quiet {n : Node} (inert : n.SkipsInert) (composed : Everywhere Composed n) :
    n.SkipsQuiet := by
  induction composed with
  | @mk n here children ih =>
      obtain ⟨idle, below⟩ := everywhere_iff.mp inert
      refine .mk ?_ fun child hchild => ih child hchild (below child hchild)
      intro right hright
      obtain ⟨operator, left, p, decisive, join, rfl, -⟩ := skippable?_eq_some hright
      have hchild : right ∈ (Node.binary operator left right p).children := by simp [Node.children]
      exact ReadExpression.everywhere ⟨here rfl right hchild, children right hchild⟩
        (idle right hright)

/-! ## Computations that change nothing -/

/-- The computation gives a value or fails, and leaves the store as it was. -/
def Eval.Harmless {α : Type} (m : Eval α) : Prop :=
  ∀ s, (m s).2 = s ∧ ∀ v, (m s).1 ≠ .stopped (.returned v)

section

variable {α β : Type}

theorem harmless_pure (a : α) : Harmless (Pure.pure a : Eval α) :=
  fun _ => ⟨rfl, fun _ h => by cases h⟩

theorem harmless_fail (cause : EvalError.Cause) (position : Option Position) :
    Harmless (fail cause position : Eval α) :=
  fun _ => ⟨rfl, fun _ h => by cases h⟩

theorem Eval.Harmless.bind {m : Eval α} {f : α → Eval β} (hm : Harmless m)
    (hf : ∀ a, Harmless (f a)) : Harmless (m >>= f) := by
  intro s
  obtain ⟨same, noReturn⟩ := hm s
  cases hrun : m s with
  | mk outcome after =>
      rw [hrun] at same noReturn
      obtain rfl : after = s := same
      cases outcome with
      | done a =>
          rw [bind_of_done hrun]
          exact hf a after
      | stopped why =>
          rw [bind_of_stopped hrun]
          refine ⟨rfl, fun v h => noReturn v ?_⟩
          cases h
          rfl

variable {visit : Visit} {h : Handle} {left right : Node}

theorem harmless_lookup (name : String) (position : Option Position) :
    Harmless (query (fun scopes => scopes.lookup h name) fun _ =>
      .failed ⟨.undefinedVariable name, position⟩) := by
  intro s
  cases hfound : s.scopes.lookup h name with
  | ok v =>
      simp only [query, hfound]
      exact ⟨trivial, fun _ h => by cases h⟩
  | error f =>
      simp only [query, hfound]
      exact ⟨trivial, fun _ h => by cases h⟩

theorem harmless_unary (operator : Kind) (position : Option Position)
    (hleft : Harmless (visit left h)) : Harmless (unary visit h operator left position) := by
  refine hleft.bind fun value => ?_
  cases Operator.unary? operator value with
  | some result => exact harmless_pure result
  | none => exact harmless_fail _ _

theorem harmless_strict (operator : Kind) (position : Option Position)
    (hleft : Harmless (visit left h)) (hright : Harmless (visit right h)) :
    Harmless (strict visit h operator left right position) := by
  refine hleft.bind fun x => hright.bind fun y => ?_
  cases Operator.strict? operator x y with
  | some result => exact harmless_pure result
  | none => exact harmless_fail _ _

theorem harmless_logicalRest (operator : Kind) (join : Bool → Bool → Bool) (x : Value)
    (position : Option Position) (hright : Harmless (visit right h)) :
    Harmless (logicalRest visit h operator join x right position) := by
  refine hright.bind fun y => ?_
  split
  · exact harmless_pure _
  · exact harmless_fail _ _

theorem harmless_logical (mode : Mode) (operator : Kind) (decisive : Bool)
    (join : Bool → Bool → Bool) (position : Option Position) (hleft : Harmless (visit left h))
    (hright : Harmless (visit right h)) :
    Harmless (logical mode visit h operator decisive join left right position) := by
  refine hleft.bind fun x => ?_
  have rest := harmless_logicalRest operator join x position hright
  split
  · split
    · split
      · exact harmless_pure _
      · exact rest
    · exact harmless_fail _ _
  · exact rest

theorem harmless_nested (mode : Mode) (depth : Nat) {n : Node} (quiet : n.Quiet) (h : Handle) :
    Harmless (nested mode depth n h) := by
  induction depth generalizing n with
  | zero => exact fun _ => ⟨rfl, fun _ h => by cases h⟩
  | succ depth ih =>
      obtain ⟨⟨expression, idle⟩, below⟩ := everywhere_iff.mp quiet
      have inner : ∀ child ∈ n.children, Harmless (nested mode depth child h) :=
        fun child hchild => ih (below child hchild)
      cases n with
      | number | boolean | string | nil => exact harmless_pure _
      | reference name p => exact harmless_lookup name p
      | group x p => exact inner x List.mem_cons_self
      | unary operator x p => exact harmless_unary operator p (inner x List.mem_cons_self)
      | binary operator x y p =>
          have hx := inner x List.mem_cons_self
          have hy := inner y (List.mem_cons_of_mem _ List.mem_cons_self)
          unfold nested
          cases hop : Operator.logical? operator with
          | none =>
              rw [node_of_strict hop]
              exact harmless_strict operator p hx hy
          | some pair =>
              obtain ⟨decisive, join⟩ := pair
              rw [node_of_logical hop]
              exact harmless_logical mode operator decisive join p hx hy
      | assign | call => cases idle
      | _ => cases expression

end

/-! ## The two modes side by side -/

theorem join_of_decisive {operator : Kind} {decisive : Bool} {join : Bool → Bool → Bool}
    (h : Operator.logical? operator = some (decisive, join)) (b : Bool) :
    join decisive b = decisive := by
  unfold Operator.logical? at h
  split at h
  · cases h
    rfl
  · cases h
    rfl
  · cases h

/-- The mode matters to no node but `and` and `or`. -/
theorem node_of_unskippable {n : Node} (h : n.skippable? = none) (mode : Mode) (skips : Bool)
    (visit : Visit) (g : Handle) :
    node { mode with shortCircuit := skips } visit n g = node mode visit n g := by
  cases n with
  | binary operator left right p =>
      have hop : Operator.logical? operator = none := by
        cases hop : Operator.logical? operator with
        | none => rfl
        | some pair => simp [Node.skippable?, hop] at h
      rw [node_of_strict hop, node_of_strict hop]
  | _ => rfl

/-- A harmless right operand leads to a value only if the left one was a boolean. -/
theorem logicalRest_cases {visit : Visit} {h : Handle} {right : Node}
    (harmless : Harmless (visit right h)) (operator : Kind) (join : Bool → Bool → Bool) (x : Value)
    (position : Option Position) (s : Store) :
    (∃ a b, x = .boolean a ∧ logicalRest visit h operator join x right position s =
        (.done (.boolean (join a b)), s)) ∨
      ∃ why, (∀ v, why ≠ .returned v) ∧
        logicalRest visit h operator join x right position s = (.stopped why, s) := by
  obtain ⟨same, noReturn⟩ := harmless s
  cases hrun : visit right h s with
  | mk outcome after =>
      rw [hrun] at same noReturn
      obtain rfl : after = s := same
      unfold logicalRest
      cases outcome with
      | stopped why =>
          rw [bind_of_stopped hrun]
          exact .inr ⟨why, fun v hv => noReturn v (congrArg Outcome.stopped hv), rfl⟩
      | done y =>
          rw [bind_of_done hrun]
          cases x with
          | boolean a =>
              cases y with
              | boolean b => exact .inl ⟨a, b, rfl, rfl⟩
              | number | string | nil => exact .inr ⟨_, fun _ => Stop.noConfusion, rfl⟩
          | number | string | nil => exact .inr ⟨_, fun _ => Stop.noConfusion, rfl⟩

/-- A strict run beside one that skips. Only the value of the first counts, or one that is on its
way to a call. -/
def skippingRuns : Correspondence :=
  matchedRuns (fun n n' => n = n' ∧ n.SkipsQuiet) (fun _ _ => True) fun why =>
    ∀ v, why ≠ .returned v

section

variable {visit visit' : Visit} {left right : Node}

/-- What is skipped would have changed neither the value nor the store. -/
theorem coupled_skip (mode : Mode) (visits : skippingRuns.Visits visit visit')
    (hleft : left.SkipsQuiet) (hright : right.SkipsQuiet)
    (harmless : ∀ h, Harmless (visit right h)) {operator : Kind} {decisive : Bool}
    {join : Bool → Bool → Bool} (hop : Operator.logical? operator = some (decisive, join))
    (position : Option Position) (w : skippingRuns.World) (h : Handle) :
    skippingRuns.Coupled w Eq
      (logical { mode with shortCircuit := false } visit h operator decisive join left right
        position)
      (logical { mode with shortCircuit := true } visit' h operator decisive join left right
        position) := by
  refine .bind (visits ⟨rfl, hleft⟩ rfl) ?_
  intro x second same s t stores
  subst same
  simp only [Bool.false_eq_true, if_false, if_true]
  rcases logicalRest_cases (harmless h) operator join x position s with
    ⟨a, b, rfl, hrest⟩ | ⟨why, noReturn, hrest⟩
  · by_cases ha : a = decisive
    · subst ha
      rw [hrest, join_of_decisive hop]
      simp only [if_true]
      exact .done rfl stores
    · simp only [if_neg ha]
      exact Correspondence.Coupled.logicalRest visits rfl ⟨rfl, hright⟩ trivial operator join _ s t
        stores
  · rw [hrest]
    exact .gaveUp noReturn stores.2

theorem visits_skipping (mode : Mode) (depth : Nat) :
    skippingRuns.Visits (nested { mode with shortCircuit := false } depth)
      (nested { mode with shortCircuit := true } depth) := by
  let S := Simulation.matchedRuns (fun n n' => n = n' ∧ n.SkipsQuiet) (fun _ _ => True)
    (fun why => ∀ v, why ≠ .returned v) fun h => h _ rfl
  induction depth with
  | zero =>
      intro w n n' g h _ _ s t stores
      exact .gaveUp (fun _ => Stop.noConfusion) stores.2
  | succ depth ih =>
      rintro w n _ g _ ⟨rfl, hn⟩ rfl
      obtain ⟨quiet, below⟩ := everywhere_iff.mp hn
      unfold nested
      cases hskip : n.skippable? with
      | some right =>
          obtain ⟨operator, left, p, decisive, join, rfl, hop⟩ := skippable?_eq_some hskip
          rw [node_of_logical hop, node_of_logical hop]
          exact coupled_skip mode ih (below left List.mem_cons_self)
            (below right (List.mem_cons_of_mem _ List.mem_cons_self))
            (harmless_nested _ depth (quiet right hskip)) hop p w g
      | none =>
          rw [node_of_unskippable hskip mode false, node_of_unskippable hskip mode true]
          have alike : skippingRuns.Alike n n := .refl
            (fun child hchild => ⟨rfl, below child hchild⟩) (fun _ _ => trivial)
            (fun _ _ _ _ => trivial) fun h => ⟨rfl, h ▸ hn⟩
          exact S.coupled_node rfl rfl ih alike rfl

end

/-- Where the strict mode comes to a value, so does the other, with the same store. -/
theorem evaluate_skipping (mode : Mode) {tree : Node} (htree : tree.SkipsQuiet) (h : Handle)
    {s : Store} (stored : ∀ body ∈ s.bodies, body.SkipsQuiet) {v : Value}
    (hvalue : (evaluate { mode with shortCircuit := false } tree h s).1 = .value v) :
    evaluate { mode with shortCircuit := true } tree h s =
      evaluate { mode with shortCircuit := false } tree h s := by
  have ends := ends_of_visits (visits_skipping mode mode.depth) ⟨rfl, htree⟩
    (Store.matched_self fun body hbody => ⟨rfl, stored body hbody⟩) h
  simp only [evaluate_eq] at hvalue ⊢
  generalize nested { mode with shortCircuit := false } mode.depth tree h s = x at ends hvalue
  generalize nested { mode with shortCircuit := true } mode.depth tree h s = y at ends
  cases ends with
  | done results stores => rw [results, stores.1.eq fun _ _ same => same.1]
  | stopped stops stores =>
      rw [stores.1.eq fun _ _ same => same.1]
      cases stops with
      | returned => rfl
      | _ => cases hvalue
  | @gaveUp why _ _ noReturn left =>
      cases why with
      | returned v => exact absurd rfl (noReturn v)
      | _ => cases hvalue

/-- The program was read, and so were the functions in the store. If no right operand of `and` or
`or` assigns or calls, skipping refines strictness: where the strict mode comes to a value, the
other comes to the same value with the same output and the same scopes. So where that one does not
come to a value, the strict mode does not either. -/
theorem short_circuit_keeps_values (mode : Mode) (nesting : Nat) (source : List UInt8) (h : Handle)
    (s : Store) (program : (Parsed.ofBytes nesting source).tree.SkipsInert)
    (stored : ∀ body ∈ s.bodies, body.SkipsInert ∧
      ∃ nesting source, Within (Parsed.ofBytes nesting source).tree body) :
    let tree := (Parsed.ofBytes nesting source).tree
    let strict := evaluate { mode with shortCircuit := false } tree h s
    let skipping := evaluate { mode with shortCircuit := true } tree h s
    (∀ v, strict.1 = .value v → skipping = strict) ∧
      ((∀ v, skipping.1 ≠ .value v) → ∀ v, strict.1 ≠ .value v) := by
  intro tree strict skipping
  have htree : tree.SkipsQuiet := program.quiet (everywhere_composed_tree nesting source)
  have hstored : ∀ body ∈ s.bodies, body.SkipsQuiet := by
    intro body hbody
    obtain ⟨inert, nesting, source, within⟩ := stored body hbody
    exact inert.quiet ((everywhere_composed_tree nesting source).within within)
  have keeps : ∀ v, strict.1 = .value v → skipping = strict := fun v hvalue =>
    evaluate_skipping mode htree h hstored hvalue
  refine ⟨keeps, fun none v hvalue => none v ?_⟩
  rw [keeps v hvalue]
  exact hvalue

/-- The program `f() and x`, with a function from `fn f():ret x or x;` in the store. -/
theorem short_circuit_keeps_values_in_function :
    let earlier : List UInt8 :=
      [102, 110, 32, 102, 40, 41, 58, 114, 101, 116, 32, 120, 32, 111, 114, 32, 120, 59]
    let source : List UInt8 := [102, 40, 41, 32, 97, 110, 100, 32, 120]
    let body : Node := .block [.ret (.binary (.symbol .orWord) (.reference "x" (some ⟨1, 12⟩))
      (.reference "x" (some ⟨1, 17⟩)) (some ⟨1, 12⟩)) (some ⟨1, 8⟩)] (some ⟨1, 8⟩)
    let root : Scope Value Function := ⟨none, .ofList [("x", .boolean true)],
      .ofList [("f", .user ⟨"f", [], body, Arena.rootHandle⟩)]⟩
    let s : Store := ⟨⟨.ofList [(Arena.rootHandle, root)], 1⟩, ""⟩
    let tree := (Parsed.ofBytes 4 source).tree
    Within (Parsed.ofBytes 4 earlier).tree body ∧ tree.SkipsInert ∧
      (∀ body ∈ s.bodies, body.SkipsInert ∧
        ∃ nesting source, Within (Parsed.ofBytes nesting source).tree body) ∧
      (evaluate {} tree Arena.rootHandle s).1 = .value (.boolean true) ∧
      evaluate { shortCircuit := true } tree Arena.rootHandle s =
        evaluate {} tree Arena.rootHandle s := by
  intro earlier source body root s tree
  have hread : (Parsed.ofBytes 4 earlier).tree =
      .root [.function "f" [] body (some ⟨1, 1⟩)] (some ⟨1, 1⟩) := by
    unfold earlier body
    rfl
  have htree : tree = .root [.binary (.symbol .andWord) (.call "f" [] (some ⟨1, 1⟩))
      (.reference "x" (some ⟨1, 9⟩)) (some ⟨1, 1⟩)] (some ⟨1, 1⟩) := by
    unfold tree source
    rfl
  have skips : ∀ right ∈ (none : Option Node), right.Inert := fun _ h => by cases h
  have leaf : ∀ {n : Node}, n.children = [] → n.skippable? = none → n.SkipsInert := by
    intro n hleaf hnone
    refine .mk (hnone ▸ skips) ?_
    rw [hleaf]
    exact fun _ h => by cases h
  have operator : ∀ {operator : Kind} {left : Node} {name : String} {p q : Option Position},
      left.SkipsInert → (Node.binary operator left (.reference name p) q).SkipsInert := by
    intro operator left name p q hleft
    refine .mk ?_ (List.forall_mem_cons.mpr ⟨hleft, List.forall_mem_singleton.mpr (leaf rfl rfl)⟩)
    intro right h
    obtain ⟨_, _, _, _, _, hbinary, -⟩ := skippable?_eq_some h
    cases hbinary
    exact .mk rfl fun _ h => by cases h
  have hinert : tree.SkipsInert := by
    rw [htree]
    exact .mk skips (List.forall_mem_singleton.mpr (operator (leaf rfl rfl)))
  have hbody : body.SkipsInert :=
    .mk skips (List.forall_mem_singleton.mpr
      (.mk skips (List.forall_mem_singleton.mpr (operator (leaf rfl rfl)))))
  have hwithin : Within (Parsed.ofBytes 4 earlier).tree body := by
    rw [hread]
    exact .child (.child .top List.mem_cons_self) List.mem_cons_self
  have hstored : ∀ body ∈ s.bodies, body.SkipsInert ∧
      ∃ nesting source, Within (Parsed.ofBytes nesting source).tree body :=
    List.forall_mem_singleton.mpr ⟨hbody, 4, earlier, hwithin⟩
  have hvalue : (evaluate {} tree Arena.rootHandle s).1 = .value (.boolean true) := by
    rw [htree]
    rfl
  have keeps := short_circuit_keeps_values {} 4 source Arena.rootHandle s hinert hstored
  exact ⟨hwithin, hinert, hstored, hvalue, keeps.1 _ hvalue⟩

end Scriptlet
