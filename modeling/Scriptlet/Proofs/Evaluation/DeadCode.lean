import Scriptlet.Proofs.Evaluation.Returning
import Scriptlet.Proofs.Syntax.Expressions

/-!
# Statements after a return

A `ret` never lets its sequence go on. So all that stands behind one in a sequence may be deleted,
in a tree and in the functions that a store holds, and no run can tell.
-/

namespace Scriptlet

open Eval

/-! ## Trees that end at their returns -/

namespace Node

def isReturn : Node → Bool
  | .ret .. => true
  | _ => false

def upToReturn : List Node → List Node
  | [] => []
  | x :: xs => x :: if x.isReturn then [] else upToReturn xs

def endAtReturn : Node → Node
  | .root xs p => .root (upToReturn xs) p
  | .block xs p => .block (upToReturn xs) p
  | n => n

/-- The tree without the statements that follow a `ret` of their sequence. -/
def pruned : Node → Node := rebuild id endAtReturn

theorem pruned_eq (n : Node) : n.pruned = (n.mapParts id pruned).endAtReturn := rebuild_eq n

theorem upToReturn_begins (xs : List Node) : upToReturn xs <+: xs := by
  induction xs with
  | nil => exact List.prefix_refl _
  | cons x xs ih =>
      rw [upToReturn]
      cases x.isReturn with
      | true => exact List.prefix_iff_eq_append.mpr rfl
      | false => exact List.prefix_cons_inj x |>.mpr ih

theorem position_pruned (n : Node) : n.pruned.position = n.position := by
  cases n <;> rfl

theorem isReturn_pruned (n : Node) : n.pruned.isReturn = n.isReturn := by
  cases n <;> rfl

def EndsAtReturn (n : Node) : Prop :=
  ∀ before x after, n.statements = before ++ x :: after → x.isReturn = true → after = []

theorem upToReturn_endsAtReturn {xs before after : List Node} {x : Node}
    (h : upToReturn xs = before ++ x :: after) (hx : x.isReturn = true) : after = [] := by
  induction xs generalizing before with
  | nil => cases before <;> cases h
  | cons y xs ih =>
      rw [upToReturn] at h
      cases before with
      | nil =>
          obtain ⟨rfl, hafter⟩ := List.cons.inj h
          rw [hx] at hafter
          exact hafter.symm
      | cons z before =>
          have hrest := (List.cons.inj h).2
          cases hy : y.isReturn with
          | true =>
              rw [hy] at hrest
              cases before <;> cases hrest
          | false =>
              rw [hy] at hrest
              exact ih hrest

theorem mem_children_endAtReturn {n child : Node} (h : child ∈ n.endAtReturn.children) :
    child ∈ n.children := by
  cases n with
  | root xs p | block xs p => exact (upToReturn_begins xs).subset h
  | _ => exact h

theorem endAtReturn_endsAtReturn (n : Node) : EndsAtReturn n.endAtReturn := by
  intro before x after hsplit hx
  cases n with
  | root xs p | block xs p => exact upToReturn_endsAtReturn hsplit hx
  | _ => cases before <;> cases hsplit

theorem everywhere_pruned (n : Node) : Everywhere EndsAtReturn n.pruned := by
  induction n using induction_children with
  | step n ih =>
      rw [pruned_eq]
      refine .mk (endAtReturn_endsAtReturn _) fun child hchild => ?_
      have hmem := mem_children_endAtReturn hchild
      rw [children_mapParts] at hmem
      obtain ⟨c, hc, rfl⟩ := List.mem_map.mp hmem
      exact ih c hc

end Node

/-! ## Runs of pruned trees -/

/-- Runs of trees beside the same trees without the statements that follow a `ret`. -/
def prunedRuns : Correspondence :=
  matchedRuns (fun n n' => n' = n.pruned) Eq fun _ => False

theorem nested_ne_done_of_isReturn {n : Node} (hn : n.isReturn = true) (mode : Mode) (depth : Nat)
    (h : Handle) (s : Store) (a : Value) (t : Store) : nested mode depth n h s ≠ (.done a, t) := by
  cases n with
  | ret x p =>
      cases depth with
      | zero => nofun
      | succ depth =>
          intro run
          obtain ⟨_, _, _, stopped⟩ := bind_eq_done_iff.mp run
          cases stopped
  | _ => cases hn

/-- Both sequences go the same way up to the first `ret`, which neither gets past. -/
theorem coupled_prunedSequence {mode : Mode} {depth : Nat}
    (visits : prunedRuns.Visits (nested mode depth) (nested mode depth)) {w : prunedRuns.World}
    (h : Handle) (xs : List Node) (value : Value) :
    prunedRuns.Coupled w Eq (sequence (nested mode depth) h value xs)
      (sequence (nested mode depth) h value (Node.upToReturn (xs.map Node.pruned))) := by
  induction xs generalizing value with
  | nil => exact .pure rfl
  | cons x xs ih =>
      have first : prunedRuns.Coupled w Eq (nested mode depth x h) (nested mode depth x.pruned h) :=
        visits rfl rfl
      cases hx : x.isReturn with
      | false =>
          rw [List.map_cons, Node.upToReturn, Node.isReturn_pruned, hx]
          refine .bind first ?_
          rintro a _ rfl
          exact ih a
      | true =>
          have never : prunedRuns.Coupled w (fun _ _ => False) (nested mode depth x h)
              (nested mode depth x.pruned h) := by
            intro s t stores
            have ends := first s t stores
            generalize hrun : nested mode depth x h s = run at ends
            generalize nested mode depth x.pruned h t = run' at ends
            cases ends with
            | done => exact absurd hrun (nested_ne_done_of_isReturn hx mode depth h s _ _)
            | stopped stops stores => exact .stopped stops stores
            | gaveUp excuse left => exact .gaveUp excuse left
          rw [List.map_cons, Node.upToReturn, Node.isReturn_pruned, hx]
          exact .bind never fun _ _ impossible => impossible.elim

theorem visits_pruned (mode : Mode) (depth : Nat) :
    prunedRuns.Visits (nested mode depth) (nested mode depth) := by
  let S := Simulation.matchedRuns (fun n n' => n' = n.pruned) Eq (fun _ => False) id
  induction depth with
  | zero => exact fun _ _ => .stop .tooDeep
  | succ depth ih =>
      have visits : S.Visits (nested mode depth) (nested mode depth) := ih
      have form (n : Node) : S.Alike n (n.mapParts id Node.pruned) :=
        .mapParts_right (fun _ _ => rfl) (fun _ _ => rfl) (fun c _ => c.position_pruned.symm)
          (fun _ _ _ _ => trivial) fun _ => rfl
      rintro w n _ h _ rfl rfl
      rw [Node.pruned_eq]
      cases n with
      | root xs p => exact coupled_prunedSequence ih h xs .nil
      | block xs p =>
          refine S.coupled_inChild rfl ?_
          rintro w' child _ rfl
          exact coupled_prunedSequence ih child xs .nil
      | _ => exact S.coupled_node rfl rfl visits (form _) rfl

theorem nested_pruned (mode : Mode) (depth : Nat) (n : Node) (h : Handle) (s : Store) :
    nested mode depth n.pruned h (s.mapBodies Node.pruned) =
      ((nested mode depth n h s).1, (nested mode depth n h s).2.mapBodies Node.pruned) := by
  have ends : prunedRuns.Ends [] Eq (nested mode depth n h s)
      (nested mode depth n.pruned h (s.mapBodies Node.pruned)) :=
    ends_of_visits (visits_pruned mode depth) rfl (Store.matched_mapBodies_iff.mpr rfl) h
  generalize nested mode depth n h s = x at ends
  generalize nested mode depth n.pruned h (s.mapBodies Node.pruned) = y at ends
  cases ends with
  | done results stores => rw [results, Store.matched_mapBodies_iff.mp stores.1]
  | gaveUp excuse left => exact excuse.elim
  | stopped stops stores =>
      rw [Store.matched_mapBodies_iff.mp stores.1]
      cases stops with
      | failed places => rw [places]
      | returned | scopeFault | meaningless | tooDeep | tooLong => rfl

theorem evaluate_pruned (mode : Mode) (tree : Node) (h : Handle) (s : Store) :
    evaluate mode tree.pruned h (s.mapBodies Node.pruned) =
      ((evaluate mode tree h s).1, (evaluate mode tree h s).2.mapBodies Node.pruned) := by
  rw [evaluate_eq, evaluate_eq, nested_pruned, Node.position_pruned]

theorem evaluate_of_returns {mode : Mode} {tree : Node} {h : Handle} {s t : Store} {v : Value}
    (returns : Returns mode mode.depth tree h s v t) : evaluate mode tree h s = (.value v, t) := by
  unfold evaluate
  rw [show nested mode mode.depth tree h s = _ from nested_unwinds_iff.mpr returns]

/-- What follows a `ret` in its sequence is dead, in a tree as in every stored function: without it
a run has the same verdict, output and variables, and the same functions apart from what they lose.
For a `ret` goes up through every node around it, until it gives its value to the call whose body it
stands in, or to the whole tree if there is none. A call passes on nothing but what comes out of its
arguments. -/
theorem code_after_return_is_dead (mode : Mode) :
    (∀ tree h s, Node.Everywhere Node.EndsAtReturn tree.pruned ∧
      evaluate mode tree.pruned h (s.mapBodies Node.pruned) =
        ((evaluate mode tree h s).1, (evaluate mode tree h s).2.mapBodies Node.pruned)) ∧
    (∀ depth n h s v t, (nested mode depth n h).Unwinds s v t ↔ Returns mode depth n h s v t) ∧
    (∀ tree h s v t, Returns mode mode.depth tree h s v t →
      evaluate mode tree h s = (.value v, t)) ∧
    (∀ depth name xs position h s f args s₁ child s' v t,
      s.scopes.lookupFunction h name = .ok (.user f) →
      arguments (nested mode depth) h xs s = (.done args, s₁) → Enters f args s₁ child s' →
      Returns mode depth f.body child s' v t →
      ∃ t', discard child t = (.done (), t') ∧
        nested mode (depth + 1) (.call name xs position) h s = (.done v, t')) ∧
    ∀ depth name xs position h s v t,
      Returns mode (depth + 1) (.call name xs position) h s v t →
      (arguments (nested mode depth) h xs).Unwinds s v t := by
  refine ⟨fun tree h s => ⟨tree.everywhere_pruned, evaluate_pruned mode tree h s⟩, ?_, ?_, ?_, ?_⟩
  · exact fun _ _ _ _ _ _ => nested_unwinds_iff
  · exact fun _ _ _ _ _ => evaluate_of_returns
  · intro depth name xs position h s f args s₁ child s' v t found passed enters returns
    exact call_of_returns found passed enters returns position
  · intro depth name xs position h s v t returns
    exact (call_unwinds_iff.mp (nested_unwinds_iff.mpr returns)).2

/-- The `ret` of the function stands in a loop and that of the program in a condition; both have
statements behind them. -/
theorem code_after_return_is_dead_in_loop :
    let loop : Node := .whileLoop (.boolean true none)
      (.block [.ret (.reference "x" none) none, .call "print" [.reference "x" none] none] none) none
    let f : UserFunction := ⟨"f", ["x"], .block [loop] none, Arena.rootHandle⟩
    let s := evaluateAll {} [.function "f" ["x"] f.body none] startStore
    let call : Node := .call "f" [.string "a" none] none
    let tree : Node := .root [.assign "y" call false none,
      .ifThen (.boolean true none)
        (.block [.ret (.reference "y" none) none, .assign "y" (.nil none) false none] none) none,
      .assign "y" (.nil none) false none] none
    let mode : Mode := { depth := 9, rounds := 2 }
    let run := evaluate mode tree Arena.rootHandle s
    evaluate mode tree.pruned Arena.rootHandle (s.mapBodies Node.pruned) =
        (run.1, run.2.mapBodies Node.pruned) ∧
      (∃ t, Returns mode 9 tree Arena.rootHandle s (.string "a") t ∧
        run = (.value (.string "a"), t)) ∧
      ∃ child s' t t', Enters f [.string "a"] s child s' ∧
        Returns mode 6 f.body child s' (.string "a") t ∧
        nested mode 7 call Arena.rootHandle s = (.done (.string "a"), t') := by
  intro loop f s call tree mode run
  obtain ⟨dead, unwinds, top, calls, _⟩ := code_after_return_is_dead mode
  have outcome : (nested mode 9 tree Arena.rootHandle s).1 =
      .stopped (.returned (.string "a")) := by
    unfold mode tree call s f loop
    rfl
  have returns := (unwinds _ _ _ _ _ _).mp (unwinds_of_outcome outcome)
  refine ⟨(dead tree Arena.rootHandle s).2, ⟨_, returns, top _ _ _ _ _ returns⟩, ?_⟩
  have found : s.scopes.lookupFunction Arena.rootHandle "f" = .ok (.user f) := by
    unfold s f loop
    rfl
  have enters : Enters f [.string "a"] s 1 (bindAll 1 f.params [.string "a"]
      { s with scopes := s.scopes.grown Arena.rootHandle }).2 := by
    refine ⟨rfl, s.scopes.grown Arena.rootHandle, ?_, ?_⟩
    · unfold s f loop
      rfl
    · unfold s f loop
      rfl
  have within : (nested mode 6 f.body 1 (bindAll 1 f.params [.string "a"]
      { s with scopes := s.scopes.grown Arena.rootHandle }).2).1 =
      .stopped (.returned (.string "a")) := by
    unfold mode s f loop
    rfl
  have inner := (unwinds _ _ _ _ _ _).mp (unwinds_of_outcome within)
  obtain ⟨t', _, result⟩ := calls 6 "f" [.string "a" none] none Arena.rootHandle s f [.string "a"] s
    1 _ (.string "a") _ found rfl enters inner
  exact ⟨1, _, _, t', enters, inner, result⟩

end Scriptlet
