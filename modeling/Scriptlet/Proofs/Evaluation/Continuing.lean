import Scriptlet.Proofs.Evaluation.Grouping
import Scriptlet.Proofs.Evaluation.Returning
import Scriptlet.Proofs.Syntax.Joining

/-!
# Going on where a program ended

A program that ends with a value leaves its scopes as the next one finds them. So two programs that
are run one after the other do the same as their statements do in one sequence. Where the nodes of
a tree stand matters for the places of errors alone.
-/

namespace Scriptlet

open Eval

open Node (SameShape SameShapes)

/-! ## Trees without positions -/

/-- Runs of trees beside the same trees without positions. -/
def bareRuns : Correspondence :=
  matchedRuns (fun n n' => n' = n.bare) (fun _ _ => True) fun _ => False

theorem bareRuns_alike {n n' : Node} (h : n' = n.bare) : bareRuns.Alike n n' := by
  rw [h, Node.bare, Node.rebuild_eq]
  exact .mapParts_right (fun _ _ => rfl) (fun _ _ => trivial) (fun _ _ => trivial)
    (fun _ _ _ _ => trivial) fun _ => rfl

theorem evaluate_bare (mode : Mode) (tree : Node) (h : Handle) (s : Store) :
    (evaluate mode tree.bare h (s.mapBodies Node.bare)).1.unplaced =
        (evaluate mode tree h s).1.unplaced ∧
      (evaluate mode tree.bare h (s.mapBodies Node.bare)).2 =
        (evaluate mode tree h s).2.mapBodies Node.bare := by
  let S := Simulation.matchedRuns (fun n n' => n' = n.bare) (fun _ _ => True) (fun _ => False) id
  have visits : bareRuns.Visits (nested mode mode.depth) (nested mode mode.depth) :=
    S.visits_nested bareRuns_alike mode mode.depth
  have ends : bareRuns.Ends [] Eq (nested mode mode.depth tree h s)
      (nested mode mode.depth tree.bare h (s.mapBodies Node.bare)) :=
    ends_of_visits visits rfl (Store.matched_mapBodies_iff.mpr rfl) h
  rw [evaluate_eq, evaluate_eq]
  exact ends.unplaced (fun _ excuse => excuse.elim) _ _

theorem evaluate_sameShape (mode : Mode) {tree tree' : Node} (same : SameShape tree tree')
    (h : Handle) (s : Store) :
    (evaluate mode tree h s).1.unplaced = (evaluate mode tree' h s).1.unplaced ∧
      (evaluate mode tree h s).2.mapBodies Node.bare =
        (evaluate mode tree' h s).2.mapBodies Node.bare := by
  have first := evaluate_bare mode tree h s
  have second := evaluate_bare mode tree' h s
  rw [show tree.bare = tree'.bare from same] at first
  exact ⟨first.1.symm.trans second.1, first.2.symm.trans second.2⟩

/-! ## Two programs in turn -/

theorem sequence_ignores_value {visit : Visit} {h : Handle} {xs : List Node} (hxs : xs ≠ [])
    (v v' : Value) : sequence visit h v xs = sequence visit h v' xs := by
  cases xs with
  | nil => exact absurd rfl hxs
  | cons x xs => rfl

/-- A program that ends with a value, and without a `ret`, has gone through all its statements. -/
theorem nested_of_value {mode : Mode} {tree : Node} {h : Handle} {s t : Store} {v : Value}
    (value : evaluate mode tree h s = (.value v, t))
    (noReturn : ∀ v t, ¬ Returns mode mode.depth tree h s v t) :
    nested mode mode.depth tree h s = (.done v, t) := by
  rw [evaluate_eq] at value
  generalize hrun : nested mode mode.depth tree h s = run at value
  obtain ⟨outcome, t'⟩ := run
  cases outcome with
  | done a =>
      cases value
      rfl
  | stopped why =>
      cases why with
      | returned a => exact absurd (nested_unwinds_iff.mp hrun) (noReturn a t')
      | _ => cases value

theorem evaluate_of_done {mode : Mode} {tree : Node} {h : Handle} {s : Store} {v : Value}
    (done : (nested mode mode.depth tree h s).1 = .done v) :
    evaluate mode tree h s = (.value v, (evaluate mode tree h s).2) := by
  refine Prod.ext ?_ rfl
  rw [evaluate_eq, done]
  rfl

theorem Outcome.unplaced_verdict (outcome : Outcome Value) (p q : Option Position) :
    (outcome.verdict p).unplaced = (outcome.verdict q).unplaced := by
  cases outcome with
  | done v => rfl
  | stopped why => cases why <;> rfl

/-- Where the first of two programs ends, the statements of the second go on. Without any, the value
of the first remains. -/
theorem evaluate_append {mode : Mode} {xs ys : List Node} {p : Option Position} {h : Handle}
    {s t : Store} {v : Value} (first : nested mode mode.depth (.root xs p) h s = (.done v, t))
    (q r : Option Position) :
    (evaluate mode (.root (xs ++ ys) q) h s).1.unplaced =
        (if ys = [] then .value v else (evaluate mode (.root ys r) h t).1.unplaced) ∧
      (evaluate mode (.root (xs ++ ys) q) h s).2 = (evaluate mode (.root ys r) h t).2 := by
  rw [evaluate_eq, evaluate_eq]
  generalize mode.depth = depth at first
  cases depth with
  | zero => cases first
  | succ depth =>
      have run : nested mode (depth + 1) (.root (xs ++ ys) q) h s =
          sequence (nested mode depth) h v ys t := by
        change sequence (nested mode depth) h .nil (xs ++ ys) s = _
        rw [sequence_append]
        exact bind_of_done first
      rw [run]
      by_cases hys : ys = []
      · subst hys
        exact ⟨rfl, rfl⟩
      · rw [if_neg hys, sequence_ignores_value hys v .nil]
        exact ⟨Outcome.unplaced_verdict _ _ _, rfl⟩

/-- A source that ends, and not in a comma, may be joined by a comma to a second one. The result is
read as the statements of both in turn. If the first ends with a value that no `ret` has given, the
result does what the second does afterwards: it comes to the same verdict and leaves the same store,
up to positions. Only if the second is empty does the value of the first remain. -/
theorem joined_source_runs_in_turn (nesting : Nat) (a b : List UInt8)
    (ha : (Parsed.ofBytes nesting a).error = none) (hb : (Parsed.ofBytes nesting b).error = none)
    (hlast : ∃ t, (Scan.ofBytes a).tokens.getLast? = some t ∧ t.lexeme ≠ .symbol .comma) :
    let first := (Parsed.ofBytes nesting a).tree
    let second := (Parsed.ofBytes nesting b).tree
    let whole := Parsed.ofBytes nesting (joined a b)
    whole.error = none ∧
      SameShape (.root (first.statements ++ second.statements) none) whole.tree ∧
      ∀ mode h s v s₁, evaluate mode first h s = (.value v, s₁) →
        (∀ v t, ¬ Returns mode mode.depth first h s v t) →
        (evaluate mode whole.tree h s).1.unplaced =
            (if second.statements = [] then .value v else (evaluate mode second h s₁).1.unplaced) ∧
          (evaluate mode whole.tree h s).2.mapBodies Node.bare =
            (evaluate mode second h s₁).2.mapBodies Node.bare := by
  intro first second whole
  obtain ⟨herror, hshape⟩ := Parsed.ofBytes_joined ha hb hlast
  refine ⟨herror, hshape, fun mode h s v s₁ value noReturn => ?_⟩
  obtain ⟨xs, _, _, _, hfirst⟩ := Parsed.exists_statements ha
  obtain ⟨ys, _, _, _, hsecond⟩ := Parsed.exists_statements hb
  have hdone : nested mode mode.depth first h s = (.done v, s₁) := nested_of_value value noReturn
  have same := evaluate_sameShape mode hshape h s
  rw [hfirst, hsecond] at same
  rw [show first = _ from hfirst] at hdone
  rw [show second = _ from hsecond]
  obtain ⟨verdict, store⟩ := evaluate_append hdone none (ys.head?.bind Node.position)
  exact ⟨same.1.symm.trans verdict, same.2.symm.trans (congrArg _ store)⟩

/-- The sources are `y=true,x=y` and `(z)`. With no comma between them `y` would be called. The
error for `z` moves to the second line. -/
theorem joined_source_runs_in_turn_to_error :
    let a : List UInt8 := [121, 61, 116, 114, 117, 101, 44, 120, 61, 121]
    let b : List UInt8 := [40, 122, 41]
    let mode : Mode := { depth := 5 }
    let first := (Parsed.ofBytes 1 a).tree
    let second := (Parsed.ofBytes 1 b).tree
    let whole := (Parsed.ofBytes 1 (joined a b)).tree
    let middle := (evaluate mode first Arena.rootHandle startStore).2
    evaluate mode first Arena.rootHandle startStore = (.value .nil, middle) ∧
      (evaluate mode second Arena.rootHandle middle).1 =
        .error ⟨.undefinedVariable "z", some ⟨1, 2⟩⟩ ∧
      (evaluate mode whole Arena.rootHandle startStore).1.unplaced =
        .error ⟨.undefinedVariable "z", none⟩ ∧
      (evaluate mode whole Arena.rootHandle startStore).2.mapBodies Node.bare =
        (evaluate mode second Arena.rootHandle middle).2.mapBodies Node.bare := by
  intro a b mode first second whole middle
  have outcome : (nested mode 5 first Arena.rootHandle startStore).1 = .done .nil := by
    unfold mode first a
    rfl
  have value : evaluate mode first Arena.rootHandle startStore = (.value .nil, middle) :=
    evaluate_of_done outcome
  have failed : (evaluate mode second Arena.rootHandle middle).1 =
      .error ⟨.undefinedVariable "z", some ⟨1, 2⟩⟩ := by
    unfold middle mode first second a b
    rfl
  have noReturn (v : Value) (t : Store) :
      ¬ Returns mode 5 first Arena.rootHandle startStore v t := by
    intro returns
    have stopped := congrArg Prod.fst (nested_unwinds_iff.mpr returns)
    rw [outcome] at stopped
    cases stopped
  have turn := joined_source_runs_in_turn 1 a b (by decide) (by decide)
    ⟨⟨.identifier "y", ⟨1, 10⟩⟩, by decide +kernel, by decide⟩
  obtain ⟨verdict, store⟩ := turn.2.2 mode Arena.rootHandle startStore .nil middle value noReturn
  refine ⟨value, failed, verdict.trans ?_, store⟩
  rw [if_neg (by unfold b; nofun), failed]
  rfl

end Scriptlet
