import Scriptlet.Proofs.Evaluation.MatchedRuns
import Scriptlet.Proofs.Syntax.Printing

/-!
# Groups do nothing

A group is evaluated by evaluating what stands in it. So a program and its stored functions may lose
all their groups: only the places that errors name, and the depth that a run takes, can tell.
-/

namespace Scriptlet

open Eval

/-! ## Trees without their groups -/

/-- Runs of trees beside the same trees without their groups. -/
def ungroupedRuns : Correspondence :=
  matchedRuns (fun n n' => n' = n.ungrouped) (fun _ _ => True) (· = .tooDeep)

theorem ungrouped_form {n n' : Node} (h : n' = n.ungrouped) :
    ungroupedRuns.Alike n n' ∨ ∃ inner p, n = .group inner p ∧ n' = inner.ungrouped := by
  have form : ungroupedRuns.Alike n (n.mapParts id Node.ungrouped) :=
    .mapParts_right (fun _ _ => rfl) (fun _ _ => trivial) (fun _ _ => trivial)
      (fun _ _ _ _ => trivial) fun _ => rfl
  rw [h, Node.ungrouped, Node.rebuild_eq]
  cases n with
  | group inner p => exact .inr ⟨inner, p, rfl, rfl⟩
  | _ => exact .inl form

theorem ends_ungrouped (mode : Mode) {depth depth' : Nat} (enough : depth ≤ depth') (tree : Node)
    (h : Handle) (s : Store) :
    ungroupedRuns.Ends [] Eq (nested mode depth tree h s)
      (nested mode depth' tree.ungrouped h (s.mapBodies Node.ungrouped)) :=
  ends_of_visits (visits_deeper mode ungrouped_form enough) rfl
    (Store.matched_mapBodies_iff.mpr rfl) h

/-! ## Verdicts -/

namespace Verdict

def unplaced : Verdict → Verdict
  | .error e => .error { e with position := none }
  | verdict => verdict

def exhausted : Verdict → Bool
  | .error e => e.cause = .tooDeep
  | _ => false

end Verdict

theorem Outcome.ne_tooDeep {outcome : Outcome Value} {position : Option Position}
    (h : (outcome.verdict position).exhausted = false) : outcome ≠ .stopped .tooDeep := by
  rintro rfl
  cases h

/-- Runs that end alike come to the same verdict, wherever the two trees stand. -/
theorem Correspondence.Ends.unplaced {k : Node → Node} {E : Stop → Prop}
    {x y : Outcome Value × Store}
    (ends : (matchedRuns (fun n n' => n' = k n) (fun _ _ => True) E).Ends [] Eq x y)
    (hE : ∀ why, E why → x.1 ≠ .stopped why) (p q : Option Position) :
    (y.1.verdict q).unplaced = (x.1.verdict p).unplaced ∧ y.2 = x.2.mapBodies k := by
  cases ends with
  | done results stores =>
      cases results
      exact ⟨rfl, Store.matched_mapBodies_iff.mp stores.1⟩
  | gaveUp excuse left => exact absurd rfl (hE _ excuse)
  | stopped stops stores =>
      refine ⟨?_, Store.matched_mapBodies_iff.mp stores.1⟩
      cases stops <;> rfl

theorem unplaced_of_ends {x y : Outcome Value × Store} (ends : ungroupedRuns.Ends [] Eq x y)
    (hdeep : x.1 ≠ .stopped .tooDeep) (p q : Option Position) :
    (y.1.verdict q).unplaced = (x.1.verdict p).unplaced ∧
      y.2 = x.2.mapBodies Node.ungrouped :=
  ends.unplaced (fun _ excuse => excuse ▸ hdeep) p q

/-- Taking all groups out of a tree and out of the functions in the store changes nothing but the
places of errors: the verdict is the same, and so are the output, the variables of every scope and,
apart from their groups, its functions. The second run must not run out of depth, and never does if
it has as much as the first. -/
theorem grouping_is_transparent (mode : Mode) (depth : Nat) (tree : Node) (h : Handle) (s : Store)
    (first : (evaluate mode tree h s).1.exhausted = false)
    (second : mode.depth ≤ depth ∨ (evaluate { mode with depth := depth } tree.ungrouped h
      (s.mapBodies Node.ungrouped)).1.exhausted = false) :
    (evaluate { mode with depth := depth } tree.ungrouped h
        (s.mapBodies Node.ungrouped)).1.unplaced = (evaluate mode tree h s).1.unplaced ∧
      (evaluate { mode with depth := depth } tree.ungrouped h (s.mapBodies Node.ungrouped)).2 =
        (evaluate mode tree h s).2.mapBodies Node.ungrouped := by
  simp only [evaluate_eq, nested_withDepth] at first second ⊢
  have hfirst := Outcome.ne_tooDeep first
  rcases second with hle | hsecond
  · exact unplaced_of_ends (ends_ungrouped mode hle tree h s) hfirst _ _
  · -- With the depth of both runs together, the second goes the same way as it did.
    rw [← nested_deeper (Nat.le_max_right mode.depth depth) (Outcome.ne_tooDeep hsecond)]
    exact unplaced_of_ends (ends_ungrouped mode (Nat.le_max_left _ _) tree h s) hfirst _ _

/-- A group around a condition and one in a stored function. The condition is no boolean, and the
error moves from the group to the call inside; five levels are enough for it. -/
theorem grouping_is_transparent_around_condition :
    let body : Node := .block [.ret (.group (.reference "x" none) none) none] none
    let s := evaluateAll {} [.assign "x" (.string "a" none) false none, .function "f" [] body none]
      startStore
    let tree : Node := .ifThen (.group (.call "f" [] (some ⟨1, 5⟩)) (some ⟨1, 4⟩)) .blank none
    let first := evaluate {} tree Arena.rootHandle s
    let second := evaluate { depth := 5 } tree.ungrouped Arena.rootHandle
      (s.mapBodies Node.ungrouped)
    first.1.exhausted = false ∧ second.1.exhausted = false ∧
      second.1.unplaced = first.1.unplaced ∧ second.2 = first.2.mapBodies Node.ungrouped ∧
      first.1 = .error ⟨.condition "if" "string", some ⟨1, 4⟩⟩ ∧
      second.1 = .error ⟨.condition "if" "string", some ⟨1, 5⟩⟩ := by
  intro body s tree first second
  have hfirst : first.1.exhausted = false := rfl
  have hsecond : second.1.exhausted = false := rfl
  have same := grouping_is_transparent {} 5 tree Arena.rootHandle s hfirst (.inr hsecond)
  exact ⟨hfirst, hsecond, same.1, same.2, rfl, rfl⟩

end Scriptlet
