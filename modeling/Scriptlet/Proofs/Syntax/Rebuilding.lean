import Scriptlet.Tree.Node

/-!
# Trees rebuilt from their leaves

To change a tree all over is always the same recursion: first the children are changed, and then the
node that holds them. A change is given by what it does to the place of a node and to one node whose
children have been changed.
-/

namespace Scriptlet.Node

/-- The same node at another place and over other children. -/
def mapParts (place : Option Position → Option Position) (f : Node → Node) : Node → Node
  | .root xs p => .root (xs.map f) (place p)
  | .block xs p => .block (xs.map f) (place p)
  | .number x p => .number x (place p)
  | .boolean b p => .boolean b (place p)
  | .string s p => .string s (place p)
  | .nil p => .nil (place p)
  | .reference name p => .reference name (place p)
  | .group x p => .group (f x) (place p)
  | .unary operator x p => .unary operator (f x) (place p)
  | .binary operator x y p => .binary operator (f x) (f y) (place p)
  | .assign name x outer p => .assign name (f x) outer (place p)
  | .ifThen c x p => .ifThen (f c) (f x) (place p)
  | .ifElse c x y p => .ifElse (f c) (f x) (f y) (place p)
  | .whileLoop c x p => .whileLoop (f c) (f x) (place p)
  | .function name params x p => .function name params (f x) (place p)
  | .call name xs p => .call name (xs.map f) (place p)
  | .ret x p => .ret (f x) (place p)
  | .blank => .blank

mutual

/-- The tree with `f` applied to all its nodes, the children of a node before the node itself. -/
def rebuild (place : Option Position → Option Position) (f : Node → Node) : Node → Node
  | .root xs p => f (.root (rebuildAll place f xs) (place p))
  | .block xs p => f (.block (rebuildAll place f xs) (place p))
  | .number x p => f (.number x (place p))
  | .boolean b p => f (.boolean b (place p))
  | .string s p => f (.string s (place p))
  | .nil p => f (.nil (place p))
  | .reference name p => f (.reference name (place p))
  | .group x p => f (.group (rebuild place f x) (place p))
  | .unary operator x p => f (.unary operator (rebuild place f x) (place p))
  | .binary operator x y p =>
      f (.binary operator (rebuild place f x) (rebuild place f y) (place p))
  | .assign name x outer p => f (.assign name (rebuild place f x) outer (place p))
  | .ifThen c x p => f (.ifThen (rebuild place f c) (rebuild place f x) (place p))
  | .ifElse c x y p =>
      f (.ifElse (rebuild place f c) (rebuild place f x) (rebuild place f y) (place p))
  | .whileLoop c x p => f (.whileLoop (rebuild place f c) (rebuild place f x) (place p))
  | .function name params x p => f (.function name params (rebuild place f x) (place p))
  | .call name xs p => f (.call name (rebuildAll place f xs) (place p))
  | .ret x p => f (.ret (rebuild place f x) (place p))
  | .blank => f .blank

def rebuildAll (place : Option Position → Option Position) (f : Node → Node) :
    List Node → List Node
  | [] => []
  | x :: xs => rebuild place f x :: rebuildAll place f xs

end

variable {place place' : Option Position → Option Position} {f g : Node → Node}

/-! ## One node -/

@[simp] theorem children_mapParts (n : Node) :
    (n.mapParts place f).children = n.children.map f := by
  cases n <;> rfl

theorem position_mapParts (unplaced : place none = none) (n : Node) :
    (n.mapParts place f).position = place n.position := by
  cases n with
  | blank => exact unplaced.symm
  | _ => rfl

theorem mapParts_mapParts (n : Node) :
    (n.mapParts place f).mapParts place' g = n.mapParts (place' ∘ place) (g ∘ f) := by
  cases n <;> simp [mapParts]

theorem mapParts_eq_self {n : Node} (same : ∀ c ∈ n.children, f c = c) : n.mapParts id f = n := by
  cases n with
  | root xs | block xs | call _ xs =>
      have hxs : xs.map f = xs := (List.map_congr_left same).trans (List.map_id xs)
      simp only [mapParts, hxs, id]
  | _ => simp_all [mapParts, children]

@[simp] theorem mapParts_id (n : Node) : n.mapParts id id = n :=
  mapParts_eq_self fun _ _ => rfl

theorem mapParts_congr {n : Node} (same : ∀ c ∈ n.children, f c = g c) :
    n.mapParts place f = n.mapParts place g := by
  cases n with
  | root xs | block xs | call _ xs =>
      have hxs : xs.map f = xs.map g := List.map_congr_left same
      simp only [mapParts, hxs]
  | _ => simp_all [mapParts, children]

/-! ## Whole trees -/

theorem rebuildAll_eq_map (xs : List Node) :
    rebuildAll place f xs = xs.map (rebuild place f) := by
  induction xs with
  | nil => rfl
  | cons x xs ih => rw [rebuildAll, ih, List.map_cons]

theorem rebuild_eq (n : Node) :
    n.rebuild place f = f (n.mapParts place (rebuild place f)) := by
  cases n with
  | root xs | block xs | call _ xs =>
      rw [rebuild, rebuildAll_eq_map]
      rfl
  | _ => rfl

/-- A change after which `f` sees no difference is undone by `f`. -/
theorem rebuild_rebuild (unseen : ∀ n : Node, (g n).rebuild id f = n.rebuild id f) (n : Node) :
    (n.rebuild id g).rebuild id f = n.rebuild id f := by
  induction n using induction_children with
  | step n ih =>
      rw [rebuild_eq n, unseen, rebuild_eq, mapParts_mapParts, rebuild_eq n]
      exact congrArg f (mapParts_congr ih)

/-- What becomes of the places and what `f` does can be done in either order. -/
theorem rebuild_comm (apart : ∀ n : Node,
      (f n).rebuild place id = f (n.mapParts place (rebuild place id))) (n : Node) :
    (n.rebuild id f).rebuild place id = (n.rebuild place id).rebuild id f := by
  induction n using induction_children with
  | step n ih =>
      rw [rebuild_eq n, apart, mapParts_mapParts, rebuild_eq n, rebuild_eq (id _), id_eq,
        mapParts_mapParts]
      exact congrArg f (mapParts_congr ih)

end Scriptlet.Node
