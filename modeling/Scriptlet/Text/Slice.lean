/-!
# Slices

A part of a list between two indices. An index below zero counts from the end, and one beyond
either end is taken for that end.
-/

namespace Scriptlet.Text

variable {α : Type}

/-- Where an index points in a list of the given length. -/
def offset (length : Nat) (index : Int) : Nat :=
  if index < 0 then (length + index).toNat else min index.toNat length

def slice (items : List α) (start stop : Int) : List α :=
  let first := offset items.length start
  (items.drop first).take (offset items.length stop - first)

def sliceFrom (items : List α) (start : Int) : List α := items.drop (offset items.length start)

theorem offset_ofNat (length index : Nat) : offset length index = min index length := by
  rw [offset, if_neg (by omega), Int.toNat_natCast]

end Scriptlet.Text
