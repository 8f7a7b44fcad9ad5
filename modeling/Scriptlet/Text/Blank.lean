/-!
# White space and line breaks
-/

namespace Scriptlet.Text

/-- The white space of Unicode, with the four information separators of ASCII. -/
def isBlank (c : Char) : Bool :=
  let n := c.toNat
  (9 ≤ n && n ≤ 13) || (28 ≤ n && n ≤ 32) || n == 0x85 || n == 0xA0 || n == 0x1680 ||
    (0x2000 ≤ n && n ≤ 0x200A) || n == 0x2028 || n == 0x2029 || n == 0x202F || n == 0x205F ||
    n == 0x3000

/-- The pieces between the items that are `mark`; there is always at least one. -/
def splitAt {α : Type} [DecidableEq α] (mark : α) : List α → List (List α)
  | [] => [[]]
  | c :: rest =>
      if c = mark then [] :: splitAt mark rest
      else
        match splitAt mark rest with
        | [] => [[c]]
        | line :: lines => (c :: line) :: lines

abbrev splitLines (cs : List Char) : List (List Char) := splitAt '\n' cs

/-- A carriage return, alone or before a line feed, is read as a line feed. -/
def unifyNewlines : List Char → List Char
  | [] => []
  | '\r' :: '\n' :: rest => '\n' :: unifyNewlines rest
  | c :: rest => (if c = '\r' then '\n' else c) :: unifyNewlines rest

theorem splitAt_ne_nil {α : Type} [DecidableEq α] (mark : α) (cs : List α) :
    splitAt mark cs ≠ [] := by
  cases cs with
  | nil => simp [splitAt]
  | cons c rest =>
      simp only [splitAt]
      split
      · simp
      · split <;> simp

end Scriptlet.Text
