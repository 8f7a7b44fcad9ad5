import Mathlib.Data.List.DropRight
import Mathlib.Data.List.Induction
import Scriptlet.Text.Blank

/-!
# Lines of a text

A text is its lines with a line feed between each two of them. Trimming a line takes blanks from its
ends and nothing else.
-/

namespace Scriptlet.Text

/-! ## Joining lines -/

/-- The lines with a line feed between each two of them. -/
def joinLines : List (List Char) → List Char
  | [] => []
  | [line] => line
  | line :: next :: rest => line ++ '\n' :: joinLines (next :: rest)

theorem joinLines_cons (line : List Char) {rest : List (List Char)} (h : rest ≠ []) :
    joinLines (line :: rest) = line ++ '\n' :: joinLines rest := by
  cases rest with
  | nil => exact absurd rfl h
  | cons next rest => rfl

theorem joinLines_append {front back : List (List Char)} (hfront : front ≠ []) (hback : back ≠ []) :
    joinLines (front ++ back) = joinLines front ++ '\n' :: joinLines back := by
  induction front with
  | nil => exact absurd rfl hfront
  | cons line rest ih =>
      by_cases hrest : rest = []
      · subst hrest
        exact joinLines_cons line hback
      · have behind : rest ++ back ≠ [] := by simp [hrest]
        rw [List.cons_append, joinLines_cons line behind, joinLines_cons line hrest, ih hrest,
          List.append_assoc, List.cons_append]

theorem joinLines_splitLines (cs : List Char) : joinLines (splitLines cs) = cs := by
  induction cs with
  | nil => rfl
  | cons c rest ih =>
      unfold splitLines splitAt
      by_cases hc : c = '\n'
      · rw [if_pos hc, joinLines_cons [] (splitAt_ne_nil _ rest), ← splitLines, ih, hc]
        rfl
      · rw [if_neg hc]
        cases hsplit : splitAt '\n' rest with
        | nil => exact absurd hsplit (splitAt_ne_nil _ rest)
        | cons line lines =>
            rw [splitLines, hsplit] at ih
            dsimp only
            rw [← ih]
            cases lines with
            | nil => rfl
            | cons next lines => rfl

/-! ## Trimming -/

def trimEndChars (cs : List Char) : List Char := cs.rdropWhile isBlank

def trimChars (cs : List Char) : List Char := (trimEndChars cs).dropWhile isBlank

theorem exists_trimmed (cs : List Char) :
    ∃ front back, cs = front ++ trimChars cs ++ back ∧ (∀ c ∈ front, isBlank c = true) ∧
      ∀ c ∈ back, isBlank c = true := by
  refine ⟨(trimEndChars cs).takeWhile isBlank, cs.rtakeWhile isBlank, ?_, ?_, ?_⟩
  · have start : (trimEndChars cs).takeWhile isBlank ++ trimChars cs = trimEndChars cs :=
      List.takeWhile_append_dropWhile
    rw [start, trimEndChars, List.rdropWhile_append_rtakeWhile]
  · exact fun c hc => List.mem_takeWhile_imp hc
  · exact fun c hc => List.mem_rtakeWhile_imp hc

theorem trimChars_eq_nil_iff {cs : List Char} : trimChars cs = [] ↔ ∀ c ∈ cs, isBlank c = true := by
  constructor
  · intro h
    obtain ⟨front, back, hcs, hfront, hback⟩ := exists_trimmed cs
    rw [h, List.append_nil] at hcs
    rw [hcs]
    exact fun c hc => (List.mem_append.mp hc).elim (hfront c) (hback c)
  · intro h
    have nothing : trimEndChars cs = [] := List.rdropWhile_eq_nil_iff.mpr h
    rw [trimChars, nothing]
    rfl

/-- What is left of a line ends with a character that is not blank. -/
theorem exists_last_of_trimChars {cs : List Char} (h : trimChars cs ≠ []) :
    ∃ start c, trimChars cs = start ++ [c] ∧ isBlank c = false := by
  obtain ⟨start, c, hlast⟩ := (List.eq_nil_or_concat' (trimChars cs)).resolve_left h
  obtain ⟨front, hfront⟩ := List.dropWhile_suffix (l := trimEndChars cs) isBlank
  have whole : cs.rdropWhile isBlank = front ++ start ++ [c] := by
    rw [List.append_assoc, ← hlast]
    exact hfront.symm
  have nonempty : cs.rdropWhile isBlank ≠ [] := by simp [whole]
  have last := List.rdropWhile_last_not isBlank cs nonempty
  simp only [whole, List.getLast_concat, Bool.not_eq_true] at last
  exact ⟨start, c, hlast, last⟩

theorem trimEndChars_append_trimChars {cs : List Char} (h : trimChars cs ≠ [])
    (before : List Char) :
    trimEndChars (before ++ trimChars cs) = before ++ trimChars cs := by
  obtain ⟨start, c, hlast, hc⟩ := exists_last_of_trimChars h
  rw [hlast, ← List.append_assoc, trimEndChars, List.rdropWhile_concat_neg]
  simp [hc]

/-! ## Carriage returns -/

theorem unifyNewlines_eq_self {cs : List Char} (h : '\r' ∉ cs) : unifyNewlines cs = cs := by
  fun_induction unifyNewlines cs with
  | case1 => rfl
  | case2 rest ih => exact absurd List.mem_cons_self h
  | case3 c rest other ih =>
      obtain ⟨first, others⟩ := not_or.mp (List.mem_cons.not.mp h)
      rw [if_neg (Ne.symm first), ih others]

end Scriptlet.Text
