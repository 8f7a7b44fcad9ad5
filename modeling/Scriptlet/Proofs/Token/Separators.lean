import Scriptlet.Proofs.Syntax.Gist
import Scriptlet.Proofs.Token.Buffering

/-!
# Sources with a byte between them

A blank goes on with no token and begins none, and so does any byte that the scan skips, but for the
dot, which can stand inside a number. Two sources with such a byte between them are scanned one by
one. The places of the second one are counted from where it begins.
-/

namespace Scriptlet

/-! ## Moved places -/

/-- A place in a text that begins at `origin`. Only the first line of the text begins inside a
line. -/
def Position.shifted (origin p : Position) : Position :=
  ⟨origin.line + (p.line - 1), if p.line = 1 then origin.column + (p.column - 1) else p.column⟩

def Token.shifted (origin : Position) (t : Token) : Token :=
  { t with position := origin.shifted t.position }

def Skip.shifted (origin : Position) (s : Skip) : Skip :=
  { s with position := origin.shifted s.position }

def Ending.shifted (origin : Position) : Ending → Ending
  | .finished p => .finished (origin.shifted p)
  | .unclosed quote => .unclosed (origin.shifted quote)

namespace Position

variable {origin p : Position}

theorem shifted_start (origin : Position) : origin.shifted start = origin := by
  simp [shifted, start]

theorem one_le_line_advance (h : 1 ≤ p.line) (b : UInt8) : 1 ≤ (p.advance b).line := by
  unfold advance
  split
  · show 1 ≤ p.line + 1
    omega
  · exact h

/-- The first line of a text is left at a line feed, wherever the text begins. -/
theorem shifted_advance (h : 1 ≤ p.line) (b : UInt8) :
    (origin.shifted p).advance b = origin.shifted (p.advance b) := by
  unfold advance
  by_cases feed : b = 10
  · have later : p.line + 1 ≠ 1 := by omega
    simp only [if_pos feed, shifted, if_neg later, mk.injEq, and_true]
    omega
  · simp only [if_neg feed, shifted, mk.injEq, true_and]
    split
    · omega
    · rfl

theorem one_le_line_past (h : 1 ≤ p.line) (bytes : List UInt8) : 1 ≤ (p.past bytes).line := by
  induction bytes generalizing p with
  | nil => exact h
  | cons b bytes ih => exact ih (one_le_line_advance h b)

theorem shifted_past (h : 1 ≤ p.line) (bytes : List UInt8) :
    (origin.shifted p).past bytes = origin.shifted (p.past bytes) := by
  induction bytes generalizing p with
  | nil => rfl
  | cons b bytes ih =>
      rw [past_cons, past_cons, shifted_advance h]
      exact ih (one_le_line_advance h b)

theorem past_eq_shifted (origin : Position) (bytes : List UInt8) :
    origin.past bytes = origin.shifted (start.past bytes) := by
  rw [← shifted_past (Int.le_refl start.line), shifted_start]

end Position

theorem Laid.shifted {p : Position} {bytes after : List UInt8} {tokens : List Token}
    {skips : List Skip} (laid : Laid p bytes tokens skips after) (h : 1 ≤ p.line)
    (origin : Position) :
    Laid (origin.shifted p) bytes (tokens.map (·.shifted origin)) (skips.map (·.shifted origin))
      after := by
  induction laid with
  | done p after => exact .done _ after
  | blank isBlank _ ih =>
      refine .blank isBlank ?_
      rw [Position.shifted_advance h]
      exact ih (Position.one_le_line_advance h _)
  | unknown none _ ih =>
      refine .unknown none ?_
      rw [Position.shifted_advance h]
      exact ih (Position.one_le_line_advance h _)
  | @token p l spelling bytes after tokens skips spelled _ ih =>
      refine .token spelled ?_
      rw [Position.shifted_past h]
      exact ih (Position.one_le_line_past h spelling)

theorem Ends.shifted {ending : Ending} {p : Position} {after : List UInt8}
    (ends : Ends ending p after) (origin : Position) :
    Ends (ending.shifted origin) (origin.shifted p) after := by
  cases ends with
  | finished => exact .finished _
  | unclosed _ unquoted => exact .unclosed _ unquoted

/-! ## Separators -/

/-- The byte is blank, or it begins no token and stands inside none. -/
def Byte.Separates (b : UInt8) : Prop := Byte.isBlank b = true ∨ BeginsNone b ∧ b ≠ Byte.dot

def separatorSkips (place : Position) (b : UInt8) : List Skip :=
  if Byte.isBlank b then [] else [⟨place, b⟩]

namespace Byte.Separates

variable {s : UInt8}

theorem parted (h : Separates s) (bytes : List UInt8) : Parted (s :: bytes) := by
  rcases h with blank | ⟨none, dot⟩
  · exact parted_cons (blank_parts s blank) bytes
  · refine parted_cons ⟨by simp [Byte.isWord, none.notWord, none.notDigit], dot, ?_⟩ bytes
    rintro rfl
    cases none.notExtensible

/-- In front of a row a separator brings no token. -/
theorem laid_cons (h : Separates s) {p : Position} {bytes after : List UInt8} {tokens : List Token}
    {skips : List Skip} (laid : Laid (p.advance s) bytes tokens skips after) :
    Laid p (s :: bytes) tokens (separatorSkips p s ++ skips) after := by
  unfold separatorSkips
  rcases h with blank | ⟨none, -⟩
  · rw [if_pos blank]
    exact .blank blank laid
  · rw [none.notBlank]
    exact .unknown none laid

/-- What is nothing to the scan separates. -/
theorem of_isVoid (h : Byte.isVoid s = true) : Separates s := by
  rcases blank_or_beginsNone_of_isVoid h with blank | none
  · exact .inl blank
  · exact .inr ⟨none, (void_parts s h).1.2.1⟩

theorem ne_quote (h : Separates s) : s ≠ Byte.quote := by
  rcases h with blank | ⟨none, -⟩
  · exact (blank_begins_none s blank).2.2.1
  · exact none.notQuote

end Byte.Separates

section

variable {separators : List UInt8} (h : ∀ s ∈ separators, Byte.Separates s)

include h

theorem parted_separators {after : List UInt8} (hafter : Parted after) :
    Parted (separators ++ after) := by
  cases separators with
  | nil => exact hafter
  | cons s rest => exact (h s List.mem_cons_self).parted (rest ++ after)

theorem exists_laid_separators (p : Position) (after : List UInt8) :
    ∃ skips, Laid p separators [] skips after := by
  induction separators generalizing p with
  | nil => exact ⟨[], .done p after⟩
  | cons s rest ih =>
      obtain ⟨first, others⟩ := List.forall_mem_cons.mp h
      obtain ⟨skips, laid⟩ := ih others (p.advance s)
      exact ⟨_, first.laid_cons laid⟩

/-- Behind a source separators bring no token, and they close no string. -/
theorem Scan.ofBytes_append_separators (bytes : List UInt8) :
    (ofBytes (bytes ++ separators)).tokens = (ofBytes bytes).tokens ∧
      (ofBytes (bytes ++ separators)).ending.quote? = (ofBytes bytes).ending.quote? := by
  obtain ⟨row, after, hbytes, laid, ends⟩ := exists_laid bytes
  generalize ofBytes bytes = scan at laid ends
  obtain ⟨tokens, skips, ending⟩ := scan
  subst hbytes
  cases ends with
  | finished =>
      obtain ⟨skips', laid'⟩ := exists_laid_separators h (Position.start.past row) []
      have whole := ((parted_separators h fenced_nil.parted).laid laid).append laid'
      rw [List.append_nil, ofBytes_eq_of_laid whole, List.append_nil]
      exact ⟨rfl, rfl⟩
  | @unclosed _ contents unquoted =>
      have longer : Byte.quote ∉ contents ++ separators := by
        rw [List.mem_append]
        rintro (inside | behind)
        · exact unquoted inside
        · exact (h _ behind).ne_quote rfl
      have whole := (quote_parted (contents ++ separators)).laid laid
      rw [List.append_assoc, List.cons_append, ofBytes_of_ends whole (.unclosed _ longer)]
      exact ⟨rfl, rfl⟩

end

/-- A source without an open string and any other source, with a separator between them, are scanned
one by one. The tokens are those of the one and of the other, the warnings likewise with one for the
separator unless it is blank, and the end is that of the other; there, all places are counted from
where the first source and the separator end. -/
theorem scan_distributes_over_separator {a : List UInt8} {place : Position}
    (closed : (Scan.ofBytes a).ending = .finished place) {s : UInt8} (separates : Byte.Separates s)
    (b : List UInt8) :
    ∃ origin, (Scan.ofBytes (a ++ [s])).ending = .finished origin ∧
      Scan.ofBytes (a ++ s :: b) =
        ⟨(Scan.ofBytes a).tokens ++ (Scan.ofBytes b).tokens.map (·.shifted origin),
          (Scan.ofBytes a).skips ++ separatorSkips place s ++
            (Scan.ofBytes b).skips.map (·.shifted origin),
          (Scan.ofBytes b).ending.shifted origin⟩ := by
  have first := Scan.laid_of_finished closed
  obtain rfl : place = Position.start.past a := by
    have hscan := Scan.ofBytes_eq_of_laid first
    rw [hscan] at closed
    exact (Ending.finished.inj closed).symm
  have alone : Laid .start (a ++ [s]) _ _ [] :=
    ((separates.parted []).laid first).append (separates.laid_cons (.done _ []))
  refine ⟨_, by rw [Scan.ofBytes_eq_of_laid alone], ?_⟩
  obtain ⟨row, after, hb, second, ends⟩ := Scan.exists_laid b
  have horigin : (Position.start.past a).advance s = Position.start.past (a ++ [s]) :=
    (Position.past_append _ a [s]).symm
  generalize Position.start.past (a ++ [s]) = origin at horigin ⊢
  have moved := second.shifted (Int.le_refl 1) origin
  rw [Position.shifted_start, ← horigin] at moved
  have whole := ((separates.parted (row ++ after)).laid first).append (separates.laid_cons moved)
  have hends : Position.start.past (a ++ s :: row) = origin.shifted (Position.start.past row) := by
    rw [Position.past_append, Position.past_cons, horigin, Position.past_eq_shifted]
  have hscan := Scan.ofBytes_of_ends whole (hends ▸ ends.shifted origin)
  rw [List.append_assoc, List.cons_append, ← hb, horigin] at hscan
  rw [hscan, List.append_assoc]

/-- The sources `x=` and `=2.`, the second with a quote on a line of its own, and an at sign between
them: the equals signs stay apart, and only the places on the first line are moved sideways. -/
theorem scan_distributes_over_separator_at_sign :
    let a : List UInt8 := [120, 61]
    let b : List UInt8 := [61, 50, 46, 10, 34]
    (Scan.ofBytes a).ending = .finished ⟨1, 3⟩ ∧ Byte.Separates 64 ∧
      Scan.ofBytes (a ++ 64 :: b) =
        ⟨[⟨.identifier "x", ⟨1, 1⟩⟩, ⟨.symbol .equal, ⟨1, 2⟩⟩, ⟨.symbol .equal, ⟨1, 4⟩⟩,
            ⟨.number (Decimal.toFloat ⟨2, 0⟩), ⟨1, 5⟩⟩],
          [⟨⟨1, 3⟩, 64⟩, ⟨⟨1, 6⟩, 46⟩], .unclosed ⟨2, 1⟩⟩ := by
  intro a b
  have closed : (Scan.ofBytes a).ending = .finished ⟨1, 3⟩ := by decide +kernel
  have separates : Byte.Separates 64 :=
    .inr ⟨⟨by decide, by decide, by decide, by decide, by decide, by decide⟩, by decide⟩
  refine ⟨closed, separates, ?_⟩
  obtain ⟨origin, horigin, hscan⟩ := scan_distributes_over_separator closed separates b
  have here : (Scan.ofBytes (a ++ [64])).ending = .finished ⟨1, 4⟩ := by decide +kernel
  cases here.symm.trans horigin
  rw [hscan]
  decide +kernel

end Scriptlet
