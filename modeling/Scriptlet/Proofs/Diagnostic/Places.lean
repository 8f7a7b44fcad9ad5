import Scriptlet.Diagnostic.Reporter
import Scriptlet.Proofs.Token.MaximalMunch

/-!
# Places in the lines of a text

Reading the tokens of a text counts lines and columns byte by byte. A diagnostic takes such a place
and looks for its line in the text, which it splits at the line feeds. Both mean the same line, and
the mark below that line stands at the byte.
-/

namespace Scriptlet

/-! ## Lines of a text -/

namespace Text

/-- One of the lines of a text, with what stands before it and behind it. -/
structure Line (text : List Char) where
  front : List Char
  line : List Char
  back : List Char
  whole : text = front ++ line ++ back
  starts : front = [] ∨ ∃ before, front = before ++ ['\n']
  unbroken : '\n' ∉ line
  ends : back = [] ∨ ∃ behind, back = '\n' :: behind

namespace Line

variable {text : List Char}

def index (l : Line text) : Nat := l.front.count '\n'

def bytes (l : Line text) : List UInt8 := Utf8.encode (String.ofList l.line)

def offset (l : Line text) : Nat := (Utf8.encode (String.ofList l.front)).length

end Line

theorem splitLines_append_first {line back : List Char} (unbroken : '\n' ∉ line)
    (ends : back = [] ∨ ∃ behind, back = '\n' :: behind) :
    ∃ lines, splitLines (line ++ back) = line :: lines := by
  induction line with
  | nil =>
      rcases ends with rfl | ⟨behind, rfl⟩
      · exact ⟨[], rfl⟩
      · exact ⟨splitLines behind, rfl⟩
  | cons c line ih =>
      have hc : c ≠ '\n' := fun hc => unbroken (hc ▸ List.mem_cons_self)
      have hline : '\n' ∉ line := fun hline => unbroken (List.mem_cons_of_mem c hline)
      obtain ⟨lines, hlines⟩ := ih hline
      refine ⟨lines, ?_⟩
      simp only [List.cons_append, splitLines, splitAt, if_neg hc] at hlines ⊢
      rw [hlines]

theorem Line.getElem?_splitLines {text : List Char} (l : Line text) :
    (splitLines text)[l.index]? = some l.line := by
  obtain ⟨front, line, back, rfl, starts, unbroken, ends⟩ := l
  simp only [index]
  induction front with
  | nil =>
      obtain ⟨lines, hlines⟩ := splitLines_append_first unbroken ends
      simp [hlines]
  | cons c front ih =>
      have starts' : front = [] ∨ ∃ before, front = before ++ ['\n'] := by
        obtain ⟨before, hbefore⟩ := starts.resolve_left (List.cons_ne_nil c front)
        cases before with
        | nil => exact .inl (List.cons_eq_cons.mp hbefore).2
        | cons d before => exact .inr ⟨before, (List.cons_eq_cons.mp hbefore).2⟩
      have found := ih starts'
      by_cases hc : c = '\n'
      · simpa [splitAt, hc] using found
      · -- The line does not begin before the next line feed, so `c` belongs to an earlier one.
        obtain ⟨before, rfl⟩ : ∃ before, front = before ++ ['\n'] := by
          refine starts'.resolve_left ?_
          rintro rfl
          obtain ⟨before, hbefore⟩ := starts.resolve_left (List.cons_ne_nil c [])
          cases before with
          | nil => exact hc (List.cons_eq_cons.mp hbefore).1
          | cons d before => simp at hbefore
        cases hsplit : splitLines (before ++ ['\n'] ++ line ++ back) with
        | nil => exact absurd hsplit (splitAt_ne_nil _ _)
        | cons first lines =>
            rw [hsplit] at found
            simp only [List.cons_append, splitLines, splitAt, if_neg hc, hsplit]
            simpa [hc] using found

theorem length_encode_cons (c : Char) (cs : List Char) :
    (Utf8.encode (String.ofList (c :: cs))).length =
      (String.utf8EncodeChar c).length + (Utf8.encode (String.ofList cs)).length := by
  simp [Utf8.encode]

/-- Every byte of a text, and its end, lies in a line or just behind it. -/
theorem exists_line (text : List Char) {offset : Nat}
    (h : offset ≤ (Utf8.encode (String.ofList text)).length) :
    ∃ (l : Line text) (column : Nat), offset = l.offset + column ∧ column ≤ l.bytes.length := by
  induction text generalizing offset with
  | nil =>
      have none : offset = 0 := by simpa [Utf8.encode] using h
      exact ⟨⟨[], [], [], rfl, .inl rfl, List.not_mem_nil, .inl rfl⟩, 0, none, Nat.zero_le _⟩
  | cons c text ih =>
      rw [length_encode_cons] at h
      by_cases hc : c = '\n'
      · subst hc
        have hnewline : (String.utf8EncodeChar '\n').length = 1 := rfl
        cases offset with
        | zero =>
            refine ⟨⟨[], [], '\n' :: text, rfl, .inl rfl, List.not_mem_nil, .inr ⟨text, rfl⟩⟩,
              0, ?_⟩
            exact ⟨rfl, Nat.zero_le _⟩
        | succ offset =>
            obtain ⟨⟨front, line, back, rfl, starts, unbroken, ends⟩, column, rfl, hcolumn⟩ :=
              @ih offset (by omega)
            have starts' : ∃ before, '\n' :: front = before ++ ['\n'] := by
              rcases starts with rfl | ⟨before, rfl⟩
              · exact ⟨[], rfl⟩
              · exact ⟨'\n' :: before, rfl⟩
            refine ⟨⟨'\n' :: front, line, back, rfl, .inr starts', unbroken, ends⟩, column, ?_,
              hcolumn⟩
            simp only [Line.offset, length_encode_cons, hnewline]
            omega
      · -- For a byte of `c` itself the difference is zero, and the line is the one that `c` begins.
        obtain ⟨⟨front, line, back, rfl, starts, unbroken, ends⟩, column, hoffset, hcolumn⟩ :=
          @ih (offset - (String.utf8EncodeChar c).length) (by omega)
        simp only [Line.offset, Line.bytes] at hoffset hcolumn
        cases front with
        | nil =>
            have unbroken' : '\n' ∉ c :: line := by simp [Ne.symm hc, unbroken]
            refine ⟨⟨[], c :: line, back, rfl, .inl rfl, unbroken', ends⟩, offset,
              (Nat.zero_add _).symm, ?_⟩
            have none : (Utf8.encode (String.ofList [])).length = 0 := rfl
            simp only [Line.bytes, length_encode_cons]
            omega
        | cons d front =>
            obtain ⟨before, hbefore⟩ := starts.resolve_left (List.cons_ne_nil d front)
            refine ⟨⟨c :: d :: front, line, back, rfl, .inr ⟨c :: before, by rw [hbefore]; rfl⟩,
              unbroken, ends⟩, column, ?_, hcolumn⟩
            have hpositive : 0 < (String.utf8EncodeChar d).length := by
              rw [String.length_utf8EncodeChar]
              exact Char.utf8Size_pos d
            simp only [Line.offset, length_encode_cons] at hoffset ⊢
            omega

end Text

/-! ## Lines and columns -/

namespace Utf8

theorem newline_mem_encode {cs : List Char} : 10 ∈ encode (String.ofList cs) ↔ '\n' ∈ cs := by
  rw [encode, String.toList_ofList, List.mem_flatMap]
  constructor
  · rintro ⟨c, hc, hbyte⟩
    have same : c.toNat = '\n'.toNat := mem_encodeChar hbyte (by decide)
    rwa [← Char.toNat_inj.mp same]
  · exact fun h => ⟨'\n', h, by decide⟩

theorem count_newline (cs : List Char) :
    (encode (String.ofList cs)).count 10 = cs.count '\n' := by
  induction cs with
  | nil => rfl
  | cons c cs ih =>
      have hcons : encode (String.ofList (c :: cs)) =
          encode (String.ofList [c]) ++ encode (String.ofList cs) := by simp [encode]
      rw [hcons, List.count_append, ih]
      by_cases hc : c = '\n'
      · subst hc
        have one : (encode (String.ofList ['\n'])).count 10 = 1 := by decide
        rw [one, List.count_cons_self, Nat.add_comm]
      · have absent : 10 ∉ encode (String.ofList [c]) := by
          rw [newline_mem_encode, List.mem_singleton]
          exact Ne.symm hc
        rw [List.count_eq_zero_of_not_mem absent, List.count_cons_of_ne hc, Nat.zero_add]

end Utf8

theorem Position.behind_append {front part : List UInt8}
    (starts : front = [] ∨ ∃ before, front = before ++ [10]) (unbroken : 10 ∉ part) :
    behind (front ++ part) = ⟨1 + front.count 10, 1 + part.length⟩ := by
  have run : ∀ b ∈ part.reverse, (b != 10) = true := by
    intro b hb
    rw [bne_iff_ne]
    rintro rfl
    exact unbroken (List.mem_reverse.mp hb)
  have stops : front.reverse.takeWhile (· != 10) = [] := by
    rcases starts with rfl | ⟨before, rfl⟩
    · rfl
    · simp
  rw [behind, List.count_append, List.count_eq_zero_of_not_mem unbroken, List.reverse_append,
    List.takeWhile_append_of_pos run, stops, List.append_nil, List.length_reverse]
  rfl

namespace Text.Line

variable {text : List Char} (l : Line text)

theorem encode_eq : Utf8.encode (String.ofList text) =
    Utf8.encode (String.ofList l.front) ++ l.bytes ++ Utf8.encode (String.ofList l.back) := by
  rw [bytes, ← Utf8.encode_append, ← Utf8.encode_append, ← String.ofList_append,
    ← String.ofList_append, ← l.whole]

theorem take_encode {column : Nat} (h : column ≤ l.bytes.length) :
    (Utf8.encode (String.ofList text)).take (l.offset + column) =
      Utf8.encode (String.ofList l.front) ++ l.bytes.take column := by
  rw [l.encode_eq, List.append_assoc, offset, List.take_length_add_append,
    List.take_append_of_le_length h]

/-- The place of a byte: its line is one more than the lines before it, and its column one more than
the bytes before it in the line. -/
theorem behind_take {column : Nat} (h : column ≤ l.bytes.length) :
    Position.behind ((Utf8.encode (String.ofList text)).take (l.offset + column)) =
      ⟨1 + l.index, 1 + column⟩ := by
  have starts : Utf8.encode (String.ofList l.front) = [] ∨
      ∃ before, Utf8.encode (String.ofList l.front) = before ++ [10] := by
    rcases l.starts with hfront | ⟨before, hfront⟩
    · exact .inl (by rw [hfront]; rfl)
    · refine .inr ⟨Utf8.encode (String.ofList before), ?_⟩
      rw [hfront, String.ofList_append, Utf8.encode_append]
      rfl
  have inside : 10 ∉ l.bytes.take column := fun hmem =>
    l.unbroken (Utf8.newline_mem_encode.mp (List.mem_of_mem_take hmem))
  rw [l.take_encode h, Position.behind_append starts inside, Utf8.count_newline,
    List.length_take_of_le h]
  rfl

theorem getElem?_bytes {column : Nat} (h : column ≤ l.bytes.length)
    (plain : (Utf8.encode (String.ofList text))[l.offset + column]? ≠ some 10) :
    l.bytes[column]? = (Utf8.encode (String.ofList text))[l.offset + column]? := by
  rw [l.encode_eq, List.append_assoc, offset, List.getElem?_append_right (Nat.le_add_right _ _),
    Nat.add_sub_cancel_left] at plain ⊢
  by_cases hlt : column < l.bytes.length
  · rw [List.getElem?_append_left hlt]
  · have hlast : column = l.bytes.length := by omega
    rw [hlast, List.getElem?_append_right (Nat.le_refl _), Nat.sub_self] at plain ⊢
    rcases l.ends with hback | ⟨behind, hback⟩
    · rw [hback]
      simp [Utf8.encode]
    · have first : Utf8.encode (String.ofList ('\n' :: behind)) =
          10 :: Utf8.encode (String.ofList behind) := by
        simp [Utf8.encode, Utf8.encodeChar_ascii]
      rw [hback, first] at plain
      exact absurd rfl plain

end Text.Line

/-! ## What reading the tokens speaks of -/

namespace Stream

def Fault.place? : Fault → Option Position
  | .unclosed quote => some quote
  | _ => none

/-- The places that reading every token speaks of: those of the tokens and of the bytes skipped, the
quote of an unclosed string, and the place where the reading stops. -/
def places (s : Stream) : List Position :=
  s.drain.1.1.map (·.position) ++ s.drain.2.skips.map (·.position) ++
    (s.drain.1.2.bind Fault.place?).toList ++ [s.drain.2.position]

end Stream

namespace Cursor

def endPlace (c : Cursor) : Position := c.position.past c.rest

theorem endPlace_past {c : Cursor} {bytes after : List UInt8} (h : c.rest = bytes ++ after) :
    (c.past bytes).endPlace = c.endPlace := by
  rw [endPlace, rest_past h, endPlace, h, Position.past_append]
  rfl

end Cursor

def Step.EndsAt (p : Position) : Step → Prop
  | .finished after | .token _ after | .skipped _ after | .unclosed _ after => after.endPlace = p

namespace Cursor

theorem step_endsAt (c : Cursor) : c.step.EndsAt c.endPlace := by
  induction hbytes : c.rest generalizing c with
  | nil =>
      rw [step_of_nothing hbytes]
      exact rfl
  | cons first tail ih =>
      have hone : c.rest = [first] ++ tail := hbytes
      by_cases hblank : Byte.isBlank first = true
      · rw [step_of_blank hbytes hblank, ← endPlace_past hone]
        exact ih (c.past [first]) (rest_past hone)
      · cases standing first tail (by simpa using hblank) with
        | @token l rest after tail_eq spelled =>
            have hspelled : c.rest = (first :: rest) ++ after := by rw [hbytes, tail_eq]; rfl
            rw [step_of_spelled hspelled spelled]
            exact endPlace_past hspelled
        | unclosed quote unquoted =>
            subst quote
            rw [step_of_unclosed hbytes unquoted]
            exact endPlace_past (hbytes.trans (List.append_nil _).symm)
        | unknown none =>
            rw [step_of_unknown hbytes none]
            exact endPlace_past hone

end Cursor

namespace Stream

theorem cutFrom_endPlace (fuel : Nat) (s : Stream) :
    (cutFrom fuel s).2.cursor.endPlace = s.cursor.endPlace := by
  induction fuel generalizing s with
  | zero => rfl
  | succ fuel ih =>
      have hends := s.cursor.step_endsAt
      cases hstep : s.cursor.step with
      | finished after | token t after | unclosed quote after =>
          rw [hstep] at hends
          simp only [cutFrom, hstep]
          exact hends
      | skipped skip after =>
          rw [hstep] at hends
          simp only [cutFrom, hstep, ih]
          exact hends

theorem drainFrom_spent (fuel : Nat) (s : Stream) (h : s.row.tokens.length < fuel) :
    (drainFrom fuel s).2.cursor.rest = [] ∧
      (drainFrom fuel s).2.cursor.endPlace = s.cursor.endPlace := by
  induction fuel generalizing s with
  | zero => omega
  | succ fuel ih =>
      cases hbuffer : s.buffer with
      | cons t rest =>
          have hmore := ih { s with buffer := rest } (by simp [row, uncut, hbuffer] at h ⊢; omega)
          simpa only [drainFrom, next, hbuffer] using hmore
      | nil =>
          have hcut := s.cut_cut
          have hends : s.cut.2.cursor.endPlace = s.cursor.endPlace := cutFrom_endPlace _ s
          simp only [drainFrom, next, hbuffer]
          generalize s.cut = result at hcut hends
          cases hcut with
          | @token t after tokens ending keeps =>
              obtain ⟨hspent, hplace⟩ := ih after
                (by simp [row, hbuffer, tokens, keeps.buffer] at h ⊢; omega)
              exact ⟨hspent, hplace.trans hends⟩
          | finished tokens ending spent keeps | unclosed tokens ending spent keeps =>
              exact ⟨spent, hends⟩

theorem position_drain (s : Stream) : s.drain.2.position = s.cursor.endPlace := by
  have hlength : s.uncut.tokens.length ≤ s.cursor.rest.length := Scan.length_tokens_run _ _
  obtain ⟨hspent, hplace⟩ := s.drainFrom_spent (s.buffer.length + s.cursor.rest.length + 1)
    (by simp only [row, List.length_append]; omega)
  rw [← hplace, Cursor.endPlace, hspent]
  rfl

end Stream

namespace Laid

variable {p : Position} {bytes after : List UInt8} {tokens : List Token} {skips : List Skip}

theorem exists_spelling (h : Laid p bytes tokens skips after) {t : Token} (ht : t ∈ tokens) :
    ∃ front spelling rest, bytes = front ++ spelling ++ rest ∧
      SpelledBefore t.lexeme spelling (rest ++ after) ∧ t.position = p.past front := by
  induction h with
  | done => cases ht
  | @blank p b bytes after tokens skips isBlank _ ih
  | @unknown p b bytes after tokens skips none _ ih =>
      obtain ⟨front, spelling, rest, rfl, spelled, hposition⟩ := ih ht
      exact ⟨b :: front, spelling, rest, rfl, spelled, hposition⟩
  | @token p l spelling bytes after tokens skips spelled more ih =>
      rcases List.mem_cons.mp ht with rfl | ht
      · exact ⟨[], spelling, bytes, rfl, spelled, rfl⟩
      · obtain ⟨front, spelling', rest, rfl, spelled', hposition⟩ := ih ht
        exact ⟨spelling ++ front, spelling', rest, by simp, spelled',
          by rw [hposition, Position.past_append]⟩

theorem exists_skipped (h : Laid p bytes tokens skips after) {s : Skip} (hs : s ∈ skips) :
    ∃ front rest, bytes = front ++ s.byte :: rest ∧ BeginsNone s.byte ∧
      s.position = p.past front := by
  induction h with
  | done => cases hs
  | @blank p b bytes after tokens skips isBlank _ ih =>
      obtain ⟨front, rest, rfl, none, hposition⟩ := ih hs
      exact ⟨b :: front, rest, rfl, none, hposition⟩
  | @unknown p b bytes after tokens skips none _ ih =>
      rcases List.mem_cons.mp hs with rfl | hs
      · exact ⟨[], bytes, rfl, none, rfl⟩
      · obtain ⟨front, rest, rfl, none', hposition⟩ := ih hs
        exact ⟨b :: front, rest, rfl, none', hposition⟩
  | @token p l spelling bytes after tokens skips spelled more ih =>
      obtain ⟨front, rest, rfl, none, hposition⟩ := ih hs
      exact ⟨spelling ++ front, rest, by simp, none, by rw [hposition, Position.past_append]⟩

end Laid

/-- Every place that reading the tokens speaks of is that of a byte which is not blank, or the end
of the source. -/
theorem Stream.exists_bytes_of_mem_places {s : Stream} {source : List UInt8} {p : Position}
    (cursor : s.cursor = .ofBytes source) (buffer : s.buffer = []) (skips : s.skips = [])
    (h : p ∈ s.places) :
    ∃ before after, source = before ++ after ∧ NextIsNot Byte.isBlank after ∧
      p = .behind before := by
  obtain ⟨row, after, hsource, hlaid, hends⟩ := Scan.exists_laid source
  have drained := s.drain_drained
  have uncut : s.uncut = Scan.ofBytes source := by rw [Stream.uncut, cursor]; rfl
  have first {b : UInt8} {bytes : List UInt8} (hb : Byte.isBlank b = false) :
      NextIsNot Byte.isBlank (b :: bytes) := by
    intro b' hb'
    cases hb'
    exact hb
  simp only [places, drained.tokens, drained.skips, drained.fault, Stream.row, uncut, buffer, skips,
    List.nil_append, position_drain, cursor, List.mem_append, List.mem_map, List.mem_singleton,
    Option.mem_toList] at h
  rcases h with ((⟨t, ht, rfl⟩ | ⟨skip, hskip, rfl⟩) | hquote) | rfl
  · obtain ⟨front, spelling, rest, rfl, spelled, hposition⟩ := hlaid.exists_spelling ht
    obtain ⟨b, letters, rfl⟩ := List.exists_cons_of_ne_nil spelled.ne_nil
    exact ⟨front, b :: letters ++ (rest ++ after), by simp [hsource], first spelled.not_blank,
      by rw [hposition, Position.start_past]⟩
  · obtain ⟨front, rest, rfl, none, hposition⟩ := hlaid.exists_skipped hskip
    exact ⟨front, skip.byte :: rest ++ after, by simp [hsource], first none.notBlank,
      by rw [hposition, Position.start_past]⟩
  · generalize (Scan.ofBytes source).ending = ending at hends hquote
    cases hends with
    | finished => simp [Ending.quote?] at hquote
    | unclosed unquoted =>
        obtain rfl : Position.start.past row = p := by
          simpa [Ending.quote?, Fault.place?] using hquote
        exact ⟨row, _, hsource, first (by decide), Position.start_past row⟩
  · exact ⟨source, [], by simp, by simp [NextIsNot], Position.start_past source⟩

/-! ## What is shown -/

namespace Text

theorem slice_ofNat {α : Type} (items : List α) (start stop : Nat) :
    slice items start stop = (items.drop start).take (stop - start) := by
  rw [slice, offset_ofNat, offset_ofNat]
  by_cases h : start ≤ items.length
  · rw [Nat.min_eq_left h, List.take_eq_take_iff, List.length_drop]
    omega
  · rw [List.drop_of_length_le (by omega), List.drop_of_length_le (by omega)]
    simp

theorem sliceFrom_ofNat {α : Type} (items : List α) (start : Nat) :
    sliceFrom items start = items.drop start := by
  rw [sliceFrom, offset_ofNat, List.drop_eq_drop_iff]
  omega

end Text

namespace Reporter

theorem location_of_only {r : Reporter} {path source : String} {firstLine : Option Int}
    (only : (r.registerText path source firstLine).sources.keys = [path]) (p : Position) :
    (r.registerText path source firstLine).location (some p) =
      (path ++ ":" ++ toString (Excerpt.lineNumber ⟨source, firstLine⟩ p.line) ++ ":" ++
          toString p.column ++ ": ",
        Excerpt.line? ⟨source, firstLine⟩ p.line) := by
  have found := r.sources.get?_set_self path (some ⟨source, firstLine⟩)
  obtain ⟨entry, hentries, hkey⟩ := List.map_eq_singleton_iff.mp only
  obtain ⟨known, excerpt⟩ := entry
  obtain rfl : known = path := hkey
  rw [OrderedMap.get?, show (r.sources.set known (some ⟨source, firstLine⟩)).entries = _ from
    hentries, OrderedMap.valueAmong?, if_pos rfl, Option.some.injEq] at found
  subst found
  rw [location, OrderedMap.last?, hentries]
  rfl

/-- The marked part begins behind the characters before the column, and the row below it points
there. -/
theorem excerpt_eq (r : Reporter) {line : List Char} {column : Nat} (h : column ≤ line.length)
    (row : Int) (token : Option Token) (color : Color) :
    r.excerpt (String.ofList line) ⟨row, 1 + column⟩ token color =
      "  " ++ String.ofList (line.take column) ++
        r.paint color (String.ofList ((line.drop column).take (markWidth token))) ++
        String.ofList (line.drop (column + markWidth token)) ++ "\n" ++
        "  " ++ String.ofList (List.replicate column ' ') ++
        r.paint color (String.ofList ('^' :: List.replicate (markWidth token - 1) '~')) := by
  have start : min ((1 + column : Int) - 1) line.length = ((column : Nat) : Int) := by omega
  have stop : (column : Int) + markWidth token = ((column + markWidth token : Nat) : Int) := by simp
  simp only [excerpt, String.toList_ofList, start, stop, Text.slice_ofNat, Text.sliceFrom_ofNat,
    ← Int.natCast_zero, Int.toNat_natCast, List.drop_zero, Nat.sub_zero, Nat.add_sub_cancel_left]

theorem excerpt_of_plain {r : Reporter} (plain : r.color = false) {line : List Char} {column : Nat}
    (h : column ≤ line.length) (row : Int) (token : Option Token) (color : Color) :
    r.excerpt (String.ofList line) ⟨row, 1 + column⟩ token color =
      "  " ++ String.ofList line ++ "\n" ++
        "  " ++ String.ofList (List.replicate column ' ') ++ "^" ++
        String.ofList (List.replicate (markWidth token - 1) '~') := by
  have paint (text : String) : r.paint color text = text := by simp [Reporter.paint, plain]
  have rejoined : line.take column ++ (line.drop column).take (markWidth token) ++
      line.drop (column + markWidth token) = line := by
    rw [List.append_assoc, ← List.drop_drop, List.take_append_drop, List.take_append_drop]
  have caret (tildes : List Char) :
      String.ofList ('^' :: tildes) = "^" ++ String.ofList tildes := by
    rw [← List.singleton_append, String.ofList_append]
  rw [r.excerpt_eq h, paint, paint, caret, ← String.append_assoc]
  have joined := congrArg String.ofList rejoined
  rw [String.ofList_append, String.ofList_append] at joined
  rw [← joined]
  simp only [String.append_assoc]

end Reporter

namespace Text

theorem Line.line?_eq {source : String} (l : Line source.toList) (firstLine : Option Int) :
    Excerpt.line? ⟨source, firstLine⟩ (1 + l.index) = some (String.ofList l.line) := by
  have index : ((1 + l.index : Int)).toNat - 1 = l.index := by omega
  rw [Excerpt.line?, if_neg (by omega), index, l.getElem?_splitLines]
  rfl

theorem Line.bytes_of_ascii {text : List Char} (l : Line text)
    (ascii : ∀ c ∈ l.line, c.toNat < 0x80) :
    l.bytes = l.line.map fun c => UInt8.ofNat c.toNat :=
  Utf8.encode_ascii ascii

/-- A place in the bytes of a text is one in a line of it, and a byte there that is not blank
belongs to that line. -/
theorem exists_line_of_parted {source : String} {before after : List UInt8}
    (parted : Utf8.encode source = before ++ after) (next : NextIsNot Byte.isBlank after) :
    ∃ (l : Line source.toList) (column : Nat),
      before = (Utf8.encode source).take (l.offset + column) ∧ column ≤ l.bytes.length ∧
      Position.behind before = ⟨1 + l.index, 1 + column⟩ ∧
      l.bytes[column]? = (Utf8.encode source)[l.offset + column]? := by
  have text : String.ofList source.toList = source := String.ofList_toList
  obtain ⟨l, column, hoffset, hcolumn⟩ := @exists_line source.toList before.length
    (by rw [text, parted, List.length_append]; omega)
  have taken : before = (Utf8.encode source).take (l.offset + column) := by
    rw [← hoffset, parted, List.take_left]
  have first : (Utf8.encode source)[l.offset + column]? = after.head? := by
    rw [← hoffset, parted, List.getElem?_append_right (Nat.le_refl _), Nat.sub_self,
      List.head?_eq_getElem?]
  have place := l.behind_take hcolumn
  have byte := l.getElem?_bytes hcolumn
  rw [text] at place byte
  refine ⟨l, column, taken, hcolumn, by rw [taken, place], byte fun newline => ?_⟩
  exact absurd (next 10 (first.symm.trans newline)) (by decide)

end Text

/-- A diagnostic finds the line of its place. For every text that is the only one known, and every
place that reading its tokens speaks of, that is the line which holds the byte at that place. It is
shown with its number and the column. In a line of ASCII the mark stands below the byte. -/
theorem diagnostics_find_their_place (r : Reporter) (path source : String) (n : Int)
    (lookahead : Nat) (numbered : 1 ≤ n) (positive : 1 ≤ lookahead)
    (only : (r.registerText path source (some n)).sources.keys = [path]) :
    ∃ s, Stream.ofBytes? (Utf8.encode source) lookahead = .ok s ∧
      ∀ p ∈ s.places, ∃ (l : Text.Line source.toList) (column : Nat),
        p = .behind ((Utf8.encode source).take (l.offset + column)) ∧
        l.bytes[column]? = (Utf8.encode source)[l.offset + column]? ∧
        column ≤ l.bytes.length ∧ p.column - 1 = column ∧
        (r.registerText path source (some n)).location (some p) =
          (path ++ ":" ++ toString (n + p.line - 1) ++ ":" ++ toString p.column ++ ": ",
            some (String.ofList l.line)) ∧
        ((∀ c ∈ l.line, c.toNat < 0x80) → r.color = false → ∀ token color,
          l.line[column]?.map (fun c => UInt8.ofNat c.toNat) =
              (Utf8.encode source)[l.offset + column]? ∧
            (r.registerText path source (some n)).excerpt (String.ofList l.line) p token color =
              "  " ++ String.ofList l.line ++ "\n" ++
                "  " ++ String.ofList (List.replicate column ' ') ++ "^" ++
                String.ofList (List.replicate (Reporter.markWidth token - 1) '~')) := by
  refine ⟨⟨.ofBytes (Utf8.encode source), lookahead, [], []⟩, ?_, fun p hp => ?_⟩
  · rw [Stream.ofBytes?, if_neg (by omega)]
  obtain ⟨before, after, hsource, hafter, rfl⟩ :=
    Stream.exists_bytes_of_mem_places rfl rfl rfl hp
  obtain ⟨l, column, taken, hcolumn, place, byte⟩ := Text.exists_line_of_parted hsource hafter
  have number : Excerpt.lineNumber ⟨source, some n⟩ (1 + l.index) = n + (1 + l.index) - 1 := by
    simp only [Excerpt.lineNumber]
    rw [if_neg (by omega)]
    omega
  refine ⟨l, column, by rw [taken], byte, hcolumn, ?_, ?_, fun ascii plain token color => ⟨?_, ?_⟩⟩
  · rw [place]
    show (1 + column : Int) - 1 = column
    omega
  · rw [Reporter.location_of_only only, place, l.line?_eq, number]
  · rw [← byte, l.bytes_of_ascii ascii, List.getElem?_map]
  · rw [l.bytes_of_ascii ascii, List.length_map] at hcolumn
    rw [place]
    exact Reporter.excerpt_of_plain plain hcolumn _ token color

theorem diagnostics_find_their_place_at_the_end :
    ∃ r source, r = ({} : Reporter).registerText "a" source (some 7) ∧ source = "1\n\"\u00e9" ∧
      r.sources.keys = ["a"] ∧
      ∃ s, Stream.ofBytes? (Utf8.encode source) 1 = .ok s ∧ ⟨2, 4⟩ ∈ s.places ∧
        ∃ line, r.location (some ⟨2, 4⟩) = ("a:8:4: ", some line) := by
  refine ⟨_, "1\n\"\u00e9", rfl, rfl, rfl, ?_⟩
  obtain ⟨s, made, found⟩ :=
    diagnostics_find_their_place {} "a" "1\n\"\u00e9" 7 1 (by decide) (by decide) rfl
  have bytes : Utf8.encode "1\n\"\u00e9" = [49, 10, 34, 195, 169] := by decide
  have reached : (⟨2, 4⟩ : Position) ∈ s.places := by
    rw [bytes] at made
    cases made
    decide
  obtain ⟨l, column, -, -, -, -, location, -⟩ := found _ reached
  exact ⟨s, made, reached, _, location⟩

end Scriptlet
