import Scriptlet.Proofs.Token.Layout
import Scriptlet.Token.Stream

/-!
# Streams behave as lists

A stream cuts its tokens when they are asked for and keeps those it has looked at in a buffer. To
its callers it is the list of the tokens of its source. An unclosed string at the end of the source
shows once: in the first call that asks for more tokens than there are.
-/

namespace Scriptlet

/-! ## Steps of the scan -/

/-- The step leaves fewer bytes to read, or none. -/
def Step.Advances (c : Cursor) : Step → Prop
  | .finished after => after.rest = []
  | .token _ after => after.rest.length < c.rest.length
  | .skipped _ after => after.rest.length < c.rest.length
  | .unclosed _ after => after.rest = []

theorem Step.Advances.mono {c c' : Cursor} {step : Step} (h : step.Advances c)
    (hle : c.rest.length ≤ c'.rest.length) : step.Advances c' := by
  cases step with
  | finished after => exact h
  | token t after => exact Nat.lt_of_lt_of_le h hle
  | skipped s after => exact Nat.lt_of_lt_of_le h hle
  | unclosed quote after => exact h

namespace Cursor

theorem length_past_lt {c : Cursor} {bytes after : List UInt8} (h : c.rest = bytes ++ after)
    (hne : bytes ≠ []) : (c.past bytes).rest.length < c.rest.length := by
  have hpos : 0 < bytes.length := List.length_pos_iff.mpr hne
  rw [rest_past h, h, List.length_append]
  omega

theorem step_advances (c : Cursor) : c.step.Advances c := by
  -- Blanks are passed over one by one; the first other byte decides what the step is.
  induction hbytes : c.rest generalizing c with
  | nil =>
      rw [step_of_nothing hbytes]
      exact hbytes
  | cons first tail ih =>
      have hone : c.rest = [first] ++ tail := hbytes
      by_cases hblank : Byte.isBlank first = true
      · rw [step_of_blank hbytes hblank]
        apply (ih (c.past [first]) (rest_past hone)).mono
        exact Nat.le_of_lt (length_past_lt hone (by simp))
      · cases standing first tail (by simpa using hblank) with
        | token tail_eq spelled =>
            subst tail_eq
            rw [step_of_spelled hbytes spelled]
            exact length_past_lt hbytes spelled.ne_nil
        | unclosed quote unquoted =>
            subst quote
            rw [step_of_unclosed hbytes unquoted]
            exact rest_past (by simpa using hbytes)
        | unknown none =>
            rw [step_of_unknown hbytes none]
            exact length_past_lt hone (by simp)

theorem length_of_step_token {c after : Cursor} {t : Token} (h : c.step = .token t after) :
    after.rest.length < c.rest.length := by
  have hadvances := c.step_advances
  rwa [h] at hadvances

theorem length_of_step_skipped {c after : Cursor} {s : Skip} (h : c.step = .skipped s after) :
    after.rest.length < c.rest.length := by
  have hadvances := c.step_advances
  rwa [h] at hadvances

theorem rest_of_step_finished {c after : Cursor} (h : c.step = .finished after) :
    after.rest = [] := by
  have hadvances := c.step_advances
  rwa [h] at hadvances

theorem rest_of_step_unclosed {c after : Cursor} {quote : Position}
    (h : c.step = .unclosed quote after) : after.rest = [] := by
  have hadvances := c.step_advances
  rwa [h] at hadvances

end Cursor

/-! ## The scan, step by step -/

namespace Scan

/-- Once there is a round for every byte, more rounds make no difference. -/
theorem run_eq_ofCursor {fuel : Nat} {c : Cursor} (h : c.rest.length < fuel) :
    run fuel c = ofCursor c := by
  suffices enough : ∀ m n (c : Cursor), c.rest.length < m → c.rest.length < n →
      run m c = run n c from
    enough fuel (c.rest.length + 1) c h (Nat.lt_succ_self _)
  intro m
  induction m with
  | zero => intro n c hm; omega
  | succ m ih =>
      intro n c hm hn
      cases n with
      | zero => omega
      | succ n =>
          cases hstep : c.step with
          | finished after => simp only [run, hstep]
          | unclosed quote after => simp only [run, hstep]
          | token t after =>
              have hlt := Cursor.length_of_step_token hstep
              simp only [run, hstep, ih n after (by omega) (by omega)]
          | skipped s after =>
              have hlt := Cursor.length_of_step_skipped hstep
              simp only [run, hstep, ih n after (by omega) (by omega)]

variable {c after : Cursor}

theorem ofCursor_of_finished (h : c.step = .finished after) :
    ofCursor c = ⟨[], [], .finished after.position⟩ := by
  simp only [ofCursor, run, h]

theorem ofCursor_of_unclosed {quote : Position} (h : c.step = .unclosed quote after) :
    ofCursor c = ⟨[], [], .unclosed quote⟩ := by
  simp only [ofCursor, run, h]

theorem ofCursor_of_token {t : Token} (h : c.step = .token t after) :
    ofCursor c = { ofCursor after with tokens := t :: (ofCursor after).tokens } := by
  have hrun := run_eq_ofCursor (Cursor.length_of_step_token h)
  simp only [ofCursor, run, h] at hrun ⊢
  rw [hrun]

theorem ofCursor_of_skipped {s : Skip} (h : c.step = .skipped s after) :
    ofCursor c = { ofCursor after with skips := s :: (ofCursor after).skips } := by
  have hrun := run_eq_ofCursor (Cursor.length_of_step_skipped h)
  simp only [ofCursor, run, h] at hrun ⊢
  rw [hrun]

theorem ofCursor_of_nothing (h : c.rest = []) : ofCursor c = ⟨[], [], .finished c.position⟩ :=
  ofCursor_of_finished (Cursor.step_of_nothing h)

theorem length_tokens_run (fuel : Nat) (c : Cursor) :
    (run fuel c).tokens.length ≤ c.rest.length := by
  induction fuel generalizing c with
  | zero => simp [run]
  | succ fuel ih =>
      cases hstep : c.step with
      | finished after => simp [run, hstep]
      | unclosed quote after => simp [run, hstep]
      | token t after =>
          have hlt := Cursor.length_of_step_token hstep
          have hle := ih after
          simp only [run, hstep, List.length_cons]
          omega
      | skipped s after =>
          have hlt := Cursor.length_of_step_skipped hstep
          have hle := ih after
          simp only [run, hstep]
          omega

end Scan

def Ending.quote? : Ending → Option Position
  | .finished _ => none
  | .unclosed quote => some quote

/-! ## What a stream still holds -/

/-- Tokens still to come, and the quote of an unclosed string behind them. -/
structure Row where
  tokens : List Token
  quote : Option Position

namespace Stream

def uncut (s : Stream) : Scan := Scan.ofCursor s.cursor

def row (s : Stream) : Row := ⟨s.buffer ++ s.uncut.tokens, s.uncut.ending.quote?⟩

/-- Nothing but the cursor and the bytes skipped differ, and no byte was skipped twice or lost. -/
structure Keeps (s after : Stream) : Prop where
  buffer : after.buffer = s.buffer
  lookahead : after.lookahead = s.lookahead
  skips : after.skips ++ after.uncut.skips = s.skips ++ s.uncut.skips

/-- What comes of cutting one token: the first that the scan finds, or what the source ends with. -/
inductive Cut (s : Stream) : Except Fault (Option Token) × Stream → Prop where
  | token {t : Token} {after : Stream} (tokens : s.uncut.tokens = t :: after.uncut.tokens)
      (ending : after.uncut.ending = s.uncut.ending) (keeps : Keeps s after) :
      Cut s (.ok (some t), after)
  | finished {after : Stream} (tokens : s.uncut.tokens = []) (ending : s.uncut.ending.quote? = none)
      (spent : after.cursor.rest = []) (keeps : Keeps s after) : Cut s (.ok none, after)
  | unclosed {quote : Position} {after : Stream} (tokens : s.uncut.tokens = [])
      (ending : s.uncut.ending.quote? = some quote) (spent : after.cursor.rest = [])
      (keeps : Keeps s after) : Cut s (.error (.unclosed quote), after)

theorem uncut_of_spent {s : Stream} (h : s.cursor.rest = []) :
    s.uncut = ⟨[], [], .finished s.cursor.position⟩ :=
  Scan.ofCursor_of_nothing h

/-- A stream that has skipped a byte cuts what it would have cut before it. -/
theorem Cut.of_skipped {s : Stream} {skip : Skip} {after : Cursor}
    (h : s.cursor.step = .skipped skip after) {result : Except Fault (Option Token) × Stream}
    (hcut : Cut { s with cursor := after, skips := s.skips ++ [skip] } result) : Cut s result := by
  have huncut : s.uncut =
      { Scan.ofCursor after with skips := skip :: (Scan.ofCursor after).skips } :=
    Scan.ofCursor_of_skipped h
  have hkeeps : ∀ {last : Stream},
      Keeps { s with cursor := after, skips := s.skips ++ [skip] } last → Keeps s last := by
    intro last keeps
    refine ⟨keeps.buffer, keeps.lookahead, ?_⟩
    rw [keeps.skips, huncut]
    simp [uncut]
  cases hcut with
  | token tokens ending keeps =>
      exact .token (by rw [huncut]; exact tokens) (by rw [huncut]; exact ending) (hkeeps keeps)
  | finished tokens ending spent keeps =>
      exact .finished (by rw [huncut]; exact tokens) (by rw [huncut]; exact ending) spent
        (hkeeps keeps)
  | unclosed tokens ending spent keeps =>
      exact .unclosed (by rw [huncut]; exact tokens) (by rw [huncut]; exact ending) spent
        (hkeeps keeps)

theorem cutFrom_cut (fuel : Nat) (s : Stream) (h : s.cursor.rest.length < fuel) :
    Cut s (cutFrom fuel s) := by
  induction fuel generalizing s with
  | zero => omega
  | succ fuel ih =>
      cases hstep : s.cursor.step with
      | finished after =>
          have huncut : s.uncut = _ := Scan.ofCursor_of_finished hstep
          have hspent := Cursor.rest_of_step_finished hstep
          simp only [cutFrom, hstep]
          refine .finished (by simp [huncut]) (by simp [huncut, Ending.quote?]) hspent
            ⟨rfl, rfl, ?_⟩
          rw [uncut_of_spent hspent, huncut]
      | unclosed quote after =>
          have huncut : s.uncut = _ := Scan.ofCursor_of_unclosed hstep
          have hspent := Cursor.rest_of_step_unclosed hstep
          simp only [cutFrom, hstep]
          refine .unclosed (by simp [huncut]) (by simp [huncut, Ending.quote?]) hspent
            ⟨rfl, rfl, ?_⟩
          rw [uncut_of_spent hspent, huncut]
      | token t after =>
          have huncut : s.uncut = _ := Scan.ofCursor_of_token hstep
          simp only [cutFrom, hstep]
          exact .token (by rw [huncut]; rfl) (by rw [huncut]; rfl) ⟨rfl, rfl, by rw [huncut]; rfl⟩
      | skipped skip after =>
          have hlt := Cursor.length_of_step_skipped hstep
          simp only [cutFrom, hstep]
          apply Cut.of_skipped hstep
          exact ih _ (by simpa using Nat.lt_of_lt_of_le hlt (Nat.le_of_lt_succ h))

theorem cut_cut (s : Stream) : Cut s s.cut := cutFrom_cut _ s (Nat.lt_succ_self _)

end Stream

/-! ## Calls -/

/-- What can be asked of a stream. -/
inductive Call where
  | next
  | peek (offset : Nat)
  | accept (kind : Kind)
  | acceptAny (kinds : List Kind)

namespace Call

/-- How many tokens have to be there for the call to be answered from them. -/
def demand : Call → Nat
  | .peek offset => offset + 1
  | _ => 1

def takeIf (kinds : List Kind) : List Token → Option Token × List Token
  | t :: rest => if t.kind ∈ kinds then (some t, rest) else (none, t :: rest)
  | [] => (none, [])

/-- The answer that a plain list of tokens gives, and the tokens that are left. -/
def onList : Call → List Token → Option Token × List Token
  | .next, tokens => (tokens.head?, tokens.tail)
  | .peek offset, tokens => (tokens[offset]?, tokens)
  | .accept kind, tokens => takeIf [kind] tokens
  | .acceptAny kinds, tokens => takeIf kinds tokens

/-- A list that is too short has nothing to give and loses nothing. -/
theorem onList_of_short {call : Call} {tokens : List Token} (h : tokens.length < call.demand) :
    call.onList tokens = (none, tokens) := by
  cases call with
  | peek offset => simp [onList, Nat.le_of_lt_succ h]
  | next | accept | acceptAny =>
      obtain rfl : tokens = [] := List.length_eq_zero_iff.mp (Nat.lt_one_iff.mp h)
      rfl

end Call

namespace Row

/-- Something was asked for behind the last token: there an unclosed string shows, but only once. -/
def beyond (r : Row) : Except Stream.Fault (Option Token) × Row :=
  match r.quote with
  | some quote => (.error (.unclosed quote), { r with quote := none })
  | none => (.ok none, r)

def answer (r : Row) (call : Call) : Except Stream.Fault (Option Token) × Row :=
  if r.tokens.length < call.demand then r.beyond
  else (.ok (call.onList r.tokens).1, { r with tokens := (call.onList r.tokens).2 })

def answers : List Call → Row → List (Except Stream.Fault (Option Token))
  | [], _ => []
  | call :: calls, r => (r.answer call).1 :: answers calls (r.answer call).2

end Row

namespace Stream

def answer (s : Stream) : Call → Except Fault (Option Token) × Stream
  | .next => s.next
  | .peek offset => s.peek offset
  | .accept kind => s.accept kind
  | .acceptAny kinds => s.acceptAny kinds

def answers : List Call → Stream → List (Except Fault (Option Token))
  | [], _ => []
  | call :: calls, s => (s.answer call).1 :: answers calls (s.answer call).2

/-! ## One call -/

/-- The stream gives the answer of its row, and its row is then what that answer leaves. -/
structure Follows (s : Stream) (result : Except Fault (Option Token) × Stream)
    (expected : Except Fault (Option Token) × Row) : Prop where
  answer : result.1 = expected.1
  row : result.2.row = expected.2
  lookahead : result.2.lookahead = s.lookahead

/-- Once the source is read to its end, its tokens are left and no string is open any more. -/
theorem row_of_spent {s after : Stream} (tokens : s.uncut.tokens = [])
    (spent : after.cursor.rest = []) (keeps : Keeps s after) :
    after.row = ⟨s.row.tokens, none⟩ := by
  simp [row, tokens, keeps.buffer, uncut_of_spent spent, Ending.quote?]

theorem beyond_of_finished {s after : Stream} (tokens : s.uncut.tokens = [])
    (ending : s.uncut.ending.quote? = none) (spent : after.cursor.rest = [])
    (keeps : Keeps s after) :
    s.row.beyond = (.ok none, after.row) := by
  rw [row_of_spent tokens spent keeps]
  simp only [Row.beyond, row, ending]

theorem beyond_of_unclosed {s after : Stream} {quote : Position} (tokens : s.uncut.tokens = [])
    (ending : s.uncut.ending.quote? = some quote) (spent : after.cursor.rest = [])
    (keeps : Keeps s after) : s.row.beyond = (.error (.unclosed quote), after.row) := by
  rw [row_of_spent tokens spent keeps]
  simp only [Row.beyond, row, ending]

theorem follows_next (s : Stream) : Follows s s.next (s.row.answer .next) := by
  cases hbuffer : s.buffer with
  | cons t rest =>
      simp only [next, hbuffer]
      constructor <;> simp [Row.answer, row, hbuffer, Call.demand, Call.onList, uncut]
  | nil =>
      have hcut := s.cut_cut
      simp only [next, hbuffer]
      generalize s.cut = result at hcut
      cases hcut with
      | token tokens ending keeps =>
          constructor <;>
            simp [Row.answer, row, hbuffer, tokens, ending, keeps.buffer, keeps.lookahead,
              Call.demand, Call.onList]
      | finished tokens ending spent keeps =>
          have hbeyond := beyond_of_finished tokens ending spent keeps
          have hshort : s.row.tokens.length < 1 := by simp [row, hbuffer, tokens]
          constructor <;> simp [Row.answer, Call.demand, hshort, hbeyond, keeps.lookahead]
      | unclosed tokens ending spent keeps =>
          have hbeyond := beyond_of_unclosed tokens ending spent keeps
          have hshort : s.row.tokens.length < 1 := by simp [row, hbuffer, tokens]
          constructor <;> simp [Row.answer, Call.demand, hshort, hbeyond, keeps.lookahead]

/-- What comes of filling the buffer: it is longer by the tokens wanted, or the source has ended. -/
inductive Filled (s : Stream) (wanted : Nat) : Except Fault Bool × Stream → Prop where
  | full {after : Stream} (row : after.row = s.row)
      (length : after.buffer.length = s.buffer.length + wanted)
      (lookahead : after.lookahead = s.lookahead) : Filled s wanted (.ok true, after)
  | short {after : Stream} (few : s.row.tokens.length < s.buffer.length + wanted)
      (beyond : s.row.beyond = (.ok none, after.row)) (lookahead : after.lookahead = s.lookahead) :
      Filled s wanted (.ok false, after)
  | unclosed {quote : Position} {after : Stream}
      (few : s.row.tokens.length < s.buffer.length + wanted)
      (beyond : s.row.beyond = (.error (.unclosed quote), after.row))
      (lookahead : after.lookahead = s.lookahead) :
      Filled s wanted (.error (.unclosed quote), after)

theorem fill_filled (wanted : Nat) (s : Stream) : Filled s wanted (fill wanted s) := by
  induction wanted generalizing s with
  | zero => exact .full rfl rfl rfl
  | succ wanted ih =>
      have hcut := s.cut_cut
      unfold fill
      generalize s.cut = result at hcut
      cases hcut with
      | @token t after tokens ending keeps =>
          -- The token moves from the uncut part of the row to the buffered one.
          have hrow : row { after with buffer := after.buffer ++ [t] } = s.row := by
            rw [row, row, ← ending, tokens]
            simp [uncut, keeps.buffer]
          have hlength : (after.buffer ++ [t]).length = s.buffer.length + 1 := by
            simp [keeps.buffer]
          have hmore := ih { after with buffer := after.buffer ++ [t] }
          dsimp only
          generalize fill wanted { after with buffer := after.buffer ++ [t] } = result at hmore
          cases hmore with
          | full row length lookahead =>
              refine .full (row.trans hrow) ?_ (lookahead.trans keeps.lookahead)
              rw [length, hlength]
              omega
          | short few beyond lookahead =>
              rw [hrow] at few beyond
              exact .short (by dsimp only at few; omega) beyond (lookahead.trans keeps.lookahead)
          | unclosed few beyond lookahead =>
              rw [hrow] at few beyond
              exact .unclosed (by dsimp only at few; omega) beyond
                (lookahead.trans keeps.lookahead)
      | finished tokens ending spent keeps =>
          have hbeyond := beyond_of_finished tokens ending spent keeps
          exact .short (by simp [row, tokens]) hbeyond keeps.lookahead
      | unclosed tokens ending spent keeps =>
          have hbeyond := beyond_of_unclosed tokens ending spent keeps
          exact .unclosed (by simp [row, tokens]) hbeyond keeps.lookahead

theorem follows_peek (s : Stream) {offset : Nat} (h : offset < s.lookahead) :
    Follows s (s.peek offset) (s.row.answer (.peek offset)) := by
  have hbuffered : s.buffer.length ≤ s.row.tokens.length := by simp [row]
  have hfilled := fill_filled (offset + 1 - s.buffer.length) s
  unfold peek
  rw [if_neg (Nat.not_le.mpr h)]
  generalize fill (offset + 1 - s.buffer.length) s = result at hfilled
  cases hfilled with
  | @full after same length lookahead =>
      have hinside : offset < after.buffer.length := by omega
      have htokens : s.row.tokens = after.buffer ++ after.uncut.tokens := by rw [← same]; rfl
      have hlength : ¬ s.row.tokens.length < offset + 1 := by
        rw [htokens, List.length_append]
        omega
      have hget : s.row.tokens[offset]? = after.buffer[offset]? := by
        rw [htokens, List.getElem?_append_left hinside]
      constructor <;> simp [Row.answer, Call.demand, Call.onList, hlength, hget, same, lookahead]
  | short few beyond lookahead =>
      have hshort : s.row.tokens.length < offset + 1 := by omega
      constructor <;> simp [Row.answer, Call.demand, hshort, beyond, lookahead]
  | unclosed few beyond lookahead =>
      have hshort : s.row.tokens.length < offset + 1 := by omega
      constructor <;> simp [Row.answer, Call.demand, hshort, beyond, lookahead]

/-- To accept a token is to look at it and then, if it fits, to remove it. -/
theorem follows_acceptAny (s : Stream) (h : 0 < s.lookahead) (kinds : List Kind) :
    Follows s (s.acceptAny kinds) (s.row.answer (.acceptAny kinds)) := by
  obtain ⟨hanswer, hrow, hlookahead⟩ := s.follows_peek h
  unfold acceptAny
  generalize s.peek 0 = looked at hanswer hrow hlookahead
  obtain ⟨answer, after⟩ := looked
  cases htokens : s.row.tokens with
  | nil =>
      have hpeek : s.row.answer (.peek 0) = s.row.beyond := by
        simp [Row.answer, Call.demand, htokens]
      have haccept : s.row.answer (.acceptAny kinds) = s.row.beyond := by
        simp [Row.answer, Call.demand, htokens]
      rw [hpeek] at hanswer hrow
      rw [haccept]
      -- Both calls ask for a token that is not there.
      cases hquote : s.row.quote <;>
        simp only [Row.beyond, hquote] at hanswer hrow ⊢ <;> subst hanswer <;>
        exact ⟨rfl, hrow, hlookahead⟩
  | cons t rest =>
      simp only [Row.answer, Call.demand, Call.onList, htokens, List.length_cons] at hanswer hrow
      simp only [Nat.not_lt.mpr (Nat.le_add_left 1 rest.length), if_false, List.getElem?_cons_zero]
        at hanswer hrow
      subst hanswer
      have hsame : after.row = s.row := by rw [hrow, ← htokens]
      by_cases hkind : t.kind ∈ kinds
      · have hnext := after.follows_next
        rw [hsame] at hnext
        simp only [if_pos hkind]
        refine ⟨?_, ?_, hnext.lookahead.trans hlookahead⟩
        · rw [hnext.answer]
          simp [Row.answer, Call.demand, Call.onList, Call.takeIf, htokens, hkind]
        · rw [hnext.row]
          simp [Row.answer, Call.demand, Call.onList, Call.takeIf, htokens, hkind]
      · simp only [if_neg hkind]
        refine ⟨?_, ?_, hlookahead⟩
        · simp [Row.answer, Call.demand, Call.onList, Call.takeIf, htokens, hkind]
        · simp [Row.answer, Call.demand, Call.onList, Call.takeIf, htokens, hkind, hrow]

theorem follows_answer (s : Stream) (h : 0 < s.lookahead) {call : Call}
    (hcall : ∀ offset, call = .peek offset → offset < s.lookahead) :
    Follows s (s.answer call) (s.row.answer call) := by
  cases call with
  | next => exact s.follows_next
  | peek offset => exact s.follows_peek (hcall offset rfl)
  | accept kind => exact s.follows_acceptAny h [kind]
  | acceptAny kinds => exact s.follows_acceptAny h kinds

theorem answers_row (calls : List Call) (s : Stream) (h : 0 < s.lookahead)
    (hcalls : ∀ offset, .peek offset ∈ calls → offset < s.lookahead) :
    s.answers calls = s.row.answers calls := by
  induction calls generalizing s with
  | nil => rfl
  | cons call calls ih =>
      have hfirst : Follows s (s.answer call) (s.row.answer call) :=
        s.follows_answer h fun offset heq => hcalls offset (heq ▸ List.mem_cons_self)
      have hrest : (s.answer call).2.answers calls = (s.answer call).2.row.answers calls := by
        apply ih
        · rw [hfirst.lookahead]
          exact h
        · intro offset hmem
          rw [hfirst.lookahead]
          exact hcalls offset (List.mem_cons_of_mem call hmem)
      rw [answers, Row.answers, hfirst.answer, hrest, hfirst.row]

end Stream

/-! ## All tokens -/

namespace Stream

/-- What comes of removing every token: the tokens of the row, the fault behind them, and the bytes
that were skipped on the way. -/
structure Drained (s : Stream) (result : (List Token × Option Fault) × Stream) : Prop where
  tokens : result.1.1 = s.row.tokens
  fault : result.1.2 = s.row.quote.map Fault.unclosed
  skips : result.2.skips = s.skips ++ s.uncut.skips

theorem drainFrom_drained (fuel : Nat) (s : Stream) (h : s.row.tokens.length < fuel) :
    Drained s (drainFrom fuel s) := by
  induction fuel generalizing s with
  | zero => omega
  | succ fuel ih =>
      cases hbuffer : s.buffer with
      | cons t rest =>
          have hmore := ih { s with buffer := rest } (by simp [row, uncut, hbuffer] at h ⊢; omega)
          simp only [drainFrom, next, hbuffer]
          constructor
          · simp [hmore.tokens, row, uncut, hbuffer]
          · simp [hmore.fault, row, uncut]
          · simp [hmore.skips, uncut]
      | nil =>
          have hcut := s.cut_cut
          simp only [drainFrom, next, hbuffer]
          generalize s.cut = result at hcut
          cases hcut with
          | @token t after tokens ending keeps =>
              have hmore := ih after
                (by simp [row, hbuffer, tokens, keeps.buffer] at h ⊢; omega)
              constructor
              · simp [hmore.tokens, row, hbuffer, tokens, keeps.buffer]
              · simp [hmore.fault, row, ending]
              · exact hmore.skips.trans keeps.skips
          | finished tokens ending spent keeps =>
              have hskips := keeps.skips
              rw [uncut_of_spent spent, List.append_nil] at hskips
              exact ⟨by simp [row, hbuffer, tokens], by simp [row, ending], hskips⟩
          | unclosed tokens ending spent keeps =>
              have hskips := keeps.skips
              rw [uncut_of_spent spent, List.append_nil] at hskips
              exact ⟨by simp [row, hbuffer, tokens], by simp [row, ending], hskips⟩

theorem drain_drained (s : Stream) : Drained s s.drain := by
  have hlength : s.uncut.tokens.length ≤ s.cursor.rest.length := Scan.length_tokens_run _ _
  apply drainFrom_drained
  simp only [row, List.length_append]
  omega

end Stream

/-! ## All calls -/

namespace Call

def allOnList : List Call → List Token → List (Option Token)
  | [], _ => []
  | call :: calls, tokens => (call.onList tokens).1 :: allOnList calls (call.onList tokens).2

/-- The index of the first call that asks for more tokens than there are. -/
def firstBeyond : List Call → List Token → Nat
  | [], _ => 0
  | call :: calls, tokens =>
      if tokens.length < call.demand then 0 else firstBeyond calls (call.onList tokens).2 + 1

end Call

/-- The answers that the tokens of a whole source give, with the fault of an unclosed string where
it belongs. -/
def Scan.answers (scan : Scan) (calls : List Call) : List (Except Stream.Fault (Option Token)) :=
  let plain := (Call.allOnList calls scan.tokens).map .ok
  match scan.ending with
  | .finished _ => plain
  | .unclosed quote => plain.set (Call.firstBeyond calls scan.tokens) (.error (.unclosed quote))

namespace Row

theorem answers_of_closed (calls : List Call) (tokens : List Token) :
    answers calls ⟨tokens, none⟩ = (Call.allOnList calls tokens).map .ok := by
  induction calls generalizing tokens with
  | nil => rfl
  | cons call calls ih =>
      rw [answers, Call.allOnList, List.map_cons]
      by_cases hshort : tokens.length < call.demand
      · simp [answer, beyond, hshort, Call.onList_of_short hshort, ih]
      · simp [answer, hshort, ih]

theorem answers_of_unclosed (calls : List Call) (tokens : List Token) (quote : Position) :
    answers calls ⟨tokens, some quote⟩ =
      ((Call.allOnList calls tokens).map .ok).set (Call.firstBeyond calls tokens)
        (.error (.unclosed quote)) := by
  induction calls generalizing tokens with
  | nil => rfl
  | cons call calls ih =>
      rw [answers, Call.allOnList, Call.firstBeyond, List.map_cons]
      by_cases hshort : tokens.length < call.demand
      · simp [answer, beyond, hshort, Call.onList_of_short hshort, answers_of_closed]
      · simp [answer, hshort, ih]

end Row

/-- Whatever a stream is asked for, within its lookahead, it answers as the list of the tokens of
its source does. An unclosed string is reported by the first call that asks for more tokens than
there are and by no other, and the lookahead makes no difference. -/
theorem stream_answers_as_list (bytes : List UInt8) (lookahead : Nat) (calls : List Call)
    (positive : 1 ≤ lookahead) (within : ∀ offset, .peek offset ∈ calls → offset < lookahead) :
    ∃ s, Stream.ofBytes? bytes lookahead = .ok s ∧
      s.answers calls = (Scan.ofBytes bytes).answers calls := by
  let s : Stream := ⟨.ofBytes bytes, lookahead, [], []⟩
  have hmade : Stream.ofBytes? bytes lookahead = .ok s := by
    simp [Stream.ofBytes?, s, Nat.ne_of_gt positive]
  have hrow : s.row = ⟨(Scan.ofBytes bytes).tokens, (Scan.ofBytes bytes).ending.quote?⟩ := rfl
  refine ⟨s, hmade, ?_⟩
  rw [s.answers_row calls positive within, hrow, Scan.answers]
  cases (Scan.ofBytes bytes).ending with
  | finished position => exact Row.answers_of_closed calls _
  | unclosed quote => exact Row.answers_of_unclosed calls _ quote

/-- A word before a quote that nothing closes: the second token is asked for first. -/
theorem stream_answers_as_list_before_open_quote :
    let bytes : List UInt8 := [97, 32, 34, 98]
    let word : Token := ⟨.identifier "a", ⟨1, 1⟩⟩
    let calls : List Call :=
      [.peek 1, .peek 0, .peek 1, .accept (.symbol .comma), .acceptAny [.identifier], .next]
    1 ≤ 2 ∧ (∀ offset, .peek offset ∈ calls → offset < 2) ∧
      ∃ s, Stream.ofBytes? bytes 2 = .ok s ∧
        s.answers calls =
          [.error (.unclosed ⟨1, 3⟩), .ok (some word), .ok none, .ok none, .ok (some word),
            .ok none] := by
  intro bytes word calls
  have hwithin : ∀ offset, .peek offset ∈ calls → offset < 2 := by
    intro offset h
    simp [calls] at h
    omega
  obtain ⟨s, hmade, hanswers⟩ := stream_answers_as_list bytes 2 calls (by decide) hwithin
  exact ⟨by decide, hwithin, s, hmade, hanswers⟩

end Scriptlet
