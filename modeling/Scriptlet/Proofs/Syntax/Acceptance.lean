import Scriptlet.Proofs.Syntax.Spine

/-!
# What the parser accepts

The parser never goes back, and gives an operator to the innermost expression that allows it. Along
a run over operators, where that choice is as good as any other, it reaches the end of every
derivable source, unless that nests too deep.
-/

namespace Scriptlet

open Rule

namespace Parser

variable {α β : Type} {E : Prop}

/-- The parser succeeds and leaves a rest that satisfies `Q`. It may find that the tokens nest too
deep only if `E`. -/
def Reaches (E : Prop) (p : Parser α) (tokens : List Token) (Q : List Token → Prop) : Prop :=
  match p tokens with
  | .ok (_, rest) => Q rest
  | .error (.tooDeep _) => E
  | .error (.rejected _ _) => False

theorem Reaches.of_ok {p : Parser α} {tokens rest : List Token} {a : α} {Q : List Token → Prop}
    (h : p tokens = .ok (a, rest)) (hQ : Q rest) : Reaches E p tokens Q := by
  unfold Reaches
  rw [h]
  exact hQ

theorem Reaches.of_eq {p q : Parser α} {tokens later : List Token} {Q : List Token → Prop}
    (h : p tokens = q later) (hq : Reaches E q later Q) : Reaches E p tokens Q := by
  unfold Reaches at hq ⊢
  rw [h]
  exact hq

theorem reaches_tooDeep {tokens : List Token} {Q : List Token → Prop} (h : E) :
    Reaches E (tooDeep : Parser α) tokens Q := h

theorem Reaches.imp {E' : Prop} {p : Parser α} {tokens : List Token} {Q Q' : List Token → Prop}
    (h : Reaches E p tokens Q) (hE : E → E')
    (hQ : ∀ a rest, p tokens = .ok (a, rest) → Q rest → Q' rest) : Reaches E' p tokens Q' := by
  unfold Reaches at h ⊢
  cases hp : p tokens with
  | ok result =>
      rw [hp] at h
      exact hQ _ _ hp h
  | error failure =>
      rw [hp] at h
      cases failure with
      | tooDeep => exact hE h
      | rejected => exact h.elim

theorem Reaches.bind {p : Parser α} {f : α → Parser β} {tokens : List Token}
    {Q Q' : List Token → Prop} (first : Reaches E p tokens Q)
    (second : ∀ a rest, Q rest → Reaches E (f a) rest Q') : Reaches E (p >>= f) tokens Q' := by
  change Reaches E (Parser.bind p f) tokens Q'
  unfold Reaches at first ⊢
  unfold Parser.bind
  cases hp : p tokens with
  | ok result =>
      rw [hp] at first
      exact second result.1 result.2 first
  | error failure =>
      rw [hp] at first
      cases failure with
      | tooDeep => exact first
      | rejected => exact first

/-- The first part of a computation is known to succeed. -/
theorem Reaches.bind_ok {p : Parser α} {f : α → Parser β} {tokens rest : List Token} {a : α}
    {Q : List Token → Prop} (first : p tokens = .ok (a, rest)) (second : Reaches E (f a) rest Q) :
    Reaches E (p >>= f) tokens Q := by
  change Reaches E (Parser.bind p f) tokens Q
  unfold Reaches at second ⊢
  unfold Parser.bind
  rw [first]
  exact second

theorem Reaches.pure {tokens : List Token} {a : α} {Q : List Token → Prop} (h : Q tokens) :
    Reaches E (Pure.pure a : Parser α) tokens Q := h

theorem accept_symbol (s : Symbol) (p : Position) (rest : List Token) :
    accept s (⟨.symbol s, p⟩ :: rest) = .ok (true, rest) := by
  change Parser.bind (acceptAny [s]) _ _ = _
  simp [Parser.bind, acceptAny]

theorem acceptAny_other {symbols : List Symbol} {tokens : List Token}
    (h : ∀ s ∈ symbols, ∀ t ∈ tokens.head?, t.lexeme ≠ .symbol s) :
    acceptAny symbols tokens = .ok (none, tokens) := by
  unfold acceptAny
  split
  · next s p rest =>
      rw [if_neg]
      intro hs
      exact h s hs _ rfl rfl
  · rfl

theorem accept_other {s : Symbol} {tokens : List Token}
    (h : ∀ t ∈ tokens.head?, t.lexeme ≠ .symbol s) : accept s tokens = .ok (false, tokens) := by
  have hnone : acceptAny [s] tokens = .ok (none, tokens) := by
    apply acceptAny_other
    intro s' hs'
    rw [List.mem_singleton.mp hs']
    exact h
  change Parser.bind (acceptAny [s]) _ _ = _
  simp [Parser.bind, hnone]

theorem accept_next_ne {s : Symbol} {tokens : List Token}
    (h : nextLexeme? tokens ≠ some (.symbol s)) : accept s tokens = .ok (false, tokens) := by
  apply accept_other
  intro t ht hlexeme
  rw [← hlexeme] at h
  exact h (Option.mem_map_of_mem (·.lexeme) ht)

def BeginsWithout (s : Symbol) (u : List Token) : Prop :=
  ∃ t v, u = t :: v ∧ t.lexeme ≠ .symbol s

theorem BeginsWithout.accept {s : Symbol} {u : List Token} (h : BeginsWithout s u) :
    Parser.accept s u = .ok (false, u) := by
  obtain ⟨t, v, rfl, ht⟩ := h
  apply accept_other
  intro t' ht'
  cases ht'
  exact ht

theorem BeginsWithout.append {s : Symbol} {u : List Token} (h : BeginsWithout s u)
    (v : List Token) : BeginsWithout s (u ++ v) := by
  obtain ⟨t, w, rfl, ht⟩ := h
  exact ⟨t, w ++ v, rfl, ht⟩

theorem BeginsWithout.length_pos {s : Symbol} {u : List Token} (h : BeginsWithout s u) :
    0 < u.length := by
  obtain ⟨t, v, rfl, -⟩ := h
  exact Nat.succ_pos _

theorem beginsWithout_of_symbol {s s' : Symbol} (h : s' ≠ s) (p : Position) (rest : List Token) :
    BeginsWithout s (⟨.symbol s', p⟩ :: rest) :=
  ⟨_, rest, rfl, fun heq => h (Lexeme.symbol.inj heq)⟩

theorem require_symbol (s : Symbol) (kind : SyntaxError.Kind) (p : Position) (rest : List Token) :
    require s kind (⟨.symbol s, p⟩ :: rest) = .ok ((), rest) := by
  change Parser.bind (accept s) _ _ = _
  simp [Parser.bind, accept_symbol]

/-! ## Items with commas between them -/

/-- The parser reads what `L` accepts to its end, if `F` holds of the lexeme behind it and there are
at most `n` tokens. -/
def ReachesEnd (E : Prop) (n : Nat) (L : List Token → Prop) (F : Option Lexeme → Prop)
    (p : Parser α) : Prop :=
  ∀ {u rest}, L u → F (nextLexeme? rest) → (u ++ rest).length ≤ n →
    Reaches E p (u ++ rest) (· = rest)

/-- What stands behind an item of a list. -/
def SeparatesAt (next : Option Lexeme) : Prop :=
  ∃ s ∈ [Symbol.comma, Symbol.closeParen], next = some (.symbol s)

section

variable {L : List Token → Prop} {F F' : Option Lexeme → Prop} {item : Parser α} {n : Nat}

theorem ReachesEnd.of_le {m : Nat} {p : Parser α} (h : ReachesEnd E n L F p) (hm : m ≤ n) :
    ReachesEnd E m L F p :=
  fun hu hrest hlength => h hu hrest (Nat.le_trans hlength hm)

theorem ReachesEnd.mono {p : Parser α} (h : ReachesEnd E n L F p) (hF : ∀ l, F' l → F l) :
    ReachesEnd E n L F' p :=
  fun hu hrest hlength => h hu (hF _ hrest) hlength

theorem reaches_separatedFrom (hitem : ReachesEnd E n L SeparatesAt item)
    {items : List Unit} {w : List Token} (h : Listed (fun _ v => L v) items w)
    {p : Position} {rest rounds : List Token}
    (hlength : (w ++ ⟨.symbol .closeParen, p⟩ :: rest).length ≤ n)
    (hrounds : (w ++ ⟨.symbol .closeParen, p⟩ :: rest).length ≤ rounds.length) :
    Reaches E (separatedFrom item rounds) (w ++ ⟨.symbol .closeParen, p⟩ :: rest)
      (· = ⟨.symbol .closeParen, p⟩ :: rest) := by
  induction h generalizing rounds with
  | @one _ w hw =>
      have hfirst := hitem hw ⟨.closeParen, by simp, rfl⟩ hlength
      have hend : BeginsWithout .comma (⟨.symbol .closeParen, p⟩ :: rest) :=
        beginsWithout_of_symbol (by decide) p rest
      cases rounds with
      | nil => exact hfirst.bind fun a T hT => .pure hT
      | cons round rounds =>
          refine hfirst.bind fun a T hT => ?_
          subst hT
          exact .bind_ok hend.accept (.pure rfl)
  | @more _ _ u v q hu _ ih =>
      rw [List.append_assoc, List.cons_append] at hlength hrounds ⊢
      have hfirst := hitem hu ⟨.comma, by simp, rfl⟩ hlength
      rw [List.length_append, List.length_cons] at hlength hrounds
      cases rounds with
      | nil => simp at hrounds
      | cons round rounds =>
          rw [List.length_cons] at hrounds
          refine hfirst.bind fun a T hT => ?_
          subst hT
          refine .bind_ok (accept_symbol .comma q _) ?_
          exact (ih (by omega) (by omega)).bind fun as T hT => .pure hT

theorem reaches_listed (hitem : ReachesEnd E n L SeparatesAt item)
    (hstart : ∀ {u}, L u → BeginsWithout .closeParen u) {items : List Unit} {w : List Token}
    (h : ListedOrNone (fun _ v => L v) items w) (kind : SyntaxError.Kind) {p : Position}
    {rest : List Token} (hlength : (w ++ ⟨.symbol .closeParen, p⟩ :: rest).length ≤ n) :
    Reaches E (Parser.listed item kind) (w ++ ⟨.symbol .closeParen, p⟩ :: rest) (· = rest) := by
  rcases h with ⟨rfl, rfl⟩ | hitems
  · exact .bind_ok (accept_symbol .closeParen p rest) (.pure rfl)
  · have hopen : BeginsWithout .closeParen w := by
      cases hitems with
      | one hu => exact hstart hu
      | more hu _ => exact (hstart hu).append _
    refine .bind_ok (hopen.append _).accept ?_
    refine (reaches_separatedFrom hitem hitems hlength (Nat.le_refl _)).bind fun as T hT => ?_
    subst hT
    exact .bind_ok (require_symbol .closeParen kind p rest) (.pure rfl)

end

/-! ## Patterns -/

section

variable {σ : Type} {n : Nat} {L : σ → List Token → Prop} {F : σ → Option Lexeme → Prop}
  {S : Option Lexeme → Prop} {readers : σ → Parser Node}

theorem Pattern.Accepts.opens {pattern : Pattern σ} {u rest : List Token}
    (h : pattern.Accepts L u) (hrest : S (nextLexeme? rest)) :
    pattern.Opens S (nextLexeme? (u ++ rest)) := by
  induction pattern with
  | done =>
      cases h
      exact hrest
  | read | list => trivial
  | require s kind next =>
      obtain ⟨p, v, rfl, -⟩ := h
      rfl
  | branch s yes no _ ih =>
      rcases h with ⟨p, v, rfl, -⟩ | hno
      · exact .inl rfl
      · exact .inr (ih hno)

variable (hreaders : ∀ role, ReachesEnd E n (L role) (F role) (readers role))

include hreaders

theorem Item.reachesEnd (item : Item σ) :
    ReachesEnd E n (item.Accepts L) (fun l => item.Followed F l) (item.parser readers) := by
  cases item with
  | tree role => exact hreaders role
  | name kind =>
      rintro _ rest ⟨spelled, p, rfl⟩ _ _
      exact .of_ok rfl rfl

variable (hlists : ∀ role, F role (some (.symbol .closeParen)) →
  ∀ {u}, L role u → BeginsWithout .closeParen u)

include hlists

theorem Pattern.reachesEnd {pattern : Pattern σ} (fits : pattern.Fits F S) :
    ReachesEnd E n (pattern.Accepts L) S (pattern.parser readers) := by
  induction pattern with
  | done =>
      rintro _ rest rfl _ _
      exact .pure rfl
  | read item next ih =>
      rintro _ rest ⟨u, v, rfl, hu, hv⟩ hrest hlength
      rw [List.append_assoc] at hlength ⊢
      refine (item.reachesEnd hreaders hu (fits.1 _ (hv.opens hrest)) hlength).bind fun a T hT => ?_
      subst hT
      rw [List.length_append] at hlength
      exact (ih fits.2 hv hrest (by omega)).bind fun r T hT => .pure hT
  | list item kind next ih =>
      rintro _ rest ⟨u, p, v, rfl, ⟨items, hu⟩, hv⟩ hrest hlength
      rw [List.append_assoc, List.cons_append] at hlength ⊢
      have hitem : ReachesEnd E n (item.Accepts L) SeparatesAt (item.parser readers) := by
        refine ReachesEnd.mono (F := fun l => item.Followed F l) (item.reachesEnd hreaders) ?_
        rintro _ ⟨s, hs, rfl⟩
        exact fits.1 s hs
      have hstart {x : List Token} (hx : item.Accepts L x) : BeginsWithout .closeParen x := by
        cases item with
        | tree role => exact hlists role (fits.1 .closeParen (by simp)) hx
        | name =>
            obtain ⟨spelled, p, rfl⟩ := hx
            exact ⟨_, [], rfl, by simp⟩
      refine (reaches_listed hitem hstart hu kind hlength).bind fun as T hT => ?_
      subst hT
      rw [List.length_append, List.length_cons] at hlength
      exact (ih fits.2 hv hrest (by omega)).bind fun r T hT => .pure hT
  | require s kind next ih =>
      rintro _ rest ⟨p, v, rfl, hv⟩ hrest hlength
      exact .bind_ok (require_symbol s kind p _) (ih fits hv hrest (Nat.le_of_succ_le hlength))
  | branch s yes no ihyes ihno =>
      rintro u rest (⟨p, v, rfl, hv⟩ | hu) hrest hlength
      · refine .bind_ok (accept_symbol s p _) ?_
        exact (ihyes fits.2.1 hv hrest (Nat.le_of_succ_le hlength)).bind fun r T hT => .pure hT
      · have hnext : nextLexeme? (u ++ rest) ≠ some (.symbol s) := fits.1 _ (hu.opens hrest)
        refine .bind_ok (accept_next_ne hnext) ?_
        exact (ihno fits.2.2 hu hrest hlength).bind fun r T hT => .pure hT

theorem Form.reachesEnd {form : Form σ} (fits : form.pattern.Fits F S) (p : Position) :
    ReachesEnd E n (form.pattern.Accepts L) S (form.parser readers p) :=
  fun hu hrest hlength =>
    (Pattern.reachesEnd hreaders hlists fits hu hrest hlength).bind fun _ _ hT => .pure hT

end

/-! ## Expressions -/

/-- No expression goes on with the next token. -/
def Halts (rest : List Token) : Prop := HaltsAt (nextLexeme? rest)

theorem Halts.head {rest : List Token} (h : Halts rest) {t : Token} (ht : t ∈ rest.head?) :
    ∃ s ∈ [.comma, .closeParen, .colon, .semicolon, .elseWord], Lexeme.symbol s = t.lexeme :=
  List.mem_map.mp (h t.lexeme (Option.mem_map_of_mem _ ht))

theorem Halts.not_operator {rest : List Token} (h : Halts rest) :
    ∀ t ∈ rest.head?, t.tier? = none := by
  intro t ht
  obtain ⟨s, hs, hlexeme⟩ := h.head ht
  unfold Token.tier?
  rw [← hlexeme]
  clear hlexeme
  revert s
  decide

/-- After an operand comes no token that would make it a call or an assignment. -/
theorem Halts.after_operand {rest T : List Token} {S : List Frame} (h : Halts rest)
    (run : Spine rest S T) :
    ∀ t ∈ T.head?, t.lexeme ≠ .symbol .openParen ∧ t.lexeme ≠ .symbol .equal := by
  refine run.head_of_rest ?_ ?_
  · intro t ht
    obtain ⟨s, hs, hlexeme⟩ := h.head ht
    rw [← hlexeme]
    clear hlexeme
    revert s
    decide
  · intro t i ht
    obtain ⟨s, p, rfl, hs⟩ := Token.tier?_eq_some ht
    constructor
    · rintro ⟨⟩
      cases hs
    · rintro ⟨⟩
      cases hs

theorem acceptAny_operator {i : Nat} (hi : i < 7) {t : Token} (ht : t.tier? = some i)
    (rest : List Token) : ∃ s, acceptAny (tierSymbols i) (t :: rest) = .ok (some s, rest) := by
  obtain ⟨s, p, rfl, hs⟩ := Token.tier?_eq_some ht
  refine ⟨s, ?_⟩
  simp only [acceptAny, if_pos ((tier?_eq_some_iff hi).mp hs)]

theorem acceptAny_no_operator {i : Nat} (hi : i < 7) {tokens : List Token}
    (h : ∀ t ∈ tokens.head?, t.tier? ≠ some i) :
    acceptAny (tierSymbols i) tokens = .ok (none, tokens) := by
  apply acceptAny_other
  intro s hs t ht hlexeme
  apply h t ht
  unfold Token.tier?
  rw [hlexeme]
  exact (tier?_eq_some_iff hi).mpr hs

/-- What is left where no operator of tier `i` or tighter is allowed any more: the run goes on, and
of looser operators nothing has been used. -/
def Settled (rest : List Token) (i : Nat) (c : Frame) (S : List Frame) (T : List Token) : Prop :=
  ∃ d : Frame, (∀ j, j < i → d.blocks j = c.blocks j) ∧ Spine rest (d :: S) T ∧
    ∀ t ∈ T.head?, ∀ j, i ≤ j → t.tier? = some j → d.blocks j = true

theorem Settled.of_agree {rest T : List Token} {i : Nat} {c c' : Frame} {S : List Frame}
    (h : Settled rest i c S T) (hc : ∀ j, j < i → c.blocks j = c'.blocks j) :
    Settled rest i c' S T := by
  obtain ⟨d, hd, run, hsettled⟩ := h
  refine ⟨d, fun j hj => ?_, run, hsettled⟩
  rw [hd j hj, hc j hj]

theorem Settled.looser {rest T : List Token} {i : Nat} {c : Frame} {S : List Frame}
    (h : Settled rest (i + 1) c S T) (hnone : ∀ t ∈ T.head?, t.tier? ≠ some i) :
    Settled rest i c S T := by
  obtain ⟨d, hd, run, hsettled⟩ := h
  refine ⟨d, fun j hj => hd j (by omega), run, ?_⟩
  intro t ht j hj htier
  have hne : j ≠ i := by
    intro h
    exact hnone t ht (h ▸ htier)
  exact hsettled t ht j (by omega) htier

/-- The parser reads an operand and what belongs to the assignments that it leaves open, from at
most `n` tokens. -/
def ReachesOperand (E : Prop) (n : Nat) (operand : Parser Node) : Prop :=
  ∀ {k w T rest S}, Operand k w → Spine rest (opened k S) T → Halts rest → (w ++ T).length ≤ n →
    Reaches E operand (w ++ T) (Spine rest S)

/-- The parser reads an operand and all the operators that its own frame allows. -/
def ReachesExpression (E : Prop) (n : Nat) (p : Parser Node) : Prop :=
  ∀ {k w T rest S}, Operand k w → Spine rest (opened k (.fresh :: S)) T → Halts rest →
    (w ++ T).length ≤ n → Reaches E p (w ++ T) (Spine rest S)

/-- The parser reads what is joined by operators of tier `i` and tighter. -/
def ReachesTier (E : Prop) (n i : Nat) (p : Parser Node) : Prop :=
  ∀ {k w T rest c S}, Operand k w → Spine rest (opened k (c :: S)) T → Halts rest →
    (∀ j, i ≤ j → c.blocks j = false) → (w ++ T).length ≤ n →
      Reaches E p (w ++ T) fun T' => Settled rest i c S T' ∧ T'.length < (w ++ T).length

section

variable {n i : Nat} {level : Level} {inner operand : Parser Node} {rest T : List Token}
  {d : Frame} {S : List Frame}

/-- One operator of the tier with what follows it. -/
theorem reaches_joint (hinner : ReachesTier E n (i + 1) inner) (hrest : Halts rest) {t : Token}
    (run : Spine rest (d :: S) (t :: T)) (ht : t.tier? = some i) (hlength : T.length ≤ n) :
    Reaches E inner T fun T' => Settled rest (i + 1) (d.after i) S T' ∧ T'.length < T.length := by
  obtain ⟨k, w, T', rfl, operand, more⟩ := run.take_innermost hrest.not_operator ht
  exact hinner operand more hrest (fun j hj => Frame.blocks_after_of_lt hj d) hlength

theorem reaches_chainFrom (hi : i < 7) (hlone : ¬ Lone i)
    (hinner : ReachesTier E n (i + 1) inner) (hrest : Halts rest) (rounds : List Token)
    {c : Frame} {T : List Token} (left : Node) (hT : Settled rest (i + 1) c S T)
    (hc : c.blocks i = false) (hlength : T.length ≤ n) (hrounds : T.length ≤ rounds.length) :
    Reaches E (chainFrom (tierSymbols i) inner rounds left) T (Settled rest i c S) := by
  -- The frame changes with every operator taken, but only at tiers that are not looser than `i`.
  induction rounds generalizing c T left with
  | nil =>
      obtain rfl : T = [] := List.length_eq_zero_iff.mp (by simpa using hrounds)
      obtain ⟨d, hd, run, _⟩ := hT
      exact .pure ⟨d, fun j hj => hd j (by omega), run, by simp⟩
  | cons round rounds ih =>
      by_cases hnext : ∃ t T', T = t :: T' ∧ t.tier? = some i
      · obtain ⟨t, T', rfl, ht⟩ := hnext
        obtain ⟨s, hs⟩ := acceptAny_operator hi ht T'
        obtain ⟨d, hd, run, _⟩ := hT
        rw [List.length_cons] at hlength hrounds
        rw [List.length_cons] at hrounds
        have hopen : (d.after i).blocks i = false := by
          rw [Frame.blocks_after_self, decide_eq_false hlone]
        refine .bind_ok hs ?_
        refine (reaches_joint hinner hrest run ht (by omega)).bind fun right T'' hT'' => ?_
        refine (ih _ hT''.1 hopen (by omega) (by omega)).imp id fun _ _ _ hlast => ?_
        refine hlast.of_agree fun j hj => ?_
        rw [Frame.blocks_after_of_gt hj, hd j (by omega)]
      · have hnone : ∀ t ∈ T.head?, t.tier? ≠ some i := by
          intro t ht htier
          obtain ⟨T', rfl⟩ := List.head?_eq_some_iff.mp ht
          exact hnext ⟨t, T', rfl, htier⟩
        exact .bind_ok (acceptAny_no_operator hi hnone) (.pure (hT.looser hnone))

theorem reaches_chainFrom_one (hi : i < 7) (hlone : Lone i)
    (hinner : ReachesTier E n (i + 1) inner) (hrest : Halts rest) {c : Frame} {T : List Token}
    (left : Node) (hT : Settled rest (i + 1) c S T) (hlength : T.length ≤ n) :
    Reaches E (chainFrom (tierSymbols i) inner (T.take 1) left) T (Settled rest i c S) := by
  cases T with
  | nil =>
      obtain ⟨d, hd, run, _⟩ := hT
      exact .pure ⟨d, fun j hj => hd j (by omega), run, by simp⟩
  | cons t T =>
      by_cases ht : t.tier? = some i
      · obtain ⟨s, hs⟩ := acceptAny_operator hi ht T
        obtain ⟨d, hd, run, _⟩ := hT
        rw [List.length_cons] at hlength
        refine .bind_ok hs ?_
        refine (reaches_joint hinner hrest run ht (by omega)).bind fun right T' hT' => .pure ?_
        obtain ⟨⟨e, he, run', hsettled⟩, _⟩ := hT'
        refine ⟨e, ?_, run', ?_⟩
        · intro j hj
          rw [he j (by omega), Frame.blocks_after_of_gt hj, hd j (by omega)]
        · intro t' ht' j hj htier
          -- A second operator of this tier is left alone because the first one blocks it.
          by_cases hji : j = i
          · subst hji
            rw [he j (by omega), Frame.blocks_after_self, decide_eq_true hlone]
          · exact hsettled t' ht' j (by omega) htier
      · have hnone : ∀ t' ∈ (t :: T).head?, t'.tier? ≠ some i := by
          intro t' ht'
          cases ht'
          exact ht
        exact .bind_ok (acceptAny_no_operator hi hnone) (.pure (hT.looser hnone))

theorem chain_of_repeats (h : level.repeats = true) (operand : Parser Node) (left : Node)
    (tokens : List Token) :
    chain level operand left tokens = chainFrom level.operators operand tokens left tokens := by
  unfold chain
  simp only [h, if_true]

theorem chain_of_lone (h : level.repeats = false) (operand : Parser Node) (left : Node)
    (tokens : List Token) :
    chain level operand left tokens =
      chainFrom level.operators operand (tokens.take 1) left tokens := by
  unfold chain
  simp only [h, Bool.false_eq_true, if_false]

theorem reachesTier_climb (hop : ReadsPart (.expression []) operand)
    (hreach : ReachesOperand E n operand) {i : Nat} (hi : i ≤ 7) :
    ReachesTier E n i (climb operand (levels.drop i)) := by
  -- From the tightest tier, which is a bare operand, to the loosest.
  induction hk : 7 - i generalizing i with
  | zero =>
      obtain rfl : i = 7 := by omega
      intro k w T rest c S hw run hrest hc hlength
      refine (hreach hw run hrest hlength).imp id fun a T' hT' run' => ⟨?_, hop.shorter hT'⟩
      refine ⟨c, fun _ _ => rfl, run', ?_⟩
      intro t ht j hj htier
      have hlt := Token.tier?_lt htier
      omega
  | succ m ih =>
      have hlt : i < levels.length := by
        have hlength : levels.length = 7 := rfl
        omega
      obtain ⟨level, tighter, hdrop⟩ : ∃ level tighter, levels.drop i = level :: tighter :=
        ⟨_, _, List.drop_eq_getElem_cons hlt⟩
      obtain ⟨hi, rfl, hoperators, hrepeats⟩ := drop_levels hdrop
      have hinner : ReachesTier E n (i + 1) (climb operand (levels.drop (i + 1))) :=
        ih (by omega) (by omega)
      intro k w T rest c S hw run hrest hc hlength
      have hreads : ReadsPart _ (climb operand (levels.drop i)) := reads_climb hop _
      have hreaches : Reaches E (climb operand (levels.drop i)) (w ++ T) (Settled rest i c S) := by
        rw [hdrop]
        refine (hinner hw run hrest (fun j hj => hc j (by omega)) hlength).bind ?_
        rintro left T' ⟨hsettled, hshort⟩
        by_cases hlone : Lone i
        · refine .of_eq (chain_of_lone (hrepeats.mpr hlone) _ left T') ?_
          rw [hoperators]
          exact reaches_chainFrom_one hi hlone hinner hrest left hsettled (by omega)
        · have htrue : level.repeats = true := by
            cases hcase : level.repeats with
            | true => rfl
            | false => exact absurd (hrepeats.mp hcase) hlone
          refine .of_eq (chain_of_repeats htrue _ left T') ?_
          rw [hoperators]
          exact reaches_chainFrom hi hlone hinner hrest T' left hsettled (hc i (Nat.le_refl i))
            (by omega) (Nat.le_refl _)
      exact hreaches.imp id fun a T' hT' hsettled => ⟨hsettled, hreads.shorter hT'⟩

/-- The expression ends where the frame it was read in allows no more operators. -/
theorem reachesExpression_expression (hop : ReadsPart (.expression []) operand)
    (hreach : ReachesOperand E n operand) : ReachesExpression E n (expression operand) := by
  intro k w T rest S hw run hrest hlength
  have hclimb : ReachesTier E n 0 (climb operand (levels.drop 0)) :=
    reachesTier_climb hop hreach (Nat.zero_le 7)
  have htier := hclimb hw run hrest (fun j _ => Frame.fresh_blocks j) hlength
  refine htier.imp id fun a T' _ hT' => ?_
  obtain ⟨⟨d, _, run', hsettled⟩, _⟩ := hT'
  exact run'.of_blocked fun t ht j htier => hsettled t ht j (Nat.zero_le j) htier

/-- A derivable expression is read to its end. -/
theorem ReachesExpression.end (hinner : ReachesExpression E n inner) :
    ReachesEnd E n (Derives (.phrase .expr)) HaltsAt inner := by
  intro u rest h hrest hlength
  obtain ⟨k, w, T, heq, hw, run⟩ := h.run rest
  rw [heq] at hlength ⊢
  refine (hinner hw run hrest hlength).imp id fun a T' _ hT' => ?_
  cases hT' with
  | done => rfl

theorem operandWith_name {T : List Token} (name : String) (p : Position)
    (h : ∀ t ∈ T.head?, t.lexeme ≠ .symbol .openParen ∧ t.lexeme ≠ .symbol .equal) :
    operandWith operand inner (⟨.identifier name, p⟩ :: T) =
      .ok (.reference name (some p), T) := by
  cases T with
  | nil => rfl
  | cons t T =>
      obtain ⟨hopen, hequal⟩ := h t rfl
      obtain ⟨lexeme, q⟩ := t
      cases lexeme with
      | symbol s =>
          cases s with
          | openParen => exact absurd rfl hopen
          | equal => exact absurd rfl hequal
          | _ => rfl
      | _ => rfl

theorem opened_succ (k : Nat) (S : List Frame) : opened (k + 1) S = opened k (.fresh :: S) := by
  simp [opened, List.replicate_succ']

/-- An expression begins with none of the symbols that separate or close. -/
theorem beginsWithout_of_derives {s : Symbol} (hs : (Kind.symbol s).startsOperand = false)
    {u : List Token} (h : Derives (.phrase .expr) u) : BeginsWithout s u := by
  obtain ⟨t, v, rfl, ht⟩ := h.head
  refine ⟨t, v, rfl, ?_⟩
  intro hlexeme
  unfold Token.kind at ht
  rw [hlexeme] at ht
  exact absurd (hs.symm.trans ht) (by decide)

theorem reachesOperand_operandWith (hop : ReachesOperand E n operand)
    (hinner : ReachesExpression E n inner) :
    ReachesOperand E (n + 1) (operandWith operand inner) := by
  intro k w T rest S hw run hrest hlength
  cases hw with
  | @atom t ht =>
      obtain ⟨lexeme, p⟩ := t
      cases lexeme with
      | number x => exact .of_ok rfl run
      | boolean b => exact .of_ok rfl run
      | string s => exact .of_ok rfl run
      | identifier name => exact .of_ok (operandWith_name name p (hrest.after_operand run)) run
      | symbol s =>
          cases s with
          | nil => exact .of_ok rfl run
          | _ => cases ht
  | @group u p c hu =>
      change Reaches E (group inner p) (u ++ [⟨.symbol .closeParen, c⟩] ++ T) (Spine rest S)
      rw [List.cons_append, List.length_cons] at hlength
      rw [List.append_assoc, List.singleton_append] at hlength ⊢
      have hclose : Halts (⟨.symbol .closeParen, c⟩ :: T) := amongSymbols_some (by simp)
      refine (ReachesExpression.end hinner hu hclose (by omega)).bind fun node T' hT' => ?_
      subst hT'
      exact .bind_ok (require_symbol .closeParen _ c T) (.pure run)
  | @call u name p q c hu =>
      change Reaches E (call inner name p) (u ++ [⟨.symbol .closeParen, c⟩] ++ T) (Spine rest S)
      rw [List.cons_append, List.cons_append, List.length_cons, List.length_cons] at hlength
      rw [List.append_assoc, List.singleton_append] at hlength ⊢
      obtain ⟨items, hitems⟩ := derives_listed_iff.mp hu
      have harg : ReachesEnd E n (Derives (.phrase .expr)) SeparatesAt inner := by
        refine ReachesEnd.mono (ReachesExpression.end hinner) ?_
        rintro _ ⟨s, hs, rfl⟩
        refine amongSymbols_some ?_
        revert s
        decide
      have hargs : Reaches E (Parser.listed inner .callMissingParen)
          (u ++ ⟨.symbol .closeParen, c⟩ :: T) (· = T) :=
        reaches_listed harg (beginsWithout_of_derives rfl) hitems _ (by omega)
      refine hargs.bind fun args T' hT' => ?_
      subst hT'
      exact .pure run
  | @sign k w s p known hw =>
      have hunary : Reaches E (unary operand s p) (w ++ T) (Spine rest S) := by
        rw [List.cons_append, List.length_cons] at hlength
        exact (hop hw run hrest (by omega)).bind fun node T' hT' => .pure hT'
      rcases known with rfl | rfl
      · exact hunary
      · exact hunary
  | @assign k w name p q hw =>
      change Reaches E (assignment inner name p) (w ++ T) (Spine rest S)
      rw [List.cons_append, List.cons_append, List.length_cons, List.length_cons] at hlength
      rw [opened_succ] at run
      exact (hinner hw run hrest (by omega)).bind fun node T' hT' => .pure hT'

end

theorem ReachesOperand.imp {E' : Prop} {n : Nat} {operand : Parser Node}
    (h : ReachesOperand E n operand) (hE : E → E') : ReachesOperand E' n operand :=
  fun hw run hrest hlength => (h hw run hrest hlength).imp hE fun _ _ _ hT => hT

theorem reachesOperand_of_no_tokens {operand : Parser Node} : ReachesOperand E 0 operand := by
  intro k w T rest S hw _ _ hlength
  obtain ⟨t, v, rfl, _⟩ := hw.head
  cases hlength

theorem reachesOperand_operand (depth n : Nat) :
    ReachesOperand (depth < n) n (operand depth) := by
  induction depth generalizing n with
  | zero =>
      cases n with
      | zero => exact reachesOperand_of_no_tokens
      | succ n =>
          exact reachesOperand_operandWith (fun _ _ _ _ => reaches_tooDeep (Nat.succ_pos n))
            fun _ _ _ _ => reaches_tooDeep (Nat.succ_pos n)
  | succ depth ih =>
      cases n with
      | zero => exact reachesOperand_of_no_tokens
      | succ n =>
          have hop : ReachesOperand (depth + 1 < n + 1) n (operand depth) :=
            ReachesOperand.imp (ih n) fun h => by omega
          have hinner : ReachesExpression (depth + 1 < n + 1) n (expression (operand depth)) :=
            reachesExpression_expression (reads_operand depth) hop
          intro k w T rest S hw run hrest hlength
          exact reachesOperand_operandWith hop hinner hw run hrest hlength

theorem reachesEnd_expression (depth n : Nat) :
    ReachesEnd (depth < n) n (Derives (.phrase .expr)) HaltsAt (expression (operand depth)) :=
  ReachesExpression.end
    (reachesExpression_expression (reads_operand depth) (reachesOperand_operand depth n))

/-! ## Statements -/

theorem control_begins {u : List Token} (h : Derives (.phrase .control) u) :
    BeginsWithout .comma u := by
  obtain ⟨t, v, form, rfl, hstart, -⟩ := derives_control_form h
  refine ⟨t, v, rfl, fun hcomma => ?_⟩
  rw [hcomma] at hstart
  cases hstart

theorem simple_begins {u : List Token} (h : Derives (.phrase .simple) u) :
    BeginsWithout .comma u := by
  rcases derives_simple_form h with ⟨t, v, form, rfl, hstart, -⟩ | hexpr
  · refine ⟨t, v, rfl, fun hcomma => ?_⟩
    rw [hcomma] at hstart
    cases hstart
  · exact beginsWithout_of_derives rfl hexpr

theorem start_of_startsOperand {t : Token} (ht : t.kind.startsOperand = true) :
    start (some t.lexeme) = .expression := by
  obtain ⟨lexeme, p⟩ := t
  cases lexeme with
  | symbol s => cases s <;> first | rfl | cases ht
  | _ => rfl

section

variable {n : Nat} {expr inner : Parser Node} {rest : List Token}

theorem reaches_afterControl {more : Parser (List Node)} {statement : Parser Node}
    {tokens next after : List Token} {comma : Bool}
    (hstatement : Reaches E statement tokens (· = next))
    (hcomma : accept .comma next = .ok (comma, after)) (hmore : Reaches E more after (· = rest)) :
    Reaches E (afterControl more statement) tokens (· = rest) := by
  refine hstatement.bind fun first T hT => ?_
  subst hT
  refine .bind_ok hcomma ?_
  exact hmore.bind fun others T hT => .pure hT

theorem reaches_afterSimple {more : Parser (List Node)} {statement : Parser Node}
    {tokens next : List Token} (hstatement : Reaches E statement tokens (· = next))
    (hnext : accept .comma next = .ok (false, rest) ∨
      ∃ after, accept .comma next = .ok (true, after) ∧ Reaches E more after (· = rest)) :
    Reaches E (afterSimple more statement) tokens (· = rest) := by
  refine hstatement.bind fun first T hT => ?_
  subst hT
  rcases hnext with hcomma | ⟨after, hcomma, hmore⟩
  · exact .bind_ok hcomma (.pure rfl)
  · refine .bind_ok hcomma ?_
    exact hmore.bind fun others T hT => .pure hT

section

-- A statement with a body takes a token of its own before it, so bodies have one token less.
variable (hexpr : ReachesEnd E (n + 1) (Derives (.phrase .expr)) HaltsAt expr)
  (hinner : ReachesEnd E n (Derives (.phrase .statements)) ClosesAt inner)

include hexpr hinner

theorem reachesEnd_clause (role : Clause) :
    ReachesEnd E n (DerivesClause role) role.follow (clauseReaders expr inner role) := by
  cases role with
  | expression =>
      exact ReachesEnd.mono (hexpr.of_le (Nat.le_succ n)) fun _ h => h.mono (by decide)
  | body => exact hinner

theorem reachesEnd_form {form : Form Clause} {S : Option Lexeme → Prop}
    (fits : form.pattern.Fits Clause.follow S) (p : Position) :
    ReachesEnd E n (form.pattern.Accepts DerivesClause) S
      (form.parser (clauseReaders expr inner) p) := by
  refine Form.reachesEnd (reachesEnd_clause hexpr hinner) ?_ fits p
  exact fun role hclose => absurd hclose role.not_follow_closeParen

theorem reaches_control {u next after : List Token} (hu : Derives (.phrase .control) u)
    (hlength : (u ++ next).length ≤ n + 1) {comma : Bool}
    (hcomma : accept .comma next = .ok (comma, after)) (round : Token) {rounds : List Token}
    (hmore : Reaches E (statementsFrom expr inner rounds) after (· = rest)) :
    Reaches E (statementsFrom expr inner (round :: rounds)) (u ++ next) (· = rest) := by
  obtain ⟨t, v, form, rfl, hstart, hv⟩ := derives_control_form hu
  have hread : Reaches E (form.parser (clauseReaders expr inner) t.position) (v ++ next)
      (· = next) :=
    reachesEnd_form hexpr hinner (fits_control hstart) t.position hv trivial
      (Nat.le_of_succ_le_succ hlength)
  refine .of_eq ((statementsFrom_cons_by ..).trans ?_) (reaches_afterControl hread hcomma hmore)
  exact congrFun (statementsBy_control hstart) _

theorem reaches_simple {u next : List Token} (hu : Derives (.phrase .simple) u)
    (hstops : StopsAt (nextLexeme? next)) (hlength : (u ++ next).length ≤ n + 1) (round : Token)
    {rounds : List Token}
    (hnext : accept .comma next = .ok (false, rest) ∨ ∃ after,
      accept .comma next = .ok (true, after) ∧
        Reaches E (statementsFrom expr inner rounds) after (· = rest)) :
    Reaches E (statementsFrom expr inner (round :: rounds)) (u ++ next) (· = rest) := by
  rcases derives_simple_form hu with ⟨t, v, form, rfl, hstart, hv⟩ | hu
  · have hread := reachesEnd_form hexpr hinner (fits_simple hstart) t.position hv hstops
      (Nat.le_of_succ_le_succ hlength)
    refine .of_eq ((statementsFrom_cons_by ..).trans ?_) (reaches_afterSimple hread hnext)
    exact congrFun (statementsBy_simple hstart) _
  · have hread := hexpr hu (hstops.mono (by decide)) hlength
    obtain ⟨t, v, rfl, ht⟩ := hu.head
    refine .of_eq ((statementsFrom_cons_by ..).trans ?_) (reaches_afterSimple hread hnext)
    exact congrFun (statementsBy_expression (start_of_startsOperand ht)) _

end

/-- The token behind a sequence of statements, if there is one, ends a body. -/
def Closes (rest : List Token) : Prop := ClosesAt (nextLexeme? rest)

theorem Closes.no_comma (h : Closes rest) : accept .comma rest = .ok (false, rest) :=
  accept_next_ne (h.next_ne (by decide))

/-- Between statements no comma is left over. -/
theorem sequence_no_comma {w : List Token} (h : Sequence w) (hrest : Closes rest) :
    accept .comma (w ++ rest) = .ok (false, w ++ rest) := by
  cases h with
  | nil => exact hrest.no_comma
  | last only => exact ((simple_begins only).append _).accept
  | simple p first others => exact (((simple_begins first).append _).append _).accept
  | control first others => exact (((control_begins first).append _).append _).accept
  | controlComma p first others => exact (((control_begins first).append _).append _).accept

theorem statementsFrom_closes (h : Closes rest) (rounds : List Token) :
    statementsFrom expr inner rounds rest = .ok ([], rest) := by
  cases rounds with
  | nil => rfl
  | cons round rounds =>
      rw [statementsFrom_cons_by, statementsBy_stop (start_of_closes h)]
      rfl

/-- There is a round for every statement, and rounds are left for what follows it. -/
theorem exists_round {u later rounds : List Token} (hu : 0 < u.length)
    (h : (u ++ later).length ≤ rounds.length) :
    ∃ round others, rounds = round :: others ∧ later.length ≤ others.length := by
  rw [List.length_append] at h
  cases rounds with
  | nil =>
      rw [List.length_nil] at h
      omega
  | cons round others =>
      rw [List.length_cons] at h
      exact ⟨round, others, rfl, by omega⟩

theorem reaches_statementsFrom
    (hexpr : ReachesEnd E (n + 1) (Derives (.phrase .expr)) HaltsAt expr)
    (hinner : ReachesEnd E n (Derives (.phrase .statements)) ClosesAt inner) {w : List Token}
    (h : Sequence w) (hrest : Closes rest) (hlength : (w ++ rest).length ≤ n + 1)
    {rounds : List Token} (hrounds : (w ++ rest).length ≤ rounds.length) :
    Reaches E (statementsFrom expr inner rounds) (w ++ rest) (· = rest) := by
  induction h generalizing rounds with
  | nil => exact .of_ok (statementsFrom_closes hrest rounds) rfl
  | last only =>
      obtain ⟨round, rounds, rfl, -⟩ := exists_round (simple_begins only).length_pos hrounds
      exact reaches_simple hexpr hinner only (hrest.mono (by decide)) hlength round
        (.inl hrest.no_comma)
  | simple p first others ih =>
      rw [List.append_assoc] at hlength hrounds ⊢
      obtain ⟨round, rounds, rfl, hlater⟩ := exists_round (simple_begins first).length_pos hrounds
      have hmore := ih (Nat.le_trans (by simp; omega) hlength) (Nat.le_of_succ_le hlater)
      exact reaches_simple hexpr hinner first (amongSymbols_some (by simp)) hlength round
        (.inr ⟨_, accept_symbol .comma p _, hmore⟩)
  | control first others ih =>
      rw [List.append_assoc] at hlength hrounds ⊢
      obtain ⟨round, rounds, rfl, hlater⟩ := exists_round (control_begins first).length_pos hrounds
      have hmore := ih (Nat.le_trans (by simp) hlength) hlater
      exact reaches_control hexpr hinner first hlength (sequence_no_comma others hrest) round hmore
  | controlComma p first others ih =>
      rw [List.append_assoc] at hlength hrounds ⊢
      obtain ⟨round, rounds, rfl, hlater⟩ := exists_round (control_begins first).length_pos hrounds
      have hmore := ih (Nat.le_trans (by simp; omega) hlength) (Nat.le_of_succ_le hlater)
      exact reaches_control hexpr hinner first hlength (accept_symbol .comma p _) round hmore

end

theorem Reaches.body {tokens : List Token} {p : Parser (List Node)} {Q : List Token → Prop}
    (h : Reaches E p tokens Q) : Reaches E (Parser.body p) tokens Q := by
  unfold Reaches Parser.body at *
  cases hp : p tokens with
  | ok result =>
      rw [hp] at h
      exact h
  | error failure =>
      rw [hp] at h
      cases failure <;> exact h

theorem reachesEnd_of_no_tokens {L : List Token → Prop} {F : Option Lexeme → Prop} {p : Parser α}
    {a : α} (h : p [] = .ok (a, [])) : ReachesEnd E 0 L F p := by
  intro u rest _ _ hlength
  obtain ⟨rfl, rfl⟩ := List.append_eq_nil_iff.mp
    (List.length_eq_zero_iff.mp (Nat.le_zero.mp hlength))
  exact .of_ok h rfl

theorem reachesEnd_statementsWith {n : Nat} {expr inner : Parser Node}
    (hexpr : ReachesEnd E (n + 1) (Derives (.phrase .expr)) HaltsAt expr)
    (hinner : ReachesEnd E n (Derives (.phrase .statements)) ClosesAt inner) :
    ReachesEnd E (n + 1) (Derives (.phrase .statements)) ClosesAt (statementsWith expr inner) := by
  intro w rest h hrest hlength
  have hread := reaches_statementsFrom hexpr hinner (derives_statements_iff.mp h) hrest hlength
    (Nat.le_refl _)
  exact .of_eq rfl hread

theorem reachesEnd_statements (depth n : Nat) :
    ReachesEnd (depth < n) n (Derives (.phrase .statements)) ClosesAt (statements depth) := by
  induction depth generalizing n with
  | zero =>
      cases n with
      | zero => exact reachesEnd_of_no_tokens rfl
      | succ n =>
          exact reachesEnd_statementsWith (reachesEnd_expression 0 (n + 1))
            fun _ _ _ => reaches_tooDeep (Nat.succ_pos n)
  | succ depth ih =>
      cases n with
      | zero => exact reachesEnd_of_no_tokens rfl
      | succ n =>
          exact reachesEnd_statementsWith (reachesEnd_expression (depth + 1) (n + 1))
            fun hu hrest hlength =>
              (ih n hu hrest hlength).body.imp Nat.succ_lt_succ fun _ _ _ hT => hT

theorem reaches_root {tokens : List Token} (h : Derives (.phrase .root) tokens) (depth : Nat) :
    Reaches (depth < tokens.length) (root depth) tokens fun _ => True := by
  have hstatements :
      Reaches (depth < tokens.length) (statements depth) (tokens ++ []) (· = []) := by
    refine reachesEnd_statements depth tokens.length (derives_phrase_iff.mp h) ?_ (by simp)
    rintro l ⟨⟩
  rw [List.append_nil] at hstatements
  unfold Reaches root at *
  cases hread : statements depth tokens with
  | ok result =>
      obtain ⟨nodes, rest⟩ := result
      rw [hread] at hstatements
      cases hstatements
      trivial
  | error failure =>
      rw [hread] at hstatements
      cases failure <;> exact hstatements

end Parser

/-! ## Sources -/

/-- Reading stays within `depth` if it says so, and always does if there are no more tokens. -/
def WithinNesting (depth : Nat) (bytes : List UInt8) : Prop :=
  (Scan.ofBytes bytes).tokens.length ≤ depth ∨
    ∀ e ∈ (Parsed.ofBytes depth bytes).error, e.kind ≠ .nestingTooDeep

theorem Parsed.errorOf_tooDeep (ending : Ending) (rest : List Token) :
    (Parsed.errorOf ending (.tooDeep rest)).kind = .nestingTooDeep := by
  cases rest with
  | nil => cases ending <;> rfl
  | cons token rest => rfl

/-- A source with no unclosed string is read exactly if its tokens derive from the grammar. An
assignment takes every operator behind it that it can, and no derivation is lost by that. -/
theorem parsed_iff_derives (depth : Nat) (bytes : List UInt8) {p : Position}
    (hend : (Scan.ofBytes bytes).ending = .finished p) (hlimit : WithinNesting depth bytes) :
    (Parsed.ofBytes depth bytes).error = none ↔
      Derives (.phrase .root) (Scan.ofBytes bytes).tokens := by
  constructor
  · intro herror
    unfold Parsed.ofBytes Parsed.ofScan at herror
    cases hroot : Parser.root depth (Scan.ofBytes bytes).tokens with
    | error failure =>
        rw [hroot] at herror
        cases herror
    | ok result =>
        obtain ⟨-, nodes, -, hspells⟩ := Parser.root_eq_ok hroot
        exact hspells.derives
  · intro hderives
    have hread := Parser.reaches_root hderives depth
    unfold WithinNesting at hlimit
    unfold Parsed.ofBytes Parsed.ofScan at hlimit ⊢
    unfold Parser.Reaches at hread
    cases hroot : Parser.root depth (Scan.ofBytes bytes).tokens with
    | ok result => rw [hend]
    | error failure =>
        rw [hroot] at hread hlimit
        cases failure with
        | rejected kind rest => cases hread
        | tooDeep rest =>
            rcases hlimit with hlength | hkind
            -- Every level that is open has taken a token.
            · exact absurd hlength (Nat.not_le.mpr hread)
            · exact absurd (Parsed.errorOf_tooDeep _ rest) (hkind _ rfl)

/-- The sources are `x=a==b==c` and `a==x=b==c==d`. -/
theorem parsed_iff_derives_chained_equality :
    (∃ bytes, bytes = [120, 61, 97, 61, 61, 98, 61, 61, 99] ∧
      (Scan.ofBytes bytes).ending = .finished ⟨1, 10⟩ ∧ WithinNesting 7 bytes ∧
      (Parsed.ofBytes 7 bytes).error = none ∧
      Derives (.phrase .root) (Scan.ofBytes bytes).tokens) ∧
    ∃ bytes, bytes = [97, 61, 61, 120, 61, 98, 61, 61, 99, 61, 61, 100] ∧
      (Scan.ofBytes bytes).ending = .finished ⟨1, 13⟩ ∧ WithinNesting 9 bytes ∧
      (Parsed.ofBytes 9 bytes).error ≠ none ∧
      ¬ Derives (.phrase .root) (Scan.ofBytes bytes).tokens := by
  constructor
  · refine ⟨_, rfl, rfl, .inl (by decide), by decide, ?_⟩
    exact (parsed_iff_derives 7 _ rfl (.inl (by decide))).mp (by decide)
  · refine ⟨_, rfl, rfl, .inl (by decide), by decide, fun h => ?_⟩
    have hread := (parsed_iff_derives 9 _ rfl (.inl (by decide))).mpr h
    revert hread
    decide

end Scriptlet
