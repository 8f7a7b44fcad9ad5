import Scriptlet.Proofs.Syntax.Acceptance

/-!
# Parsers unrolled

The loops of the parser count their rounds by the tokens. Here every loop is written as a body
followed by the loop again: a parser only ever takes tokens from the front, so the rounds do not run
out.
-/

namespace Scriptlet.Parser

variable {α β : Type}

theorem bind_eq_rejected_iff {p : Parser α} {f : α → Parser β} {tokens rest : List Token}
    {kind : SyntaxError.Kind} :
    (p >>= f) tokens = .error (.rejected kind rest) ↔
      p tokens = .error (.rejected kind rest) ∨
        ∃ a middle, p tokens = .ok (a, middle) ∧ f a middle = .error (.rejected kind rest) := by
  change Parser.bind p f tokens = _ ↔ _
  unfold Parser.bind
  cases h : p tokens with
  | error failure => simp
  | ok result =>
      obtain ⟨a, middle⟩ := result
      simp only [reduceCtorEq, false_or, Except.ok.injEq, Prod.mk.injEq]
      constructor
      · exact fun second => ⟨a, middle, ⟨rfl, rfl⟩, second⟩
      · rintro ⟨_, _, ⟨rfl, rfl⟩, second⟩
        exact second

/-! ## What a parser leaves -/

/-- The tokens that a parser leaves, whether it succeeds or not. -/
def leftOver : Except Failure (α × List Token) → List Token
  | .ok (_, rest) => rest
  | .error failure => Parsed.unread failure

/-- The parser takes tokens from the front only. -/
def Cuts (p : Parser α) : Prop := ∀ tokens, leftOver (p tokens) <:+ tokens

namespace Cuts

variable {p : Parser α} {f : α → Parser β}

theorem of_ok (h : Cuts p) {tokens rest : List Token} {a : α} (hp : p tokens = .ok (a, rest)) :
    ∃ u, tokens = u ++ rest := by
  have hsuffix := h tokens
  rw [hp] at hsuffix
  obtain ⟨u, hu⟩ := hsuffix
  exact ⟨u, hu.symm⟩

theorem of_rejected (h : Cuts p) {tokens rest : List Token} {kind : SyntaxError.Kind}
    (hp : p tokens = .error (.rejected kind rest)) : ∃ u, tokens = u ++ rest := by
  have hsuffix := h tokens
  rw [hp] at hsuffix
  obtain ⟨u, hu⟩ := hsuffix
  exact ⟨u, hu.symm⟩

theorem pure (a : α) : Cuts (Pure.pure a : Parser α) := fun tokens => List.suffix_refl tokens

theorem reject (kind : SyntaxError.Kind) : Cuts (Parser.reject kind : Parser α) :=
  fun tokens => List.suffix_refl tokens

theorem tooDeep : Cuts (Parser.tooDeep : Parser α) := fun tokens => List.suffix_refl tokens

theorem bind (first : Cuts p) (second : ∀ a, Cuts (f a)) : Cuts (p >>= f) := by
  intro tokens
  have hp := first tokens
  change leftOver (Parser.bind p f tokens) <:+ tokens
  unfold Parser.bind
  cases h : p tokens with
  | error failure =>
      rw [h] at hp
      exact hp
  | ok result =>
      rw [h] at hp
      exact (second result.1 result.2).trans hp

theorem acceptAny (symbols : List Symbol) : Cuts (acceptAny symbols) := by
  intro tokens
  unfold Parser.acceptAny
  split
  · split
    · exact List.suffix_cons _ _
    · exact List.suffix_refl _
  · exact List.suffix_refl _

theorem accept (symbol : Symbol) : Cuts (accept symbol) :=
  (acceptAny [symbol]).bind fun _ => .pure _

theorem require (symbol : Symbol) (kind : SyntaxError.Kind) : Cuts (require symbol kind) := by
  refine (accept symbol).bind fun found => ?_
  cases found with
  | true => exact .pure ()
  | false => exact .reject kind

theorem requireName (kind : SyntaxError.Kind) : Cuts (requireName kind) := by
  intro tokens
  unfold Parser.requireName
  split
  · exact List.suffix_cons _ _
  · exact List.suffix_refl _

theorem separatedFrom (hp : Cuts p) (rounds : List Token) : Cuts (separatedFrom p rounds) := by
  induction rounds with
  | nil => exact hp.bind fun _ => .pure _
  | cons round rounds ih =>
      refine hp.bind fun first => (accept .comma).bind fun more => ?_
      cases more with
      | true => exact ih.bind fun _ => .pure _
      | false => exact .pure _

theorem separated (hp : Cuts p) : Cuts (separated p) := fun tokens => hp.separatedFrom tokens tokens

theorem listed (hp : Cuts p) (kind : SyntaxError.Kind) : Cuts (listed p kind) := by
  refine (accept .closeParen).bind fun closed => ?_
  cases closed with
  | true => exact .pure _
  | false => exact hp.separated.bind fun _ => (require .closeParen kind).bind fun _ => .pure _

theorem shift {f : Position → Parser α} (hf : ∀ p, Cuts (f p)) : Cuts (shift f) := by
  intro tokens
  cases tokens with
  | nil => exact List.suffix_refl _
  | cons t tokens => exact (hf t.position tokens).trans (List.suffix_cons t tokens)

end Cuts

/-! ### Along patterns -/

section

variable {σ : Type} {readers : σ → Parser Node} (hreaders : ∀ role, Cuts (readers role))

include hreaders

theorem Item.cuts (item : Item σ) : Cuts (item.parser readers) := by
  cases item with
  | tree role => exact hreaders role
  | name kind => exact .requireName kind

theorem Pattern.cuts (pattern : Pattern σ) : Cuts (pattern.parser readers) := by
  induction pattern with
  | done => exact .pure ()
  | read item next ih => exact (item.cuts hreaders).bind fun _ => ih.bind fun _ => .pure _
  | list item kind next ih =>
      exact ((item.cuts hreaders).listed kind).bind fun _ => ih.bind fun _ => .pure _
  | require s kind next ih => exact (Cuts.require s kind).bind fun _ => ih
  | branch s yes no ihyes ihno =>
      refine (Cuts.accept s).bind fun found => ?_
      cases found with
      | true => exact ihyes.bind fun _ => .pure _
      | false => exact ihno.bind fun _ => .pure _

theorem Form.cuts (form : Form σ) (p : Position) : Cuts (form.parser readers p) :=
  (form.pattern.cuts hreaders).bind fun _ => .pure _

end

theorem cuts_inside {op inner : Parser Node} (hop : Cuts op) (hinner : Cuts inner)
    (role : Inside) : Cuts (insideReaders op inner role) := by
  cases role with
  | operand => exact hop
  | expression => exact hinner

theorem cuts_clause {expr inner : Parser Node} (hexpr : Cuts expr) (hinner : Cuts inner)
    (role : Clause) : Cuts (clauseReaders expr inner role) := by
  cases role with
  | expression => exact hexpr
  | body => exact hinner

namespace Cuts

section

variable {op inner expr : Parser Node} {sequence more : Parser (List Node)}

theorem chainFrom (hop : Cuts op) (operators : List Symbol) (rounds : List Token)
    (left : Node) : Cuts (chainFrom operators op rounds left) := by
  induction rounds generalizing left with
  | nil => exact .pure left
  | cons round rounds ih =>
      refine (acceptAny operators).bind fun found => ?_
      cases found with
      | none => exact .pure left
      | some operator => exact hop.bind fun right => ih _

theorem chain (hop : Cuts op) (level : Level) (left : Node) :
    Cuts (chain level op left) :=
  fun tokens => hop.chainFrom _ _ left tokens

theorem climb (hop : Cuts op) (ls : List Level) : Cuts (climb op ls) := by
  induction ls with
  | nil => exact hop
  | cons level tighter ih => exact ih.bind fun left => ih.chain level left

theorem operandWith (hop : Cuts op) (hinner : Cuts inner) : Cuts (operandWith op inner) := by
  intro tokens
  rw [operandWith_by]
  unfold operandBy
  cases operandForm (nextLexeme? tokens) with
  | error kind => exact reject kind tokens
  | ok form => exact shift (form.cuts (cuts_inside hop hinner)) tokens

theorem operand (depth : Nat) : Cuts (Parser.operand depth) := by
  induction depth with
  | zero => exact tooDeep.operandWith tooDeep
  | succ depth ih => exact ih.operandWith (ih.climb levels)

theorem expression (depth : Nat) : Cuts (expression (Parser.operand depth)) :=
  (operand depth).climb levels

theorem body (hseq : Cuts sequence) : Cuts (body sequence) := by
  intro tokens
  have hs := hseq tokens
  unfold Parser.body
  cases h : sequence tokens with
  | ok result =>
      rw [h] at hs
      exact hs
  | error failure =>
      rw [h] at hs
      exact hs

theorem afterControl (hmore : Cuts more) (hexpr : Cuts expr) : Cuts (afterControl more expr) :=
  hexpr.bind fun _ => (accept .comma).bind fun _ => hmore.bind fun _ => .pure _

theorem afterSimple (hmore : Cuts more) (hexpr : Cuts expr) : Cuts (afterSimple more expr) := by
  refine hexpr.bind fun first => (accept .comma).bind fun comma => ?_
  cases comma with
  | true => exact hmore.bind fun _ => .pure _
  | false => exact .pure _

theorem statementsBy (hexpr : Cuts expr) (hinner : Cuts inner) (hmore : Cuts more)
    (next : Option Lexeme) : Cuts (statementsBy expr inner more next) := by
  have hclause := cuts_clause hexpr hinner
  unfold Parser.statementsBy
  cases start next with
  | stop => exact .pure _
  | control form => exact .shift fun p => hmore.afterControl (form.cuts hclause p)
  | simple form => exact .shift fun p => hmore.afterSimple (form.cuts hclause p)
  | expression => exact hmore.afterSimple hexpr

theorem statementsFrom (hexpr : Cuts expr) (hinner : Cuts inner) (rounds : List Token) :
    Cuts (statementsFrom expr inner rounds) := by
  induction rounds with
  | nil => exact .pure _
  | cons round rounds ih =>
      intro tokens
      rw [statementsFrom_cons_by]
      exact hexpr.statementsBy hinner ih _ tokens

theorem statementsWith (hexpr : Cuts expr) (hinner : Cuts inner) :
    Cuts (statementsWith expr inner) :=
  fun tokens => hexpr.statementsFrom hinner tokens tokens

theorem statements (depth : Nat) : Cuts (statements depth) := by
  induction depth with
  | zero => exact (expression 0).statementsWith tooDeep
  | succ depth ih => exact (expression _).statementsWith ih.body

end

end Cuts

/-! ## Loops without counters

A round of a loop takes a token, so the tokens never run out of rounds before the loop is over. -/

theorem Cuts.length_le {p : Parser α} (h : Cuts p) {tokens rest : List Token} {a : α}
    (hp : p tokens = .ok (a, rest)) : rest.length ≤ tokens.length := by
  obtain ⟨u, rfl⟩ := h.of_ok hp
  rw [List.length_append]
  omega

theorem bind_congr {p q : Parser α} {f g : α → Parser β} {tokens : List Token}
    (first : p tokens = q tokens)
    (second : ∀ a rest, p tokens = .ok (a, rest) → f a rest = g a rest) :
    (p >>= f) tokens = (q >>= g) tokens := by
  change Parser.bind p f tokens = Parser.bind q g tokens
  unfold Parser.bind
  rw [← first]
  cases hp : p tokens with
  | error failure => rfl
  | ok result => exact second _ _ hp

theorem accept_true_length {symbol : Symbol} {tokens rest : List Token}
    (h : accept symbol tokens = .ok (true, rest)) : tokens.length = rest.length + 1 := by
  obtain ⟨p, rfl⟩ := accept_eq_true h
  rfl

theorem accept_nil (symbol : Symbol) : accept symbol [] = .ok (false, []) :=
  accept_other fun _ h => nomatch h

theorem separatedFrom_nil {item : Parser α} (hitem : Cuts item) (rounds : List Token) :
    separatedFrom item rounds [] = (item >>= fun first => Pure.pure [first]) [] := by
  cases rounds with
  | nil => rfl
  | cons round rounds =>
      refine bind_congr rfl fun first rest hfirst => ?_
      obtain rfl : rest = [] := List.length_eq_zero_iff.mp (Nat.le_zero.mp (hitem.length_le hfirst))
      change Parser.bind (accept .comma) _ _ = _
      simp [Parser.bind, accept_nil]

theorem separatedFrom_eq {item : Parser α} (hitem : Cuts item) {rounds rounds' tokens : List Token}
    (h : tokens.length ≤ rounds.length) (h' : tokens.length ≤ rounds'.length) :
    separatedFrom item rounds tokens = separatedFrom item rounds' tokens := by
  induction rounds generalizing rounds' tokens with
  | nil =>
      obtain rfl := List.length_eq_zero_iff.mp (Nat.le_zero.mp h)
      rw [separatedFrom_nil hitem, separatedFrom_nil hitem]
  | cons round rounds ih =>
      cases rounds' with
      | nil =>
          obtain rfl := List.length_eq_zero_iff.mp (Nat.le_zero.mp h')
          rw [separatedFrom_nil hitem, separatedFrom_nil hitem]
      | cons round' rounds' =>
          rw [List.length_cons] at h h'
          refine bind_congr rfl fun first rest hfirst => bind_congr rfl fun more after hmore => ?_
          have hrest := hitem.length_le hfirst
          cases more with
          | false => rfl
          | true =>
              have hafter := accept_true_length hmore
              exact bind_congr (ih (by omega) (by omega)) fun _ _ _ => rfl

/-- One round more than there are tokens. -/
def spareRound : Token := ⟨.symbol .nil, .start⟩

theorem separated_eq {item : Parser α} (hitem : Cuts item) :
    separated item = do
      let first ← item
      if ← accept .comma then
        return first :: (← separated item)
      else
        return [first] := by
  funext tokens
  have hspare : separated item tokens = separatedFrom item (spareRound :: tokens) tokens :=
    separatedFrom_eq hitem (Nat.le_refl _) (Nat.le_succ _)
  rw [hspare]
  refine bind_congr rfl fun first rest hfirst => bind_congr rfl fun more after hmore => ?_
  have hrest := hitem.length_le hfirst
  cases more with
  | false => rfl
  | true =>
      have hafter := accept_true_length hmore
      have hsame : separatedFrom item tokens after = separated item after :=
        separatedFrom_eq hitem (by omega) (Nat.le_refl _)
      exact bind_congr hsame fun _ _ _ => rfl

section

variable {op expr inner : Parser Node}

theorem chainFrom_nil (operators : List Symbol) (rounds : List Token) (left : Node) :
    chainFrom operators op rounds left [] = .ok (left, []) := by
  cases rounds <;> rfl

theorem chainFrom_eq (hop : Cuts op) (operators : List Symbol)
    {rounds rounds' tokens : List Token} (left : Node) (h : tokens.length ≤ rounds.length)
    (h' : tokens.length ≤ rounds'.length) :
    chainFrom operators op rounds left tokens = chainFrom operators op rounds' left tokens := by
  induction rounds generalizing rounds' tokens left with
  | nil =>
      obtain rfl := List.length_eq_zero_iff.mp (Nat.le_zero.mp h)
      rw [chainFrom_nil, chainFrom_nil]
  | cons round rounds ih =>
      cases rounds' with
      | nil =>
          obtain rfl := List.length_eq_zero_iff.mp (Nat.le_zero.mp h')
          rw [chainFrom_nil, chainFrom_nil]
      | cons round' rounds' =>
          rw [List.length_cons] at h h'
          refine bind_congr rfl fun found rest hfound => ?_
          cases found with
          | none => rfl
          | some operator =>
              obtain ⟨-, p, rfl⟩ := acceptAny_eq_some hfound
              rw [List.length_cons] at h h'
              refine bind_congr rfl fun right after hright => ?_
              have hafter := hop.length_le hright
              exact ih _ (by omega) (by omega)

/-- An operator of the level with its operand, and more of them if the level repeats. -/
theorem chain_eq (hop : Cuts op) (level : Level) (left : Node) :
    chain level op left = do
      match ← acceptAny level.operators with
      | none => return left
      | some operator =>
          let right ← op
          let joined : Node := .binary (.symbol operator) left right left.position
          if level.repeats then chain level op joined else return joined := by
  funext tokens
  cases hrepeats : level.repeats with
  | true =>
      have hspare : chain level op left tokens =
          chainFrom level.operators op (spareRound :: tokens) left tokens := by
        rw [chain_of_repeats hrepeats]
        exact chainFrom_eq hop _ left (Nat.le_refl _) (Nat.le_succ _)
      rw [hspare]
      refine bind_congr rfl fun found rest hfound => ?_
      cases found with
      | none => rfl
      | some operator =>
          obtain ⟨-, p, rfl⟩ := acceptAny_eq_some hfound
          refine bind_congr rfl fun right after hright => ?_
          have hafter := hop.length_le hright
          rw [if_pos rfl, chain_of_repeats hrepeats]
          exact chainFrom_eq hop _ _ (by rw [List.length_cons]; omega) (Nat.le_refl _)
  | false =>
      rw [chain_of_lone hrepeats]
      cases tokens with
      | nil => rfl
      | cons t tokens =>
          refine bind_congr rfl fun found rest hfound => ?_
          cases found with
          | none => rfl
          | some operator => exact bind_congr rfl fun right after hright => rfl

theorem statementsFrom_nil (rounds : List Token) :
    statementsFrom expr inner rounds [] = .ok ([], []) := by
  cases rounds <;> rfl

section

variable {more more' : Parser (List Node)} {statement : Parser Node} {n : Nat}

theorem afterControl_congr (hstatement : Cuts statement)
    (h : ∀ tokens, tokens.length ≤ n → more tokens = more' tokens) {tokens : List Token}
    (hlength : tokens.length ≤ n) :
    afterControl more statement tokens = afterControl more' statement tokens := by
  refine bind_congr rfl fun first rest hfirst => bind_congr rfl fun comma after hcomma => ?_
  have hrest := hstatement.length_le hfirst
  have hafter := (Cuts.accept .comma).length_le hcomma
  exact bind_congr (h after (by omega)) fun _ _ _ => rfl

theorem afterSimple_congr (hstatement : Cuts statement)
    (h : ∀ tokens, tokens.length ≤ n → more tokens = more' tokens) {tokens : List Token}
    (hlength : tokens.length ≤ n + 1) :
    afterSimple more statement tokens = afterSimple more' statement tokens := by
  refine bind_congr rfl fun first rest hfirst => bind_congr rfl fun comma after hcomma => ?_
  have hrest := hstatement.length_le hfirst
  cases comma with
  | false => rfl
  | true =>
      have hafter := accept_true_length hcomma
      exact bind_congr (h after (by omega)) fun _ _ _ => rfl

theorem shift_congr {f g : Position → Parser α}
    (h : ∀ p tokens, tokens.length ≤ n → f p tokens = g p tokens) {tokens : List Token}
    (hlength : tokens.length ≤ n + 1) : shift f tokens = shift g tokens := by
  cases tokens with
  | nil => rfl
  | cons t tokens => exact h _ _ (Nat.le_of_succ_le_succ hlength)

theorem statementsBy_congr (hexpr : Cuts expr) (hinner : Cuts inner)
    (h : ∀ tokens, tokens.length ≤ n → more tokens = more' tokens) {tokens : List Token}
    (hlength : tokens.length ≤ n + 1) (next : Option Lexeme) :
    statementsBy expr inner more next tokens = statementsBy expr inner more' next tokens := by
  have hclause := cuts_clause hexpr hinner
  unfold statementsBy
  cases start next with
  | stop => rfl
  | control form =>
      exact shift_congr (fun p _ => afterControl_congr (form.cuts hclause p) h) hlength
  | simple form =>
      exact shift_congr
        (fun p _ hp => afterSimple_congr (form.cuts hclause p) h (Nat.le_succ_of_le hp)) hlength
  | expression => exact afterSimple_congr hexpr h hlength

end

theorem statementsFrom_eq (hexpr : Cuts expr) (hinner : Cuts inner)
    {rounds rounds' tokens : List Token} (h : tokens.length ≤ rounds.length)
    (h' : tokens.length ≤ rounds'.length) :
    statementsFrom expr inner rounds tokens = statementsFrom expr inner rounds' tokens := by
  induction rounds generalizing rounds' tokens with
  | nil =>
      obtain rfl := List.length_eq_zero_iff.mp (Nat.le_zero.mp h)
      rw [statementsFrom_nil, statementsFrom_nil]
  | cons round rounds ih =>
      cases rounds' with
      | nil =>
          obtain rfl := List.length_eq_zero_iff.mp (Nat.le_zero.mp h')
          rw [statementsFrom_nil, statementsFrom_nil]
      | cons round' rounds' =>
          rw [List.length_cons] at h h'
          rw [statementsFrom_cons_by, statementsFrom_cons_by]
          cases tokens with
          | nil => rfl
          | cons t tokens =>
              rw [List.length_cons] at h h'
              exact statementsBy_congr hexpr hinner (fun later hlater => ih (by omega) (by omega))
                (Nat.le_refl _) _

theorem statementsWith_eq (hexpr : Cuts expr) (hinner : Cuts inner) (tokens : List Token) :
    statementsWith expr inner tokens =
      statementsBy expr inner (statementsWith expr inner) (nextLexeme? tokens) tokens := by
  have hspare : statementsWith expr inner tokens =
      statementsFrom expr inner (spareRound :: tokens) tokens :=
    statementsFrom_eq hexpr hinner (Nat.le_refl _) (Nat.le_succ _)
  rw [hspare, statementsFrom_cons_by]
  exact statementsBy_congr hexpr hinner
    (fun later hlater => statementsFrom_eq hexpr hinner hlater (Nat.le_refl _)) (Nat.le_succ _) _

end

end Scriptlet.Parser
