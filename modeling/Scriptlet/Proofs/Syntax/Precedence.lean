import Scriptlet.Proofs.Syntax.Grammar
import Scriptlet.Proofs.Syntax.ReadBack

/-!
# Expressions read back

An expression is read back if the operands of its operators end by themselves: literals, names,
calls and groups do, whatever operator stands behind them. The parser then finds every operator at
its own level, and no tighter level can take it. An operand without operators passes all levels.
-/

namespace Scriptlet.Parser

open Node (SameShape SameShapes)

/-- What may stand behind an operand. A parenthesis or an equals sign would go on with a name. -/
def FollowsOperand (next : Option Lexeme) : Prop :=
  next ≠ some (.symbol .openParen) ∧ next ≠ some (.symbol .equal)

/-- No operator of these levels comes next. -/
def NoOperator (ops : List Level) (next : Option Lexeme) : Prop :=
  ∀ level ∈ ops, ∀ s ∈ level.operators, next ≠ some (.symbol s)

theorem HaltsAt.followsOperand {next : Option Lexeme} (h : HaltsAt next) : FollowsOperand next :=
  ⟨h.next_ne (by decide), h.next_ne (by decide)⟩

theorem HaltsAt.noOperator {next : Option Lexeme} (h : HaltsAt next) : NoOperator levels next := by
  have hother : ∀ level ∈ levels, ∀ s ∈ level.operators,
      s ∉ [.comma, .closeParen, .colon, .semicolon, .elseWord] := by
    decide
  exact fun level hlevel s hs => h.next_ne (hother level hlevel s hs)

theorem followsOperand_of_binary {s : Symbol} (h : s.IsBinary) :
    FollowsOperand (some (.symbol s)) := by
  constructor
  · rintro ⟨⟩
    cases h
  · rintro ⟨⟩
    cases h

section

variable {op inner : Parser Node} {x y : Node} {lx ly ls : List Lexeme} {S : Option Lexeme → Prop}

/-! ## Operands -/

theorem operandWith_readsBack_of_by {l : Lexeme} (hl : ls.head? = some l)
    (h : ReadsBack S SameShape (operandBy op inner (some l)) x ls) :
    ReadsBack S SameShape (operandWith op inner) x ls := by
  intro v rest hv hrest
  have hnext : nextLexeme? (v ++ rest) = some l := by
    rw [nextLexeme?_append, hv, hl, Option.some_or]
  rw [operandWith_by, hnext]
  exact h hv hrest

/-- An operand is read back if its parts are. -/
theorem operand_readsBack (hcuts : Cuts op) (hcuts' : Cuts inner) {l : Lexeme} {form : Form Inside}
    (hform : operandForm (some l) = .ok form) {W : Node → List Lexeme} {r : form.pattern.Result}
    (guarded : form.pattern.Guarded (Inside.follow S) S W r)
    (hr : form.pattern.PartsReadBack (Inside.follow S) (insideReaders op inner) W r) {q : Position}
    (hx : SameShape x (form.build r q)) :
    ReadsBack S SameShape (operandWith op inner) x (l :: form.pattern.written W r) := by
  refine operandWith_readsBack_of_by rfl ?_
  unfold operandBy
  rw [hform]
  exact .shift (Form.readsBack (cuts_inside hcuts hcuts') (uniform_operandForm hform) guarded hr hx)

/-! ## Levels -/

theorem ReadsBack.bind_acceptAny {symbols : List Symbol} {s : Symbol} (hs : s ∈ symbols)
    {f : Option Symbol → Parser Node} (h : ReadsBack S SameShape (f (some s)) x ls) :
    ReadsBack S SameShape (acceptAny symbols >>= f) x (.symbol s :: ls) := by
  intro v rest hv hrest
  obtain ⟨p, w, rfl, hw⟩ := lexemes_eq_cons hv
  obtain ⟨x', hxx', hx'⟩ := h hw hrest
  refine ⟨x', hxx', bind_eq_ok_iff.mpr ⟨some s, w ++ rest, ?_, hx'⟩⟩
  exact if_pos hs

section

variable (hcuts : Cuts op) {level : Level} {x' : Node}
  (hS : ∀ next, S next → ∀ s ∈ level.operators, next ≠ some (.symbol s))

include hcuts hS

theorem chain_readsBack_none (hx : SameShape x x') :
    ReadsBack S SameShape (chain level op x') x [] := by
  intro v rest hv hrest
  refine ⟨x', hx, ?_⟩
  rw [lexemes_eq_nil hv, List.nil_append, chain_eq hcuts]
  exact bind_eq_ok_iff.mpr ⟨none, rest, acceptAny_of_next (hS _ hrest), rfl⟩

theorem chain_readsBack_operator {s : Symbol} (hs : s ∈ level.operators) (hx : SameShape x x')
    (hy : ReadsBack S SameShape op y ly) (q : Option Position) :
    ReadsBack S SameShape (chain level op x') (.binary (.symbol s) x y q) (.symbol s :: ly) := by
  rw [chain_eq hcuts, ← List.append_nil ly]
  refine .bind_acceptAny hs (.bind hy (fun _ hnext => hnext) fun y' hyy' => ?_)
  have hjoined : SameShape (.binary (.symbol s) x y q) (.binary (.symbol s) x' y' x'.position) :=
    .binary _ hx hyy'
  dsimp only
  split
  · exact chain_readsBack_none hcuts hS hjoined
  · exact .pure hjoined

end

/-- Levels whose operators do not come next leave the expression as it is. -/
theorem climb_readsBack_looser (hcuts : Cuts op) {looser tighter : List Level}
    (hS : ∀ next, S next → NoOperator looser next)
    (hx : ReadsBack S SameShape (climb op tighter) x lx) :
    ReadsBack S SameShape (climb op (looser ++ tighter)) x lx := by
  induction looser with
  | nil => exact hx
  | cons level looser ih =>
      have hinner := ih fun next hnext level' hlevel' => hS next hnext level' (.tail level hlevel')
      rw [← List.append_nil lx]
      refine .bind hinner (fun _ hnext => hnext) fun x' hxx' => ?_
      exact chain_readsBack_none (hcuts.climb _) (fun next hnext => hS next hnext level (.head _))
        hxx'

theorem expression_readsBack_operand (hcuts : Cuts op) (hx : ReadsBack HaltsAt SameShape op x lx) :
    ReadsBack HaltsAt SameShape (expression op) x lx := by
  have hclimb := climb_readsBack_looser hcuts (fun _ hnext => HaltsAt.noOperator hnext)
    (show ReadsBack HaltsAt SameShape (climb op []) x lx from hx)
  rwa [List.append_nil] at hclimb

/-- No operator stands at two levels. -/
theorem levels_disjoint : levels.Pairwise fun loose tight =>
    ∀ s ∈ loose.operators, s ∉ tight.operators := by
  decide

theorem exists_level_of_binary {s : Symbol} (h : s.IsBinary) :
    ∃ level ∈ levels, s ∈ level.operators := by
  cases s <;> first | decide | cases h

theorem expression_readsBack_binary (hcuts : Cuts op) {s : Symbol} (hs : s.IsBinary)
    (hx : ReadsBack FollowsOperand SameShape op x lx)
    (hy : ReadsBack FollowsOperand SameShape op y ly) (q : Option Position) :
    ReadsBack HaltsAt SameShape (expression op) (.binary (.symbol s) x y q)
      (lx ++ .symbol s :: ly) := by
  have hfollows := followsOperand_of_binary hs
  obtain ⟨level, hlevel, hs⟩ := exists_level_of_binary hs
  obtain ⟨looser, tighter, hlevels⟩ := List.append_of_mem hlevel
  have hhalts : ∀ next, HaltsAt next → NoOperator (looser ++ level :: tighter) next :=
    fun _ hnext => hlevels ▸ HaltsAt.noOperator hnext
  have htighter : ∀ level' ∈ tighter, s ∉ level'.operators := by
    have hdisjoint := levels_disjoint
    rw [hlevels, List.pairwise_append, List.pairwise_cons] at hdisjoint
    exact fun level' hlevel' => hdisjoint.2.1.1 level' hlevel' s hs
  -- the left operand ends at the operator, which no tighter level takes
  have hleft : ReadsBack (· = some (.symbol s)) SameShape (climb op (tighter ++ [])) x lx := by
    refine climb_readsBack_looser hcuts ?_ (hx.mono ?_)
    · rintro next rfl level' hlevel' s' hs' heq
      obtain rfl := Lexeme.symbol.inj (Option.some.inj heq)
      exact htighter level' hlevel' hs'
    · rintro next rfl
      exact hfollows
  have hright : ReadsBack HaltsAt SameShape (climb op (tighter ++ [])) y ly := by
    refine climb_readsBack_looser hcuts (fun next hnext level' hlevel' => ?_)
      (hy.mono fun _ => HaltsAt.followsOperand)
    exact hhalts next hnext level' (List.mem_append_right _ (.tail _ hlevel'))
  rw [List.append_nil] at hleft hright
  unfold expression
  rw [hlevels]
  refine climb_readsBack_looser hcuts
    (fun next hnext level' hlevel' => hhalts next hnext level' (List.mem_append_left _ hlevel')) ?_
  refine .bind hleft (fun _ _ => rfl) fun x' hxx' => ?_
  refine chain_readsBack_operator (hcuts.climb _) (fun next hnext => ?_) hs hxx' hright q
  exact hhalts next hnext level (List.mem_append_right _ (.head _))

end

end Scriptlet.Parser
