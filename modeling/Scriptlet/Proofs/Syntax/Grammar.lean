import Scriptlet.Proofs.Syntax.Spelling

/-!
# The grammar

The productions as data, and what it is for tokens to be derivable from one. An operand may be an
assignment, whose right side is a whole expression, so the same tokens can have many derivations:
the operators after an assignment may belong to its right side or to what the assignment is an
operand of.
-/

namespace Scriptlet

inductive Phrase where
  | root | statements | control | simple
  | expr | disjunction | conjunction | equality | comparison | modulo | additive | multiplicative
  | unary | primary
  deriving DecidableEq

/-- Right sides of productions. -/
inductive Rule where
  | token (kind : Kind)
  | phrase (p : Phrase)
  | empty
  | both (first second : Rule)
  | either (first second : Rule)
  | many (rule : Rule)
  deriving DecidableEq

namespace Rule

instance : Append Rule := ⟨both⟩

instance : OrOp Rule := ⟨either⟩

def symbol (s : Symbol) : Rule := .token (.symbol s)

def maybe (rule : Rule) : Rule := rule ||| empty

/-- Any number of `rule` with commas between them. -/
def listed (rule : Rule) : Rule := maybe (rule ++ many (symbol .comma ++ rule))

end Rule

open Rule

/-- A sequence of statements stops where a simple statement has no comma behind it. -/
def grammar : Phrase → Rule
  | .root => phrase .statements
  | .statements =>
      many (phrase .control ++ maybe (symbol .comma) ||| phrase .simple ++ symbol .comma) ++
        maybe (phrase .simple)
  | .control =>
      symbol .ifWord ++ phrase .expr ++ symbol .colon ++ phrase .statements ++
          maybe (symbol .elseWord ++ phrase .statements) ++ symbol .semicolon
        ||| symbol .whileWord ++ phrase .expr ++ symbol .colon ++ phrase .statements ++
          symbol .semicolon
        ||| symbol .fnWord ++ token .identifier ++ symbol .openParen ++ listed (token .identifier) ++
          symbol .closeParen ++ symbol .colon ++ phrase .statements ++ symbol .semicolon
  | .simple =>
      symbol .retWord ++ phrase .expr
        ||| symbol .nonlocalWord ++ token .identifier ++ symbol .equal ++ phrase .expr
        ||| phrase .expr
  | .expr => phrase .disjunction
  | .disjunction => phrase .conjunction ++ many (symbol .orWord ++ phrase .conjunction)
  | .conjunction => phrase .equality ++ many (symbol .andWord ++ phrase .equality)
  | .equality =>
      phrase .comparison ++
        maybe ((symbol .equalEqual ||| symbol .bangEqual) ++ phrase .comparison)
  | .comparison =>
      phrase .modulo ++
        maybe ((symbol .greater ||| symbol .greaterEqual ||| symbol .less ||| symbol .lessEqual) ++
          phrase .modulo)
  | .modulo => phrase .additive ++ many (symbol .percent ++ phrase .additive)
  | .additive =>
      phrase .multiplicative ++
        many ((symbol .plus ||| symbol .minus) ++ phrase .multiplicative)
  | .multiplicative =>
      phrase .unary ++ many ((symbol .star ||| symbol .slash) ++ phrase .unary)
  | .unary => (symbol .bang ||| symbol .minus) ++ phrase .unary ||| phrase .primary
  | .primary =>
      token .number ||| token .boolean ||| token .string ||| symbol .nil
        ||| token .identifier ++ symbol .openParen ++ listed (phrase .expr) ++ symbol .closeParen
        ||| token .identifier ++ symbol .equal ++ phrase .expr
        ||| token .identifier
        ||| symbol .openParen ++ phrase .expr ++ symbol .closeParen

inductive Derives : Rule → List Token → Prop where
  | token (t : Token) : Derives (.token t.kind) [t]
  | phrase {p : Phrase} {w : List Token} (body : Derives (grammar p) w) : Derives (.phrase p) w
  | empty : Derives .empty []
  | both {r r' : Rule} {u v : List Token} (first : Derives r u) (second : Derives r' v) :
      Derives (.both r r') (u ++ v)
  | left {r r' : Rule} {w : List Token} (first : Derives r w) : Derives (.either r r') w
  | right {r r' : Rule} {w : List Token} (second : Derives r' w) : Derives (.either r r') w
  | stop {r : Rule} : Derives (.many r) []
  | more {r : Rule} {u v : List Token} (first : Derives r u) (others : Derives (.many r) v) :
      Derives (.many r) (u ++ v)

/-! ## Rules by their parts -/

section

variable {r r' : Rule} {w : List Token}

theorem derives_token_iff {kind : Kind} :
    Derives (.token kind) w ↔ ∃ t : Token, t.kind = kind ∧ w = [t] := by
  constructor
  · intro h
    cases h with
    | token t => exact ⟨t, rfl, rfl⟩
  · rintro ⟨t, rfl, rfl⟩
    exact .token t

theorem derives_symbol_iff {s : Symbol} :
    Derives (.symbol s) w ↔ ∃ p, w = [⟨.symbol s, p⟩] := by
  rw [Rule.symbol, derives_token_iff]
  constructor
  · rintro ⟨⟨lexeme, p⟩, hkind, rfl⟩
    cases lexeme <;> cases hkind
    exact ⟨p, rfl⟩
  · rintro ⟨p, rfl⟩
    exact ⟨_, rfl, rfl⟩

theorem derives_identifier_iff :
    Derives (.token .identifier) w ↔ ∃ name p, w = [⟨.identifier name, p⟩] := by
  rw [derives_token_iff]
  constructor
  · rintro ⟨⟨lexeme, p⟩, hkind, rfl⟩
    cases lexeme with
    | identifier name => exact ⟨name, p, rfl⟩
    | _ => cases hkind
  · rintro ⟨name, p, rfl⟩
    exact ⟨_, rfl, rfl⟩

theorem derives_phrase_iff {p : Phrase} : Derives (.phrase p) w ↔ Derives (grammar p) w := by
  constructor
  · intro h
    cases h with
    | phrase body => exact body
  · exact .phrase

theorem derives_append_iff :
    Derives (r ++ r') w ↔ ∃ u v, w = u ++ v ∧ Derives r u ∧ Derives r' v := by
  constructor
  · intro h
    cases h with
    | both first second => exact ⟨_, _, rfl, first, second⟩
  · rintro ⟨u, v, rfl, first, second⟩
    exact .both first second

theorem derives_or_iff : Derives (r ||| r') w ↔ Derives r w ∨ Derives r' w := by
  constructor
  · intro h
    cases h with
    | left first => exact .inl first
    | right second => exact .inr second
  · rintro (first | second)
    · exact .left first
    · exact .right second

theorem derives_empty_iff : Derives .empty w ↔ w = [] := by
  constructor
  · intro h
    cases h
    rfl
  · rintro rfl
    exact .empty

theorem derives_maybe_iff : Derives (.maybe r) w ↔ Derives r w ∨ w = [] := by
  rw [Rule.maybe, derives_or_iff, derives_empty_iff]

theorem derives_many_iff :
    Derives (.many r) w ↔ ∃ pieces : List (List Token), w = pieces.flatten ∧
      ∀ piece ∈ pieces, Derives r piece := by
  constructor
  · intro h
    generalize hr : Rule.many r = rule at h
    induction h with
    | stop => exact ⟨[], rfl, by simp⟩
    | @more r'' u v first others _ ih =>
        cases hr
        obtain ⟨pieces, rfl, hpieces⟩ := ih rfl
        exact ⟨u :: pieces, rfl, List.forall_mem_cons.mpr ⟨first, hpieces⟩⟩
    | _ => cases hr
  · rintro ⟨pieces, rfl, hpieces⟩
    induction pieces with
    | nil => exact .stop
    | cons piece pieces ih =>
        obtain ⟨first, others⟩ := List.forall_mem_cons.mp hpieces
        exact .more first (ih others)

end

/-! ## Tiers of operators -/

/-- The phrases of expressions, loosest first. -/
def tier : Nat → Phrase
  | 0 => .disjunction
  | 1 => .conjunction
  | 2 => .equality
  | 3 => .comparison
  | 4 => .modulo
  | 5 => .additive
  | 6 => .multiplicative
  | _ => .unary

/-- The tier whose operands a symbol joins. -/
def Symbol.tier? : Symbol → Option Nat
  | .orWord => some 0
  | .andWord => some 1
  | .equalEqual | .bangEqual => some 2
  | .greater | .greaterEqual | .less | .lessEqual => some 3
  | .percent => some 4
  | .plus | .minus => some 5
  | .star | .slash => some 6
  | _ => none

/-- The symbol joins two operands. -/
def Symbol.IsBinary (s : Symbol) : Prop := s.tier?.isSome = true

instance (s : Symbol) : Decidable s.IsBinary := inferInstanceAs (Decidable (_ = true))

def Token.tier? (t : Token) : Option Nat :=
  match t.lexeme with
  | .symbol s => s.tier?
  | _ => none

/-- Equality and comparison take one operator at most. -/
def Lone (i : Nat) : Prop := i = 2 ∨ i = 3

instance (i : Nat) : Decidable (Lone i) := inferInstanceAs (Decidable (_ ∨ _))

def tierSymbols : Nat → List Symbol
  | 0 => [.orWord]
  | 1 => [.andWord]
  | 2 => [.equalEqual, .bangEqual]
  | 3 => [.greater, .greaterEqual, .less, .lessEqual]
  | 4 => [.percent]
  | 5 => [.plus, .minus]
  | _ => [.star, .slash]

theorem tier?_eq_some_iff {i : Nat} (hi : i < 7) {s : Symbol} :
    s.tier? = some i ↔ s ∈ tierSymbols i := by
  constructor
  · intro h
    cases s <;> cases h <;> decide
  · revert s
    match i, hi with
    | 0, _ | 1, _ | 2, _ | 3, _ | 4, _ | 5, _ | 6, _ => decide

theorem Token.tier?_eq_some {t : Token} {i : Nat} (h : t.tier? = some i) :
    ∃ s p, t = ⟨.symbol s, p⟩ ∧ s.tier? = some i := by
  obtain ⟨lexeme, p⟩ := t
  cases lexeme with
  | symbol s => exact ⟨s, p, rfl, h⟩
  | _ => cases h

theorem Token.tier?_lt {t : Token} {i : Nat} (h : t.tier? = some i) : i < 7 := by
  obtain ⟨s, p, rfl, hs⟩ := Token.tier?_eq_some h
  cases s <;> cases hs <;> decide

namespace Rule

/-- One of the given symbols. -/
def anyOf : List Symbol → Rule
  | [] => empty
  | s :: more => more.foldl (fun rule s => rule ||| symbol s) (symbol s)

end Rule

theorem derives_anyOf_iff {s : Symbol} {more : List Symbol} {w : List Token} :
    Derives (anyOf (s :: more)) w ↔ ∃ s' ∈ s :: more, ∃ p, w = [⟨.symbol s', p⟩] := by
  have folded : ∀ rule, Derives (more.foldl (fun rule s => rule ||| symbol s) rule) w ↔
      Derives rule w ∨ ∃ s' ∈ more, ∃ p, w = [⟨.symbol s', p⟩] := by
    induction more with
    | nil => simp
    | cons s' more ih =>
        intro rule
        rw [List.foldl_cons, ih, derives_or_iff, derives_symbol_iff, or_assoc]
        simp only [List.mem_cons, exists_eq_or_imp]
  rw [anyOf, folded, derives_symbol_iff]
  simp only [List.mem_cons, exists_eq_or_imp]

theorem grammar_tier {i : Nat} (hi : i < 7) :
    grammar (tier i) =
      let more := anyOf (tierSymbols i) ++ phrase (tier (i + 1))
      phrase (tier (i + 1)) ++ (if Lone i then maybe more else many more) := by
  match i, hi with
  | 0, _ | 1, _ | 2, _ | 3, _ | 4, _ | 5, _ | 6, _ => rfl

theorem derives_tierOperator_iff {i : Nat} (hi : i < 7) {w : List Token} :
    Derives (anyOf (tierSymbols i)) w ↔ ∃ t : Token, t.tier? = some i ∧ w = [t] := by
  have nonempty : ∃ s more, tierSymbols i = s :: more := by
    unfold tierSymbols
    split <;> exact ⟨_, _, rfl⟩
  obtain ⟨s, more, hsymbols⟩ := nonempty
  rw [hsymbols, derives_anyOf_iff, ← hsymbols]
  constructor
  · rintro ⟨s', hs', p, rfl⟩
    exact ⟨⟨.symbol s', p⟩, (tier?_eq_some_iff hi).mpr hs', rfl⟩
  · rintro ⟨t, ht, rfl⟩
    obtain ⟨s', p, rfl, hs'⟩ := Token.tier?_eq_some ht
    exact ⟨s', (tier?_eq_some_iff hi).mp hs', p, rfl⟩

/-- Operators, each with the operand that follows it. -/
abbrev Joints := List (Token × List Token)

def Joints.tokens (joints : Joints) : List Token := joints.flatMap fun joint => joint.1 :: joint.2

theorem derives_joint_iff {i : Nat} (hi : i < 7) {v : List Token} :
    Derives (anyOf (tierSymbols i) ++ phrase (tier (i + 1))) v ↔
      ∃ joint : Token × List Token, v = joint.1 :: joint.2 ∧ joint.1.tier? = some i ∧
        Derives (.phrase (tier (i + 1))) joint.2 := by
  rw [derives_append_iff]
  constructor
  · rintro ⟨x, y, rfl, hx, hy⟩
    obtain ⟨t, ht, rfl⟩ := (derives_tierOperator_iff hi).mp hx
    exact ⟨(t, y), rfl, ht, hy⟩
  · rintro ⟨⟨t, y⟩, rfl, ht, hy⟩
    exact ⟨[t], y, rfl, (derives_tierOperator_iff hi).mpr ⟨t, ht, rfl⟩, hy⟩

theorem derives_many_joints_iff {i : Nat} (hi : i < 7) {v : List Token} :
    Derives (many (anyOf (tierSymbols i) ++ phrase (tier (i + 1)))) v ↔
      ∃ joints : Joints, v = joints.tokens ∧
        ∀ joint ∈ joints, joint.1.tier? = some i ∧ Derives (.phrase (tier (i + 1))) joint.2 := by
  rw [derives_many_iff]
  constructor
  · rintro ⟨pieces, rfl, hpieces⟩
    induction pieces with
    | nil => exact ⟨[], rfl, by simp⟩
    | cons piece pieces ih =>
        obtain ⟨hpiece, hothers⟩ := List.forall_mem_cons.mp hpieces
        obtain ⟨one, rfl, hone⟩ := (derives_joint_iff hi).mp hpiece
        obtain ⟨joints, htokens, hjoints⟩ := ih hothers
        refine ⟨one :: joints, ?_, List.forall_mem_cons.mpr ⟨hone, hjoints⟩⟩
        rw [List.flatten_cons, htokens]
        rfl
  · rintro ⟨joints, rfl, hjoints⟩
    refine ⟨joints.map fun joint => joint.1 :: joint.2, rfl, ?_⟩
    intro piece hpiece
    obtain ⟨one, hone, rfl⟩ := List.mem_map.mp hpiece
    exact (derives_joint_iff hi).mpr ⟨one, rfl, hjoints one hone⟩

theorem derives_maybe_joint_iff {i : Nat} (hi : i < 7) {v : List Token} :
    Derives (maybe (anyOf (tierSymbols i) ++ phrase (tier (i + 1)))) v ↔
      ∃ joints : Joints, v = joints.tokens ∧
        (∀ joint ∈ joints, joint.1.tier? = some i ∧ Derives (.phrase (tier (i + 1))) joint.2) ∧
        joints.length ≤ 1 := by
  rw [derives_maybe_iff, derives_joint_iff hi]
  constructor
  · rintro (⟨one, rfl, hone⟩ | rfl)
    · exact ⟨[one], by simp [Joints.tokens], by simpa using hone, by simp⟩
    · exact ⟨[], rfl, by simp, by simp⟩
  · rintro ⟨joints, rfl, hjoints, hlength⟩
    match joints, hlength with
    | [], _ => exact .inr rfl
    | [one], _ => exact .inl ⟨one, by simp [Joints.tokens], hjoints one List.mem_cons_self⟩

/-- The tokens of a tier are operands of the next one with operators of the tier between them. -/
theorem derives_tier_iff {i : Nat} (hi : i < 7) {w : List Token} :
    Derives (.phrase (tier i)) w ↔ ∃ first, ∃ joints : Joints, w = first ++ joints.tokens ∧
      Derives (.phrase (tier (i + 1))) first ∧
      (∀ joint ∈ joints, joint.1.tier? = some i ∧ Derives (.phrase (tier (i + 1))) joint.2) ∧
      (Lone i → joints.length ≤ 1) := by
  rw [derives_phrase_iff, grammar_tier hi, derives_append_iff]
  by_cases hlone : Lone i
  · simp only [if_pos hlone, derives_maybe_joint_iff hi]
    constructor
    · rintro ⟨first, _, rfl, hfirst, joints, rfl, hjoints, hlength⟩
      exact ⟨first, joints, rfl, hfirst, hjoints, fun _ => hlength⟩
    · rintro ⟨first, joints, rfl, hfirst, hjoints, hlength⟩
      exact ⟨first, _, rfl, hfirst, joints, rfl, hjoints, hlength hlone⟩
  · simp only [if_neg hlone, derives_many_joints_iff hi]
    constructor
    · rintro ⟨first, _, rfl, hfirst, joints, rfl, hjoints⟩
      exact ⟨first, joints, rfl, hfirst, hjoints, fun h => absurd h hlone⟩
    · rintro ⟨first, joints, rfl, hfirst, hjoints, _⟩
      exact ⟨first, _, rfl, hfirst, joints, rfl, hjoints⟩

/-! ## The other productions -/

section

variable {r r' r'' : Rule} {w : List Token}

theorem derives_append_assoc_iff : Derives (r ++ r' ++ r'') w ↔ Derives (r ++ (r' ++ r'')) w := by
  simp only [derives_append_iff]
  constructor
  · rintro ⟨_, z, rfl, ⟨x, y, rfl, hx, hy⟩, hz⟩
    exact ⟨x, y ++ z, List.append_assoc x y z, hx, y, z, rfl, hy, hz⟩
  · rintro ⟨x, _, rfl, hx, y, z, rfl, hy, hz⟩
    exact ⟨x ++ y, z, (List.append_assoc x y z).symm, ⟨x, y, rfl, hx, hy⟩, hz⟩

theorem derives_symbol_append_iff {s : Symbol} :
    Derives (.symbol s ++ r) w ↔ ∃ p v, w = ⟨.symbol s, p⟩ :: v ∧ Derives r v := by
  rw [derives_append_iff]
  constructor
  · rintro ⟨_, v, rfl, hs, hv⟩
    obtain ⟨p, rfl⟩ := derives_symbol_iff.mp hs
    exact ⟨p, v, rfl, hv⟩
  · rintro ⟨p, v, rfl, hv⟩
    exact ⟨_, v, rfl, derives_symbol_iff.mpr ⟨p, rfl⟩, hv⟩

theorem derives_identifier_append_iff :
    Derives (.token .identifier ++ r) w ↔
      ∃ name p v, w = ⟨.identifier name, p⟩ :: v ∧ Derives r v := by
  rw [derives_append_iff]
  constructor
  · rintro ⟨_, v, rfl, hs, hv⟩
    obtain ⟨name, p, rfl⟩ := derives_identifier_iff.mp hs
    exact ⟨name, p, v, rfl, hv⟩
  · rintro ⟨name, p, v, rfl, hv⟩
    exact ⟨_, v, rfl, derives_identifier_iff.mpr ⟨name, p, rfl⟩, hv⟩

/-- A phrase that ends in a symbol. -/
theorem derives_append_symbol_iff {s : Symbol} :
    Derives (r ++ .symbol s) w ↔ ∃ u p, w = u ++ [⟨.symbol s, p⟩] ∧ Derives r u := by
  rw [derives_append_iff]
  constructor
  · rintro ⟨u, _, rfl, hu, hs⟩
    obtain ⟨p, rfl⟩ := derives_symbol_iff.mp hs
    exact ⟨u, p, rfl, hu⟩
  · rintro ⟨u, p, rfl, hu⟩
    exact ⟨u, _, rfl, hu, derives_symbol_iff.mpr ⟨p, rfl⟩⟩

/-- Two phrases with a symbol between them. -/
theorem derives_between_iff {s : Symbol} :
    Derives (r ++ (.symbol s ++ r')) w ↔
      ∃ u p v, w = u ++ ⟨.symbol s, p⟩ :: v ∧ Derives r u ∧ Derives r' v := by
  simp only [derives_append_iff (r := r), derives_symbol_append_iff]
  constructor
  · rintro ⟨u, _, rfl, hu, p, v, rfl, hv⟩
    exact ⟨u, p, v, rfl, hu, hv⟩
  · rintro ⟨u, p, v, rfl, hu, hv⟩
    exact ⟨u, _, rfl, hu, p, v, rfl, hv⟩

theorem listed_of_pieces {pieces : List (List Token)}
    (hpieces : ∀ piece ∈ pieces, Derives (symbol .comma ++ r) piece) {first : List Token}
    (hfirst : Derives r first) :
    ∃ items : List Unit, Listed (fun _ v => Derives r v) items (first ++ pieces.flatten) := by
  induction pieces generalizing first with
  | nil =>
      have only : Listed (fun (_ : Unit) v => Derives r v) [()] first := .one hfirst
      exact ⟨[()], by simpa using only⟩
  | cons piece pieces ih =>
      obtain ⟨hpiece, hmore⟩ := List.forall_mem_cons.mp hpieces
      obtain ⟨p, x, rfl, hx⟩ := derives_symbol_append_iff.mp hpiece
      obtain ⟨items, hitems⟩ := ih hmore hx
      have all : Listed (fun (_ : Unit) v => Derives r v) (() :: items)
          (first ++ ⟨.symbol .comma, p⟩ :: (x ++ pieces.flatten)) := .more hfirst hitems
      exact ⟨() :: items, by simpa using all⟩

theorem derives_cons_listed {u v : List Token} (p : Position) (first : Derives r u)
    (others : Derives (r ++ many (symbol .comma ++ r)) v) :
    Derives (r ++ many (symbol .comma ++ r)) (u ++ ⟨.symbol .comma, p⟩ :: v) := by
  obtain ⟨x, y, rfl, hx, hy⟩ := derives_append_iff.mp others
  have piece : Derives (symbol .comma ++ r) (⟨.symbol .comma, p⟩ :: x) :=
    derives_symbol_append_iff.mpr ⟨p, x, rfl, hx⟩
  exact derives_append_iff.mpr ⟨u, _, rfl, first, .more piece hy⟩

theorem derives_of_listed {α : Type} {R : α → List Token → Prop} {items : List α}
    (hR : ∀ {a v}, R a v → Derives r v) (h : Listed R items w) :
    Derives (r ++ many (symbol .comma ++ r)) w := by
  induction h with
  | one item => exact derives_append_iff.mpr ⟨_, [], by simp, hR item, .stop⟩
  | more item items ih => exact derives_cons_listed _ (hR item) ih

theorem derives_listed_iff :
    Derives (.listed r) w ↔ ∃ items : List Unit, ListedOrNone (fun _ v => Derives r v) items w := by
  rw [listed, derives_maybe_iff]
  constructor
  · rintro (h | rfl)
    · obtain ⟨first, others, rfl, hfirst, hothers⟩ := derives_append_iff.mp h
      obtain ⟨pieces, rfl, hpieces⟩ := derives_many_iff.mp hothers
      obtain ⟨items, hitems⟩ := listed_of_pieces hpieces hfirst
      exact ⟨items, .inr hitems⟩
    · exact ⟨[], .inl ⟨rfl, rfl⟩⟩
  · rintro ⟨items, ⟨rfl, rfl⟩ | h⟩
    · exact .inr rfl
    · exact .inl (derives_of_listed id h)

/-- The kinds of tokens that are operands by themselves. -/
def Kind.isAtom : Kind → Bool
  | .number | .boolean | .string | .identifier | .symbol .nil => true
  | _ => false

theorem derives_atom_iff :
    Derives (token .number ||| token .boolean ||| token .string ||| symbol .nil) w ∨
      Derives (token .identifier) w ↔ ∃ t : Token, t.kind.isAtom = true ∧ w = [t] := by
  simp only [derives_or_iff, Rule.symbol, derives_token_iff]
  constructor
  · rintro ((((⟨t, ht, rfl⟩ | ⟨t, ht, rfl⟩) | ⟨t, ht, rfl⟩) | ⟨t, ht, rfl⟩) | ⟨t, ht, rfl⟩)
    all_goals exact ⟨t, by rw [ht]; rfl, rfl⟩
  · rintro ⟨t, ht, rfl⟩
    unfold Kind.isAtom at ht
    split at ht
    · next hk => exact .inl (.inl (.inl (.inl ⟨t, hk, rfl⟩)))
    · next hk => exact .inl (.inl (.inl (.inr ⟨t, hk, rfl⟩)))
    · next hk => exact .inl (.inl (.inr ⟨t, hk, rfl⟩))
    · next hk => exact .inr ⟨t, hk, rfl⟩
    · next hk => exact .inl (.inr ⟨t, hk, rfl⟩)
    · cases ht

theorem derives_signed_iff :
    Derives ((symbol .bang ||| symbol .minus) ++ r) w ↔
      ∃ s p v, (s = .bang ∨ s = .minus) ∧ w = ⟨.symbol s, p⟩ :: v ∧ Derives r v := by
  simp only [derives_append_iff, derives_or_iff, derives_symbol_iff]
  constructor
  · rintro ⟨_, v, rfl, ⟨p, rfl⟩ | ⟨p, rfl⟩, hv⟩
    · exact ⟨.bang, p, v, .inl rfl, rfl, hv⟩
    · exact ⟨.minus, p, v, .inr rfl, rfl, hv⟩
  · rintro ⟨s, p, v, rfl | rfl, rfl, hv⟩
    · exact ⟨_, v, rfl, .inl ⟨p, rfl⟩, hv⟩
    · exact ⟨_, v, rfl, .inr ⟨p, rfl⟩, hv⟩

theorem derives_group_iff :
    Derives (symbol .openParen ++ r ++ symbol .closeParen) w ↔
      ∃ p u c, w = ⟨.symbol .openParen, p⟩ :: (u ++ [⟨.symbol .closeParen, c⟩]) ∧ Derives r u := by
  rw [derives_append_assoc_iff, derives_symbol_append_iff]
  simp only [derives_append_symbol_iff]
  constructor
  · rintro ⟨p, _, rfl, u, c, rfl, hu⟩
    exact ⟨p, u, c, rfl, hu⟩
  · rintro ⟨p, u, c, rfl, hu⟩
    exact ⟨p, _, rfl, u, c, rfl, hu⟩

theorem derives_call_iff :
    Derives (token .identifier ++ symbol .openParen ++ r ++ symbol .closeParen) w ↔
      ∃ name p q u c, w = ⟨.identifier name, p⟩ :: ⟨.symbol .openParen, q⟩ ::
        (u ++ [⟨.symbol .closeParen, c⟩]) ∧ Derives r u := by
  rw [derives_append_assoc_iff, derives_append_assoc_iff, derives_identifier_append_iff]
  simp only [derives_symbol_append_iff, derives_append_symbol_iff]
  constructor
  · rintro ⟨name, p, _, rfl, q, _, rfl, u, c, rfl, hu⟩
    exact ⟨name, p, q, u, c, rfl, hu⟩
  · rintro ⟨name, p, q, u, c, rfl, hu⟩
    exact ⟨name, p, _, rfl, q, _, rfl, u, c, rfl, hu⟩

theorem derives_assign_iff :
    Derives (token .identifier ++ symbol .equal ++ r) w ↔
      ∃ name p q u, w = ⟨.identifier name, p⟩ :: ⟨.symbol .equal, q⟩ :: u ∧ Derives r u := by
  rw [derives_append_assoc_iff, derives_identifier_append_iff]
  simp only [derives_symbol_append_iff]
  constructor
  · rintro ⟨name, p, _, rfl, q, u, rfl, hu⟩
    exact ⟨name, p, q, u, rfl, hu⟩
  · rintro ⟨name, p, q, u, rfl, hu⟩
    exact ⟨name, p, _, rfl, q, u, rfl, hu⟩

theorem derives_unary_iff :
    Derives (.phrase .unary) w ↔
      (∃ s p v, (s = .bang ∨ s = .minus) ∧ w = ⟨.symbol s, p⟩ :: v ∧ Derives (.phrase .unary) v) ∨
      (∃ t : Token, t.kind.isAtom = true ∧ w = [t]) ∨
      (∃ name p q u c, w = ⟨.identifier name, p⟩ :: ⟨.symbol .openParen, q⟩ ::
        (u ++ [⟨.symbol .closeParen, c⟩]) ∧ Derives (listed (phrase .expr)) u) ∨
      (∃ name p q u, w = ⟨.identifier name, p⟩ :: ⟨.symbol .equal, q⟩ :: u ∧
        Derives (.phrase .expr) u) ∨
      ∃ p u c, w = ⟨.symbol .openParen, p⟩ :: (u ++ [⟨.symbol .closeParen, c⟩]) ∧
        Derives (.phrase .expr) u := by
  rw [derives_phrase_iff, grammar, derives_or_iff, derives_signed_iff,
    derives_phrase_iff (p := .primary), grammar, derives_or_iff, derives_or_iff, derives_or_iff,
    derives_or_iff, derives_call_iff, derives_assign_iff, derives_group_iff, ← derives_atom_iff]
  constructor
  · rintro (h | ((((h | h) | h) | h) | h))
    · exact .inl h
    · exact .inr (.inl (.inl h))
    · exact .inr (.inr (.inl h))
    · exact .inr (.inr (.inr (.inl h)))
    · exact .inr (.inl (.inr h))
    · exact .inr (.inr (.inr (.inr h)))
  · rintro (h | (h | h) | h | h | h)
    · exact .inl h
    · exact .inr (.inl (.inl (.inl (.inl h))))
    · exact .inr (.inl (.inr h))
    · exact .inr (.inl (.inl (.inl (.inr h))))
    · exact .inr (.inl (.inl (.inr h)))
    · exact .inr (.inr h)

theorem derives_simple_iff :
    Derives (.phrase .simple) w ↔
      (∃ p v, w = ⟨.symbol .retWord, p⟩ :: v ∧ Derives (.phrase .expr) v) ∨
      (∃ p name q r v, w = ⟨.symbol .nonlocalWord, p⟩ :: ⟨.identifier name, q⟩ ::
        ⟨.symbol .equal, r⟩ :: v ∧ Derives (.phrase .expr) v) ∨
      Derives (.phrase .expr) w := by
  rw [derives_phrase_iff, grammar, derives_or_iff, derives_or_iff, derives_symbol_append_iff,
    derives_append_assoc_iff, derives_append_assoc_iff, derives_symbol_append_iff, or_assoc]
  simp only [derives_identifier_append_iff, derives_symbol_append_iff]
  refine or_congr_right (or_congr_left ?_)
  constructor
  · rintro ⟨p, _, rfl, name, q, _, rfl, r, v, rfl, hv⟩
    exact ⟨p, name, q, r, v, rfl, hv⟩
  · rintro ⟨p, name, q, r, v, rfl, hv⟩
    exact ⟨p, _, rfl, name, q, _, rfl, r, v, rfl, hv⟩

/-- The common beginning of `if` and `while`. -/
theorem derives_headed_iff {s : Symbol} :
    Derives (symbol s ++ r ++ symbol .colon ++ r') w ↔
      ∃ p u q v, w = ⟨.symbol s, p⟩ :: (u ++ ⟨.symbol .colon, q⟩ :: v) ∧ Derives r u ∧
        Derives r' v := by
  rw [derives_append_assoc_iff, derives_append_assoc_iff, derives_symbol_append_iff]
  simp only [derives_between_iff]
  constructor
  · rintro ⟨p, _, rfl, u, q, v, rfl, hu, hv⟩
    exact ⟨p, u, q, v, rfl, hu, hv⟩
  · rintro ⟨p, u, q, v, rfl, hu, hv⟩
    exact ⟨p, _, rfl, u, q, v, rfl, hu, hv⟩

/-- What may stand between the body of an `if` and its end. -/
def ElsePart (x : List Token) : Prop :=
  x = [] ∨ ∃ e y, x = ⟨.symbol .elseWord, e⟩ :: y ∧ Derives (.phrase .statements) y

theorem derives_elsePart_iff :
    Derives (maybe (symbol .elseWord ++ phrase .statements)) w ↔ ElsePart w := by
  rw [derives_maybe_iff, derives_symbol_append_iff, or_comm, ElsePart]

theorem derives_function_iff :
    Derives (symbol .fnWord ++ token .identifier ++ symbol .openParen ++ r ++
        symbol .closeParen ++ symbol .colon ++ r') w ↔
      ∃ p name q o u c k v, w = ⟨.symbol .fnWord, p⟩ :: ⟨.identifier name, q⟩ ::
        ⟨.symbol .openParen, o⟩ :: (u ++ ⟨.symbol .closeParen, c⟩ :: ⟨.symbol .colon, k⟩ :: v) ∧
        Derives r u ∧ Derives r' v := by
  simp only [derives_append_assoc_iff]
  simp only [derives_identifier_append_iff, derives_symbol_append_iff]
  simp only [derives_between_iff, derives_symbol_append_iff]
  constructor
  · rintro ⟨p, _, rfl, name, q, _, rfl, o, _, rfl, u, c, _, rfl, hu, k, v, rfl, hv⟩
    exact ⟨p, name, q, o, u, c, k, v, rfl, hu, hv⟩
  · rintro ⟨p, name, q, o, u, c, k, v, rfl, hu, hv⟩
    exact ⟨p, _, rfl, name, q, _, rfl, o, _, rfl, u, c, _, rfl, hu, k, v, rfl, hv⟩

theorem derives_control_iff :
    Derives (.phrase .control) w ↔
      (∃ p u q v x c, w = ⟨.symbol .ifWord, p⟩ :: (u ++ ⟨.symbol .colon, q⟩ :: (v ++ (x ++
        [⟨.symbol .semicolon, c⟩]))) ∧ Derives (.phrase .expr) u ∧
        Derives (.phrase .statements) v ∧ ElsePart x) ∨
      (∃ p u q v c, w = ⟨.symbol .whileWord, p⟩ :: (u ++ ⟨.symbol .colon, q⟩ :: (v ++
        [⟨.symbol .semicolon, c⟩])) ∧ Derives (.phrase .expr) u ∧
        Derives (.phrase .statements) v) ∨
      ∃ p name q o u c k v e, w = ⟨.symbol .fnWord, p⟩ :: ⟨.identifier name, q⟩ ::
        ⟨.symbol .openParen, o⟩ :: (u ++ ⟨.symbol .closeParen, c⟩ :: ⟨.symbol .colon, k⟩ :: (v ++
        [⟨.symbol .semicolon, e⟩])) ∧ Derives (listed (token .identifier)) u ∧
        Derives (.phrase .statements) v := by
  rw [derives_phrase_iff, grammar, derives_or_iff, derives_or_iff, or_assoc]
  refine or_congr ?_ (or_congr ?_ ?_)
  · rw [derives_append_symbol_iff]
    simp only [derives_append_iff (r := _ ++ _ ++ _ ++ _), derives_headed_iff,
      derives_elsePart_iff]
    constructor
    · rintro ⟨_, c, rfl, _, x, rfl, ⟨p, u, q, v, rfl, hu, hv⟩, hx⟩
      exact ⟨p, u, q, v, x, c, by simp, hu, hv, hx⟩
    · rintro ⟨p, u, q, v, x, c, rfl, hu, hv, hx⟩
      exact ⟨_, c, by simp, _, x, rfl, ⟨p, u, q, v, rfl, hu, hv⟩, hx⟩
  · rw [derives_append_symbol_iff]
    simp only [derives_headed_iff]
    constructor
    · rintro ⟨_, c, rfl, p, u, q, v, rfl, hu, hv⟩
      exact ⟨p, u, q, v, c, by simp, hu, hv⟩
    · rintro ⟨p, u, q, v, c, rfl, hu, hv⟩
      exact ⟨_, c, by simp, p, u, q, v, rfl, hu, hv⟩
  · rw [derives_append_symbol_iff]
    simp only [derives_function_iff]
    constructor
    · rintro ⟨_, e, rfl, p, name, q, o, u, c, k, v, rfl, hu, hv⟩
      exact ⟨p, name, q, o, u, c, k, v, e, by simp, hu, hv⟩
    · rintro ⟨p, name, q, o, u, c, k, v, e, rfl, hu, hv⟩
      exact ⟨_, e, by simp, p, name, q, o, u, c, k, v, rfl, hu, hv⟩

end

/-! ## Productions as patterns -/

def Parser.Clause.phrase : Parser.Clause → Phrase
  | .expression => .expr
  | .body => .statements

/-- What the grammar lets stand inside a statement. -/
abbrev DerivesClause (role : Parser.Clause) (w : List Token) : Prop :=
  Derives (.phrase role.phrase) w

section

open Scriptlet.Parser (start)

variable {w : List Token}

theorem derives_control_form (h : Derives (.phrase .control) w) :
    ∃ t v form, w = t :: v ∧ start (some t.lexeme) = .control form ∧
      form.pattern.Accepts DerivesClause v := by
  rcases derives_control_iff.mp h with ⟨p, u, q, v, x, c, rfl, hu, hv, hx⟩ |
    ⟨p, u, q, v, c, rfl, hu, hv⟩ | ⟨p, name, q, o, u, c, k, v, e, rfl, hu, hv⟩
  · refine ⟨_, _, .ifStatement, rfl, rfl, u, _, rfl, hu, q, _, rfl, v, _, rfl, hv, ?_⟩
    rcases hx with rfl | ⟨k, y, rfl, hy⟩
    · exact .inr ⟨c, [], rfl, rfl⟩
    · exact .inl ⟨k, _, rfl, y, _, rfl, hy, c, [], rfl, rfl⟩
  · exact ⟨_, _, .whileStatement, rfl, rfl, u, _, rfl, hu, q, _, rfl, v, _, rfl, hv,
      c, [], rfl, rfl⟩
  · obtain ⟨items, hitems⟩ := derives_listed_iff.mp hu
    refine ⟨_, _, .functionStatement, rfl, rfl, [_], _, rfl, ⟨name, q, rfl⟩, o, _, rfl, u, c, _,
      rfl, ⟨items, hitems.imp ?_⟩, k, _, rfl, v, _, rfl, hv, e, [], rfl, rfl⟩
    exact fun h => derives_identifier_iff.mp h

theorem derives_simple_form (h : Derives (.phrase .simple) w) :
    (∃ t v form, w = t :: v ∧ start (some t.lexeme) = .simple form ∧
      form.pattern.Accepts DerivesClause v) ∨ Derives (.phrase .expr) w := by
  rcases derives_simple_iff.mp h with ⟨p, v, rfl, hv⟩ | ⟨p, name, q, k, v, rfl, hv⟩ | h
  · exact .inl ⟨_, v, .returnStatement, rfl, rfl, v, [], (List.append_nil v).symm, hv, rfl⟩
  · exact .inl ⟨_, _, .outerAssignment, rfl, rfl, [_], _, rfl, ⟨name, q, rfl⟩, k, v, rfl, v, [],
      (List.append_nil v).symm, hv, rfl⟩
  · exact .inr h

end

/-- Statements one after the other. Only the last one may be a simple one without a comma. -/
inductive Sequence : List Token → Prop where
  | nil : Sequence []
  | last {w : List Token} (only : Derives (.phrase .simple) w) : Sequence w
  | simple {u v : List Token} (p : Position) (first : Derives (.phrase .simple) u)
      (others : Sequence v) : Sequence (u ++ ⟨.symbol .comma, p⟩ :: v)
  | control {u v : List Token} (first : Derives (.phrase .control) u) (others : Sequence v) :
      Sequence (u ++ v)
  | controlComma {u v : List Token} (p : Position) (first : Derives (.phrase .control) u)
      (others : Sequence v) : Sequence (u ++ ⟨.symbol .comma, p⟩ :: v)

theorem derives_statements_iff {w : List Token} :
    Derives (.phrase .statements) w ↔ Sequence w := by
  rw [derives_phrase_iff, grammar, derives_append_iff]
  constructor
  · rintro ⟨items, final, rfl, hitems, hfinal⟩
    obtain ⟨pieces, rfl, hpieces⟩ := derives_many_iff.mp hitems
    clear hitems
    induction pieces with
    | nil =>
        rcases derives_maybe_iff.mp hfinal with hsimple | rfl
        · exact .last hsimple
        · exact .nil
    | cons piece pieces ih =>
        obtain ⟨hpiece, hmore⟩ := List.forall_mem_cons.mp hpieces
        have others := ih hmore
        rw [List.flatten_cons, List.append_assoc]
        rcases derives_or_iff.mp hpiece with hcontrol | hsimple
        · obtain ⟨u, x, rfl, hu, hx⟩ := derives_append_iff.mp hcontrol
          rcases derives_maybe_iff.mp hx with hcomma | rfl
          · obtain ⟨p, rfl⟩ := derives_symbol_iff.mp hcomma
            simpa using Sequence.controlComma p hu others
          · simpa using Sequence.control hu others
        · obtain ⟨u, p, rfl, hu⟩ := derives_append_symbol_iff.mp hsimple
          simpa using Sequence.simple p hu others
  · intro h
    -- The last statement is the optional one; all before it are repeated items.
    induction h with
    | nil => exact ⟨[], [], rfl, .stop, derives_maybe_iff.mpr (.inr rfl)⟩
    | last only => exact ⟨[], _, rfl, .stop, derives_maybe_iff.mpr (.inl only)⟩
    | @simple u v p first others ih =>
        obtain ⟨items, final, rfl, hitems, hfinal⟩ := ih
        have item : Derives (phrase .simple ++ symbol .comma) (u ++ [⟨.symbol .comma, p⟩]) :=
          derives_append_symbol_iff.mpr ⟨u, p, rfl, first⟩
        exact ⟨_, final, by simp, .more (derives_or_iff.mpr (.inr item)) hitems, hfinal⟩
    | @control u v first others ih =>
        obtain ⟨items, final, rfl, hitems, hfinal⟩ := ih
        have comma : Derives (maybe (symbol .comma)) [] := derives_maybe_iff.mpr (.inr rfl)
        have item := derives_append_iff.mpr ⟨u, [], rfl, first, comma⟩
        exact ⟨_, final, by simp, .more (derives_or_iff.mpr (.inl item)) hitems, hfinal⟩
    | @controlComma u v p first others ih =>
        obtain ⟨items, final, rfl, hitems, hfinal⟩ := ih
        have comma : Derives (maybe (symbol .comma)) [⟨.symbol .comma, p⟩] :=
          derives_maybe_iff.mpr (.inl (derives_symbol_iff.mpr ⟨p, rfl⟩))
        have item := derives_append_iff.mpr ⟨u, _, rfl, first, comma⟩
        exact ⟨_, final, by simp, .more (derives_or_iff.mpr (.inl item)) hitems, hfinal⟩

/-! ## What is spelled can be derived -/

theorem derives_expr_iff {w : List Token} :
    Derives (.phrase .expr) w ↔ Derives (.phrase (tier 0)) w := derives_phrase_iff

/-- The levels of the parser are the tiers of the grammar. -/
theorem drop_levels {i : Nat} {level : Parser.Level} {tighter : List Parser.Level}
    (h : Parser.levels.drop i = level :: tighter) :
    i < 7 ∧ tighter = Parser.levels.drop (i + 1) ∧ level.operators = tierSymbols i ∧
      (level.repeats = false ↔ Lone i) := by
  match i, h with
  | 0, h | 1, h | 2, h | 3, h | 4, h | 5, h | 6, h =>
      obtain ⟨rfl, rfl⟩ := List.cons.inj h
      exact ⟨by decide, rfl, rfl, by decide⟩
  | n + 7, h => simp [Parser.levels] at h

theorem drop_levels_nil {i : Nat} (hi : i ≤ 7) (h : Parser.levels.drop i = []) : i = 7 := by
  have hlength := List.drop_eq_nil_iff.mp h
  have : Parser.levels.length = 7 := rfl
  omega

/-- What the grammar says of the tokens that spell a part. -/
def Part.Derivable : Part → List Node → List Token → Prop
  | .expression ls, _, w => ∀ i ≤ 7, Parser.levels.drop i = ls → Derives (.phrase (tier i)) w
  | .arguments, nodes, w =>
      (nodes = [] ∧ w = []) ∨
        Derives (phrase .expr ++ many (symbol .comma ++ phrase .expr)) w
  | .simple, _, w => Derives (.phrase .simple) w
  | .control, _, w => Derives (.phrase .control) w
  | .statements, _, w => Sequence w

theorem Part.Derivable.operand {nodes : List Node} {w : List Token}
    (h : Derives (.phrase .unary) w) : (Part.expression []).Derivable nodes w := by
  intro i hi hnil
  obtain rfl := drop_levels_nil hi hnil
  exact h

theorem Part.Derivable.expr {nodes : List Node} {w : List Token}
    (h : (Part.expression Parser.levels).Derivable nodes w) : Derives (.phrase .expr) w :=
  derives_expr_iff.mpr (h 0 (by decide) rfl)

theorem Spells.derivable {part : Part} {nodes : List Node} {w : List Token}
    (h : Spells part nodes w) : part.Derivable nodes w := by
  induction h with
  | number | boolean | string | nil | reference =>
      exact .operand (derives_unary_iff.mpr (.inr (.inl ⟨_, rfl, rfl⟩)))
  | @unary s _ _ p known _ ih =>
      exact .operand (derives_unary_iff.mpr (.inl ⟨s, p, _, known, rfl, ih 7 (by decide) rfl⟩))
  | group p q _ ih =>
      exact .operand (derives_unary_iff.mpr
        (.inr (.inr (.inr (.inr ⟨p, _, q, rfl, Part.Derivable.expr ih⟩)))))
  | @call _ w name p q r _ ih =>
      have args : Derives (listed (phrase .expr)) w := by
        rcases ih with ⟨_, rfl⟩ | ih
        · exact derives_maybe_iff.mpr (.inr rfl)
        · exact derives_maybe_iff.mpr (.inl ih)
      exact .operand (derives_unary_iff.mpr (.inr (.inr (.inl ⟨name, p, q, _, r, rfl, args⟩))))
  | assign name p q _ ih =>
      exact .operand (derives_unary_iff.mpr
        (.inr (.inr (.inr (.inl ⟨name, p, q, _, rfl, Part.Derivable.expr ih⟩)))))
  | single only ih =>
      intro i hi hdrop
      obtain ⟨hlt, rfl, _⟩ := drop_levels hdrop
      refine (derives_tier_iff hlt).mpr ⟨_, [], by simp [Joints.tokens], ih (i + 1) hlt rfl, ?_⟩
      simp
  | @joined level tighter x y u v s p known left right ihl ihr =>
      intro i hi hdrop
      obtain ⟨hlt, rfl, hoperators, hlone⟩ := drop_levels hdrop
      have joint : (⟨.symbol s, p⟩ : Token).tier? = some i ∧ Derives (.phrase (tier (i + 1))) v :=
        ⟨(tier?_eq_some_iff hlt).mpr (hoperators ▸ known), ihr (i + 1) hlt rfl⟩
      cases hrepeats : level.repeats with
      | false =>
          rw [if_neg (by simp [hrepeats])] at ihl
          exact (derives_tier_iff hlt).mpr ⟨u, [(⟨.symbol s, p⟩, v)], by simp [Joints.tokens],
            ihl (i + 1) hlt rfl, by simpa using joint, by simp⟩
      | true =>
          rw [if_pos hrepeats] at ihl
          have more : ¬ Lone i := fun h => by
            rw [hlone.mpr h] at hrepeats
            cases hrepeats
          obtain ⟨first, joints, rfl, hfirst, hjoints, _⟩ :=
            (derives_tier_iff hlt).mp (ihl i hi hdrop)
          refine (derives_tier_iff hlt).mpr ⟨first, joints ++ [(⟨.symbol s, p⟩, v)],
            by simp [Joints.tokens], hfirst, ?_, fun h => absurd h more⟩
          intro j hj
          rcases List.mem_append.mp hj with hj | hj
          · exact hjoints j hj
          · rw [List.mem_singleton.mp hj]
            exact joint
  | noArguments => exact .inl ⟨rfl, rfl⟩
  | lastArgument _ ih => exact .inr (derives_append_iff.mpr ⟨_, [], by simp, ih.expr, .stop⟩)
  | moreArguments p _ _ ihf iho =>
      rcases iho with ⟨hnil, _⟩ | iho
      · cases hnil
      · exact .inr (derives_cons_listed p (Part.Derivable.expr ihf) iho)
  | ret p _ ih => exact derives_simple_iff.mpr (.inl ⟨p, _, rfl, Part.Derivable.expr ih⟩)
  | outer name p q r _ ih =>
      exact derives_simple_iff.mpr (.inr (.inl ⟨p, name, q, r, _, rfl, Part.Derivable.expr ih⟩))
  | expression _ ih => exact derives_simple_iff.mpr (.inr (.inr (Part.Derivable.expr ih)))
  | ifThen p q r _ _ ihc ihb =>
      exact derives_control_iff.mpr (.inl ⟨p, _, q, _, [], r, by simp, Part.Derivable.expr ihc,
        derives_statements_iff.mpr ihb, .inl rfl⟩)
  | ifElse p q r r' _ _ _ ihc ihb ihe =>
      exact derives_control_iff.mpr (.inl ⟨p, _, q, _, _, r', by simp, Part.Derivable.expr ihc,
        derives_statements_iff.mpr ihb, .inr ⟨r, _, rfl, derives_statements_iff.mpr ihe⟩⟩)
  | whileLoop p q r _ _ ihc ihb =>
      exact derives_control_iff.mpr (.inr (.inl ⟨p, _, q, _, r, by simp, Part.Derivable.expr ihc,
        derives_statements_iff.mpr ihb⟩))
  | @function params _ u _ name p q o c k r names _ ihb =>
      have listed : Derives (listed (token .identifier)) u := by
        rcases names with ⟨_, rfl⟩ | names
        · exact derives_maybe_iff.mpr (.inr rfl)
        · refine derives_maybe_iff.mpr (.inl (derives_of_listed ?_ names))
          intro name v hname
          exact derives_identifier_iff.mpr ⟨name, hname⟩
      exact derives_control_iff.mpr (.inr (.inr ⟨p, name, q, o, u, c, k, _, r, by simp, listed,
        derives_statements_iff.mpr ihb⟩))
  | noStatements => exact .nil
  | lastStatement _ ih => exact .last ih
  | afterSimple p _ _ ihf iho => exact .simple p ihf iho
  | afterControl _ _ ihf iho => exact .control ihf iho
  | afterControlComma p _ _ ihf iho => exact .controlComma p ihf iho

theorem Spells.derives {nodes : List Node} {w : List Token} (h : Spells .statements nodes w) :
    Derives (.phrase .root) w :=
  derives_phrase_iff.mpr (derives_statements_iff.mpr h.derivable)

end Scriptlet
