import Scriptlet.Proofs.Syntax.Joining
import Scriptlet.Proofs.Syntax.Writing

/-!
# Nodes stand at their first token

The tokens of a source are shared out among the nodes of its tree. Each node has some tokens of its
own around its children, and everything else that it covers belongs to the children. There is only
one way to share them out, and in it every node stands at the first token that it covers. A body
without statements covers nothing and stands at the token behind it.
-/

namespace Scriptlet

/-! ## Tokens around children -/

/-- Tokens of a node between two of its children: the ones that have to be there, or a comma that
may be left out. -/
inductive Gap where
  | fixed (ls : List Lexeme)
  | optionalComma

/-- The gap takes the tokens `w` where the tokens `behind` follow. A comma is never left over. -/
def Gap.Takes : Gap → (w behind : List Token) → Prop
  | .fixed ls, w, _ => lexemes w = ls
  | .optionalComma, w, behind =>
      (∃ p, w = [⟨.symbol .comma, p⟩]) ∨
        w = [] ∧ ∀ t ∈ behind.head?, t.lexeme ≠ .symbol .comma

def statementGaps : List Node → List Gap
  | [] => []
  | [_] => [.optionalComma]
  | x :: y :: rest =>
      (if x.isControl then .optionalComma else .fixed [.symbol .comma]) :: statementGaps (y :: rest)

def argumentGaps : List Node → List Gap
  | [] => []
  | [_] => [.fixed [.symbol .closeParen]]
  | _ :: y :: rest => .fixed [.symbol .comma] :: argumentGaps (y :: rest)

/-- The gaps around the children of a node: before the first, between each two, and behind the
last. -/
def Node.frame : Node → List Gap
  | .root xs _ => .fixed [] :: statementGaps xs
  | .block xs _ => .fixed [] :: statementGaps xs
  | .number x _ => [.fixed [.number x]]
  | .boolean b _ => [.fixed [.boolean b]]
  | .string s _ => [.fixed [.string s]]
  | .nil _ => [.fixed [.symbol .nil]]
  | .reference name _ => [.fixed [.identifier name]]
  | .group _ _ => [.fixed [.symbol .openParen], .fixed [.symbol .closeParen]]
  | .unary operator _ _ => [.fixed operator.written, .fixed []]
  | .binary operator _ _ _ => [.fixed [], .fixed operator.written, .fixed []]
  | .assign name _ false _ => [.fixed [.identifier name, .symbol .equal], .fixed []]
  | .assign name _ true _ =>
      [.fixed [.symbol .nonlocalWord, .identifier name, .symbol .equal], .fixed []]
  | .ifThen _ _ _ =>
      [.fixed [.symbol .ifWord], .fixed [.symbol .colon], .fixed [.symbol .semicolon]]
  | .ifElse _ _ _ _ =>
      [.fixed [.symbol .ifWord], .fixed [.symbol .colon], .fixed [.symbol .elseWord],
        .fixed [.symbol .semicolon]]
  | .whileLoop _ _ _ =>
      [.fixed [.symbol .whileWord], .fixed [.symbol .colon], .fixed [.symbol .semicolon]]
  | .function name params _ _ =>
      [.fixed (.symbol .fnWord :: .identifier name :: .symbol .openParen :: writtenNames params ++
        [.symbol .closeParen, .symbol .colon]), .fixed [.symbol .semicolon]]
  | .call name [] _ => [.fixed [.identifier name, .symbol .openParen, .symbol .closeParen]]
  | .call name xs _ => .fixed [.identifier name, .symbol .openParen] :: argumentGaps xs
  | .ret _ _ => [.fixed [.symbol .retWord], .fixed []]
  | .blank => []

/-- A node with the tokens that it covers and those behind them. -/
structure Span where
  node : Node
  covered : List Token
  rest : List Token

/-- Gaps and nodes share out the tokens `w` in turn, and the nodes have the spans `spans`. -/
inductive Spread : List Gap → List Node → (w rest : List Token) → List Span → Prop where
  | last {gap : Gap} {w rest : List Token} (takes : gap.Takes w rest) : Spread [gap] [] w rest []
  | child {gap : Gap} {gaps : List Gap} {x : Node} {xs : List Node} {w u v rest : List Token}
      {spans : List Span} (takes : gap.Takes w (u ++ (v ++ rest)))
      (more : Spread gaps xs v rest spans) :
      Spread (gap :: gaps) (x :: xs) (w ++ (u ++ v)) rest (⟨x, u, v ++ rest⟩ :: spans)

/-- The tokens of a span are shared out among the nodes in it, down to the leaves, and the span of
every node satisfies `Q`. -/
inductive Covering (Q : Span → Prop) : Span → Prop where
  | mk {n : Node} {w rest : List Token} {spans : List Span}
      (spread : Spread n.frame n.children w rest spans) (holds : Q ⟨n, w, rest⟩)
      (inner : ∀ s ∈ spans, Covering Q s) : Covering Q ⟨n, w, rest⟩

/-- The node stands where it begins. Only a sequence without statements covers nothing: a body then
stands at the token behind it, and a program nowhere. -/
structure Span.Exact (s : Span) : Prop where
  first : ∀ t ∈ s.covered.head?, s.node.position = some t.position
  nothing : s.covered = [] → ∃ p, s.node = .root [] p ∨ s.node = .block [] p
  emptyBody : ∀ p, s.node = .block [] p → ∃ t ∈ s.rest.head?, p = some t.position
  emptyRoot : ∀ p, s.node = .root [] p → p = none

/-! ## One way to share out tokens -/

theorem Gap.takes_nothing_iff {w behind : List Token} : (fixed []).Takes w behind ↔ w = [] :=
  List.map_eq_nil_iff

theorem Gap.Takes.unique {gap : Gap} {w w' behind behind' : List Token} (h : gap.Takes w behind)
    (h' : gap.Takes w' behind') (heq : w ++ behind = w' ++ behind') : w = w' := by
  cases gap with
  | fixed ls =>
      have hlength : w.length = w'.length := by
        simpa [lexemes] using congrArg List.length (h.trans h'.symm)
      exact (List.append_inj heq hlength).1
  | optionalComma =>
      rcases h with ⟨p, rfl⟩ | ⟨rfl, hno⟩ <;> rcases h' with ⟨p', rfl⟩ | ⟨rfl, hno'⟩
      · exact (List.append_inj heq rfl).1
      · obtain rfl : _ = behind' := heq
        exact absurd rfl (hno' _ rfl)
      · obtain rfl : behind = _ := heq
        exact absurd rfl (hno _ rfl)
      · rfl

/-- Where the tokens of single nodes cannot be shared out in two ways, neither can those of a row of
nodes. -/
theorem Spread.unique {Q R : Span → Prop} {gaps : List Gap} {xs : List Node}
    {w rest w' rest' : List Token} {spans spans' : List Span} (h : Spread gaps xs w rest spans)
    (h' : Spread gaps xs w' rest' spans') (heq : w ++ rest = w' ++ rest')
    (inner : ∀ s ∈ spans, ∀ {u v}, Covering Q ⟨s.node, u, v⟩ → s.covered ++ s.rest = u ++ v →
      s.covered = u ∧ R s)
    (inner' : ∀ s ∈ spans', Covering Q s) : w = w' ∧ ∀ s ∈ spans, R s := by
  induction h generalizing w' rest' spans' with
  | last takes =>
      cases h' with
      | last takes' => exact ⟨takes.unique takes' heq, fun _ hs => by cases hs⟩
  | child takes more ih =>
      cases h' with
      | child takes' more' =>
      obtain ⟨hfirst, hothers⟩ := List.forall_mem_cons.mp inner
      obtain ⟨hfirst', hothers'⟩ := List.forall_mem_cons.mp inner'
      simp only [List.append_assoc] at heq
      obtain rfl := takes.unique takes' heq
      have hbehind := List.append_cancel_left heq
      obtain ⟨rfl, hR⟩ := hfirst hfirst' hbehind
      obtain ⟨rfl, hRs⟩ := ih more' (List.append_cancel_left hbehind) hothers hothers'
      exact ⟨rfl, List.forall_mem_cons.mpr ⟨hR, hRs⟩⟩

/-- Two ways to share out the same tokens are one. -/
theorem Covering.inter {P Q : Span → Prop} {s : Span} (h : Covering P s) {w rest : List Token}
    (h' : Covering Q ⟨s.node, w, rest⟩) (heq : s.covered ++ s.rest = w ++ rest) :
    s.covered = w ∧ Covering (fun s => P s ∧ Q s) s := by
  induction h generalizing w rest with
  | mk spread holds inner ih =>
      cases h' with
      | mk spread' holds' inner' =>
      obtain ⟨rfl, hspans⟩ := spread.unique spread' heq (fun s hs _ _ => ih s hs) inner'
      obtain rfl := List.append_cancel_left heq
      exact ⟨rfl, .mk spread ⟨holds, holds'⟩ hspans⟩

/-! ## Trees that were read -/

theorem Span.exact_of_cons {n : Node} {t : Token} {w rest : List Token} {spans : List Span}
    (spread : Spread n.frame n.children (t :: w) rest spans)
    (position : n.position = some t.position) : Exact ⟨n, t :: w, rest⟩ := by
  refine ⟨?_, fun hnone => ?_, ?_, ?_⟩
  · intro t' ht
    cases ht
    exact position
  · cases hnone
  all_goals
    rintro p rfl
    cases spread with
    | last takes => cases takes

/-- Gaps and nodes share out the tokens, and so do the nodes among themselves. -/
def SharedOut (gaps : List Gap) (xs : List Node) (w rest : List Token) : Prop :=
  ∃ spans, Spread gaps xs w rest spans ∧ ∀ s ∈ spans, Covering Span.Exact s

namespace SharedOut

variable {gap : Gap} {gaps : List Gap} {x : Node} {xs : List Node} {w u v rest : List Token}

theorem last (takes : gap.Takes w rest) : SharedOut [gap] [] w rest :=
  ⟨[], .last takes, fun _ hs => by cases hs⟩

theorem leading (first : Covering Span.Exact ⟨x, u, v ++ rest⟩) (more : SharedOut gaps xs v rest) :
    SharedOut (.fixed [] :: gaps) (x :: xs) (u ++ v) rest := by
  obtain ⟨spans, spread, hspans⟩ := more
  exact ⟨_, .child (w := []) (Gap.takes_nothing_iff.mpr rfl) spread,
    List.forall_mem_cons.mpr ⟨first, hspans⟩⟩

/-- The tokens of the first gap come on top of those that are shared out without it. -/
theorem after (takes : gap.Takes u (w ++ rest)) (h : SharedOut (.fixed [] :: gaps) xs w rest) :
    SharedOut (gap :: gaps) xs (u ++ w) rest := by
  obtain ⟨spans, spread, hspans⟩ := h
  refine ⟨spans, ?_, hspans⟩
  cases spread with
  | last nothing =>
      obtain rfl := Gap.takes_nothing_iff.mp nothing
      rw [List.append_nil]
      exact .last takes
  | child nothing more =>
      obtain rfl := Gap.takes_nothing_iff.mp nothing
      rw [List.nil_append, List.append_assoc] at takes
      exact .child takes more

theorem alone (first : Covering Span.Exact ⟨x, u, rest⟩) :
    SharedOut [.fixed [], .fixed []] [x] u rest := by
  have h := leading (v := []) first (last (Gap.takes_nothing_iff.mpr rfl))
  rwa [List.append_nil] at h

end SharedOut

/-- The node begins with the first of the tokens, and they are shared out in it. -/
structure Covered (n : Node) (w : List Token) : Prop where
  first : ∃ t ∈ w.head?, n.position = some t.position
  covering : ∀ rest, Covering Span.Exact ⟨n, w, rest⟩

theorem covered_of_shared {n : Node} {t : Token} {w : List Token}
    (position : n.position = some t.position)
    (h : ∀ rest, SharedOut n.frame n.children (t :: w) rest) : Covered n (t :: w) := by
  refine ⟨⟨t, rfl, position⟩, fun rest => ?_⟩
  obtain ⟨spans, spread, hspans⟩ := h rest
  exact .mk spread (Span.exact_of_cons spread position) hspans

/-- How the tokens of a part are shared out. -/
def Part.Shared : Part → List Node → List Token → Prop
  | .arguments, nodes, w => nodes = [] ∧ w = [] ∨
      nodes ≠ [] ∧ ∀ q rest,
        SharedOut (.fixed [] :: argumentGaps nodes) nodes (w ++ [⟨.symbol .closeParen, q⟩]) rest
  | .statements, nodes, w =>
      (w = [] → nodes = []) ∧ nodes.head?.bind Node.position = w.head?.map (·.position) ∧
      ∀ rest, (∀ t ∈ rest.head?, t.lexeme ≠ .symbol .comma) →
        SharedOut (.fixed [] :: statementGaps nodes) nodes w rest
  | _, nodes, w => ∀ n, nodes = [n] → Covered n w

namespace Part.Shared

variable {n : Node} {nodes : List Node} {w u v : List Token}

theorem body (h : Part.statements.Shared nodes w) {t : Token} (ht : t.lexeme ≠ .symbol .comma)
    (rest : List Token) : Covering Span.Exact ⟨bodyAt nodes w t, w, t :: rest⟩ := by
  obtain ⟨hnone, -, hshared⟩ := h
  obtain ⟨spans, spread, hspans⟩ := hshared (t :: rest) fun t' ht' => by cases ht'; exact ht
  refine .mk spread ?_ hspans
  cases w with
  | cons t' w => exact Span.exact_of_cons (n := bodyAt nodes (t' :: w) t) spread rfl
  | nil =>
      obtain rfl := hnone rfl
      refine ⟨fun t' ht' => ?_, fun _ => ⟨_, .inr rfl⟩, fun p hp => ?_, fun p hp => ?_⟩
      · cases ht'
      · cases hp
        exact ⟨t, rfl, rfl⟩
      · cases hp

theorem none : Part.statements.Shared [] [] :=
  ⟨fun _ => rfl, rfl, fun _ _ => .last rfl⟩

theorem body_then (h : Part.statements.Shared nodes w) {t : Token} (ht : t.lexeme ≠ .symbol .comma)
    {gaps : List Gap} {xs : List Node} {rest : List Token}
    (more : SharedOut gaps xs (t :: v) rest) :
    SharedOut (.fixed [] :: gaps) (bodyAt nodes w t :: xs) (w ++ t :: v) rest :=
  .leading (h.body ht _) more

theorem cons (first : Covered n u) (between : List Token) (others : Part.statements.Shared nodes v)
    (takes : ∀ rest, (∀ t ∈ rest.head?, t.lexeme ≠ .symbol .comma) →
      ∃ gap, statementGaps (n :: nodes) = gap :: statementGaps nodes ∧
        gap.Takes between (v ++ rest)) :
    Part.statements.Shared (n :: nodes) (u ++ (between ++ v)) := by
  obtain ⟨t, ht, hposition⟩ := first.first
  obtain ⟨w, rfl⟩ := List.head?_eq_some_iff.mp ht
  refine ⟨fun hnone => ?_, hposition, fun rest hrest => ?_⟩
  · cases hnone
  · obtain ⟨gap, hgaps, hgap⟩ := takes rest hrest
    rw [hgaps]
    exact .leading (first.covering _) (.after hgap (others.2.2 rest hrest))

end Part.Shared

theorem statementGaps_of_control {n : Node} (h : n.isControl = true) (nodes : List Node) :
    statementGaps (n :: nodes) = .optionalComma :: statementGaps nodes := by
  cases nodes with
  | nil => rfl
  | cons m nodes => simp [statementGaps, h]

theorem statementGaps_of_simple {n : Node} (h : n.isControl = false) (nodes : List Node)
    (p : Position) (behind : List Token) :
    ∃ gap, statementGaps (n :: nodes) = gap :: statementGaps nodes ∧
      gap.Takes [⟨.symbol .comma, p⟩] behind := by
  cases nodes with
  | nil => exact ⟨.optionalComma, rfl, .inl ⟨p, rfl⟩⟩
  | cons m nodes => exact ⟨.fixed [.symbol .comma], by simp [statementGaps, h], rfl⟩

theorem Spells.no_comma {nodes : List Node} {w rest : List Token} (h : Spells .statements nodes w)
    (hrest : ∀ t ∈ rest.head?, t.lexeme ≠ .symbol .comma) :
    ∀ t ∈ (w ++ rest).head?, t.lexeme ≠ .symbol .comma := by
  rcases h.isWritten.1 with ⟨-, hnone⟩ | ⟨-, ⟨l, ls, hopens, hl⟩, -⟩
  · obtain rfl : w = [] := List.map_eq_nil_iff.mp hnone
    exact hrest
  · cases w with
    | nil => cases hopens
    | cons t w =>
        obtain ⟨hfirst, -⟩ := List.cons_eq_cons.mp hopens
        intro t' ht' hcomma
        cases ht'
        obtain rfl : l = .symbol .comma := hfirst.symm.trans hcomma
        cases hl

/-- Whatever tokens spell is shared out among the trees that they stand for. -/
theorem Spells.shared {part : Part} {nodes : List Node} {w : List Token} (h : Spells part nodes w) :
    part.Shared nodes w := by
  induction h with
  | number | boolean | string | nil | reference =>
      rintro n ⟨⟩
      exact covered_of_shared rfl fun rest => .last rfl
  | @unary s x w p known operand ih =>
      rintro n ⟨⟩
      refine covered_of_shared rfl fun rest => ?_
      exact .after (u := [_]) rfl (.alone ((ih x rfl).covering rest))
  | @group x w p q inner ih =>
      rintro n ⟨⟩
      refine covered_of_shared rfl fun rest => ?_
      exact .after (u := [_]) rfl (.leading ((ih x rfl).covering _) (.last rfl))
  | @call args w name p q r inner ih =>
      rintro n ⟨⟩
      refine covered_of_shared rfl fun rest => ?_
      rcases ih with ⟨rfl, rfl⟩ | ⟨hargs, hshared⟩
      · exact .last rfl
      · obtain ⟨x, xs, rfl⟩ := List.exists_cons_of_ne_nil hargs
        exact .after (u := [_, _]) rfl (hshared r rest)
  | @assign x w name p q inner ih =>
      rintro n ⟨⟩
      refine covered_of_shared rfl fun rest => ?_
      exact .after (u := [_, _]) rfl (.alone ((ih x rfl).covering rest))
  | single _ ih => exact ih
  | @joined level tighter x y u v s p known left right ih ih' =>
      rintro n ⟨⟩
      obtain ⟨t, ht, hposition⟩ := (ih x rfl).first
      obtain ⟨w, rfl⟩ := List.head?_eq_some_iff.mp ht
      refine covered_of_shared hposition fun rest => ?_
      exact .leading ((ih x rfl).covering _)
        (.after (u := [_]) rfl (.alone ((ih' y rfl).covering rest)))
  | noArguments => exact .inl ⟨rfl, rfl⟩
  | @lastArgument x w only ih =>
      exact .inr ⟨by simp, fun q rest => .leading ((ih x rfl).covering _) (.last rfl)⟩
  | @moreArguments x y xs u v p first others ih ih' =>
      rcases ih' with ⟨hnone, -⟩ | ⟨-, hshared⟩
      · cases hnone
      · refine .inr ⟨by simp, fun q rest => ?_⟩
        rw [List.append_assoc]
        exact .leading ((ih x rfl).covering _) (.after (u := [_]) rfl (hshared q rest))
  | @ret x w p inner ih =>
      rintro n ⟨⟩
      refine covered_of_shared rfl fun rest => ?_
      exact .after (u := [_]) rfl (.alone ((ih x rfl).covering rest))
  | @outer x w name p q r inner ih =>
      rintro n ⟨⟩
      refine covered_of_shared rfl fun rest => ?_
      exact .after (u := [_, _, _]) rfl (.alone ((ih x rfl).covering rest))
  | expression _ ih => exact ih
  | @ifThen c body u v p q r condition inner ih ih'
  | @whileLoop c body u v p q r condition inner ih ih' =>
      rintro n ⟨⟩
      simp only [List.append_assoc, List.cons_append]
      refine covered_of_shared rfl fun rest => ?_
      exact .after (u := [_]) rfl (.leading ((ih c rfl).covering _)
        (.after (u := [_]) rfl (ih'.body_then (by simp) (.last rfl))))
  | @ifElse c body body' u v v' p q r r' condition inner otherwise ih ih' ih'' =>
      rintro n ⟨⟩
      simp only [List.append_assoc, List.cons_append]
      refine covered_of_shared rfl fun rest => ?_
      exact .after (u := [_]) rfl (.leading ((ih c rfl).covering _)
        (.after (u := [_]) rfl (ih'.body_then (by simp)
          (.after (u := [_]) rfl (ih''.body_then (by simp) (.last rfl))))))
  | @function params body u v name p q o c k r names inner ih =>
      rintro n ⟨⟩
      have hnames : lexemes u = writtenNames params := by
        rcases names with ⟨rfl, rfl⟩ | names
        · rfl
        · exact names.written.1
      have hhead : ∀ w : List Token,
          (u ++ ⟨.symbol .closeParen, c⟩ :: ⟨.symbol .colon, k⟩ :: v) ++ w =
          (u ++ [⟨.symbol .closeParen, c⟩, ⟨.symbol .colon, k⟩]) ++ (v ++ w) := by simp
      rw [List.cons_append, List.cons_append, List.cons_append, List.cons_append, List.cons_append,
        List.cons_append, hhead]
      refine covered_of_shared rfl fun rest => ?_
      exact .after (u := _ :: _ :: _ :: (u ++ [_, _])) (by simp [Gap.Takes, hnames])
        (ih.body_then (by simp) (.last rfl))
  | noStatements => exact .none
  | @lastStatement x w only ih =>
      have h := Part.Shared.cons (ih x rfl) [] .none fun rest hrest => ⟨_, rfl, .inr ⟨rfl, hrest⟩⟩
      rwa [List.append_nil, List.append_nil] at h
  | @afterSimple x xs u v p first others ih ih' =>
      obtain ⟨_, hx, hsimple, -⟩ := first.isWritten
      cases hx
      exact .cons (ih x rfl) [_] ih' fun rest _ => statementGaps_of_simple hsimple xs p _
  | @afterControl x xs u v first others ih ih' =>
      obtain ⟨_, hx, hcontrol, -⟩ := first.isWritten
      cases hx
      refine .cons (ih x rfl) [] ih' fun rest hrest => ?_
      exact ⟨_, statementGaps_of_control hcontrol xs, .inr ⟨rfl, others.no_comma hrest⟩⟩
  | @afterControlComma x xs u v p first others ih ih' =>
      obtain ⟨_, hx, hcontrol, -⟩ := first.isWritten
      cases hx
      refine .cons (ih x rfl) [_] ih' fun rest _ => ?_
      exact ⟨_, statementGaps_of_control hcontrol xs, .inl ⟨p, rfl⟩⟩

/-! ## Source order -/

namespace Position

variable {p q r : Position}

theorem before_iff :
    p.before q = true ↔ p.line < q.line ∨ p.line = q.line ∧ p.column < q.column := by
  simp [before]

theorem not_before_self (p : Position) : ¬ p.before p := by
  rw [before_iff]
  omega

theorem not_before_of_before (h : p.before q) : ¬ q.before p := by
  rw [before_iff] at h ⊢
  omega

theorem before_of_before_of_not (h : p.before q) (h' : ¬ r.before q) : p.before r := by
  rw [before_iff] at h h' ⊢
  omega

theorem before_advance (p : Position) (b : UInt8) : p.before (p.advance b) := by
  rw [before_iff]
  unfold advance
  split
  · exact .inl (Int.lt_add_one_iff.mpr (Int.le_refl p.line))
  · exact .inr ⟨rfl, Int.lt_add_one_iff.mpr (Int.le_refl p.column)⟩

theorem before_past {bytes : List UInt8} (h : bytes ≠ []) (p : Position) :
    p.before (p.past bytes) := by
  induction bytes generalizing p with
  | nil => exact absurd rfl h
  | cons b bytes ih =>
      have hfirst := p.before_advance b
      rw [past_cons]
      by_cases hmore : bytes = []
      · rwa [hmore]
      · exact before_of_before_of_not hfirst (not_before_of_before (ih hmore _))

end Position

def InOrder (tokens : List Token) : Prop :=
  tokens.Pairwise fun t u => t.position.before u.position

theorem Laid.inOrder {p : Position} {bytes after : List UInt8} {tokens : List Token}
    {skips : List Skip} (h : Laid p bytes tokens skips after) :
    InOrder tokens ∧ ∀ t ∈ tokens, ¬ t.position.before p := by
  -- What does not stand before a place does not stand before an earlier one.
  have earlier : ∀ {p q : Position} {tokens : List Token}, p.before q →
      (∀ t ∈ tokens, ¬ t.position.before q) → ∀ t ∈ tokens, p.before t.position :=
    fun hpq hq t ht => Position.before_of_before_of_not hpq (hq t ht)
  induction h with
  | done => exact ⟨.nil, fun _ ht => by cases ht⟩
  | @blank p b _ _ _ _ _ _ ih | @unknown p b _ _ _ _ _ _ ih =>
      refine ⟨ih.1, fun t ht => ?_⟩
      exact Position.not_before_of_before (earlier (p.before_advance b) ih.2 t ht)
  | @token p l spelling _ _ _ _ spelled _ ih =>
      have hlater := earlier (Position.before_past spelled.ne_nil p) ih.2
      refine ⟨.cons hlater ih.1, List.forall_mem_cons.mpr ⟨p.not_before_self, fun t ht => ?_⟩⟩
      exact Position.not_before_of_before (hlater t ht)

namespace Node

def placesIn (entries : List (Nat × Node)) : List Position :=
  entries.filterMap fun entry => entry.2.position

def positions (n : Node) : List Position := placesIn n.preorder

theorem preorderOnto_eq (n : Node) (depth : Nat) (after : List (Nat × Node)) :
    n.preorderOnto depth after =
      (depth, n) :: n.children.foldr (preorderOnto (depth + 1)) after := by
  rw [preorderOnto]
  exact congrArg _ (List.foldr_attach (l := n.children))

theorem placesIn_cons (depth : Nat) (n : Node) (entries : List (Nat × Node)) :
    placesIn ((depth, n) :: entries) = n.position.toList ++ placesIn entries := by
  unfold placesIn
  cases h : n.position <;> simp [h]

theorem placesIn_foldr {xs : List Node}
    (h : ∀ x ∈ xs, ∀ depth after,
      placesIn (x.preorderOnto depth after) = x.positions ++ placesIn after)
    (depth : Nat) (after : List (Nat × Node)) :
    placesIn (xs.foldr (preorderOnto depth) after) = xs.flatMap positions ++ placesIn after := by
  induction xs with
  | nil => rfl
  | cons x xs ih =>
      obtain ⟨hx, hxs⟩ := List.forall_mem_cons.mp h
      rw [List.foldr_cons, hx, ih hxs, List.flatMap_cons, List.append_assoc]

theorem placesIn_preorderOnto (n : Node) (depth : Nat) (after : List (Nat × Node)) :
    placesIn (n.preorderOnto depth after) = n.positions ++ placesIn after := by
  induction n using induction_children generalizing depth after with
  | step n ih =>
      have hall : ∀ depth after, placesIn (n.preorderOnto depth after) =
          n.position.toList ++ (n.children.flatMap positions ++ placesIn after) := by
        intro depth after
        rw [preorderOnto_eq, placesIn_cons, placesIn_foldr ih]
      rw [hall, positions, preorder, hall]
      simp [placesIn]

/-- The place of a node comes before those of its children, and these come child by child. -/
theorem positions_eq (n : Node) :
    n.positions = n.position.toList ++ n.children.flatMap positions := by
  rw [positions, preorder, preorderOnto_eq, placesIn_cons,
    placesIn_foldr fun x _ => placesIn_preorderOnto x]
  simp [placesIn]

end Node

/-- The positions come in source order. Each is the place of a token, and none lies behind the first
token of the rest. -/
structure Ordered (positions : List Position) (covered rest : List Token) : Prop where
  sorted : positions.Pairwise fun p q => ¬ q.before p
  known : ∀ p ∈ positions, ∃ t ∈ covered ++ rest, t.position = p
  within : ∀ p ∈ positions, ∀ t ∈ rest, ¬ t.position.before p

theorem ordered_nil (covered rest : List Token) : Ordered [] covered rest := by
  refine ⟨.nil, fun p hp => ?_, fun p hp => ?_⟩ <;> cases hp

theorem InOrder.not_before {t : Token} {tokens : List Token} (h : InOrder (t :: tokens)) :
    ∀ u ∈ t :: tokens, ¬ u.position.before t.position := by
  refine List.forall_mem_cons.mpr ⟨t.position.not_before_self, fun u hu => ?_⟩
  exact Position.not_before_of_before ((List.pairwise_cons.mp h).1 u hu)

theorem Ordered.cons {positions : List Position} {t : Token} {covered rest : List Token}
    (h : Ordered positions covered rest) (first : (covered ++ rest).head? = some t)
    (order : InOrder (covered ++ rest)) : Ordered (t.position :: positions) covered rest := by
  obtain ⟨tokens, htokens⟩ := List.head?_eq_some_iff.mp first
  rw [htokens] at order
  have hfirst : ∀ u ∈ covered ++ rest, ¬ u.position.before t.position := htokens ▸ order.not_before
  refine ⟨.cons (fun q hq => ?_) h.sorted, ?_, ?_⟩
  · obtain ⟨u, hu, rfl⟩ := h.known q hq
    exact hfirst u hu
  · exact List.forall_mem_cons.mpr ⟨⟨t, List.mem_of_mem_head? first, rfl⟩, h.known⟩
  · exact List.forall_mem_cons.mpr ⟨fun u hu => hfirst u (List.mem_append_right _ hu), h.within⟩

theorem Spread.ordered {gaps : List Gap} {xs : List Node} {w rest : List Token} {spans : List Span}
    (h : Spread gaps xs w rest spans) (order : InOrder (w ++ rest))
    (inner : ∀ s ∈ spans, InOrder (s.covered ++ s.rest) →
      Ordered s.node.positions s.covered s.rest) :
    Ordered (xs.flatMap Node.positions) w rest := by
  induction h with
  | last => exact ordered_nil _ _
  | @child gap gaps x xs w u v rest spans takes more ih =>
      obtain ⟨hfirst, hothers⟩ := List.forall_mem_cons.mp inner
      rw [List.append_assoc, List.append_assoc] at order
      have horder := (List.pairwise_append.mp order).2.1
      have hx := hfirst horder
      have hxs := ih (List.pairwise_append.mp horder).2.1 hothers
      rw [List.flatMap_cons]
      refine ⟨List.pairwise_append.mpr ⟨hx.sorted, hxs.sorted, fun p hp q hq => ?_⟩, ?_, ?_⟩
      · obtain ⟨t, ht, rfl⟩ := hxs.known q hq
        exact hx.within p hp t ht
      · refine List.forall_mem_append.mpr ⟨fun p hp => ?_, fun p hp => ?_⟩
        · obtain ⟨t, ht, rfl⟩ := hx.known p hp
          exact ⟨t, by simp_all, rfl⟩
        · obtain ⟨t, ht, rfl⟩ := hxs.known p hp
          exact ⟨t, by simp_all, rfl⟩
      · refine List.forall_mem_append.mpr ⟨fun p hp t ht => ?_, hxs.within⟩
        exact hx.within p hp t (List.mem_append_right v ht)

theorem Covering.ordered {s : Span} (h : Covering Span.Exact s)
    (order : InOrder (s.covered ++ s.rest)) : Ordered s.node.positions s.covered s.rest := by
  induction h with
  | @mk n w rest spans spread holds inner ih =>
      have hinner := spread.ordered order ih
      dsimp only at order ⊢
      rw [Node.positions_eq]
      cases w with
      | cons t w =>
          rw [holds.first t rfl]
          exact hinner.cons rfl order
      | nil =>
          obtain ⟨p, rfl | rfl⟩ := holds.nothing rfl
          · rw [holds.emptyRoot p rfl]
            exact hinner
          · obtain ⟨t, ht, rfl⟩ := holds.emptyBody p rfl
            exact hinner.cons ht order

/-! ## Sources -/

theorem covering_tree {depth : Nat} {bytes : List UInt8}
    (h : (Parsed.ofBytes depth bytes).error = none) :
    Covering Span.Exact ⟨(Parsed.ofBytes depth bytes).tree, (Scan.ofBytes bytes).tokens, []⟩ := by
  obtain ⟨nodes, -, hread, -, htree⟩ := Parsed.exists_statements h
  obtain ⟨w, hw, hspells⟩ := Parser.reads_statements depth hread
  rw [List.append_nil] at hw
  rw [htree, hw]
  obtain ⟨hnone, hfirst, hshared⟩ := hspells.shared
  obtain ⟨spans, spread, hspans⟩ := hshared [] fun t ht => by cases ht
  refine .mk spread ?_ hspans
  cases w with
  | cons t w => exact Span.exact_of_cons (n := .root nodes _) spread hfirst
  | nil =>
      obtain rfl := hnone rfl
      refine ⟨fun t ht => ?_, fun _ => ⟨_, .inl rfl⟩, fun p hp => ?_, fun p hp => ?_⟩
      · cases ht
      · cases hp
      · cases hp
        rfl

/-- Node positions are exact. The tokens of a source that is read without an error can be shared out
among the nodes of its tree in one way only, and then each node that covers a token stands at the
first of them, a body without statements at the token behind it, and an empty program nowhere. In a
walk over the tree, parents before children, the positions never go back. -/
theorem node_positions_are_exact (depth : Nat) (bytes : List UInt8)
    (h : (Parsed.ofBytes depth bytes).error = none) :
    Covering Span.Exact ⟨(Parsed.ofBytes depth bytes).tree, (Scan.ofBytes bytes).tokens, []⟩ ∧
      (∀ Q, Covering Q ⟨(Parsed.ofBytes depth bytes).tree, (Scan.ofBytes bytes).tokens, []⟩ →
        Covering (fun s => Q s ∧ s.Exact)
          ⟨(Parsed.ofBytes depth bytes).tree, (Scan.ofBytes bytes).tokens, []⟩) ∧
      ((Parsed.ofBytes depth bytes).tree.preorder.filterMap
        fun entry => entry.2.position).Pairwise fun p q => ¬ q.before p := by
  have hcovering := covering_tree h
  refine ⟨hcovering, fun Q hQ => (hQ.inter hcovering rfl).2, ?_⟩
  obtain ⟨row, after, -, hrow, -⟩ := Scan.exists_laid bytes
  have horder : InOrder ((Scan.ofBytes bytes).tokens ++ []) := by
    rw [List.append_nil]
    exact hrow.inOrder.1
  exact (hcovering.ordered horder).sorted

/-- The source is `if a:;,-b*c,`. The body is empty and stands at the semicolon. -/
theorem node_positions_are_exact_around_empty_body :
    ∃ source : List UInt8, source = [105, 102, 32, 97, 58, 59, 44, 45, 98, 42, 99, 44] ∧
      (Parsed.ofBytes 2 source).error = none ∧
      (Parsed.ofBytes 2 source).tree =
        .root
          [.ifThen (.reference "a" (some ⟨1, 4⟩)) (.block [] (some ⟨1, 6⟩)) (some ⟨1, 1⟩),
            .binary (.symbol .star)
              (.unary (.symbol .minus) (.reference "b" (some ⟨1, 9⟩)) (some ⟨1, 8⟩))
              (.reference "c" (some ⟨1, 11⟩)) (some ⟨1, 8⟩)]
          (some ⟨1, 1⟩) ∧
      Covering Span.Exact ⟨(Parsed.ofBytes 2 source).tree, (Scan.ofBytes source).tokens, []⟩ ∧
      ((Parsed.ofBytes 2 source).tree.preorder.filterMap
        fun entry => entry.2.position).Pairwise fun p q => ¬ q.before p := by
  refine ⟨_, rfl, by decide, rfl, ?_, ?_⟩
  · exact (node_positions_are_exact 2 _ (by decide)).1
  · exact (node_positions_are_exact 2 _ (by decide)).2.2

end Scriptlet
