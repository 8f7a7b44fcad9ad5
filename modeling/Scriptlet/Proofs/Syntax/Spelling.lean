import Scriptlet.Proofs.Syntax.Productions

/-!
# The tokens that spell a tree

The parser reads a tree from the tokens in front of it. Here the other side is said without the
parser: which tokens spell which tree. Whatever the parser returns is spelled by the tokens that it
has taken, so everything that a tree owes to its tokens can be shown by induction on its spelling.
-/

namespace Scriptlet

open Scriptlet.Parser

/-- The parts of a program. Without levels of operators an expression is an operand. -/
inductive Part where
  | expression (levels : List Level)
  | arguments
  | simple
  | control
  | statements

/-- Items with commas between them, at least one. -/
inductive Listed {α : Type} (R : α → List Token → Prop) : List α → List Token → Prop where
  | one {a : α} {w : List Token} (item : R a w) : Listed R [a] w
  | more {a : α} {as : List α} {u v : List Token} {p : Position} (item : R a u)
      (items : Listed R as v) : Listed R (a :: as) (u ++ ⟨.symbol .comma, p⟩ :: v)

/-- Items as they stand between parentheses, where there may be none. -/
def ListedOrNone {α : Type} (R : α → List Token → Prop) (as : List α) (w : List Token) : Prop :=
  (as = [] ∧ w = []) ∨ Listed R as w

def SpellsName (name : String) (w : List Token) : Prop := ∃ p, w = [⟨.identifier name, p⟩]

/-- The body that the tokens `w` spell stands at its first token, or at the one behind it. -/
def bodyAt (nodes : List Node) (w : List Token) (next : Token) : Node :=
  .block nodes ((w ++ [next]).head?.map (·.position))

/-- The tokens that spell a part of a program, with the trees they stand for. -/
inductive Spells : Part → List Node → List Token → Prop where
  | number (x : Float) (p : Position) :
      Spells (.expression []) [.number x (some p)] [⟨.number x, p⟩]
  | boolean (b : Bool) (p : Position) :
      Spells (.expression []) [.boolean b (some p)] [⟨.boolean b, p⟩]
  | string (s : String) (p : Position) :
      Spells (.expression []) [.string s (some p)] [⟨.string s, p⟩]
  | nil (p : Position) : Spells (.expression []) [.nil (some p)] [⟨.symbol .nil, p⟩]
  | reference (name : String) (p : Position) :
      Spells (.expression []) [.reference name (some p)] [⟨.identifier name, p⟩]
  | unary {operator : Symbol} {n : Node} {w : List Token} (p : Position)
      (known : operator = .bang ∨ operator = .minus) (operand : Spells (.expression []) [n] w) :
      Spells (.expression []) [.unary (.symbol operator) n (some p)] (⟨.symbol operator, p⟩ :: w)
  | group {n : Node} {w : List Token} (p q : Position)
      (inner : Spells (.expression levels) [n] w) :
      Spells (.expression []) [.group n (some p)]
        (⟨.symbol .openParen, p⟩ :: w ++ [⟨.symbol .closeParen, q⟩])
  | call {args : List Node} {w : List Token} (name : String) (p q r : Position)
      (inner : Spells .arguments args w) :
      Spells (.expression []) [.call name args (some p)]
        (⟨.identifier name, p⟩ :: ⟨.symbol .openParen, q⟩ :: w ++ [⟨.symbol .closeParen, r⟩])
  | assign {n : Node} {w : List Token} (name : String) (p q : Position)
      (inner : Spells (.expression levels) [n] w) :
      Spells (.expression []) [.assign name n false (some p)]
        (⟨.identifier name, p⟩ :: ⟨.symbol .equal, q⟩ :: w)
  | single {level : Level} {tighter : List Level} {n : Node} {w : List Token}
      (only : Spells (.expression tighter) [n] w) : Spells (.expression (level :: tighter)) [n] w
  | joined {level : Level} {tighter : List Level} {x y : Node} {u v : List Token}
      {operator : Symbol} (p : Position) (known : operator ∈ level.operators)
      (left : Spells (.expression (if level.repeats then level :: tighter else tighter)) [x] u)
      (right : Spells (.expression tighter) [y] v) :
      Spells (.expression (level :: tighter)) [.binary (.symbol operator) x y x.position]
        (u ++ ⟨.symbol operator, p⟩ :: v)
  | noArguments : Spells .arguments [] []
  | lastArgument {n : Node} {w : List Token} (only : Spells (.expression levels) [n] w) :
      Spells .arguments [n] w
  | moreArguments {n m : Node} {rest : List Node} {u v : List Token} (p : Position)
      (first : Spells (.expression levels) [n] u) (others : Spells .arguments (m :: rest) v) :
      Spells .arguments (n :: m :: rest) (u ++ ⟨.symbol .comma, p⟩ :: v)
  | ret {n : Node} {w : List Token} (p : Position) (inner : Spells (.expression levels) [n] w) :
      Spells .simple [.ret n (some p)] (⟨.symbol .retWord, p⟩ :: w)
  | outer {n : Node} {w : List Token} (name : String) (p q r : Position)
      (inner : Spells (.expression levels) [n] w) :
      Spells .simple [.assign name n true (some p)]
        (⟨.symbol .nonlocalWord, p⟩ :: ⟨.identifier name, q⟩ :: ⟨.symbol .equal, r⟩ :: w)
  | expression {n : Node} {w : List Token} (only : Spells (.expression levels) [n] w) :
      Spells .simple [n] w
  | ifThen {c : Node} {body : List Node} {u v : List Token} (p q r : Position)
      (condition : Spells (.expression levels) [c] u) (inner : Spells .statements body v) :
      Spells .control [.ifThen c (bodyAt body v ⟨.symbol .semicolon, r⟩) (some p)]
        (⟨.symbol .ifWord, p⟩ :: u ++ ⟨.symbol .colon, q⟩ :: v ++ [⟨.symbol .semicolon, r⟩])
  | ifElse {c : Node} {body body' : List Node} {u v v' : List Token} (p q r r' : Position)
      (condition : Spells (.expression levels) [c] u) (inner : Spells .statements body v)
      (otherwise : Spells .statements body' v') :
      Spells .control
        [.ifElse c (bodyAt body v ⟨.symbol .elseWord, r⟩) (bodyAt body' v' ⟨.symbol .semicolon, r'⟩)
          (some p)]
        (⟨.symbol .ifWord, p⟩ :: u ++ ⟨.symbol .colon, q⟩ :: v ++ ⟨.symbol .elseWord, r⟩ :: v' ++
          [⟨.symbol .semicolon, r'⟩])
  | whileLoop {c : Node} {body : List Node} {u v : List Token} (p q r : Position)
      (condition : Spells (.expression levels) [c] u) (inner : Spells .statements body v) :
      Spells .control [.whileLoop c (bodyAt body v ⟨.symbol .semicolon, r⟩) (some p)]
        (⟨.symbol .whileWord, p⟩ :: u ++ ⟨.symbol .colon, q⟩ :: v ++ [⟨.symbol .semicolon, r⟩])
  | function {params : List String} {body : List Node} {u v : List Token} (name : String)
      (p q o c k r : Position) (names : ListedOrNone SpellsName params u)
      (inner : Spells .statements body v) :
      Spells .control
        [.function name params (bodyAt body v ⟨.symbol .semicolon, r⟩) (some p)]
        (⟨.symbol .fnWord, p⟩ :: ⟨.identifier name, q⟩ :: ⟨.symbol .openParen, o⟩ :: u ++
          ⟨.symbol .closeParen, c⟩ :: ⟨.symbol .colon, k⟩ :: v ++ [⟨.symbol .semicolon, r⟩])
  | noStatements : Spells .statements [] []
  | lastStatement {n : Node} {w : List Token} (only : Spells .simple [n] w) :
      Spells .statements [n] w
  | afterSimple {n : Node} {rest : List Node} {u v : List Token} (p : Position)
      (first : Spells .simple [n] u) (others : Spells .statements rest v) :
      Spells .statements (n :: rest) (u ++ ⟨.symbol .comma, p⟩ :: v)
  | afterControl {n : Node} {rest : List Node} {u v : List Token}
      (first : Spells .control [n] u) (others : Spells .statements rest v) :
      Spells .statements (n :: rest) (u ++ v)
  | afterControlComma {n : Node} {rest : List Node} {u v : List Token} (p : Position)
      (first : Spells .control [n] u) (others : Spells .statements rest v) :
      Spells .statements (n :: rest) (u ++ ⟨.symbol .comma, p⟩ :: v)

theorem Spells.ne_nil {ls : List Level} {nodes : List Node} {w : List Token}
    (h : Spells (.expression ls) nodes w) : w ≠ [] := by
  generalize hpart : Part.expression ls = part at h
  induction h generalizing ls with
  | single _ ih => exact ih rfl
  | number | boolean | string | nil | reference | unary | group | call | assign | joined => simp
  | _ => cases hpart

theorem ListedOrNone.imp {α : Type} {R R' : α → List Token → Prop} {as : List α} {w : List Token}
    (h : ListedOrNone R as w) (hR : ∀ {a v}, R a v → R' a v) : ListedOrNone R' as w := by
  refine Or.imp_right (fun listed => ?_) h
  induction listed with
  | one item => exact .one (hR item)
  | more item items ih => exact .more (hR item) (ih (.inr items))

theorem Listed.forall_of {α : Type} {R : α → List Token → Prop} {P : α → Prop} {as : List α}
    {w : List Token} (h : Listed R as w) (hP : ∀ {a v}, R a v → P a) : ∀ a ∈ as, P a := by
  induction h with
  | one item => exact List.forall_mem_singleton.mpr (hP item)
  | more item _ ih => exact List.forall_mem_cons.mpr ⟨hP item, ih⟩

theorem ListedOrNone.exists_items {α β : Type} {R : α → List Token → Prop}
    {R' : β → List Token → Prop} {as : List α} {w : List Token} (h : ListedOrNone R as w)
    (hR : ∀ {a v}, R a v → ∃ b, R' b v) : ∃ bs, ListedOrNone R' bs w := by
  rcases h with ⟨rfl, rfl⟩ | listed
  · exact ⟨[], .inl ⟨rfl, rfl⟩⟩
  · suffices ∃ bs, Listed R' bs w from this.imp fun _ hbs => .inr hbs
    induction listed with
    | one item => exact (hR item).elim fun b hb => ⟨[b], .one hb⟩
    | more item items ih =>
        obtain ⟨b, hb⟩ := hR item
        obtain ⟨bs, hbs⟩ := ih
        exact ⟨b :: bs, .more hb hbs⟩

/-! ## What the parser takes -/

namespace Parser

variable {α β : Type} {tokens rest : List Token}

theorem acceptAny_eq_some {symbols : List Symbol} {s : Symbol}
    (h : acceptAny symbols tokens = .ok (some s, rest)) :
    s ∈ symbols ∧ ∃ p, tokens = ⟨.symbol s, p⟩ :: rest := by
  unfold acceptAny at h
  split at h
  · next s' p rest' =>
      split at h
      · next hmem =>
          cases h
          exact ⟨hmem, p, rfl⟩
      · cases h
  · cases h

theorem acceptAny_eq_none {symbols : List Symbol}
    (h : acceptAny symbols tokens = .ok (none, rest)) : tokens = rest := by
  unfold acceptAny at h
  split at h
  · split at h
    · cases h
    · cases h
      rfl
  · cases h
    rfl

theorem accept_eq_true {s : Symbol} (h : accept s tokens = .ok (true, rest)) :
    ∃ p, tokens = ⟨.symbol s, p⟩ :: rest := by
  obtain ⟨found, middle, hfound, hpure⟩ := bind_eq_ok_iff.mp h
  cases found with
  | none => cases hpure
  | some s' =>
      cases hpure
      obtain ⟨hmem, p, htokens⟩ := acceptAny_eq_some hfound
      rw [List.mem_singleton] at hmem
      exact ⟨p, hmem ▸ htokens⟩

theorem accept_eq_false {s : Symbol} (h : accept s tokens = .ok (false, rest)) :
    tokens = rest := by
  obtain ⟨found, middle, hfound, hpure⟩ := bind_eq_ok_iff.mp h
  cases found with
  | none =>
      cases hpure
      exact acceptAny_eq_none hfound
  | some s' => cases hpure

theorem require_eq_ok {s : Symbol} {kind : SyntaxError.Kind} {a : Unit}
    (h : require s kind tokens = .ok (a, rest)) : ∃ p, tokens = ⟨.symbol s, p⟩ :: rest := by
  obtain ⟨found, middle, hfound, hrest⟩ := bind_eq_ok_iff.mp h
  cases found with
  | true =>
      cases hrest
      exact accept_eq_true hfound
  | false => cases hrest

theorem requireName_eq_ok {kind : SyntaxError.Kind} {name : String}
    (h : requireName kind tokens = .ok (name, rest)) :
    ∃ p, tokens = ⟨.identifier name, p⟩ :: rest := by
  unfold requireName at h
  split at h
  · next p rest' =>
      cases h
      exact ⟨p, rfl⟩
  · cases h

/-- What the parser returns is in the relation `R` with the tokens it has taken. -/
def Reads (R : α → List Token → Prop) (p : Parser α) : Prop :=
  ∀ {tokens a rest}, p tokens = .ok (a, rest) → ∃ w, tokens = w ++ rest ∧ R a w

theorem reads_requireName (kind : SyntaxError.Kind) : Reads SpellsName (requireName kind) := by
  intro tokens name rest h
  obtain ⟨p, htokens⟩ := requireName_eq_ok h
  exact ⟨[⟨.identifier name, p⟩], htokens, p, rfl⟩

theorem Reads.separatedFrom {R : α → List Token → Prop} {item : Parser α} (hitem : Reads R item)
    (rounds : List Token) : Reads (Listed R) (separatedFrom item rounds) := by
  induction rounds with
  | nil =>
      intro tokens as rest h
      obtain ⟨a, middle, ha, hpure⟩ := bind_eq_ok_iff.mp h
      obtain ⟨w, hw, hR⟩ := hitem ha
      cases hpure
      exact ⟨w, hw, .one hR⟩
  | cons round rounds ih =>
      intro tokens as rest h
      obtain ⟨a, middle, ha, h⟩ := bind_eq_ok_iff.mp h
      obtain ⟨u, hu, hR⟩ := hitem ha
      obtain ⟨comma, after, hcomma, h⟩ := bind_eq_ok_iff.mp h
      cases comma with
      | false =>
          cases h
          rw [accept_eq_false hcomma] at hu
          exact ⟨u, hu, .one hR⟩
      | true =>
          obtain ⟨p, hp⟩ := accept_eq_true hcomma
          obtain ⟨others, last, hothers, hpure⟩ := bind_eq_ok_iff.mp h
          obtain ⟨v, hv, hR'⟩ := ih hothers
          cases hpure
          exact ⟨u ++ ⟨.symbol .comma, p⟩ :: v, by simp [hu, hp, hv], .more hR hR'⟩

theorem Reads.listed {R : α → List Token → Prop} {item : Parser α} (hitem : Reads R item)
    (kind : SyntaxError.Kind) :
    Reads (fun as w => ∃ u p, w = u ++ [⟨.symbol .closeParen, p⟩] ∧ ListedOrNone R as u)
      (listed item kind) := by
  intro tokens as rest h
  obtain ⟨closed, middle, hclosed, h⟩ := bind_eq_ok_iff.mp h
  cases closed with
  | true =>
      cases h
      obtain ⟨p, hp⟩ := accept_eq_true hclosed
      exact ⟨[⟨.symbol .closeParen, p⟩], hp, [], p, rfl, .inl ⟨rfl, rfl⟩⟩
  | false =>
      rw [accept_eq_false hclosed]
      obtain ⟨items, after, hitems, h⟩ := bind_eq_ok_iff.mp h
      obtain ⟨u, hu, hR⟩ := hitem.separatedFrom middle hitems
      obtain ⟨_, last, hclose, hpure⟩ := bind_eq_ok_iff.mp h
      obtain ⟨p, hp⟩ := require_eq_ok hclose
      cases hpure
      exact ⟨u ++ [⟨.symbol .closeParen, p⟩], by simp [hu, hp], u, p, rfl, .inr hR⟩

/-! ## Patterns -/

/-- What the parser returns is in the relation `T` with the tokens it has taken and the tokens
behind them. -/
def ReadsBefore (T : α → List Token → List Token → Prop) (p : Parser α) : Prop :=
  ∀ {tokens a rest}, p tokens = .ok (a, rest) → ∃ w, tokens = w ++ rest ∧ T a w rest

section

variable {σ : Type} {T : σ → Node → List Token → List Token → Prop}

def Item.Spells (T : σ → Node → List Token → List Token → Prop) :
    (item : Item σ) → item.Result → List Token → List Token → Prop
  | .tree role, n, w, rest => T role n w rest
  | .name _, spelled, w, _ => SpellsName spelled w

/-- The tokens that spell what is read along a pattern, with the tokens behind them. -/
def Pattern.Spells (T : σ → Node → List Token → List Token → Prop) :
    (pattern : Pattern σ) → pattern.Result → List Token → List Token → Prop
  | .done, _, w, _ => w = []
  | .read item next, (a, r), w, rest =>
      ∃ u v, w = u ++ v ∧ item.Spells T a u (v ++ rest) ∧ next.Spells T r v rest
  | .list item _ next, (as, r), w, rest =>
      ∃ u p v, w = u ++ ⟨.symbol .closeParen, p⟩ :: v ∧
        ListedOrNone (fun a x => ∃ behind, item.Spells T a x behind) as u ∧ next.Spells T r v rest
  | .require s _ next, r, w, rest => ∃ p v, w = ⟨.symbol s, p⟩ :: v ∧ next.Spells T r v rest
  | .branch s yes _, .inl r, w, rest => ∃ p v, w = ⟨.symbol s, p⟩ :: v ∧ yes.Spells T r v rest
  | .branch _ _ no, .inr r, w, rest => no.Spells T r w rest

def Item.Accepts (L : σ → List Token → Prop) : Item σ → List Token → Prop
  | .tree role, w => L role w
  | .name _, w => ∃ spelled, SpellsName spelled w

/-- The tokens that may stand along a pattern, by those that may stand for a tree in each role. -/
def Pattern.Accepts (L : σ → List Token → Prop) : Pattern σ → List Token → Prop
  | .done, w => w = []
  | .read item next, w => ∃ u v, w = u ++ v ∧ item.Accepts L u ∧ next.Accepts L v
  | .list item _ next, w =>
      ∃ u p v, w = u ++ ⟨.symbol .closeParen, p⟩ :: v ∧
        (∃ items : List Unit, ListedOrNone (fun _ x => item.Accepts L x) items u) ∧
          next.Accepts L v
  | .require s _ next, w => ∃ p v, w = ⟨.symbol s, p⟩ :: v ∧ next.Accepts L v
  | .branch s yes no, w =>
      (∃ p v, w = ⟨.symbol s, p⟩ :: v ∧ yes.Accepts L v) ∨ no.Accepts L w

section

variable {L : σ → List Token → Prop} (hL : ∀ {role w}, L role w → ∀ rest, ∃ n, T role n w rest)

include hL

theorem Item.Accepts.exists_spells {item : Item σ} {w : List Token} (h : item.Accepts L w)
    (rest : List Token) : ∃ a, item.Spells T a w rest := by
  cases item with
  | tree role => exact hL h rest
  | name kind => exact h

theorem Pattern.Accepts.exists_spells {pattern : Pattern σ} {w : List Token}
    (h : pattern.Accepts L w) (rest : List Token) : ∃ r, pattern.Spells T r w rest := by
  induction pattern generalizing w with
  | done => exact ⟨(), h⟩
  | read item next ih =>
      obtain ⟨u, v, rfl, hu, hv⟩ := h
      obtain ⟨a, ha⟩ := hu.exists_spells hL (v ++ rest)
      obtain ⟨r, hr⟩ := ih hv
      exact ⟨(a, r), u, v, rfl, ha, hr⟩
  | list item kind next ih =>
      obtain ⟨u, p, v, rfl, ⟨items, hu⟩, hv⟩ := h
      have hitem {x : List Token} (hx : item.Accepts L x) :
          ∃ a behind, item.Spells T a x behind := by
        obtain ⟨a, ha⟩ := hx.exists_spells hL []
        exact ⟨a, [], ha⟩
      obtain ⟨as, has⟩ := hu.exists_items hitem
      obtain ⟨r, hr⟩ := ih hv
      exact ⟨(as, r), u, p, v, rfl, has, hr⟩
  | require s kind next ih =>
      obtain ⟨p, v, rfl, hv⟩ := h
      obtain ⟨r, hr⟩ := ih hv
      exact ⟨r, p, v, rfl, hr⟩
  | branch s yes no ihyes ihno =>
      rcases h with ⟨p, v, rfl, hv⟩ | hw
      · obtain ⟨r, hr⟩ := ihyes hv
        exact ⟨.inl r, p, v, rfl, hr⟩
      · obtain ⟨r, hr⟩ := ihno hw
        exact ⟨.inr r, hr⟩

end

variable {readers : σ → Parser Node} (hreaders : ∀ role, ReadsBefore (T role) (readers role))

include hreaders

theorem Item.reads (item : Item σ) : ReadsBefore (item.Spells T) (item.parser readers) := by
  cases item with
  | tree role => exact hreaders role
  | name kind => exact reads_requireName kind

theorem Pattern.reads (pattern : Pattern σ) :
    ReadsBefore (pattern.Spells T) (pattern.parser readers) := by
  induction pattern with
  | done =>
      intro tokens r rest h
      cases h
      exact ⟨[], rfl, rfl⟩
  | read item next ih =>
      intro tokens r rest h
      obtain ⟨a, middle, ha, h⟩ := bind_eq_ok_iff.mp h
      obtain ⟨r, last, hr, hpure⟩ := bind_eq_ok_iff.mp h
      cases hpure
      obtain ⟨u, rfl, hu⟩ := item.reads hreaders ha
      obtain ⟨v, rfl, hv⟩ := ih hr
      exact ⟨u ++ v, (List.append_assoc u v _).symm, u, v, rfl, hu, hv⟩
  | list item kind next ih =>
      intro tokens r rest h
      obtain ⟨as, middle, has, h⟩ := bind_eq_ok_iff.mp h
      obtain ⟨r, last, hr, hpure⟩ := bind_eq_ok_iff.mp h
      cases hpure
      have hitem : Reads (fun a x => ∃ behind, item.Spells T a x behind) (item.parser readers) := by
        intro tokens a rest ha
        obtain ⟨w, hw, hspells⟩ := item.reads hreaders ha
        exact ⟨w, hw, rest, hspells⟩
      obtain ⟨_, rfl, u, p, rfl, hu⟩ := hitem.listed kind has
      obtain ⟨v, rfl, hv⟩ := ih hr
      exact ⟨u ++ ⟨.symbol .closeParen, p⟩ :: v, by simp, u, p, v, rfl, hu, hv⟩
  | require s kind next ih =>
      intro tokens r rest h
      obtain ⟨_, middle, hs, hr⟩ := bind_eq_ok_iff.mp h
      obtain ⟨p, rfl⟩ := require_eq_ok hs
      obtain ⟨v, rfl, hv⟩ := ih hr
      exact ⟨⟨.symbol s, p⟩ :: v, rfl, p, v, rfl, hv⟩
  | branch s yes no ihyes ihno =>
      intro tokens r rest h
      obtain ⟨found, middle, hfound, h⟩ := bind_eq_ok_iff.mp h
      cases found with
      | true =>
          obtain ⟨r, last, hr, hpure⟩ := bind_eq_ok_iff.mp h
          cases hpure
          obtain ⟨p, rfl⟩ := accept_eq_true hfound
          obtain ⟨v, rfl, hv⟩ := ihyes hr
          exact ⟨⟨.symbol s, p⟩ :: v, rfl, p, v, rfl, hv⟩
      | false =>
          obtain ⟨r, last, hr, hpure⟩ := bind_eq_ok_iff.mp h
          cases hpure
          obtain rfl := accept_eq_false hfound
          exact ihno hr

/-- The node that a form builds, with the tokens behind the first one. -/
theorem Form.reads (form : Form σ) (p : Position) :
    ReadsBefore (fun n w rest => ∃ r, n = form.build r p ∧ form.pattern.Spells T r w rest)
      (form.parser readers p) := by
  intro tokens n rest h
  obtain ⟨r, last, hr, hpure⟩ := bind_eq_ok_iff.mp h
  cases hpure
  obtain ⟨w, hw, hspells⟩ := form.pattern.reads hreaders hr
  exact ⟨w, hw, r, rfl, hspells⟩

end

/-! ## Expressions -/

/-- The parser reads single trees that are spelled as `part`. -/
def ReadsPart (part : Part) (p : Parser Node) : Prop := Reads (fun n w => Spells part [n] w) p

theorem ReadsPart.shorter {ls : List Level} {p : Parser Node} (h : ReadsPart (.expression ls) p)
    {tokens rest : List Token} {a : Node} (hp : p tokens = .ok (a, rest)) :
    rest.length < tokens.length := by
  obtain ⟨w, rfl, hw⟩ := h hp
  have hpos := List.length_pos_iff.mpr hw.ne_nil
  rw [List.length_append]
  omega

theorem reads_tooDeep (part : Part) : ReadsPart part tooDeep := fun h => nomatch h

theorem spells_arguments {args : List Node} {w : List Token}
    (h : ListedOrNone (fun n v => Spells (.expression levels) [n] v) args w) :
    Spells .arguments args w := by
  rcases h with ⟨rfl, rfl⟩ | h
  · exact .noArguments
  · induction h with
    | one item => exact .lastArgument item
    | more item items ih =>
        cases items with
        | one => exact .moreArguments _ item ih
        | more => exact .moreArguments _ item ih

section

variable {level : Level} {tighter : List Level} {operand inner : Parser Node}

/-- Where a level repeats, a chain goes on from a chain. -/
theorem chainFrom_spells (hrepeats : level.repeats = true)
    (hop : ReadsPart (.expression tighter) operand) (rounds : List Token) {left n : Node}
    {u : List Token} (hleft : Spells (.expression (level :: tighter)) [left] u)
    (h : chainFrom level.operators operand rounds left tokens = .ok (n, rest)) :
    ∃ v, tokens = v ++ rest ∧ Spells (.expression (level :: tighter)) [n] (u ++ v) := by
  induction rounds generalizing left u tokens with
  | nil =>
      cases h
      exact ⟨[], rfl, by simpa using hleft⟩
  | cons round rounds ih =>
      obtain ⟨found, middle, hfound, hmore⟩ := bind_eq_ok_iff.mp h
      cases found with
      | none =>
          cases hmore
          exact ⟨[], acceptAny_eq_none hfound, by simpa using hleft⟩
      | some operator =>
          obtain ⟨hmem, p, rfl⟩ := acceptAny_eq_some hfound
          obtain ⟨right, after, hright, hlast⟩ := bind_eq_ok_iff.mp hmore
          obtain ⟨v, rfl, hv⟩ := hop hright
          have hjoin := Spells.joined p hmem (by rwa [if_pos hrepeats]) hv
          obtain ⟨v', rfl, hv'⟩ := ih hjoin hlast
          exact ⟨⟨.symbol operator, p⟩ :: v ++ v', by simp, by simpa using hv'⟩

/-- Where it does not, one operator may follow. -/
theorem chainFrom_one_spells (hrepeats : level.repeats = false)
    (hop : ReadsPart (.expression tighter) operand) {rounds : List Token}
    (hrounds : rounds.length ≤ 1) {left n : Node} {u : List Token}
    (hleft : Spells (.expression tighter) [left] u)
    (h : chainFrom level.operators operand rounds left tokens = .ok (n, rest)) :
    ∃ v, tokens = v ++ rest ∧ Spells (.expression (level :: tighter)) [n] (u ++ v) := by
  cases rounds with
  | nil =>
      cases h
      exact ⟨[], rfl, by simpa using Spells.single hleft⟩
  | cons round rounds =>
      obtain rfl : rounds = [] := by
        simpa using hrounds
      obtain ⟨found, middle, hfound, hmore⟩ := bind_eq_ok_iff.mp h
      cases found with
      | none =>
          cases hmore
          exact ⟨[], acceptAny_eq_none hfound, by simpa using Spells.single hleft⟩
      | some operator =>
          obtain ⟨hmem, p, rfl⟩ := acceptAny_eq_some hfound
          obtain ⟨right, after, hright, hpure⟩ := bind_eq_ok_iff.mp hmore
          obtain ⟨v, rfl, hv⟩ := hop hright
          cases hpure
          exact ⟨⟨.symbol operator, p⟩ :: v, rfl,
            .joined p hmem (by rwa [if_neg (by simp [hrepeats])]) hv⟩

theorem reads_climb (hop : ReadsPart (.expression []) operand) (ls : List Level) :
    ReadsPart (.expression ls) (climb operand ls) := by
  induction ls with
  | nil => exact hop
  | cons level tighter ih =>
      intro tokens n rest h
      obtain ⟨left, middle, hleft, hmore⟩ := bind_eq_ok_iff.mp h
      obtain ⟨u, rfl, hu⟩ := ih hleft
      have hchain : ∃ v, middle = v ++ rest ∧
          Spells (.expression (level :: tighter)) [n] (u ++ v) := by
        unfold chain at hmore
        cases hrepeats : level.repeats with
        | true =>
            rw [hrepeats] at hmore
            exact chainFrom_spells hrepeats ih middle (.single hu) hmore
        | false =>
            rw [hrepeats] at hmore
            exact chainFrom_one_spells hrepeats ih (List.length_take_le 1 middle) hu hmore
      obtain ⟨v, rfl, hv⟩ := hchain
      exact ⟨u ++ v, by simp, hv⟩

end

def Inside.Spells : Inside → Node → List Token → List Token → Prop
  | .operand, n, w, _ => Scriptlet.Spells (.expression []) [n] w
  | .expression, n, w, _ => Scriptlet.Spells (.expression levels) [n] w

theorem spells_operandForm {l : Lexeme} {form : Form Inside}
    (hform : operandForm (some l) = .ok form)
    {r : form.pattern.Result} {w rest : List Token} (h : form.pattern.Spells Inside.Spells r w rest)
    (p : Position) : Spells (.expression []) [form.build r p] (⟨l, p⟩ :: w) := by
  cases l with
  | number x =>
      cases hform
      cases h
      exact .number x p
  | boolean b =>
      cases hform
      cases h
      exact .boolean b p
  | string s =>
      cases hform
      cases h
      exact .string s p
  | identifier name =>
      cases hform
      rcases r with ⟨args, _⟩ | ⟨x, _⟩ | _
      · obtain ⟨q, _, rfl, u, c, _, rfl, hu, rfl⟩ := h
        refine .call name p q c (spells_arguments (hu.imp ?_))
        rintro a v ⟨_, ha⟩
        exact ha
      · obtain ⟨q, _, rfl, u, _, rfl, hu, rfl⟩ := h
        rw [List.append_nil]
        exact .assign name p q hu
      · cases h
        exact .reference name p
  | symbol s =>
      cases s with
      | nil =>
          cases hform
          cases h
          exact .nil p
      | bang =>
          cases hform
          obtain ⟨u, _, rfl, hu, rfl⟩ := h
          rw [List.append_nil]
          exact .unary p (.inl rfl) hu
      | minus =>
          cases hform
          obtain ⟨u, _, rfl, hu, rfl⟩ := h
          rw [List.append_nil]
          exact .unary p (.inr rfl) hu
      | openParen =>
          cases hform
          obtain ⟨u, _, rfl, hu, q, _, rfl, rfl⟩ := h
          exact .group p q hu
      | _ => cases hform

theorem reads_operandWith {operand inner : Parser Node} (hop : ReadsPart (.expression []) operand)
    (hinner : ReadsPart (.expression levels) inner) :
    ReadsPart (.expression []) (operandWith operand inner) := by
  have hreaders (role : Inside) :
      ReadsBefore (role.Spells) (insideReaders operand inner role) := by
    cases role with
    | operand => exact hop
    | expression => exact hinner
  intro tokens n rest h
  rw [operandWith_by] at h
  unfold operandBy at h
  cases hform : operandForm (nextLexeme? tokens) with
  | error kind =>
      rw [hform] at h
      cases h
  | ok form =>
      rw [hform] at h
      cases tokens with
      | nil => cases h
      | cons t tokens =>
          obtain ⟨w, rfl, r, rfl, hr⟩ := form.reads hreaders t.position h
          exact ⟨t :: w, rfl, spells_operandForm hform hr t.position⟩

theorem reads_operand (depth : Nat) : ReadsPart (.expression []) (operand depth) := by
  induction depth with
  | zero => exact reads_operandWith (reads_tooDeep _) (reads_tooDeep _)
  | succ depth ih => exact reads_operandWith ih (reads_climb ih levels)

theorem reads_expression (depth : Nat) :
    ReadsPart (.expression levels) (expression (operand depth)) :=
  reads_climb (reads_operand depth) levels

/-! ## Statements -/

section

variable {expr inner : Parser Node} {sequence : Parser (List Node)}

/-- What is spelled inside a statement. Where a body stands may depend on the token behind it. -/
def Clause.Spells : Clause → Node → List Token → List Token → Prop
  | .expression, n, w, _ => Scriptlet.Spells (.expression levels) [n] w
  | .body, n, w, rest => ∃ nodes, n = .block nodes ((w ++ rest).head?.map (·.position)) ∧
      Scriptlet.Spells .statements nodes w

/-- A body is a statement sequence. -/
abbrev ReadsBody (inner : Parser Node) : Prop := ReadsBefore Clause.body.Spells inner

theorem readsBody_tooDeep : ReadsBody tooDeep := by
  intro tokens n rest h
  cases h

theorem readsBody_body (hseq : Reads (Spells .statements) sequence) :
    ReadsBody (body sequence) := by
  intro tokens n rest h
  unfold body at h
  cases hs : sequence tokens with
  | error failure =>
      rw [hs] at h
      cases h
  | ok result =>
      obtain ⟨nodes, after⟩ := result
      rw [hs] at h
      cases h
      obtain ⟨w, rfl, hspells⟩ := hseq hs
      exact ⟨w, rfl, nodes, rfl, hspells⟩

theorem spells_control {l : Lexeme} {form : Form Clause} (hform : start (some l) = .control form)
    {r : form.pattern.Result} {w rest : List Token} (h : form.pattern.Spells Clause.Spells r w rest)
    (p : Position) : Spells .control [form.build r p] (⟨l, p⟩ :: w) := by
  cases l with
  | symbol s =>
      cases s with
      | ifWord =>
          cases hform
          obtain ⟨c, x, last⟩ := r
          obtain ⟨u, _, rfl, hc, q, _, rfl, v, _, rfl, ⟨nodes, rfl, hx⟩, h⟩ := h
          rcases last with ⟨y, _⟩ | _
          · obtain ⟨k, _, rfl, v', _, rfl, ⟨nodes', rfl, hy⟩, k', _, rfl, rfl⟩ := h
            simpa [Form.ifStatement, bodyAt] using Spells.ifElse p q k k' hc hx hy
          · obtain ⟨k, _, rfl, rfl⟩ := h
            simpa [Form.ifStatement, bodyAt] using Spells.ifThen p q k hc hx
      | whileWord =>
          cases hform
          obtain ⟨c, x, _⟩ := r
          obtain ⟨u, _, rfl, hc, q, _, rfl, v, _, rfl, ⟨nodes, rfl, hx⟩, k, _, rfl, rfl⟩ := h
          simpa [Form.whileStatement, bodyAt] using Spells.whileLoop p q k hc hx
      | fnWord =>
          cases hform
          obtain ⟨name, params, x, _⟩ := r
          obtain ⟨_, _, rfl, ⟨q, rfl⟩, o, _, rfl, u, c, _, rfl, hu, k, _, rfl, h⟩ := h
          obtain ⟨v, _, rfl, ⟨nodes, rfl, hx⟩, e, _, rfl, rfl⟩ := h
          have hparams : ListedOrNone SpellsName params u := by
            refine hu.imp ?_
            rintro a w ⟨_, ha⟩
            exact ha
          simpa [Form.functionStatement, bodyAt] using
            Spells.function name p q o c k e hparams hx
      | _ => cases hform
  | _ => cases hform

theorem spells_simple {l : Lexeme} {form : Form Clause} (hform : start (some l) = .simple form)
    {r : form.pattern.Result} {w rest : List Token} (h : form.pattern.Spells Clause.Spells r w rest)
    (p : Position) : Spells .simple [form.build r p] (⟨l, p⟩ :: w) := by
  cases l with
  | symbol s =>
      cases s with
      | retWord =>
          cases hform
          obtain ⟨u, _, rfl, hu, rfl⟩ := h
          rw [List.append_nil]
          exact .ret p hu
      | nonlocalWord =>
          cases hform
          obtain ⟨_, _, rfl, ⟨q, rfl⟩, k, _, rfl, u, _, rfl, hu, rfl⟩ := h
          rw [List.append_nil]
          exact .outer _ p q k hu
      | _ => cases hform
  | _ => cases hform

section

variable {more : Parser (List Node)} (hmore : Reads (Spells .statements) more)
  {statement : Parser Node} {nodes : List Node}

include hmore

theorem afterControl_spells {t : Token}
    (hstatement : ∀ {n after}, statement tokens = .ok (n, after) →
      ∃ w, tokens = w ++ after ∧ Spells .control [n] (t :: w))
    (h : afterControl more statement tokens = .ok (nodes, rest)) :
    ∃ w, tokens = w ++ rest ∧ Spells .statements nodes (t :: w) := by
  obtain ⟨n, t1, hn, h1⟩ := bind_eq_ok_iff.mp h
  obtain ⟨u, rfl, hu⟩ := hstatement hn
  obtain ⟨comma, t2, hcomma, h2⟩ := bind_eq_ok_iff.mp h1
  obtain ⟨others, t3, hothers, hpure⟩ := bind_eq_ok_iff.mp h2
  obtain ⟨v, rfl, hv⟩ := hmore hothers
  cases hpure
  cases comma with
  | false =>
      obtain rfl := accept_eq_false hcomma
      exact ⟨u ++ v, by simp, .afterControl hu hv⟩
  | true =>
      obtain ⟨p, rfl⟩ := accept_eq_true hcomma
      exact ⟨u ++ ⟨.symbol .comma, p⟩ :: v, by simp, .afterControlComma p hu hv⟩

theorem afterSimple_spells (front : List Token)
    (hstatement : ∀ {n after}, statement tokens = .ok (n, after) →
      ∃ w, tokens = w ++ after ∧ Spells .simple [n] (front ++ w))
    (h : afterSimple more statement tokens = .ok (nodes, rest)) :
    ∃ w, tokens = w ++ rest ∧ Spells .statements nodes (front ++ w) := by
  obtain ⟨n, t1, hn, h1⟩ := bind_eq_ok_iff.mp h
  obtain ⟨u, rfl, hu⟩ := hstatement hn
  obtain ⟨comma, t2, hcomma, h2⟩ := bind_eq_ok_iff.mp h1
  cases comma with
  | false =>
      obtain rfl := accept_eq_false hcomma
      cases h2
      exact ⟨u, rfl, .lastStatement hu⟩
  | true =>
      obtain ⟨p, rfl⟩ := accept_eq_true hcomma
      obtain ⟨others, t3, hothers, hpure⟩ := bind_eq_ok_iff.mp h2
      obtain ⟨v, rfl, hv⟩ := hmore hothers
      cases hpure
      refine ⟨u ++ ⟨.symbol .comma, p⟩ :: v, by simp, ?_⟩
      simpa using Spells.afterSimple p hu hv

end

section

variable (hexpr : ReadsPart (.expression levels) expr) (hinner : ReadsBody inner)

include hexpr hinner

theorem reads_clause (role : Clause) : ReadsBefore role.Spells (clauseReaders expr inner role) := by
  cases role with
  | expression => exact hexpr
  | body => exact hinner

theorem reads_control {l : Lexeme} {form : Form Clause} (hform : start (some l) = .control form)
    (p : Position) : Reads (fun n w => Spells .control [n] (⟨l, p⟩ :: w))
      (form.parser (clauseReaders expr inner) p) := by
  intro tokens n rest h
  obtain ⟨w, hw, r, rfl, hr⟩ := form.reads (reads_clause hexpr hinner) p h
  exact ⟨w, hw, spells_control hform hr p⟩

theorem reads_simple {l : Lexeme} {form : Form Clause} (hform : start (some l) = .simple form)
    (p : Position) : Reads (fun n w => Spells .simple [n] (⟨l, p⟩ :: w))
      (form.parser (clauseReaders expr inner) p) := by
  intro tokens n rest h
  obtain ⟨w, hw, r, rfl, hr⟩ := form.reads (reads_clause hexpr hinner) p h
  exact ⟨w, hw, spells_simple hform hr p⟩

theorem reads_statementsFrom (rounds : List Token) :
    Reads (Spells .statements) (statementsFrom expr inner rounds) := by
  induction rounds with
  | nil =>
      intro tokens nodes rest h
      cases h
      exact ⟨[], rfl, .noStatements⟩
  | cons round rounds ih =>
      intro tokens nodes rest h
      rw [statementsFrom_cons_by] at h
      unfold statementsBy at h
      cases hstart : start (nextLexeme? tokens) with
      | stop =>
          rw [hstart] at h
          cases h
          exact ⟨[], rfl, .noStatements⟩
      | control form =>
          rw [hstart] at h
          cases tokens with
          | nil => cases h
          | cons t tokens =>
              obtain ⟨w, rfl, hw⟩ := afterControl_spells ih (reads_control hexpr hinner hstart _) h
              exact ⟨t :: w, rfl, hw⟩
      | simple form =>
          rw [hstart] at h
          cases tokens with
          | nil => cases h
          | cons t tokens =>
              obtain ⟨w, rfl, hw⟩ := afterSimple_spells ih [t]
                (reads_simple hexpr hinner hstart _) h
              exact ⟨t :: w, rfl, hw⟩
      | expression =>
          rw [hstart] at h
          refine afterSimple_spells ih [] ?_ h
          intro n after hn
          obtain ⟨w, hw, hspells⟩ := hexpr hn
          exact ⟨w, hw, .expression hspells⟩

end

end

theorem reads_statements (depth : Nat) : Reads (Spells .statements) (statements depth) := by
  induction depth with
  | zero =>
      intro tokens nodes rest h
      exact reads_statementsFrom (reads_expression 0) readsBody_tooDeep tokens h
  | succ depth ih =>
      intro tokens nodes rest h
      exact reads_statementsFrom (reads_expression _) (readsBody_body ih) tokens h

/-- A program that is read is spelled by its tokens, all of them. -/
theorem root_eq_ok {depth : Nat} {tree : Node} (h : root depth tokens = .ok (tree, rest)) :
    rest = [] ∧ ∃ nodes, tree = .root nodes (nodes.head?.bind Node.position) ∧
      Spells .statements nodes tokens := by
  unfold root at h
  split at h
  · cases h
  · next nodes hs =>
      cases h
      obtain ⟨w, hw, hspells⟩ := reads_statements depth hs
      rw [List.append_nil] at hw
      exact ⟨rfl, nodes, rfl, hw ▸ hspells⟩
  · cases h

end Parser

end Scriptlet
