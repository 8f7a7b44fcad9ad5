import Scriptlet.Proofs.Syntax.Acceptance
import Scriptlet.Proofs.Syntax.Joining
import Scriptlet.Proofs.Syntax.Unrolling

/-!
# Only nesting exhausts the parser

Which constructs are open behind some tokens can be said without a parser, by a stack that grows and
shrinks with the tokens. Parentheses, bodies, the right sides of assignments and the operands of
signs are put on it. Parentheses and bodies are closed by tokens of their own. A sign ends with its
operand, and a right side at the first operator that it has no more use for, or where the expression
ends. Commas and binary operators put nothing on the stack, so the length of lists and chains does
not count.

The parser gives up at a depth only where more constructs than that are open on the stack.
-/

namespace Scriptlet

/-! ## Open constructs -/

/-- What can be open around a place in a source. -/
inductive Construct where
  | program
  | body
  | parens
  | parameters
  | rightSide
  | sign
  deriving DecidableEq

/-- An open construct, with the operators that the expression read last in it has used up. -/
structure Layer where
  construct : Construct
  frame : Frame
  deriving DecidableEq

namespace Layer

def opening (construct : Construct) : Layer := ⟨construct, .fresh⟩

/-- The program itself and lists of parameters do not nest. -/
def nests (l : Layer) : Bool :=
  match l.construct with
  | .program | .parameters => false
  | _ => true

/-- Whether the construct is over where its expression is. -/
def trails (l : Layer) : Bool :=
  match l.construct with
  | .rightSide | .sign => true
  | _ => false

/-- Whether the construct is over before an operator of tier `i`. -/
def endsBefore (i : Nat) (l : Layer) : Bool :=
  match l.construct with
  | .sign => true
  | .rightSide => l.frame.blocks i
  | _ => false

/-- The layers behind an operator of tier `i`. -/
def extended (i : Nat) : List Layer → List Layer
  | [] => []
  | l :: layers =>
      if l.endsBefore i then extended i layers else ⟨l.construct, l.frame.after i⟩ :: layers

/-- The layers where an expression is over. -/
def settled : List Layer → List Layer
  | [] => []
  | l :: layers => if l.trails then settled layers else opening l.construct :: layers

def depth (layers : List Layer) : Nat := layers.countP nests

end Layer

/-- Which tokens make sense next: an operand, or an operator behind one. The header of a function
and of an assignment to an outer name opens nothing. -/
inductive Stance where
  | operand
  | complete
  | header
  deriving DecidableEq

/-- The constructs that are open at a place in a source, innermost first. -/
structure Nesting where
  layers : List Layer
  stance : Stance
  deriving DecidableEq

namespace Nesting

open Layer

def start : Nesting := ⟨[.opening .program], .operand⟩

def depth (n : Nesting) : Nat := Layer.depth n.layers

def opened (n : Nesting) (construct : Construct) : Nesting :=
  ⟨.opening construct :: n.layers, .operand⟩

def afterSymbol (n : Nesting) : Symbol → Nesting
  | .nil => ⟨n.layers, .complete⟩
  | .openParen => n.opened (if n.stance = .header then .parameters else .parens)
  | .closeParen => ⟨(settled n.layers).tail, .complete⟩
  | .equal => if n.stance = .header then ⟨n.layers, .operand⟩ else n.opened .rightSide
  | .bang => n.opened .sign
  | .minus => if n.stance = .complete then ⟨extended 5 n.layers, .operand⟩ else n.opened .sign
  | .comma => ⟨settled n.layers, .operand⟩
  | .colon => ⟨.opening .body :: settled n.layers, .operand⟩
  | .elseWord => ⟨.opening .body :: (settled n.layers).tail, .operand⟩
  | .semicolon => ⟨(settled n.layers).tail, .operand⟩
  | .ifWord | .whileWord | .retWord => ⟨n.layers, .operand⟩
  | .fnWord | .nonlocalWord => ⟨n.layers, .header⟩
  | s =>
      match s.tier? with
      | some i => ⟨extended i n.layers, .operand⟩
      | none => n

def step (n : Nesting) (t : Token) : Nesting :=
  match t.lexeme with
  | .symbol s => n.afterSymbol s
  | .identifier _ => if n.stance = .header then n else ⟨n.layers, .complete⟩
  | _ => ⟨n.layers, .complete⟩

def after (n : Nesting) (tokens : List Token) : Nesting := tokens.foldl step n

@[simp] theorem after_cons (n : Nesting) (t : Token) (tokens : List Token) :
    n.after (t :: tokens) = (n.step t).after tokens := rfl

theorem after_append (n : Nesting) (u v : List Token) :
    n.after (u ++ v) = (n.after u).after v := List.foldl_append

@[simp] theorem step_symbol (n : Nesting) (s : Symbol) (p : Position) :
    n.step ⟨.symbol s, p⟩ = n.afterSymbol s := rfl

/-- Whether a token opens a construct. -/
def opens (n : Nesting) (t : Token) : Bool :=
  match t.lexeme with
  | .symbol .openParen | .symbol .equal => decide (n.stance ≠ .header)
  | .symbol .minus => decide (n.stance ≠ .complete)
  | .symbol .bang | .symbol .colon | .symbol .elseWord => true
  | _ => false

end Nesting

namespace Layer

theorem depth_cons_le (l : Layer) (layers : List Layer) : depth layers ≤ depth (l :: layers) := by
  unfold depth
  rw [List.countP_cons]
  omega

theorem depth_opening_le (construct : Construct) (layers : List Layer) :
    depth (opening construct :: layers) ≤ depth layers + 1 := by
  unfold depth
  rw [List.countP_cons]
  split <;> omega

theorem depth_opening_parameters (layers : List Layer) :
    depth (opening .parameters :: layers) = depth layers :=
  List.countP_cons_of_neg (p := nests) (by decide)

theorem depth_frame (c : Construct) (f g : Frame) (layers : List Layer) :
    depth (⟨c, f⟩ :: layers) = depth (⟨c, g⟩ :: layers) := by
  cases c <;> rfl

theorem depth_extended_le (i : Nat) (layers : List Layer) :
    depth (extended i layers) ≤ depth layers := by
  induction layers with
  | nil => exact Nat.le_refl _
  | cons l layers ih =>
      rw [extended]
      split
      · exact Nat.le_trans ih (depth_cons_le l layers)
      · exact Nat.le_of_eq (depth_frame _ _ _ _)

theorem depth_settled_le (layers : List Layer) : depth (settled layers) ≤ depth layers := by
  induction layers with
  | nil => exact Nat.le_refl _
  | cons l layers ih =>
      rw [settled]
      split
      · exact Nat.le_trans ih (depth_cons_le l layers)
      · exact Nat.le_of_eq (depth_frame _ _ _ _)

theorem depth_tail_settled_le (layers : List Layer) :
    depth (settled layers).tail ≤ depth layers := by
  have hsettled := depth_settled_le layers
  cases hlayers : settled layers with
  | nil => exact Nat.zero_le _
  | cons l rest =>
      rw [hlayers] at hsettled
      exact Nat.le_trans (depth_cons_le l rest) hsettled

end Layer

namespace Nesting

open Layer

theorem depth_opened_le (n : Nesting) (construct : Construct) :
    (n.opened construct).depth ≤ n.depth + 1 :=
  depth_opening_le construct n.layers

/-- A token opens one construct at most, and commas, operands and operators between operands open
none. -/
theorem depth_step_le (n : Nesting) (t : Token) :
    (n.step t).depth ≤ n.depth + (n.opens t).toNat := by
  obtain ⟨lexeme, p⟩ := t
  cases lexeme with
  | number | boolean | string => exact Nat.le_refl _
  | identifier name =>
      simp only [step]
      split <;> exact Nat.le_refl _
  | symbol s =>
      cases s with
      | openParen =>
          by_cases h : n.stance = .header
          · simp [afterSymbol, h, depth, opened, depth_opening_parameters]
          · simpa [afterSymbol, opens, h] using depth_opened_le n .parens
      | equal =>
          by_cases h : n.stance = .header
          · simp [afterSymbol, h, depth]
          · simpa [afterSymbol, opens, h] using depth_opened_le n .rightSide
      | minus =>
          by_cases h : n.stance = .complete
          · simpa [afterSymbol, opens, h, depth] using depth_extended_le 5 n.layers
          · simpa [afterSymbol, opens, h] using depth_opened_le n .sign
      | bang => exact depth_opened_le n .sign
      | colon =>
          exact Nat.le_trans (depth_opening_le .body _)
            (Nat.add_le_add_right (depth_settled_le n.layers) 1)
      | elseWord =>
          exact Nat.le_trans (depth_opening_le .body _)
            (Nat.add_le_add_right (depth_tail_settled_le n.layers) 1)
      | comma => exact depth_settled_le n.layers
      | closeParen | semicolon => exact depth_tail_settled_le n.layers
      | nil | ifWord | whileWord | retWord | fnWord | nonlocalWord => exact Nat.le_refl _
      | _ => exact depth_extended_le _ n.layers

theorem afterSymbol_operator {n : Nesting} (h : n.stance = .complete) {s : Symbol} {i : Nat}
    (hs : s.tier? = some i) : n.afterSymbol s = ⟨extended i n.layers, .operand⟩ := by
  cases s with
  | minus =>
      cases hs
      exact if_pos h
  | _ => cases hs <;> rfl

end Nesting

/-! ## Layers that end by themselves -/

namespace Layer

/-- The construct is over before whatever comes next. -/
def Over (rest : List Token) (l : Layer) : Prop :=
  l.trails = true ∧ ∀ t ∈ rest.head?, ∀ i, t.tier? = some i → l.endsBefore i = true

theorem settled_of_over {rest : List Token} {front : List Layer}
    (h : ∀ l ∈ front, Over rest l) (layers : List Layer) :
    settled (front ++ layers) = settled layers := by
  induction front with
  | nil => rfl
  | cons l front ih =>
      obtain ⟨hl, hfront⟩ := List.forall_mem_cons.mp h
      rw [List.cons_append, settled, if_pos hl.1, ih hfront]

theorem extended_of_over {t : Token} {rest : List Token} {front : List Layer}
    (h : ∀ l ∈ front, Over (t :: rest) l) {i : Nat} (ht : t.tier? = some i)
    (layers : List Layer) : extended i (front ++ layers) = extended i layers := by
  induction front with
  | nil => rfl
  | cons l front ih =>
      obtain ⟨hl, hfront⟩ := List.forall_mem_cons.mp h
      rw [List.cons_append, extended, if_pos (hl.2 t rfl i ht), ih hfront]

end Layer

/-! ## Parsers beside the stack -/

namespace Parser

open Layer

variable {α β : Type} {limit : Nat} {n : Nesting} {p : Parser α} {f : α → Parser β}
  {Q : Nesting → List Token → Prop} {R : Nesting → List Token → Prop} {tokens rest : List Token}

/-- Where the parser succeeds, `Q` holds of the constructs that are then open and of the tokens that
are left; where it gives up, more than `limit` constructs are open. -/
def Tracks (limit : Nat) (n : Nesting) (Q : Nesting → List Token → Prop) (p : Parser α)
    (tokens : List Token) : Prop :=
  match p tokens with
  | .ok (_, rest) => ∃ w, tokens = w ++ rest ∧ Q (n.after w) rest
  | .error (.tooDeep rest) => ∃ w, tokens = w ++ rest ∧ limit < (n.after w).depth
  | .error (.rejected kind _) => kind ≠ .nestingTooDeep

theorem tracks_of_ok {a : α} (hp : p tokens = .ok (a, rest)) {w : List Token}
    (hw : tokens = w ++ rest) (h : Q (n.after w) rest) : Tracks limit n Q p tokens := by
  unfold Tracks
  rw [hp]
  exact ⟨w, hw, h⟩

theorem Tracks.pure (h : Q n tokens) (a : α) :
    Tracks limit n Q (Pure.pure a : Parser α) tokens := ⟨[], rfl, h⟩

theorem Tracks.tooDeep (h : limit < n.depth) : Tracks limit n Q (tooDeep : Parser α) tokens :=
  ⟨[], rfl, h⟩

theorem Tracks.reject {kind : SyntaxError.Kind} (h : kind ≠ .nestingTooDeep) :
    Tracks limit n Q (reject kind : Parser α) tokens := h

theorem Tracks.imp (h : Tracks limit n Q p tokens)
    (hQ : ∀ m rest, Q m rest → R m rest) : Tracks limit n R p tokens := by
  unfold Tracks at h ⊢
  split at h
  · obtain ⟨w, hw, hq⟩ := h
    exact ⟨w, hw, hQ _ _ hq⟩
  · exact h
  · exact h

theorem Tracks.of_eq {q : Parser α} (h : Tracks limit n Q p tokens) (heq : q tokens = p tokens) :
    Tracks limit n Q q tokens := by
  unfold Tracks at h ⊢
  rwa [heq]

/-- What happens behind the first tokens happens behind all of them. -/
theorem Tracks.behind {q : Parser α} {u : List Token} (h : Tracks limit (n.after u) Q p tokens)
    (heq : q (u ++ tokens) = p tokens) : Tracks limit n Q q (u ++ tokens) := by
  unfold Tracks at h ⊢
  rw [heq]
  split at h
  · obtain ⟨w, rfl, hq⟩ := h
    rw [← Nesting.after_append] at hq
    exact ⟨u ++ w, (List.append_assoc ..).symm, hq⟩
  · obtain ⟨w, rfl, hdeep⟩ := h
    rw [← Nesting.after_append] at hdeep
    exact ⟨u ++ w, (List.append_assoc ..).symm, hdeep⟩
  · exact h

theorem bind_of_error {failure : Failure} (h : p tokens = .error failure) :
    (p >>= f) tokens = .error failure := by
  change Parser.bind p f tokens = _
  rw [Parser.bind, h]

theorem Tracks.bind (first : Tracks limit n Q p tokens)
    (second : ∀ a m rest, rest.length ≤ tokens.length → Q m rest → Tracks limit m R (f a) rest) :
    Tracks limit n R (p >>= f) tokens := by
  cases hp : p tokens with
  | error failure =>
      unfold Tracks at first ⊢
      rw [hp] at first
      rw [bind_of_error hp]
      cases failure with
      | rejected kind rest => exact first
      | tooDeep rest => exact first
  | ok result =>
      obtain ⟨a, rest⟩ := result
      unfold Tracks at first
      rw [hp] at first
      obtain ⟨w, rfl, hq⟩ := first
      have hlength : rest.length ≤ (w ++ rest).length := by
        rw [List.length_append]
        omega
      exact (second a _ rest hlength hq).behind (bind_of_ok hp)

/-! ## Single tokens -/

theorem Tracks.bind_accept {s : Symbol} {f : Bool → Parser β}
    (yes : ∀ rest, rest.length < tokens.length → Tracks limit (n.afterSymbol s) R (f true) rest)
    (no : Tracks limit n R (f false) tokens) : Tracks limit n R (accept s >>= f) tokens := by
  by_cases h : ∃ t ∈ tokens.head?, t.lexeme = .symbol s
  · obtain ⟨⟨lexeme, p⟩, ht, rfl⟩ := h
    obtain ⟨rest, rfl⟩ := List.head?_eq_some_iff.mp ht
    have hlength : rest.length < (⟨.symbol s, p⟩ :: rest : List Token).length := by simp
    exact (yes rest hlength).behind (u := [⟨.symbol s, p⟩]) (bind_of_ok (accept_symbol s p rest))
  · have hother : ∀ t ∈ tokens.head?, t.lexeme ≠ .symbol s := fun t ht hs => h ⟨t, ht, hs⟩
    exact no.of_eq (bind_of_ok (accept_other hother))

theorem Tracks.bind_require {s : Symbol} {kind : SyntaxError.Kind} {f : Unit → Parser β}
    (hkind : kind ≠ .nestingTooDeep)
    (h : ∀ rest, rest.length < tokens.length → Tracks limit (n.afterSymbol s) R (f ()) rest) :
    Tracks limit n R (require s kind >>= f) tokens := by
  have hrequire : Tracks limit n
      (fun m rest => m = n.afterSymbol s ∧ rest.length < tokens.length) (require s kind) tokens :=
    .bind_accept (fun rest hrest => .pure ⟨rfl, hrest⟩ ()) (.reject hkind)
  apply hrequire.bind
  intro _ m rest _ hm
  rw [hm.1]
  exact h rest hm.2

theorem tracks_requireName {kind : SyntaxError.Kind} (hkind : kind ≠ .nestingTooDeep) :
    Tracks limit n (fun m _ => ∃ name p, m = n.step ⟨.identifier name, p⟩) (requireName kind)
      tokens := by
  cases tokens with
  | nil => exact hkind
  | cons t rest =>
      obtain ⟨lexeme, p⟩ := t
      cases lexeme with
      | identifier name =>
          exact tracks_of_ok (w := [⟨.identifier name, p⟩]) rfl rfl ⟨name, p, rfl⟩
      | _ => exact hkind

/-! ## Items with commas between them -/

section

variable {item : Parser α} {layers : List Layer}

/-- Once the expression or name read last is over, the same constructs are open as before it. -/
def Back (layers : List Layer) (m : Nesting) (_ : List Token) : Prop := settled m.layers = layers

/-- Wherever the parser begins with `layers` open, it comes back to them. -/
def TracksBack (limit : Nat) (p : Parser α) (layers : List Layer) : Prop :=
  ∀ tokens, Tracks limit ⟨layers, .operand⟩ (Back layers) p tokens

theorem Back.comma {m : Nesting} (h : Back layers m rest) :
    m.afterSymbol .comma = ⟨layers, .operand⟩ := by
  rw [← h]
  rfl

theorem Back.closeParen {m : Nesting} (h : Back layers m rest) :
    m.afterSymbol .closeParen = ⟨layers.tail, .complete⟩ := by
  rw [← h]
  rfl

theorem tracks_separatedFrom (hitem : TracksBack limit item layers) (rounds : List Token) :
    TracksBack limit (separatedFrom item rounds) layers := by
  induction rounds with
  | nil => exact fun tokens => (hitem tokens).bind fun _ _ _ _ back => .pure back _
  | cons round rounds ih =>
      intro tokens
      apply (hitem tokens).bind
      intro a m rest _ back
      apply Tracks.bind_accept
      · intro rest' _
        rw [back.comma]
        exact (ih rest').bind fun _ _ _ _ back => .pure back _
      · exact .pure back _

theorem tracks_listed {kind : SyntaxError.Kind} (hkind : kind ≠ .nestingTooDeep)
    (hlayers : settled layers = layers) (hitem : TracksBack limit item layers) :
    Tracks limit ⟨layers, .operand⟩ (fun m _ => m = ⟨layers.tail, .complete⟩) (listed item kind)
      tokens := by
  apply Tracks.bind_accept
  · intro rest _
    have back : Back layers ⟨layers, .operand⟩ rest := hlayers
    exact .pure back.closeParen _
  · have hseparated : Tracks limit ⟨layers, .operand⟩ (Back layers) (separated item) tokens :=
      tracks_separatedFrom hitem tokens tokens
    exact hseparated.bind fun _ m rest _ back =>
      .bind_require hkind fun rest' _ => .pure back.closeParen _

end

/-! ## Patterns -/

section

variable {σ : Type} {readers : σ → Parser Node}

/-- All that is read along the pattern is tracked from where it begins on, and what is open behind
it satisfies `Q`. -/
def Pattern.Traced (limit : Nat) (readers : σ → Parser Node) (Q : Nesting → List Token → Prop) :
    Pattern σ → Nesting → List Token → Prop
  | .done, n, rest => Q n rest
  | .read item next, n, _ =>
      ∃ R, (∀ tokens, Tracks limit n R (item.parser readers) tokens) ∧
        ∀ m rest, R m rest → next.Traced limit readers Q m rest
  | .list item _ next, n, _ =>
      ∃ layers, n = ⟨layers, .operand⟩ ∧ settled layers = layers ∧
        TracksBack limit (item.parser readers) layers ∧
          ∀ rest, next.Traced limit readers Q ⟨layers.tail, .complete⟩ rest
  | .require s _ next, n, _ => ∀ rest, next.Traced limit readers Q (n.afterSymbol s) rest
  | .branch s yes no, n, rest =>
      (∀ rest, yes.Traced limit readers Q (n.afterSymbol s) rest) ∧
        no.Traced limit readers Q n rest

theorem Pattern.Traced.tracks {pattern : Pattern σ}
    (h : pattern.Traced limit readers Q n tokens)
    (hkinds : ∀ kind ∈ pattern.kinds, ParserKind kind) :
    Tracks limit n Q (pattern.parser readers) tokens := by
  induction pattern generalizing n tokens with
  | done => exact .pure h ()
  | read item next ih =>
      obtain ⟨R, hitem, hnext⟩ := h
      obtain ⟨-, hkinds⟩ := List.forall_mem_append.mp hkinds
      apply (hitem tokens).bind
      intro a m rest _ hm
      exact (ih (hnext m rest hm) hkinds).bind fun _ _ _ _ hQ => .pure hQ _
  | list item kind next ih =>
      obtain ⟨layers, rfl, hlayers, hitem, hnext⟩ := h
      obtain ⟨-, hkinds⟩ := List.forall_mem_append.mp hkinds
      obtain ⟨hkind, hkinds⟩ := List.forall_mem_cons.mp hkinds
      apply (tracks_listed hkind.ne_nestingTooDeep hlayers hitem).bind
      intro as m rest _ hm
      rw [hm]
      exact (ih (hnext rest) hkinds).bind fun _ _ _ _ hQ => .pure hQ _
  | require s kind next ih =>
      obtain ⟨hkind, hkinds⟩ := List.forall_mem_cons.mp hkinds
      exact .bind_require hkind.ne_nestingTooDeep fun rest _ => ih (h rest) hkinds
  | branch s yes no ihyes ihno =>
      obtain ⟨hyes, hno⟩ := List.forall_mem_append.mp hkinds
      apply Tracks.bind_accept
      · exact fun rest _ => (ihyes (h.1 rest) hyes).bind fun _ _ _ _ hQ => .pure hQ _
      · exact (ihno h.2 hno).bind fun _ _ _ _ hQ => .pure hQ _

theorem Form.tracks {form : Form σ} (h : form.pattern.Traced limit readers Q n tokens)
    (hkinds : ∀ kind ∈ form.pattern.kinds, ParserKind kind) (p : Position) :
    Tracks limit n Q (form.parser readers p) tokens :=
  (h.tracks hkinds).bind fun _ _ _ _ hQ => .pure hQ _

end

/-! ## Expressions -/

/-- An operand is over: what it has left open ends before the next token. -/
def AfterOperand (layers : List Layer) (m : Nesting) (rest : List Token) : Prop :=
  m.stance = .complete ∧ ∃ front, m.layers = front ++ layers ∧ ∀ l ∈ front, Over rest l

/-- All is read that operators of tier `i` and tighter join: the next token is none that the
expression could go on with, and of looser operators nothing was used. -/
def AfterTier (i : Nat) (c : Construct) (f : Frame) (layers : List Layer) (m : Nesting)
    (rest : List Token) : Prop :=
  m.stance = .complete ∧ ∃ front g, m.layers = front ++ ⟨c, g⟩ :: layers ∧
    (∀ l ∈ front, Over rest l) ∧ (∀ j < i, g.blocks j = f.blocks j) ∧
      ∀ t ∈ rest.head?, ∀ j, i ≤ j → t.tier? = some j → g.blocks j = true

theorem AfterTier.back {c : Construct} (hc : (opening c).trails = false) {i : Nat} {f : Frame}
    {layers : List Layer} {m : Nesting} (h : AfterTier i c f layers m rest) :
    Back (opening c :: layers) m rest := by
  obtain ⟨-, front, g, hlayers, hfront, -⟩ := h
  have htrails : (⟨c, g⟩ : Layer).trails = false := hc
  rw [Back, hlayers, settled_of_over hfront, settled, if_neg (by simp [htrails])]

section

variable {op inner : Parser Node} {layers : List Layer} {c : Construct} {f : Frame} {i : Nat}

/-- How operands are read at a place with `layers` open. -/
def TracksOperand (limit : Nat) (op : Parser Node) (layers : List Layer) : Prop :=
  ∀ tokens, Tracks limit ⟨layers, .operand⟩ (AfterOperand layers) op tokens

/-- How expressions are read directly inside the construct `c`. -/
def TracksExpression (limit : Nat) (p : Parser Node) (c : Construct) (layers : List Layer) : Prop :=
  ∀ tokens, Tracks limit ⟨opening c :: layers, .operand⟩ (AfterTier 0 c .fresh layers) p tokens

def TracksTier (limit i : Nat) (p : Parser Node) (c : Construct) (layers : List Layer) : Prop :=
  ∀ f tokens, (∀ j, i ≤ j → f.blocks j = false) →
    Tracks limit ⟨⟨c, f⟩ :: layers, .operand⟩ (AfterTier i c f layers) p tokens

theorem endsBefore_eq_false (hc : c ≠ .sign) (hf : f.blocks i = false) :
    (⟨c, f⟩ : Layer).endsBefore i = false := by
  cases c with
  | sign => exact absurd rfl hc
  | rightSide => exact hf
  | _ => rfl

theorem AfterTier.of_agree {f' : Frame} {m : Nesting} (h : AfterTier i c f layers m rest)
    (hf : ∀ j < i, f.blocks j = f'.blocks j) : AfterTier i c f' layers m rest := by
  obtain ⟨hstance, front, g, hlayers, hfront, hg, hnext⟩ := h
  refine ⟨hstance, front, g, hlayers, hfront, ?_, hnext⟩
  intro j hj
  rw [hg j hj, hf j hj]

theorem AfterTier.looser {m : Nesting} (h : AfterTier (i + 1) c f layers m rest)
    (hnone : ∀ t ∈ rest.head?, t.tier? ≠ some i) : AfterTier i c f layers m rest := by
  obtain ⟨hstance, front, g, hlayers, hfront, hg, hnext⟩ := h
  refine ⟨hstance, front, g, hlayers, hfront, fun j hj => hg j (by omega), ?_⟩
  intro t ht j hj htier
  have hne : j ≠ i := by
    intro hji
    exact hnone t ht (hji ▸ htier)
  exact hnext t ht j (by omega) htier

/-- One operator of the tier with what follows it. -/
theorem tracks_joint (hc : c ≠ .sign) (hinner : TracksTier limit (i + 1) inner c layers)
    {m : Nesting} {t : Token} (ht : t.tier? = some i)
    (h : AfterTier (i + 1) c f layers m (t :: rest)) (hf : f.blocks i = false) :
    Tracks limit (m.step t) (AfterTier (i + 1) c (f.after i) layers) inner rest := by
  obtain ⟨hstance, front, g, hlayers, hfront, hg, -⟩ := h
  have hopen : g.blocks i = false := by rw [hg i (by omega), hf]
  have hstep : m.step t = ⟨⟨c, g.after i⟩ :: layers, .operand⟩ := by
    obtain ⟨s, p, rfl, hs⟩ := Token.tier?_eq_some ht
    rw [Nesting.step_symbol, Nesting.afterSymbol_operator hstance hs, hlayers,
      extended_of_over hfront ht, extended, endsBefore_eq_false hc hopen]
    rfl
  rw [hstep]
  apply (hinner (g.after i) rest fun j hj => Frame.blocks_after_of_lt hj g).imp
  intro m' rest' h'
  apply h'.of_agree
  intro j hj
  by_cases hji : j = i
  · rw [hji, Frame.blocks_after_self, Frame.blocks_after_self]
  · rw [Frame.blocks_after_of_gt (by omega), Frame.blocks_after_of_gt (by omega), hg j hj]

theorem Tracks.bind_acceptAny (hi : i < 7) {f : Option Symbol → Parser β} {m : Nesting}
    (yes : ∀ t rest s, tokens = t :: rest → t.tier? = some i →
      Tracks limit (m.step t) R (f (some s)) rest)
    (no : (∀ t ∈ tokens.head?, t.tier? ≠ some i) → Tracks limit m R (f none) tokens) :
    Tracks limit m R (acceptAny (tierSymbols i) >>= f) tokens := by
  by_cases hnext : ∃ t ∈ tokens.head?, t.tier? = some i
  · obtain ⟨t, ht, htier⟩ := hnext
    obtain ⟨rest, rfl⟩ := List.head?_eq_some_iff.mp ht
    obtain ⟨s, hs⟩ := acceptAny_operator hi htier rest
    exact (yes t rest s rfl htier).behind (u := [t]) (bind_of_ok hs)
  · have hnone : ∀ t ∈ tokens.head?, t.tier? ≠ some i := fun t ht htier => hnext ⟨t, ht, htier⟩
    exact (no hnone).of_eq (bind_of_ok (acceptAny_no_operator hi hnone))

theorem tracks_chainFrom (hi : i < 7) (hlone : ¬ Lone i) (hc : c ≠ .sign)
    (hinner : TracksTier limit (i + 1) inner c layers) (rounds : List Token) {m : Nesting}
    (left : Node) (h : AfterTier (i + 1) c f layers m tokens) (hf : f.blocks i = false)
    (hrounds : tokens.length ≤ rounds.length) :
    Tracks limit m (AfterTier i c f layers) (chainFrom (tierSymbols i) inner rounds left)
      tokens := by
  -- the frame changes with every operator, but not for looser ones
  induction rounds generalizing f m tokens left with
  | nil =>
      obtain rfl : tokens = [] := List.length_eq_zero_iff.mp (by simpa using hrounds)
      exact .pure (h.looser (by simp)) _
  | cons round rounds ih =>
      apply Tracks.bind_acceptAny hi
      · intro t rest s htokens ht
        subst htokens
        apply (tracks_joint hc hinner ht h hf).bind
        intro right m' rest' hlength h'
        have hopen : (f.after i).blocks i = false := by
          rw [Frame.blocks_after_self, decide_eq_false hlone]
        rw [List.length_cons, List.length_cons] at hrounds
        apply (ih _ h' hopen (by omega)).imp
        intro m'' rest'' h''
        exact h''.of_agree fun j hj => Frame.blocks_after_of_gt hj f
      · intro hnone
        exact .pure (h.looser hnone) _

theorem tracks_chainFrom_one (hi : i < 7) (hlone : Lone i) (hc : c ≠ .sign)
    (hinner : TracksTier limit (i + 1) inner c layers) {m : Nesting} (left : Node)
    (h : AfterTier (i + 1) c f layers m tokens) (hf : f.blocks i = false) :
    Tracks limit m (AfterTier i c f layers)
      (chainFrom (tierSymbols i) inner (tokens.take 1) left) tokens := by
  cases tokens with
  | nil => exact .pure (h.looser (by simp)) _
  | cons t tokens =>
      apply Tracks.bind_acceptAny hi
      · intro t' rest s htokens ht
        cases htokens
        apply (tracks_joint hc hinner ht h hf).bind
        intro right m' rest' _ h'
        obtain ⟨hstance, front, g, hlayers, hfront, hg, hnext⟩ := h'
        apply Tracks.pure
        refine ⟨hstance, front, g, hlayers, hfront, ?_, ?_⟩
        · intro j hj
          rw [hg j (by omega), Frame.blocks_after_of_gt hj]
        · intro t' ht' j hj htier
          -- the operator itself blocks another one of its tier
          by_cases hji : j = i
          · rw [hji, hg i (by omega), Frame.blocks_after_self, decide_eq_true hlone]
          · exact hnext t' ht' j (by omega) htier
      · intro hnone
        exact .pure (h.looser hnone) _

theorem tracks_climb (hc : c ≠ .sign) (hop : ∀ f, TracksOperand limit op (⟨c, f⟩ :: layers))
    (hi : i ≤ 7) : TracksTier limit i (climb op (levels.drop i)) c layers := by
  -- from the tightest tier, which is a bare operand, to the loosest
  induction hk : 7 - i generalizing i with
  | zero =>
      obtain rfl : i = 7 := by omega
      intro f tokens hf
      apply (hop f tokens).imp
      intro m rest h
      obtain ⟨hstance, front, hlayers, hfront⟩ := h
      refine ⟨hstance, front, f, hlayers, hfront, fun _ _ => rfl, ?_⟩
      intro t ht j hj htier
      have hlt := Token.tier?_lt htier
      omega
  | succ k ih =>
      have hlt : i < levels.length := by
        have hlength : levels.length = 7 := rfl
        omega
      obtain ⟨level, tighter, hdrop⟩ : ∃ level tighter, levels.drop i = level :: tighter :=
        ⟨_, _, List.drop_eq_getElem_cons hlt⟩
      obtain ⟨hi, rfl, hoperators, hrepeats⟩ := drop_levels hdrop
      have hinner : TracksTier limit (i + 1) (climb op (levels.drop (i + 1))) c layers :=
        ih (by omega) (by omega)
      intro f tokens hf
      rw [hdrop]
      apply (hinner f tokens fun j hj => hf j (by omega)).bind
      intro left m rest _ h
      by_cases hlone : Lone i
      · refine Tracks.of_eq ?_ (chain_of_lone (hrepeats.mpr hlone) _ left rest)
        rw [hoperators]
        exact tracks_chainFrom_one hi hlone hc hinner left h (hf i (Nat.le_refl i))
      · have htrue : level.repeats = true := by
          cases hcase : level.repeats with
          | true => rfl
          | false => exact absurd (hrepeats.mp hcase) hlone
        refine Tracks.of_eq ?_ (chain_of_repeats htrue _ left rest)
        rw [hoperators]
        exact tracks_chainFrom hi hlone hc hinner rest left h (hf i (Nat.le_refl i)) (Nat.le_refl _)

theorem tracks_expression (hc : c ≠ .sign)
    (hop : ∀ f, TracksOperand limit op (⟨c, f⟩ :: layers)) :
    TracksExpression limit (expression op) c layers := by
  intro tokens
  exact tracks_climb hc hop (Nat.zero_le 7) .fresh tokens fun j _ => Frame.fresh_blocks j

/-! ## Operands -/

theorem afterOperand_self (layers : List Layer) (rest : List Token) :
    AfterOperand layers ⟨layers, .complete⟩ rest :=
  ⟨rfl, [], rfl, fun _ h => absurd h List.not_mem_nil⟩

/-- A construct around the operand ends together with it. -/
theorem AfterOperand.outer {l : Layer} {m : Nesting} (h : AfterOperand (l :: layers) m rest)
    (hl : Over rest l) : AfterOperand layers m rest := by
  obtain ⟨hstance, front, hlayers, hfront⟩ := h
  refine ⟨hstance, front ++ [l], ?_, ?_⟩
  · rw [hlayers, List.append_assoc, List.singleton_append]
  · intro l' hl'
    rcases List.mem_append.mp hl' with hmem | hmem
    · exact hfront l' hmem
    · rw [List.mem_singleton.mp hmem]
      exact hl

theorem AfterTier.rightSide {m : Nesting} (h : AfterTier 0 .rightSide f layers m rest) :
    AfterOperand layers m rest := by
  obtain ⟨hstance, front, g, hlayers, hfront, -, hnext⟩ := h
  have hoperand : AfterOperand (⟨.rightSide, g⟩ :: layers) m rest :=
    ⟨hstance, front, hlayers, hfront⟩
  exact hoperand.outer ⟨rfl, fun t ht j htier => hnext t ht j (Nat.zero_le j) htier⟩

theorem traced_operandForm (hop : TracksOperand limit op (opening .sign :: layers))
    (hinner : ∀ c ∈ [.parens, .rightSide], TracksExpression limit inner c layers) {l : Lexeme}
    {form : Form Inside} (hform : operandForm (some l) = .ok form) (p : Position)
    (tokens : List Token) :
    form.pattern.Traced limit (insideReaders op inner) (AfterOperand layers)
      ((⟨layers, .operand⟩ : Nesting).step ⟨l, p⟩) tokens := by
  have hsign : ∃ R, (∀ tokens, Tracks limit ⟨opening .sign :: layers, .operand⟩ R op tokens) ∧
      ∀ m rest, R m rest → AfterOperand layers m rest :=
    ⟨_, hop, fun m rest h => h.outer ⟨rfl, fun _ _ _ _ => rfl⟩⟩
  cases l with
  | number | boolean | string =>
      cases hform
      exact afterOperand_self layers tokens
  | identifier name =>
      cases hform
      refine ⟨fun rest => ?_, fun rest => ?_, afterOperand_self layers tokens⟩
      · have hitem : TracksBack limit inner (opening .parens :: layers) := by
          intro tokens
          apply (hinner .parens (by simp) tokens).imp
          intro m rest h
          exact h.back rfl
        exact ⟨_, rfl, rfl, hitem, afterOperand_self layers⟩
      · exact ⟨_, hinner .rightSide (by simp), fun m rest h => h.rightSide⟩
  | symbol s =>
      cases s with
      | nil =>
          cases hform
          exact afterOperand_self layers tokens
      | bang | minus =>
          cases hform
          exact hsign
      | openParen =>
          cases hform
          refine ⟨_, hinner .parens (by simp), fun m rest h rest => ?_⟩
          rw [(h.back rfl).closeParen]
          exact afterOperand_self layers rest
      | _ => cases hform

theorem tracks_operandWith (hop : TracksOperand limit op (opening .sign :: layers))
    (hinner : ∀ c ∈ [.parens, .rightSide], TracksExpression limit inner c layers) :
    TracksOperand limit (operandWith op inner) layers := by
  intro tokens
  refine Tracks.of_eq ?_ (operandWith_by op inner tokens)
  unfold operandBy
  cases hform : operandForm (nextLexeme? tokens) with
  | error kind => exact .reject (operandForm_error hform).ne_nestingTooDeep
  | ok form =>
      cases tokens with
      | nil => cases hform
      | cons t rest =>
          have h := traced_operandForm hop hinner hform t.position rest
          exact (form.tracks h (kinds_operandForm hform) t.position).behind (u := [t]) rfl

theorem depth_cons_of_nests {l : Layer} (h : l.nests = true) (layers : List Layer) :
    depth (l :: layers) = depth layers + 1 :=
  List.countP_cons_of_pos (p := nests) h

theorem tracks_operand (d : Nat) (layers : List Layer) (h : limit ≤ depth layers + d) :
    TracksOperand limit (operand d) layers := by
  induction d generalizing layers with
  | zero =>
      have deep : ∀ c, (opening c).nests = true → limit < depth (opening c :: layers) := by
        intro c hc
        rw [depth_cons_of_nests hc]
        omega
      apply tracks_operandWith
      · intro tokens
        exact .tooDeep (deep .sign rfl)
      · intro c hc tokens
        refine .tooDeep (deep c ?_)
        revert c
        decide
  | succ d ih =>
      have room : ∀ l : Layer, l.nests = true → limit ≤ depth (l :: layers) + d := by
        intro l hl
        rw [depth_cons_of_nests hl]
        omega
      apply tracks_operandWith
      · exact ih _ (room _ rfl)
      · intro c hc
        simp only [List.mem_cons, List.not_mem_nil, or_false] at hc
        rcases hc with rfl | rfl
        · exact tracks_expression (by decide) fun f => ih _ (room _ rfl)
        · exact tracks_expression (by decide) fun f => ih _ (room _ rfl)

end

/-! ## Statements -/

section

variable {expr inner statement : Parser Node} {more : Parser (List Node)} {layers : List Layer}

theorem Back.colon {m : Nesting} (h : Back layers m rest) :
    m.afterSymbol .colon = ⟨opening .body :: layers, .operand⟩ := by
  rw [← h]
  rfl

theorem Back.elseWord {m : Nesting} (h : Back (opening .body :: layers) m rest) :
    m.afterSymbol .elseWord = ⟨opening .body :: layers, .operand⟩ := by
  change Nesting.mk (opening .body :: (settled m.layers).tail) .operand = _
  rw [show settled m.layers = _ from h, List.tail_cons]

theorem Back.semicolon {m : Nesting} (h : Back (opening .body :: layers) m rest) :
    m.afterSymbol .semicolon = ⟨layers, .operand⟩ := by
  change Nesting.mk (settled m.layers).tail .operand = _
  rw [show settled m.layers = _ from h, List.tail_cons]

/-- A control statement is over, up to its last token. -/
def Done (layers : List Layer) (m : Nesting) (_ : List Token) : Prop := m = ⟨layers, .operand⟩

section

variable (hlayers : settled layers = layers) (hexpr : TracksBack limit expr layers)
  (hinner : TracksBack limit inner (opening .body :: layers))

include hlayers hexpr hinner

theorem traced_control {l : Lexeme} {form : Form Clause} (hform : start (some l) = .control form)
    (p : Position) (tokens : List Token) :
    form.pattern.Traced limit (clauseReaders expr inner) (Done layers)
      ((⟨layers, .operand⟩ : Nesting).step ⟨l, p⟩) tokens := by
  have hending {m : Nesting} {rest : List Token} (back : Back (opening .body :: layers) m rest) :
      Pattern.ending.Traced limit (clauseReaders expr inner) (Done layers) m rest :=
    fun _ => back.semicolon
  have hbody {next : Pattern Clause} {m : Nesting} {rest : List Token} (back : Back layers m rest)
      (hnext : ∀ {m rest}, Back (opening .body :: layers) m rest →
        next.Traced limit (clauseReaders expr inner) (Done layers) m rest) (tokens : List Token) :
      (Pattern.read (.tree .body) next).Traced limit (clauseReaders expr inner) (Done layers)
        (m.afterSymbol .colon) tokens := by
    rw [back.colon]
    exact ⟨_, hinner, fun _ _ => hnext⟩
  cases l with
  | symbol s =>
      cases s with
      | ifWord =>
          cases hform
          refine ⟨_, hexpr, fun m rest back => hbody back fun back => ⟨fun rest => ?_, ?_⟩⟩
          · rw [back.elseWord]
            exact ⟨_, hinner, fun _ _ => hending⟩
          · exact hending back
      | whileWord =>
          cases hform
          exact ⟨_, hexpr, fun m rest back => hbody back hending⟩
      | fnWord =>
          cases hform
          refine ⟨_, fun _ => tracks_requireName (by decide), ?_⟩
          rintro _ _ ⟨name, q, rfl⟩
          refine fun _ => ⟨_, rfl, rfl, fun tokens => ?_, fun rest => ?_⟩
          · apply (tracks_requireName (by decide)).imp
            rintro m rest ⟨name, q, rfl⟩
            rfl
          · have back : Back layers ⟨layers, .complete⟩ rest := hlayers
            exact hbody back hending
      | _ => cases hform
  | _ => cases hform

omit hlayers hinner in
theorem traced_simple {l : Lexeme} {form : Form Clause} (hform : start (some l) = .simple form)
    (p : Position) (tokens : List Token) :
    form.pattern.Traced limit (clauseReaders expr inner) (Back layers)
      ((⟨layers, .operand⟩ : Nesting).step ⟨l, p⟩) tokens := by
  cases l with
  | symbol s =>
      cases s with
      | retWord =>
          cases hform
          exact ⟨_, hexpr, fun _ _ back => back⟩
      | nonlocalWord =>
          cases hform
          refine ⟨_, fun _ => tracks_requireName (by decide), ?_⟩
          rintro _ _ ⟨name, q, rfl⟩
          exact fun _ => ⟨_, hexpr, fun _ _ back => back⟩
      | _ => cases hform
  | _ => cases hform

end

theorem tracks_afterControl (hlayers : settled layers = layers) {n : Nesting}
    (hmore : TracksBack limit more layers)
    (hstatement : Tracks limit n (Done layers) statement tokens) :
    Tracks limit n (Back layers) (afterControl more statement) tokens := by
  apply hstatement.bind
  intro first m rest _ hm
  rw [hm]
  have hrest : ∀ rest, Tracks limit ⟨layers, .operand⟩ (Back layers)
      (more >>= fun others => Pure.pure (first :: others)) rest :=
    fun rest => (hmore rest).bind fun _ _ _ _ back => .pure back _
  apply Tracks.bind_accept
  · intro rest' _
    have back : Back layers ⟨layers, .operand⟩ rest := hlayers
    rw [back.comma]
    exact hrest rest'
  · exact hrest rest

theorem tracks_afterSimple {n : Nesting} (hmore : TracksBack limit more layers)
    (hstatement : Tracks limit n (Back layers) statement tokens) :
    Tracks limit n (Back layers) (afterSimple more statement) tokens := by
  apply hstatement.bind
  intro first m rest _ back
  apply Tracks.bind_accept
  · intro rest' _
    rw [back.comma]
    exact (hmore rest').bind fun _ _ _ _ back => .pure back _
  · exact .pure back _

theorem tracks_statementsFrom (hlayers : settled layers = layers)
    (hexpr : TracksBack limit expr layers)
    (hinner : TracksBack limit inner (opening .body :: layers)) (rounds : List Token) :
    TracksBack limit (statementsFrom expr inner rounds) layers := by
  induction rounds with
  | nil => exact fun tokens => .pure hlayers _
  | cons round rounds ih =>
      intro tokens
      apply Tracks.of_eq (p := statementsBy expr inner (statementsFrom expr inner rounds)
        (nextLexeme? tokens)) _ (statementsFrom_cons_by expr inner round rounds tokens)
      unfold statementsBy
      cases hstart : start (nextLexeme? tokens) with
      | stop => exact .pure hlayers _
      | control form =>
          cases tokens with
          | nil => cases hstart
          | cons t rest =>
              have h := traced_control hlayers hexpr hinner hstart t.position rest
              have hread := form.tracks h (kinds_control hstart) t.position
              exact (tracks_afterControl hlayers ih hread).behind (u := [t]) rfl
      | simple form =>
          cases tokens with
          | nil => cases hstart
          | cons t rest =>
              have h : form.pattern.Traced limit (clauseReaders expr inner) _ _ rest :=
                traced_simple hexpr hstart t.position rest
              have hread := form.tracks h (kinds_simple hstart) t.position
              exact (tracks_afterSimple ih hread).behind (u := [t]) rfl
      | expression => exact tracks_afterSimple ih (hexpr tokens)

theorem tracks_body (hsequence : TracksBack limit more layers) :
    TracksBack limit (body more) layers := by
  intro tokens
  have h := hsequence tokens
  unfold Tracks at h ⊢
  unfold body
  cases hmore : more tokens with
  | error failure =>
      rw [hmore] at h
      cases failure <;> exact h
  | ok result =>
      rw [hmore] at h
      exact h

theorem settled_opening {c : Construct} (hc : (opening c).trails = false) (layers : List Layer) :
    settled (opening c :: layers) = opening c :: layers := by
  rw [settled, if_neg (by simp [hc])]
  rfl

theorem tracks_expression_in_statement (d : Nat) {c : Construct} (hc : (opening c).trails = false)
    (layers : List Layer) (h : limit ≤ depth (opening c :: layers) + d) :
    TracksBack limit (expression (operand d)) (opening c :: layers) := by
  have hsign : c ≠ .sign := by
    intro heq
    rw [heq] at hc
    cases hc
  have hop : ∀ f, TracksOperand limit (operand d) (⟨c, f⟩ :: layers) := by
    intro f
    apply tracks_operand
    rw [depth_frame c f .fresh layers]
    exact h
  intro tokens
  exact (tracks_expression hsign hop tokens).imp fun m rest hm => hm.back hc

/-- Statements with `d` levels left, where all but `d` of `limit` constructs are open. -/
theorem tracks_statements (d : Nat) {c : Construct} (hc : (opening c).trails = false)
    (layers : List Layer) (h : limit ≤ depth (opening c :: layers) + d) :
    TracksBack limit (statements d) (opening c :: layers) := by
  have hsettled := settled_opening hc layers
  have hexpr := tracks_expression_in_statement d hc layers h
  have hdepth : depth (opening .body :: opening c :: layers) = depth (opening c :: layers) + 1 :=
    depth_cons_of_nests rfl _
  cases d with
  | zero =>
      have hinner : TracksBack limit (tooDeep : Parser Node)
          (opening .body :: opening c :: layers) := by
        intro tokens
        apply Tracks.tooDeep
        change limit < depth (opening .body :: opening c :: layers)
        omega
      exact fun tokens => tracks_statementsFrom hsettled hexpr hinner tokens tokens
  | succ d =>
      have hinner : TracksBack limit (body (statements d))
          (opening .body :: opening c :: layers) :=
        tracks_body (tracks_statements d rfl _ (by omega))
      exact fun tokens => tracks_statementsFrom hsettled hexpr hinner tokens tokens

/-- A program that is read to its end leaves nothing open. -/
theorem tracks_root (limit : Nat) (tokens : List Token) :
    Tracks limit .start (fun m rest => rest = [] ∧ Back [opening .program] m rest) (root limit)
      tokens := by
  have h : Tracks limit .start (Back [opening .program]) (statements limit) tokens :=
    tracks_statements limit rfl [] (Nat.le_add_left ..) tokens
  unfold Tracks at h ⊢
  unfold root
  cases hread : statements limit tokens with
  | error failure =>
      rw [hread] at h
      cases failure <;> exact h
  | ok result =>
      rw [hread] at h
      obtain ⟨nodes, rest⟩ := result
      obtain ⟨w, hw, back⟩ := h
      cases rest with
      | nil => exact ⟨w, hw, rfl, back⟩
      | cons t rest => exact (by decide : SyntaxError.Kind.unexpectedToken ≠ .nestingTooDeep)

end

end Parser

/-! ## Sources -/

namespace Parsed

theorem kind_errorOf_rejected {kind : SyntaxError.Kind} (h : kind ≠ .nestingTooDeep)
    (ending : Ending) (rest : List Token) :
    (errorOf ending (.rejected kind rest)).kind ≠ .nestingTooDeep := by
  cases rest with
  | cons t rest => exact h
  | nil =>
      cases ending with
      | finished p => exact h
      | unclosed quote => exact (by decide : SyntaxError.Kind.unterminatedString ≠ .nestingTooDeep)

/-- Where reading gives up, more than `limit` constructs are open. -/
theorem exists_deep {limit : Nat} {bytes : List UInt8} {e : SyntaxError}
    (he : e ∈ (Parsed.ofBytes limit bytes).error) (hkind : e.kind = .nestingTooDeep) :
    ∃ taken, taken <+: (Scan.ofBytes bytes).tokens ∧ limit < (Nesting.start.after taken).depth := by
  have h := Parser.tracks_root limit (Scan.ofBytes bytes).tokens
  unfold Parser.Tracks at h
  unfold ofBytes ofScan at he
  cases hroot : Parser.root limit (Scan.ofBytes bytes).tokens with
  | error failure =>
      rw [hroot] at h he
      cases failure with
      | rejected kind rest =>
          obtain rfl := Option.some.inj he
          exact absurd hkind (kind_errorOf_rejected h _ rest)
      | tooDeep rest =>
          obtain ⟨w, hw, hdeep⟩ := h
          exact ⟨w, ⟨rest, hw.symm⟩, hdeep⟩
  | ok result =>
      rw [hroot] at he
      cases hending : (Scan.ofBytes bytes).ending with
      | finished p =>
          rw [hending] at he
          cases he
      | unclosed quote =>
          rw [hending] at he
          obtain rfl := Option.some.inj he
          cases hkind

/-- Where reading finds no error, all that was opened is closed again. -/
theorem closed_of_no_error {limit : Nat} {bytes : List UInt8}
    (h : (Parsed.ofBytes limit bytes).error = none) :
    Layer.settled (Nesting.start.after (Scan.ofBytes bytes).tokens).layers =
      Nesting.start.layers := by
  have hroot := Parser.tracks_root limit (Scan.ofBytes bytes).tokens
  unfold Parser.Tracks at hroot
  unfold ofBytes ofScan at h
  cases hread : Parser.root limit (Scan.ofBytes bytes).tokens with
  | error failure =>
      rw [hread] at h
      cases h
  | ok result =>
      rw [hread] at hroot
      obtain ⟨w, hw, hrest, back⟩ := hroot
      rw [hw, hrest, List.append_nil]
      exact back

/-- Only nesting exhausts the parser. A source of any length in which no more than `few` constructs
are open behind any of its tokens is never found to nest too deep. A token opens one construct at
most: commas, names, literals and the operators between operands open none. In a source that is read
without an error all of them are closed at the end. -/
theorem exhausted_only_by_nesting (few limit : Nat) (bytes : List UInt8)
    (shallow : ∀ taken, taken <+: (Scan.ofBytes bytes).tokens →
      (Nesting.start.after taken).depth ≤ few) (enough : few ≤ limit) :
    (∀ e ∈ (Parsed.ofBytes limit bytes).error, e.kind ≠ .nestingTooDeep) ∧
      (∀ taken t, (Nesting.start.after (taken ++ [t])).depth ≤
        (Nesting.start.after taken).depth + ((Nesting.start.after taken).opens t).toNat) ∧
      ((Parsed.ofBytes limit bytes).error = none →
        Layer.settled (Nesting.start.after (Scan.ofBytes bytes).tokens).layers =
          Nesting.start.layers) := by
  refine ⟨?_, ?_, closed_of_no_error⟩
  · intro e he hkind
    obtain ⟨taken, htaken, hdeep⟩ := exists_deep he hkind
    have hfew := shallow taken htaken
    omega
  · intro taken t
    rw [Nesting.after_append]
    exact Nesting.depth_step_le (Nesting.start.after taken) t

/-- The source `if a:f(b,c)+-d;` has a call and a sign in a body, one after the other. -/
theorem exhausted_only_by_nesting_in_body :
    ∃ bytes : List UInt8,
      bytes = [105, 102, 32, 97, 58, 102, 40, 98, 44, 99, 41, 43, 45, 100, 59] ∧
      (∀ taken, taken <+: (Scan.ofBytes bytes).tokens → (Nesting.start.after taken).depth ≤ 2) ∧
      (∀ e ∈ (Parsed.ofBytes 2 bytes).error, e.kind ≠ .nestingTooDeep) ∧
      (Parsed.ofBytes 1 bytes).error.map (·.kind) = some .nestingTooDeep := by
  refine ⟨_, rfl, ?_⟩
  generalize hbytes :
    ([105, 102, 32, 97, 58, 102, 40, 98, 44, 99, 41, 43, 45, 100, 59] : List UInt8) = bytes
  have shallow : ∀ taken, taken <+: (Scan.ofBytes bytes).tokens →
      (Nesting.start.after taken).depth ≤ 2 := by
    have hlength : (Scan.ofBytes bytes).tokens.length < 14 := by
      subst hbytes
      decide +kernel
    have each : ∀ k < 14, (Nesting.start.after ((Scan.ofBytes bytes).tokens.take k)).depth ≤ 2 := by
      subst hbytes
      decide +kernel
    intro taken htaken
    rw [List.prefix_iff_eq_take.mp htaken]
    exact each taken.length (Nat.lt_of_le_of_lt htaken.length_le hlength)
  refine ⟨shallow, (exhausted_only_by_nesting 2 2 bytes shallow (Nat.le_refl 2)).1, ?_⟩
  subst hbytes
  rfl

end Parsed

end Scriptlet
