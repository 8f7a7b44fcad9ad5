import Mathlib.Data.List.Forall2
import Scriptlet.Proofs.Syntax.Rebuilding
import Scriptlet.Proofs.Syntax.Unrolling

/-!
# One token ahead

The parser decides by the tokens it has taken and by the next one. So it goes the same way over all
token lists that have the same kinds and values up to that point, whatever comes later and wherever
the tokens stand: it takes the same tokens and builds the same tree, or it rejects the same token.
-/

namespace Scriptlet

/-! ## Trees apart from positions -/

namespace Node

/-- The tree without its positions. -/
def bare : Node → Node := rebuild (fun _ => none) id

def bareAll : List Node → List Node := rebuildAll (fun _ => none) id

/-- Trees that differ in their positions at most. -/
def SameShape (x y : Node) : Prop := x.bare = y.bare

def SameShapes (xs ys : List Node) : Prop := bareAll xs = bareAll ys

theorem SameShapes.cons {x x' : Node} {xs xs' : List Node} (hx : SameShape x x')
    (hxs : SameShapes xs xs') : SameShapes (x :: xs) (x' :: xs') :=
  congrArg₂ List.cons hx hxs

namespace SameShape

variable {c c' x x' y y' : Node} {xs xs' : List Node} {p q : Option Position}

theorem root (h : SameShapes xs xs') : SameShape (.root xs p) (.root xs' q) :=
  congrArg (Node.root · none) h

theorem block (h : SameShapes xs xs') : SameShape (.block xs p) (.block xs' q) :=
  congrArg (Node.block · none) h

theorem group (h : SameShape x x') : SameShape (.group x p) (.group x' q) :=
  congrArg (Node.group · none) h

theorem unary (operator : Kind) (h : SameShape x x') :
    SameShape (.unary operator x p) (.unary operator x' q) :=
  congrArg (Node.unary operator · none) h

theorem binary (operator : Kind) (hx : SameShape x x') (hy : SameShape y y') :
    SameShape (.binary operator x y p) (.binary operator x' y' q) :=
  congrArg₂ (Node.binary operator · · none) hx hy

theorem assign (name : String) (outer : Bool) (h : SameShape x x') :
    SameShape (.assign name x outer p) (.assign name x' outer q) :=
  congrArg (Node.assign name · outer none) h

theorem ifThen (hc : SameShape c c') (hx : SameShape x x') :
    SameShape (.ifThen c x p) (.ifThen c' x' q) :=
  congrArg₂ (Node.ifThen · · none) hc hx

theorem ifElse (hc : SameShape c c') (hx : SameShape x x') (hy : SameShape y y') :
    SameShape (.ifElse c x y p) (.ifElse c' x' y' q) := by
  show Node.ifElse c.bare x.bare y.bare none = Node.ifElse c'.bare x'.bare y'.bare none
  rw [hc, hx, hy]

theorem whileLoop (hc : SameShape c c') (hx : SameShape x x') :
    SameShape (.whileLoop c x p) (.whileLoop c' x' q) :=
  congrArg₂ (Node.whileLoop · · none) hc hx

theorem function (name : String) (params : List String) (h : SameShape x x') :
    SameShape (.function name params x p) (.function name params x' q) :=
  congrArg (Node.function name params · none) h

theorem call (name : String) (h : SameShapes xs xs') :
    SameShape (.call name xs p) (.call name xs' q) :=
  congrArg (Node.call name · none) h

theorem ret (h : SameShape x x') : SameShape (.ret x p) (.ret x' q) :=
  congrArg (Node.ret · none) h

end SameShape

end Node

namespace Parser

open Node (SameShape SameShapes)

variable {α β γ δ : Type}

/-! ## Runs over the same kinds and values -/

/-- Tokens with the same kinds and values, wherever they stand. -/
def SameLexemes (u v : List Token) : Prop := u.map (·.lexeme) = v.map (·.lexeme)

theorem SameLexemes.of_append {w x v : List Token} (h : SameLexemes (w ++ x) v) :
    ∃ w' x', v = w' ++ x' ∧ SameLexemes w w' ∧ SameLexemes x x' := by
  unfold SameLexemes at h
  rw [List.map_append] at h
  obtain ⟨w', x', rfl, hw, hx⟩ := List.map_eq_append_iff.mp h.symm
  exact ⟨w', x', rfl, hw.symm, hx.symm⟩

theorem SameLexemes.of_cons {t : Token} {u v : List Token} (h : SameLexemes (t :: u) v) :
    ∃ p w, v = ⟨t.lexeme, p⟩ :: w ∧ SameLexemes u w := by
  cases v with
  | nil => cases h
  | cons t' w =>
      obtain ⟨lexeme, p⟩ := t'
      obtain ⟨rfl, hw⟩ := List.cons.inj h
      exact ⟨p, w, rfl, hw⟩

theorem SameLexemes.next {x x' rest rest' : List Token} (h : SameLexemes x x') (hx : x ≠ []) :
    nextLexeme? (x ++ rest) = nextLexeme? (x' ++ rest') := by
  cases x with
  | nil => exact absurd rfl hx
  | cons t x =>
      obtain ⟨p, w, rfl, -⟩ := h.of_cons
      rfl

theorem SameLexemes.next_append {x x' rest rest' : List Token} (h : SameLexemes x x')
    (hrest : nextLexeme? rest = nextLexeme? rest') :
    nextLexeme? (x ++ rest) = nextLexeme? (x' ++ rest') := by
  cases x with
  | nil =>
      obtain rfl : x' = [] := List.map_eq_nil_iff.mp h.symm
      exact hrest
  | cons t x => exact h.next (List.cons_ne_nil t x)

/-- The first run begins with a token and goes on with `x`, and so does the other run. -/
theorem SameLexemes.of_first {t : Token} {u v x rest : List Token}
    (h : u ++ rest = t :: (x ++ rest)) (hv : SameLexemes u v) :
    ∃ p w, v = ⟨t.lexeme, p⟩ :: w ∧ SameLexemes x w := by
  rw [← List.cons_append, List.append_cancel_right_eq] at h
  subst h
  exact hv.of_cons

theorem SameLexemes.of_taken {t : Token} {u v rest : List Token} (h : u ++ rest = t :: rest)
    (hv : SameLexemes u v) : ∃ p, v = [⟨t.lexeme, p⟩] := by
  obtain ⟨p, w, rfl, hw⟩ := hv.of_first (x := []) h
  obtain rfl : w = [] := List.map_eq_nil_iff.mp hw.symm
  exact ⟨p, rfl⟩

/-- The second run finds the next token of the first run behind the tokens it has taken, or else
one that satisfies `S`. -/
def Behind (S : Option Lexeme → Prop) (rest rest' : List Token) : Prop :=
  nextLexeme? rest = nextLexeme? rest' ∨ S (nextLexeme? rest')

/-- Where the first parser takes exactly the tokens `u`, the second one takes the corresponding ones
and has the corresponding result. Where the first one stops after them, so does the second. -/
structure LocalAt (S : Option Lexeme → Prop) (R : α → β → Prop) (p : Parser α) (q : Parser β)
    (u : List Token) : Prop where
  success : ∀ {rest a v rest'}, p (u ++ rest) = .ok (a, rest) → SameLexemes u v →
    Behind S rest rest' → ∃ b, R a b ∧ q (v ++ rest') = .ok (b, rest')
  rejection : ∀ {rest kind v rest'}, p (u ++ rest) = .error (.rejected kind rest) →
    SameLexemes u v → nextLexeme? rest = nextLexeme? rest' →
      q (v ++ rest') = .error (.rejected kind rest')

/-- The second parser follows the first one over all tokens that the first one may take. -/
structure Local (S : Option Lexeme → Prop) (R : α → β → Prop) (p : Parser α) (q : Parser β) :
    Prop where
  cuts : Cuts p
  localAt : ∀ u, LocalAt S R p q u

/-- Both runs find the same next token behind what they have taken. -/
abbrev LocalNext (R : α → β → Prop) (p : Parser α) (q : Parser β) : Prop :=
  Local (fun _ => False) R p q

/-- The parser takes a token wherever it succeeds. -/
def Consumes (p : Parser α) : Prop :=
  ∀ {tokens a rest}, p tokens = .ok (a, rest) → rest.length < tokens.length

section

variable {S S' : Option Lexeme → Prop} {R : α → β → Prop} {Q : γ → δ → Prop} {p : Parser α}
  {q : Parser β} {f : α → Parser γ} {g : β → Parser δ} {u : List Token}

/-- Two computations in two parts. If the second part takes a token, the first one need not be local
to what stands behind both. -/
theorem LocalAt.bind (hp : Cuts p) (hf : ∀ a, Cuts (f a))
    (hS : (∀ l, S l → S' l) ∨ ∀ a, Consumes (f a))
    (first : ∀ {w}, w.length ≤ u.length → LocalAt S' R p q w)
    (second : ∀ {a b w x rest}, u = w ++ x → p (w ++ rest) = .ok (a, rest) → R a b →
      LocalAt S Q (f a) (g b) x) :
    LocalAt S Q (p >>= f) (q >>= g) u := by
  -- Where the first part stops in between, it has taken a part of `u`.
  have split : ∀ {a middle rest}, p (u ++ rest) = .ok (a, middle) → (∃ x, middle = x ++ rest) →
      ∃ w x, u = w ++ x ∧ middle = x ++ rest ∧ p (w ++ (x ++ rest)) = .ok (a, x ++ rest) := by
    rintro a _ rest h ⟨x, rfl⟩
    obtain ⟨w, hw⟩ := hp.of_ok h
    rw [← List.append_assoc, List.append_cancel_right_eq] at hw
    refine ⟨w, x, hw, rfl, ?_⟩
    rw [← List.append_assoc, ← hw, h]
  constructor
  · intro rest c v rest' h hv hbehind
    obtain ⟨a, middle, hfirst, hsecond⟩ := bind_eq_ok_iff.mp h
    obtain ⟨w, x, rfl, rfl, htaken⟩ := split hfirst ((hf a).of_ok hsecond)
    obtain ⟨w', x', rfl, hw, hx⟩ := hv.of_append
    have hmiddle : Behind S' (x ++ rest) (x' ++ rest') := by
      by_cases hnil : x = []
      · subst hnil
        obtain rfl : x' = [] := List.map_eq_nil_iff.mp hx.symm
        rcases hbehind with hnext | hrest
        · exact .inl hnext
        · rcases hS with hmono | hconsumes
          · exact .inr (hmono _ hrest)
          · exact absurd (hconsumes a hsecond) (Nat.lt_irrefl _)
      · exact .inl (hx.next hnil)
    obtain ⟨b, hab, hq⟩ := (first (by simp)).success htaken hw hmiddle
    obtain ⟨d, hcd, hg⟩ := (second rfl htaken hab).success hsecond hx hbehind
    refine ⟨d, hcd, ?_⟩
    rw [List.append_assoc]
    exact bind_eq_ok_iff.mpr ⟨b, _, hq, hg⟩
  · intro rest kind v rest' h hv hnext
    rcases bind_eq_rejected_iff.mp h with hfirst | ⟨a, middle, hfirst, hsecond⟩
    · exact bind_eq_rejected_iff.mpr (.inl ((first (Nat.le_refl _)).rejection hfirst hv hnext))
    · obtain ⟨w, x, rfl, rfl, htaken⟩ := split hfirst ((hf a).of_rejected hsecond)
      obtain ⟨w', x', rfl, hw, hx⟩ := hv.of_append
      obtain ⟨b, hab, hq⟩ := (first (by simp)).success htaken hw (.inl (hx.next_append hnext))
      have hg := (second rfl htaken hab).rejection hsecond hx hnext
      rw [List.append_assoc]
      exact bind_eq_rejected_iff.mpr (.inr ⟨b, _, hq, hg⟩)

theorem LocalAt.pure {a : α} {b : β} (h : R a b) :
    LocalAt S R (Pure.pure a : Parser α) (Pure.pure b) u := by
  constructor
  · intro rest c v rest' hp hv _
    obtain ⟨rfl, hu⟩ := Prod.mk.inj (Except.ok.inj hp)
    obtain rfl : u = [] := List.append_left_eq_self.mp hu
    obtain rfl : v = [] := List.map_eq_nil_iff.mp hv.symm
    exact ⟨b, h, rfl⟩
  · intro rest kind v rest' hp
    cases hp

theorem LocalAt.reject (kind : SyntaxError.Kind) :
    LocalAt S R (Parser.reject kind : Parser α) (Parser.reject kind) u := by
  constructor
  · intro rest c v rest' hp
    cases hp
  · intro rest kind' v rest' hp hv _
    obtain ⟨rfl, hu⟩ := Failure.rejected.inj (Except.error.inj hp)
    obtain rfl : u = [] := List.append_left_eq_self.mp hu
    obtain rfl : v = [] := List.map_eq_nil_iff.mp hv.symm
    rfl

/-- Parsers that go by the next token, as they do in both runs. -/
theorem LocalAt.of_next {p q : Parser α} {R : α → α → Prop} {by_ by' : Option Lexeme → Parser α}
    (hp : ∀ tokens, p tokens = by_ (nextLexeme? tokens) tokens)
    (hq : ∀ tokens, q tokens = by' (nextLexeme? tokens) tokens)
    (hS : (∀ l, ¬ S l) ∨ Consumes p) (h : ∀ next, LocalAt S R (by_ next) (by' next) u) :
    LocalAt S R p q u := by
  constructor
  · intro rest a v rest' hread hv hbehind
    have hnext : nextLexeme? (u ++ rest) = nextLexeme? (v ++ rest') := by
      by_cases hnil : u = []
      · subst hnil
        rcases hbehind with hnext | hrest
        · exact hv.next_append hnext
        · rcases hS with hnone | hconsumes
          · exact absurd hrest (hnone _)
          · exact absurd (hconsumes hread) (Nat.lt_irrefl _)
      · exact hv.next hnil
    rw [hp] at hread
    rw [hq, ← hnext]
    exact (h _).success hread hv hbehind
  · intro rest kind v rest' hread hv hnext
    rw [hp] at hread
    rw [hq, ← hv.next_append hnext]
    exact (h _).rejection hread hv hnext

theorem LocalAt.shift {f : Position → Parser α} {g : Position → Parser β} (hf : ∀ p, Cuts (f p))
    (h : ∀ {t w}, u = t :: w → ∀ p p', LocalAt S R (f p) (g p') w) :
    LocalAt S R (shift f) (shift g) u := by
  -- What is left after a token was taken is shorter than what was there before it.
  have short : ∀ {p tokens rest}, leftOver (f p tokens) = rest → rest.length ≤ tokens.length :=
    fun {p tokens rest} hrest => hrest ▸ (hf p tokens).length_le
  cases u with
  | nil =>
      constructor
      · intro rest a v rest' hread _ _
        cases rest with
        | nil => cases hread
        | cons t rest =>
            have hle := short (congrArg leftOver (show f t.position rest = _ from hread))
            exact absurd hle (Nat.not_succ_le_self _)
      · intro rest kind v rest' hread hv hnext
        obtain rfl : v = [] := List.map_eq_nil_iff.mp hv.symm
        cases rest with
        | nil =>
            cases rest' with
            | nil =>
                cases hread
                rfl
            | cons t rest' => cases hnext
        | cons t rest =>
            have hle := short (congrArg leftOver (show f t.position rest = _ from hread))
            exact absurd hle (Nat.not_succ_le_self _)
  | cons t w =>
      constructor
      · intro rest a v rest' hread hv hbehind
        obtain ⟨p, x, rfl, hx⟩ := hv.of_cons
        exact (h rfl t.position p).success hread hx hbehind
      · intro rest kind v rest' hread hv hnext
        obtain ⟨p, x, rfl, hx⟩ := hv.of_cons
        exact (h rfl t.position p).rejection hread hx hnext

namespace Local

theorem pure {a : α} {b : β} (h : R a b) : Local S R (Pure.pure a : Parser α) (Pure.pure b) :=
  ⟨.pure a, fun _ => .pure h⟩

theorem reject (kind : SyntaxError.Kind) :
    Local S R (Parser.reject kind : Parser α) (Parser.reject kind) :=
  ⟨.reject kind, fun _ => .reject kind⟩

theorem tooDeep : Local S R (Parser.tooDeep : Parser α) (Parser.tooDeep : Parser β) :=
  ⟨.tooDeep, fun _ => ⟨(fun h => nomatch h), (fun h => nomatch h)⟩⟩

theorem mono (h : Local S' R p q) (hS : ∀ l, S l → S' l) : Local S R p q :=
  ⟨h.cuts, fun u => ⟨fun hread hv hbehind =>
    (h.localAt u).success hread hv (hbehind.imp id (hS _)), (h.localAt u).rejection⟩⟩

theorem next (h : Local S R p q) : LocalNext R p q := h.mono fun _ => False.elim

/-- Results that correspond to themselves lead to parsers that cut. -/
theorem bind {p q : Parser α} {R : α → α → Prop} [Std.Refl R] {f g : α → Parser γ}
    {Q : γ → γ → Prop} (first : Local S R p q)
    (second : ∀ {a b}, R a b → Local S Q (f a) (g b)) : Local S Q (p >>= f) (q >>= g) := by
  have hf (a : α) : Cuts (f a) := (second (Std.Refl.refl a)).cuts
  exact ⟨first.cuts.bind hf, fun u => .bind first.cuts hf (.inl fun _ => id)
    (fun _ => first.localAt _) fun _ _ hab => (second hab).localAt _⟩

/-- The second part takes a token. -/
theorem bind_consuming {p q : Parser α} {R : α → α → Prop} [Std.Refl R] {f g : α → Parser γ}
    {Q : γ → γ → Prop} (hconsumes : ∀ a, Consumes (f a)) (first : Local S' R p q)
    (second : ∀ {a b}, R a b → Local S Q (f a) (g b)) : Local S Q (p >>= f) (q >>= g) := by
  have hf (a : α) : Cuts (f a) := (second (Std.Refl.refl a)).cuts
  exact ⟨first.cuts.bind hf, fun u => .bind first.cuts hf (.inr hconsumes)
    (fun _ => first.localAt _) fun _ _ hab => (second hab).localAt _⟩

end Local

theorem consumes_bind_left (hp : Consumes p) (hf : ∀ a, Cuts (f a)) : Consumes (p >>= f) := by
  intro tokens c rest h
  obtain ⟨a, middle, hfirst, hsecond⟩ := bind_eq_ok_iff.mp h
  exact Nat.lt_of_le_of_lt ((hf a).length_le hsecond) (hp hfirst)

theorem consumes_bind_right (hp : Cuts p) (hf : ∀ a, Consumes (f a)) : Consumes (p >>= f) := by
  intro tokens c rest h
  obtain ⟨a, middle, hfirst, hsecond⟩ := bind_eq_ok_iff.mp h
  exact Nat.lt_of_lt_of_le (hf a hsecond) (hp.length_le hfirst)

end

/-! ## Single tokens -/

theorem acceptAny_none_next {symbols : List Symbol} {tokens rest : List Token}
    (h : acceptAny symbols tokens = .ok (none, rest)) :
    ∀ s ∈ symbols, nextLexeme? tokens ≠ some (.symbol s) := by
  intro s hs hnext
  cases tokens with
  | nil => cases hnext
  | cons t tokens =>
      obtain ⟨lexeme, p⟩ := t
      cases hnext
      simp [acceptAny, hs] at h

theorem acceptAny_of_next {symbols : List Symbol} {tokens : List Token}
    (h : ∀ s ∈ symbols, nextLexeme? tokens ≠ some (.symbol s)) :
    acceptAny symbols tokens = .ok (none, tokens) := by
  apply acceptAny_other
  intro s hs t ht hlexeme
  apply h s hs
  rw [nextLexeme?, ht, Option.map_some, hlexeme]

section

variable {S : Option Lexeme → Prop}

theorem local_acceptAny {symbols : List Symbol}
    (hS : ∀ l, S l → ∀ s ∈ symbols, l ≠ some (.symbol s)) :
    Local S Eq (acceptAny symbols) (acceptAny symbols) := by
  refine ⟨.acceptAny symbols, fun u => ?_⟩
  constructor
  · intro rest a v rest' hread hv hbehind
    cases a with
    | none =>
        obtain rfl : u = [] := List.append_left_eq_self.mp (acceptAny_eq_none hread)
        obtain rfl : v = [] := List.map_eq_nil_iff.mp hv.symm
        refine ⟨none, rfl, acceptAny_of_next ?_⟩
        rcases hbehind with hnext | hrest
        · rw [List.nil_append, ← hnext]
          exact acceptAny_none_next hread
        · exact hS _ hrest
    | some s =>
        obtain ⟨hs, p, htokens⟩ := acceptAny_eq_some hread
        obtain ⟨p', rfl⟩ := hv.of_taken htokens
        refine ⟨some s, rfl, ?_⟩
        simp only [List.singleton_append, acceptAny, if_pos hs]
  · intro rest kind v rest' hread
    unfold acceptAny at hread
    split at hread
    · split at hread
      · cases hread
      · cases hread
    · cases hread

theorem local_accept {symbol : Symbol}
    (hS : ∀ l, S l → l ≠ some (.symbol symbol)) :
    Local S Eq (accept symbol) (accept symbol) := by
  refine (local_acceptAny ?_).bind ?_
  · intro l hl s hs
    rw [List.mem_singleton.mp hs]
    exact hS l hl
  · rintro a _ rfl
    exact .pure rfl

theorem localNext_accept (symbol : Symbol) : LocalNext Eq (accept symbol) (accept symbol) :=
  local_accept fun _ h => h.elim

theorem consumes_require (symbol : Symbol) (kind : SyntaxError.Kind) :
    Consumes (require symbol kind) := by
  intro tokens a rest h
  obtain ⟨p, rfl⟩ := require_eq_ok h
  exact Nat.lt_succ_self _

theorem local_require (symbol : Symbol) (kind : SyntaxError.Kind) :
    Local S Eq (require symbol kind) (require symbol kind) := by
  have hnext : LocalNext Eq (require symbol kind) (require symbol kind) := by
    refine (localNext_accept symbol).bind ?_
    rintro found _ rfl
    cases found with
    | true => exact .pure rfl
    | false => exact .reject kind
  refine ⟨hnext.cuts, fun u => ⟨?_, (hnext.localAt u).rejection⟩⟩
  intro rest a v rest' hread hv _
  obtain ⟨p, htokens⟩ := require_eq_ok hread
  obtain ⟨p', rfl⟩ := hv.of_taken htokens
  exact ⟨(), rfl, require_symbol symbol kind p' rest'⟩

theorem local_requireName (kind : SyntaxError.Kind) :
    Local S Eq (requireName kind) (requireName kind) := by
  refine ⟨.requireName kind, fun u => ?_⟩
  refine .of_next (requireName_by kind) (requireName_by kind) (.inr ?_) fun next => ?_
  · intro tokens name rest h
    obtain ⟨p, rfl⟩ := requireName_eq_ok h
    exact Nat.lt_succ_self _
  · unfold requireNameBy
    split
    · exact .shift (fun _ => .pure _) fun _ _ _ => .pure rfl
    · exact .reject kind

/-! ## Items with commas between them -/

theorem local_separated {R : α → α → Prop} {item : Parser α} (hitem : LocalNext R item item) :
    LocalNext (List.Forall₂ R) (separated item) (separated item) := by
  have hcuts := hitem.cuts
  refine ⟨hcuts.separated, fun u => ?_⟩
  induction hn : u.length using Nat.strongRecOn generalizing u with
  | ind n ih =>
      rw [separated_eq hcuts]
      have hmore : ∀ first (more : Bool), Cuts (if more then
          separated item >>= fun others => Pure.pure (first :: others) else Pure.pure [first]) := by
        intro first more
        cases more with
        | true => exact hcuts.separated.bind fun _ => .pure _
        | false => exact .pure _
      refine .bind hcuts (fun first => (Cuts.accept .comma).bind (hmore first))
        (.inl fun _ => id) (fun _ => hitem.localAt _) ?_
      intro a b w x rest hu _ hab
      refine .bind (.accept .comma) (hmore a) (.inl fun _ => id)
        (fun _ => (localNext_accept .comma).localAt _) ?_
      rintro more _ w' x' rest' hx haccept rfl
      cases more with
      | false => exact .pure (.cons hab .nil)
      | true =>
          have hlength := accept_true_length haccept
          have hx' : x'.length < n := by
            subst hu hx
            simp only [List.length_append] at hn hlength
            omega
          refine .bind (R := List.Forall₂ R) hcuts.separated (fun _ => .pure _)
            (.inl fun _ => id) ?_ ?_
          · exact fun hw => ih _ (Nat.lt_of_le_of_lt hw hx') _ rfl
          · exact fun _ _ hothers => .pure (.cons hab hothers)

instance {R : α → α → Prop} [Std.Refl R] : Std.Refl (List.Forall₂ R) :=
  ⟨fun _ => List.forall₂_same.mpr fun a _ => Std.Refl.refl a⟩

theorem accept_false_next {s : Symbol} {tokens rest : List Token}
    (h : accept s tokens = .ok (false, rest)) : nextLexeme? tokens ≠ some (.symbol s) := by
  intro hnext
  cases tokens with
  | nil => cases hnext
  | cons t tokens =>
      obtain ⟨lexeme, p⟩ := t
      cases hnext
      rw [accept_symbol] at h
      cases h

/-- The first run has not found the symbol, so the other one does not either, unless all that was
taken is nothing and the symbol may stand behind it. -/
theorem Behind.next_ne {s : Symbol} {u v rest rest' : List Token} (h : Behind S rest rest')
    (hv : SameLexemes u v) (hother : nextLexeme? (u ++ rest) ≠ some (.symbol s))
    (hS : u = [] → ∀ l, S l → l ≠ some (.symbol s)) :
    nextLexeme? (v ++ rest') ≠ some (.symbol s) := by
  rcases h with hsame | hrest
  · exact fun heq => hother ((hv.next_append hsame).trans heq)
  · by_cases hnil : u = []
    · obtain rfl : v = [] := List.map_eq_nil_iff.mp (hnil ▸ hv).symm
      exact hS hnil _ hrest
    · exact fun heq => hother ((hv.next hnil).trans heq)

/-- A choice by the next symbol. The second run chooses alike behind what it has taken, unless the
way without the symbol takes nothing either. -/
theorem Local.bind_accept {f g : Bool → Parser γ} {Q : γ → γ → Prop} {s : Symbol}
    (hS : ∀ {tokens c}, f false tokens = .ok (c, tokens) → ∀ l, S l → l ≠ some (.symbol s))
    (yes : Local S Q (f true) (g true)) (no : Local S Q (f false) (g false)) :
    Local S Q (accept s >>= f) (accept s >>= g) := by
  have hcuts (found : Bool) : Cuts (f found) := by
    cases found with
    | true => exact yes.cuts
    | false => exact no.cuts
  refine ⟨(Cuts.accept s).bind hcuts, fun u => ⟨?_, ?_⟩⟩
  · intro rest c v rest' h hv hbehind
    obtain ⟨found, middle, haccept, hsecond⟩ := bind_eq_ok_iff.mp h
    cases found with
    | true =>
        obtain ⟨p, htokens⟩ := accept_eq_true haccept
        obtain ⟨x, rfl⟩ := yes.cuts.of_ok hsecond
        obtain ⟨p', w, rfl, hw⟩ := hv.of_first htokens
        obtain ⟨d, hcd, hg⟩ := (yes.localAt x).success hsecond hw hbehind
        exact ⟨d, hcd, bind_eq_ok_iff.mpr ⟨true, _, accept_symbol s p' _, hg⟩⟩
    | false =>
        obtain rfl := accept_eq_false haccept
        obtain ⟨d, hcd, hg⟩ := (no.localAt u).success hsecond hv hbehind
        have hnext : nextLexeme? (v ++ rest') ≠ some (.symbol s) := by
          refine hbehind.next_ne hv (accept_false_next haccept) ?_
          rintro rfl
          exact hS hsecond
        exact ⟨d, hcd, bind_eq_ok_iff.mpr ⟨false, _, accept_next_ne hnext, hg⟩⟩
  · intro rest kind v rest' h hv hnext
    rcases bind_eq_rejected_iff.mp h with hfirst | ⟨found, middle, haccept, hsecond⟩
    · have hrejected := ((localNext_accept s).localAt u).rejection hfirst hv hnext
      exact bind_eq_rejected_iff.mpr (.inl hrejected)
    · cases found with
      | true =>
          obtain ⟨p, htokens⟩ := accept_eq_true haccept
          obtain ⟨x, rfl⟩ := yes.cuts.of_rejected hsecond
          obtain ⟨p', w, rfl, hw⟩ := hv.of_first htokens
          have hg := (yes.localAt x).rejection hsecond hw hnext
          exact bind_eq_rejected_iff.mpr (.inr ⟨true, _, accept_symbol s p' _, hg⟩)
      | false =>
          obtain rfl := accept_eq_false haccept
          have hg := (no.localAt u).rejection hsecond hv hnext
          have hother : nextLexeme? (v ++ rest') ≠ some (.symbol s) := fun heq =>
            accept_false_next haccept ((hv.next_append hnext).trans heq)
          exact bind_eq_rejected_iff.mpr (.inr ⟨false, _, accept_next_ne hother, hg⟩)

theorem consumes_bind_accept {f : Bool → Parser γ} {s : Symbol} (yes : Cuts (f true))
    (no : Consumes (f false)) : Consumes (accept s >>= f) := by
  intro tokens c rest h
  obtain ⟨found, middle, haccept, hsecond⟩ := bind_eq_ok_iff.mp h
  cases found with
  | true =>
      have hlength := accept_true_length haccept
      have hle := yes.length_le hsecond
      omega
  | false =>
      obtain rfl := accept_eq_false haccept
      exact no hsecond

theorem consumes_listed {item : Parser α} (hitem : Cuts item) (kind : SyntaxError.Kind) :
    Consumes (listed item kind) := by
  refine consumes_bind_accept (.pure []) (consumes_bind_right hitem.separated fun items => ?_)
  exact consumes_bind_left (consumes_require _ _) fun _ => .pure items

theorem local_listed {R : α → α → Prop} [Std.Refl R] {item : Parser α}
    (hitem : LocalNext R item item) (kind : SyntaxError.Kind) :
    Local S (List.Forall₂ R) (listed item kind) (listed item kind) := by
  have hclose (items : List α) :
      Consumes (require .closeParen kind >>= fun _ => (Pure.pure items : Parser (List α))) :=
    consumes_bind_left (consumes_require _ _) fun _ => .pure items
  refine .bind_accept ?_ (.pure .nil) ?_
  · intro tokens c h
    exact absurd (consumes_bind_right hitem.cuts.separated hclose h) (Nat.lt_irrefl _)
  · refine .bind_consuming hclose (local_separated hitem) ?_
    exact fun hitems => (local_require _ _).bind fun _ => .pure hitems

end

/-! ## Patterns -/

instance : Std.Refl SameShape := ⟨fun _ => rfl⟩

theorem sameShapes_of_forall₂ {xs ys : List Node} (h : List.Forall₂ SameShape xs ys) :
    SameShapes xs ys := by
  induction h with
  | nil => rfl
  | cons hxy _ ih => exact .cons hxy ih

section

variable {σ : Type}

def Item.Same : (item : Item σ) → item.Result → item.Result → Prop
  | .tree _, x, y => SameShape x y
  | .name _, x, y => x = y

/-- The same names were read, and trees that differ in their positions at most. -/
def Pattern.Same : (pattern : Pattern σ) → pattern.Result → pattern.Result → Prop
  | .done, _, _ => True
  | .read item next, (a, r), (b, r') => item.Same a b ∧ next.Same r r'
  | .list item _ next, (as, r), (bs, r') => List.Forall₂ item.Same as bs ∧ next.Same r r'
  | .require _ _ next, r, r' => next.Same r r'
  | .branch _ yes _, .inl r, .inl r' => yes.Same r r'
  | .branch _ _ no, .inr r, .inr r' => no.Same r r'
  | .branch .., .inl _, .inr _ => False
  | .branch .., .inr _, .inl _ => False

instance (item : Item σ) : Std.Refl item.Same := by
  refine ⟨fun a => ?_⟩
  cases item with
  | tree => exact rfl
  | name => exact rfl

theorem Pattern.same_refl (pattern : Pattern σ) (r : pattern.Result) : pattern.Same r r := by
  induction pattern with
  | done => trivial
  | read item next ih => exact ⟨Std.Refl.refl r.1, ih r.2⟩
  | list item kind next ih => exact ⟨Std.Refl.refl r.1, ih r.2⟩
  | require s kind next ih => exact ih r
  | branch s yes no ihyes ihno =>
      cases r with
      | inl r => exact ihyes r
      | inr r => exact ihno r

instance (pattern : Pattern σ) : Std.Refl pattern.Same := ⟨pattern.same_refl⟩

/-- What the form builds differs no more than what was read. -/
def Form.Uniform (form : Form σ) : Prop :=
  ∀ {r r'}, form.pattern.Same r r' → ∀ p p', SameShape (form.build r p) (form.build r' p')

variable {readers : σ → Parser Node} {F : σ → Option Lexeme → Prop} {S : Option Lexeme → Prop}

theorem Pattern.consumes {pattern : Pattern σ} (hreaders : ∀ role, Cuts (readers role))
    (h : pattern.closes = true) : Consumes (pattern.parser readers) := by
  induction pattern with
  | done => cases h
  | read item next ih =>
      refine consumes_bind_right (item.cuts hreaders) fun a => ?_
      exact consumes_bind_left (ih h) fun _ => .pure _
  | list item kind next ih =>
      refine consumes_bind_left (consumes_listed (item.cuts hreaders) kind) fun as => ?_
      exact (next.cuts hreaders).bind fun _ => .pure _
  | require s kind next ih =>
      exact consumes_bind_left (consumes_require s kind) fun _ => next.cuts hreaders
  | branch s yes no _ ihno =>
      exact consumes_bind_accept ((yes.cuts hreaders).bind fun _ => .pure _)
        (consumes_bind_left (ihno h) fun _ => .pure _)

section

variable (hnext : ∀ role, LocalNext SameShape (readers role) (readers role))

include hnext

theorem Item.localNext (item : Item σ) :
    LocalNext item.Same (item.parser readers) (item.parser readers) := by
  cases item with
  | tree role => exact hnext role
  | name kind => exact local_requireName kind

-- Only a tree that may stand last is to be local to what stands behind the whole pattern.
variable (hlast : ∀ role, (∀ l, S l → F role l) → Local S SameShape (readers role) (readers role))

include hlast

omit hnext in
theorem Item.local_of_followed {item : Item σ} (h : ∀ l, S l → item.Followed F l) :
    Local S item.Same (item.parser readers) (item.parser readers) := by
  cases item with
  | tree role => exact hlast role h
  | name kind => exact local_requireName kind

theorem Pattern.local_of_fits {pattern : Pattern σ} (fits : pattern.Fits F S) :
    Local S pattern.Same (pattern.parser readers) (pattern.parser readers) := by
  have hcuts (role : σ) : Cuts (readers role) := (hnext role).cuts
  induction pattern with
  | done => exact .pure trivial
  | read item next ih =>
      have hthen {a b : item.Result} (hab : item.Same a b) :
          Local S (Pattern.read item next).Same
            (next.parser readers >>= fun r => Pure.pure (a, r))
            (next.parser readers >>= fun r => Pure.pure (b, r)) :=
        (ih fits.2).bind fun hr => .pure ⟨hab, hr⟩
      cases hcloses : next.closes with
      | true =>
          refine .bind_consuming (fun a => ?_) (item.localNext hnext) hthen
          exact consumes_bind_left (next.consumes hcuts hcloses) fun _ => .pure _
      | false =>
          have hitem : ∀ l, S l → item.Followed F l := fun l hl =>
            fits.1 l (next.opens_of_open hcloses hl)
          exact (Item.local_of_followed hlast hitem).bind hthen
  | list item kind next ih =>
      refine (local_listed (item.localNext hnext) kind).bind fun has => ?_
      exact (ih fits.2).bind fun hr => .pure ⟨has, hr⟩
  | require s kind next ih => exact (local_require s kind).bind fun _ => ih fits
  | branch s yes no ihyes ihno =>
      refine .bind_accept ?_ ((ihyes fits.2.1).bind fun hr => .pure hr)
        ((ihno fits.2.2).bind fun hr => .pure hr)
      intro tokens c h l hl
      cases hcloses : no.closes with
      | true =>
          have hconsumes : Consumes (no.parser readers) := no.consumes hcuts hcloses
          exact absurd (consumes_bind_left hconsumes (fun _ => .pure _) h) (Nat.lt_irrefl _)
      | false => exact fits.1 l (no.opens_of_open hcloses hl)

theorem Form.local_of_fits {form : Form σ} (fits : form.pattern.Fits F S) (uniform : form.Uniform)
    (p p' : Position) : Local S SameShape (form.parser readers p) (form.parser readers p') :=
  (Pattern.local_of_fits hnext hlast fits).bind fun hr => .pure (uniform hr p p')

end

end

/-! ## Expressions -/

theorem levels_operators {level : Level} (h : level ∈ levels) :
    ∀ s ∈ level.operators, s ∉ [.comma, .colon, .semicolon, .elseWord] := by
  revert level
  decide

section

variable {op inner : Parser Node}

theorem local_chain {level : Level} (hlevel : level ∈ levels) (hop : Local StopsAt SameShape op op)
    {left left' : Node} (hleft : SameShape left left') :
    Local StopsAt SameShape (chain level op left) (chain level op left') := by
  have hcuts := hop.cuts
  refine ⟨hcuts.chain level left, fun u => ?_⟩
  induction hn : u.length using Nat.strongRecOn generalizing u left left' with
  | ind n ih =>
      have hjoined : ∀ joined, Cuts (if level.repeats then chain level op joined
          else Pure.pure joined) := by
        intro joined
        split
        · exact hcuts.chain level joined
        · exact .pure _
      rw [chain_eq hcuts, chain_eq hcuts]
      refine .bind (.acceptAny _) ?_ (.inl fun _ => id) (fun _ => (local_acceptAny ?_).localAt _) ?_
      · intro found
        cases found with
        | none => exact .pure _
        | some operator => exact hcuts.bind fun right => hjoined _
      · exact fun l hl s hs => hl.next_ne (levels_operators hlevel s hs)
      · rintro found _ w x rest hu haccept rfl
        cases found with
        | none => exact .pure hleft
        | some operator =>
            obtain ⟨-, p, htokens⟩ := acceptAny_eq_some haccept
            have hx : x.length < n := by
              have hlength := congrArg List.length htokens
              subst hu
              simp only [List.length_append, List.length_cons] at hn hlength
              omega
            refine .bind hcuts (fun right => hjoined _) (.inl fun _ => id) (fun _ => hop.localAt _)
              ?_
            intro right right' w' x' rest' hx' _ hright
            have hshape : SameShape (.binary (.symbol operator) left right left.position)
                (.binary (.symbol operator) left' right' left'.position) :=
              .binary _ hleft hright
            split
            · refine ih x'.length ?_ hshape x' rfl
              rw [hx', List.length_append] at hx
              omega
            · exact .pure hshape

theorem local_climb (hop : Local StopsAt SameShape op op) {ls : List Level}
    (hls : ∀ level ∈ ls, level ∈ levels) :
    Local StopsAt SameShape (climb op ls) (climb op ls) := by
  induction ls with
  | nil => exact hop
  | cons level tighter ih =>
      obtain ⟨hlevel, htighter⟩ := List.forall_mem_cons.mp hls
      exact (ih htighter).bind fun hleft => local_chain hlevel (ih htighter) hleft

theorem local_expression (hop : Local StopsAt SameShape op op) :
    Local StopsAt SameShape (expression op) (expression op) :=
  local_climb hop fun _ => id

theorem uniform_operandForm {next : Option Lexeme} {form : Form Inside}
    (hform : operandForm next = .ok form) : form.Uniform := by
  unfold operandForm at hform
  split at hform <;> cases hform
  · exact fun _ _ _ => rfl
  · exact fun _ _ _ => rfl
  · exact fun _ _ _ => rfl
  · exact fun _ _ _ => rfl
  · exact fun hr _ _ => .unary _ hr.1
  · exact fun hr _ _ => .unary _ hr.1
  · exact fun hr _ _ => .group hr.1
  · rintro (⟨xs, _⟩ | ⟨x, _⟩ | _) (⟨ys, _⟩ | ⟨y, _⟩ | _) hr p p'
    · exact .call _ (sameShapes_of_forall₂ hr.1)
    · cases hr
    · cases hr
    · cases hr
    · exact .assign _ false hr.1
    · cases hr
    · cases hr
    · cases hr
    · rfl

theorem consumes_shift {f : Position → Parser α} (hf : ∀ p, Cuts (f p)) : Consumes (shift f) := by
  intro tokens a rest h
  cases tokens with
  | nil => cases h
  | cons t tokens => exact Nat.lt_succ_of_le ((hf _).length_le h)

theorem consumes_operandWith (hcuts : Cuts op) (hcuts' : Cuts inner) :
    Consumes (operandWith op inner) := by
  intro tokens n rest h
  rw [operandWith_by] at h
  unfold operandBy at h
  cases hform : operandForm (nextLexeme? tokens) with
  | error kind =>
      rw [hform] at h
      cases h
  | ok form =>
      rw [hform] at h
      exact consumes_shift (form.cuts (cuts_inside hcuts hcuts')) h

theorem local_operandWith (hop : Local StopsAt SameShape op op)
    (hinner : Local StopsAt SameShape inner inner) :
    Local StopsAt SameShape (operandWith op inner) (operandWith op inner) := by
  have hinside (role : Inside) :
      Local StopsAt SameShape (insideReaders op inner role) (insideReaders op inner role) := by
    cases role with
    | operand => exact hop
    | expression => exact hinner
  refine ⟨hop.cuts.operandWith hinner.cuts, fun u => ?_⟩
  refine .of_next (operandWith_by op inner) (operandWith_by op inner)
    (.inr (consumes_operandWith hop.cuts hinner.cuts)) fun next => ?_
  unfold operandBy
  cases hform : operandForm next with
  | error kind => exact .reject kind
  | ok form =>
      refine .shift (form.cuts (cuts_inside hop.cuts hinner.cuts)) fun _ p p' => ?_
      have fits : form.pattern.Fits (Inside.follow StopsAt) StopsAt :=
        fits_operandForm hform fun _ h => h.mono (by decide)
      exact (Form.local_of_fits (fun role => (hinside role).next) (fun role _ => hinside role) fits
        (uniform_operandForm hform) p p').localAt _

end

theorem local_operand (depth : Nat) : Local StopsAt SameShape (operand depth) (operand depth) := by
  induction depth with
  | zero => exact local_operandWith .tooDeep .tooDeep
  | succ depth ih => exact local_operandWith ih (local_expression ih)

/-! ## Statements -/

section

variable {expr inner statement statement' : Parser Node}
  {sequence more : Parser (List Node)}

theorem local_body (hseq : LocalNext (List.Forall₂ SameShape) sequence sequence) :
    LocalNext SameShape (body sequence) (body sequence) := by
  refine ⟨hseq.cuts.body, fun u => ?_⟩
  constructor
  · intro rest n v rest' hread hv hbehind
    unfold body at hread ⊢
    cases hs : sequence (u ++ rest) with
    | error failure =>
        rw [hs] at hread
        cases hread
    | ok result =>
        obtain ⟨nodes, after⟩ := result
        rw [hs] at hread
        cases hread
        obtain ⟨nodes', hnodes, hs'⟩ := (hseq.localAt u).success hs hv hbehind
        rw [hs']
        exact ⟨_, .block (sameShapes_of_forall₂ hnodes), rfl⟩
  · intro rest kind v rest' hread hv hnext
    unfold body at hread ⊢
    cases hs : sequence (u ++ rest) with
    | ok result =>
        rw [hs] at hread
        cases hread
    | error failure =>
        rw [hs] at hread
        cases hread
        rw [(hseq.localAt u).rejection hs hv hnext]

theorem uniform_control {next : Option Lexeme} {form : Form Clause}
    (hform : start next = .control form) : form.Uniform := by
  unfold start at hform
  split at hform <;> cases hform
  · rintro ⟨c, x, ⟨y, _⟩ | _⟩ ⟨c', x', ⟨y', _⟩ | _⟩ ⟨hc, hx, hr⟩ p p'
    · exact .ifElse hc hx hr.1
    · cases hr
    · cases hr
    · exact .ifThen hc hx
  · exact fun hr _ _ => .whileLoop hr.1 hr.2.1
  · rintro ⟨name, params, x, _⟩ ⟨_, params', x', _⟩ ⟨rfl, hparams, hx, -⟩ p p'
    obtain rfl : params = params' := List.forall₂_eq_eq_eq ▸ hparams
    exact .function name params hx

theorem uniform_simple {next : Option Lexeme} {form : Form Clause}
    (hform : start next = .simple form) : form.Uniform := by
  unfold start at hform
  split at hform <;> cases hform
  · exact fun hr _ _ => .ret hr.1
  · rintro ⟨name, x, _⟩ ⟨_, x', _⟩ ⟨rfl, hx, -⟩ p p'
    exact .assign name true hx

section

variable (hexpr : Local StopsAt SameShape expr expr) (hinner : LocalNext SameShape inner inner)

include hexpr hinner

theorem localNext_clause (role : Clause) :
    LocalNext SameShape (clauseReaders expr inner role) (clauseReaders expr inner role) := by
  cases role with
  | expression => exact hexpr.next
  | body => exact hinner

/-- A control statement ends with a token of its own, so what stands behind that is of no matter. -/
theorem local_control {next : Option Lexeme} {form : Form Clause}
    (hform : start next = .control form) (p p' : Position) :
    Local (fun _ => True) SameShape (form.parser (clauseReaders expr inner) p)
      (form.parser (clauseReaders expr inner) p') := by
  refine Form.local_of_fits (localNext_clause hexpr hinner) ?_ (fits_control hform)
    (uniform_control hform) p p'
  exact fun role hrole => absurd (hrole _ trivial) role.not_follow_closeParen

theorem local_simple {next : Option Lexeme} {form : Form Clause}
    (hform : start next = .simple form) (p p' : Position) :
    Local StopsAt SameShape (form.parser (clauseReaders expr inner) p)
      (form.parser (clauseReaders expr inner) p') := by
  refine Form.local_of_fits (localNext_clause hexpr hinner) ?_ (fits_simple hform)
    (uniform_simple hform) p p'
  intro role hrole
  cases role with
  | expression => exact hexpr
  | body =>
      have hcomma := hrole (some (.symbol .comma)) (amongSymbols_some (by decide))
      exact absurd rfl (hcomma.next_ne (by decide))

end

/-- More statements come only after a token has been taken. -/
theorem localAt_afterControl {n : Nat} (hmore : Cuts more)
    (later : ∀ u, u.length < n → LocalAt (fun _ => False) (List.Forall₂ SameShape) more more u)
    (hstatement : LocalNext SameShape statement statement') {u : List Token} (hu : u.length < n) :
    LocalAt (fun _ => False) (List.Forall₂ SameShape) (afterControl more statement)
      (afterControl more statement') u := by
  refine .bind hstatement.cuts (fun _ => (Cuts.accept _).bind fun _ => hmore.bind fun _ => .pure _)
    (.inl fun _ => id) (fun _ => hstatement.localAt _) ?_
  intro a b w x rest hux _ hab
  refine .bind (.accept _) (fun _ => hmore.bind fun _ => .pure _) (.inl fun _ => id)
    (fun _ => (localNext_accept .comma).localAt _) ?_
  intro comma comma' w' x' rest' hx _ _
  have hlength : x'.length < n := by
    subst hux hx
    simp only [List.length_append] at hu
    omega
  refine .bind (R := List.Forall₂ SameShape) hmore (fun _ => .pure _) (.inl fun _ => id) ?_ ?_
  · exact fun hw => later _ (by omega)
  · exact fun _ _ hothers => .pure (.cons hab hothers)

theorem localAt_afterSimple {n : Nat} (hmore : Cuts more)
    (later : ∀ u, u.length < n → LocalAt (fun _ => False) (List.Forall₂ SameShape) more more u)
    (hstatement : LocalNext SameShape statement statement') {u : List Token} (hu : u.length ≤ n) :
    LocalAt (fun _ => False) (List.Forall₂ SameShape) (afterSimple more statement)
      (afterSimple more statement') u := by
  have hrest : ∀ first (comma : Bool), Cuts (if comma then
      more >>= fun others => Pure.pure (first :: others) else Pure.pure [first]) := by
    intro first comma
    cases comma with
    | true => exact hmore.bind fun _ => .pure _
    | false => exact .pure _
  refine .bind hstatement.cuts (fun first => (Cuts.accept _).bind (hrest first))
    (.inl fun _ => id) (fun _ => hstatement.localAt _) ?_
  intro a b w x rest hux _ hab
  refine .bind (.accept _) (hrest a) (.inl fun _ => id)
    (fun _ => (localNext_accept .comma).localAt _) ?_
  rintro comma _ w' x' rest' hx haccept rfl
  cases comma with
  | false => exact .pure (.cons hab .nil)
  | true =>
      have hlength := accept_true_length haccept
      have hx' : x'.length < n := by
        subst hux hx
        simp only [List.length_append] at hu hlength
        omega
      refine .bind (R := List.Forall₂ SameShape) hmore (fun _ => .pure _) (.inl fun _ => id) ?_ ?_
      · exact fun hw => later _ (by omega)
      · exact fun _ _ hothers => .pure (.cons hab hothers)

theorem local_statementsWith (hexpr : Local StopsAt SameShape expr expr)
    (hinner : LocalNext SameShape inner inner) :
    LocalNext (List.Forall₂ SameShape) (statementsWith expr inner) (statementsWith expr inner) := by
  have hcuts := hexpr.cuts.statementsWith hinner.cuts
  refine ⟨hcuts, fun u => ?_⟩
  induction hn : u.length using Nat.strongRecOn generalizing u with
  | ind n ih =>
      have later : ∀ u, u.length < n → LocalAt (fun _ => False) (List.Forall₂ SameShape)
          (statementsWith expr inner) (statementsWith expr inner) u := fun u hu => ih _ hu u rfl
      have hclause := cuts_clause hexpr.cuts hinner.cuts
      refine .of_next (statementsWith_eq hexpr.cuts hinner.cuts)
        (statementsWith_eq hexpr.cuts hinner.cuts) (.inl fun _ => id) fun next => ?_
      unfold statementsBy
      cases hstart : start next with
      | stop => exact .pure .nil
      | control form =>
          refine .shift (fun p => hcuts.afterControl (form.cuts hclause p)) ?_
          rintro t w rfl p p'
          exact localAt_afterControl hcuts later (local_control hexpr hinner hstart p p').next
            (by simp at hn; omega)
      | simple form =>
          refine .shift (fun p => hcuts.afterSimple (form.cuts hclause p)) ?_
          rintro t w rfl p p'
          exact localAt_afterSimple hcuts later (local_simple hexpr hinner hstart p p').next
            (by simp at hn; omega)
      | expression => exact localAt_afterSimple hcuts later hexpr.next (Nat.le_of_eq hn)

end

theorem local_statements (depth : Nat) :
    LocalNext (List.Forall₂ SameShape) (statements depth) (statements depth) := by
  have hexpr (depth : Nat) : Local StopsAt SameShape (expression (operand depth))
      (expression (operand depth)) := local_expression (local_operand depth)
  induction depth with
  | zero => exact local_statementsWith (hexpr 0) .tooDeep
  | succ depth ih => exact local_statementsWith (hexpr _) (local_body ih)

/-- A token that is rejected is rejected behind all tokens of the same kinds and values. -/
theorem root_rejects {depth : Nat} {u v rest rest' : List Token} {kind : SyntaxError.Kind}
    (h : root depth (u ++ rest) = .error (.rejected kind rest)) (hv : SameLexemes u v)
    (hnext : nextLexeme? rest = nextLexeme? rest') :
    root depth (v ++ rest') = .error (.rejected kind rest') := by
  have hlocal := (local_statements depth).localAt u
  unfold root at h ⊢
  cases hs : statements depth (u ++ rest) with
  | error failure =>
      rw [hs] at h
      cases h
      rw [hlocal.rejection hs hv hnext]
  | ok result =>
      obtain ⟨nodes, after⟩ := result
      rw [hs] at h
      cases after with
      | nil => cases h
      | cons t after =>
          cases h
          obtain ⟨nodes', -, hs'⟩ := hlocal.success hs hv (.inl hnext)
          rw [hs']
          cases rest' with
          | nil => cases hnext
          | cons t' rest' => rfl

end Parser

end Scriptlet
