import Mathlib.Data.List.Forall2
import Scriptlet.Proofs.Syntax.Grammar

/-!
# Expressions as operands and operators

Seen from the outside an expression is an operand followed by operators with an operand each. An
operand that ends in assignments opens a frame for the right side of each of them, and an operator
may go on in any open frame that still allows it, which closes the frames inside. Every derivation
of an expression is such a run over its operators.

Of all frames that allow an operator the innermost is as good as any other. Operators looser than
comparisons leave the same frame behind wherever they are taken, and after any other operator the
frame that might have been chosen instead is still open and allows no less.
-/

namespace Scriptlet

open Rule

/-! ## Frames -/

/-- The operators that an open expression has used up, of those that it can use once between
looser ones. -/
structure Frame where
  equality : Bool
  comparison : Bool
  deriving DecidableEq

namespace Frame

def fresh : Frame := ⟨false, false⟩

def blocks (c : Frame) : Nat → Bool
  | 2 => c.equality
  | 3 => c.comparison
  | _ => false

def after (c : Frame) : Nat → Frame
  | 0 | 1 => fresh
  | 2 => ⟨true, false⟩
  | 3 => ⟨c.equality, true⟩
  | _ => c

/-- The smaller frame allows more. -/
instance : LE Frame := ⟨fun c d => c.equality ≤ d.equality ∧ c.comparison ≤ d.comparison⟩

instance (c d : Frame) : Decidable (c ≤ d) := inferInstanceAs (Decidable (_ ∧ _))

protected theorem le_refl (c : Frame) : c ≤ c := ⟨Bool.le_refl _, Bool.le_refl _⟩

@[simp] theorem fresh_blocks (i : Nat) : fresh.blocks i = false := by
  unfold blocks
  split <;> rfl

theorem blocks_eq_false_of_le {c d : Frame} (h : c ≤ d) {i : Nat} (hd : d.blocks i = false) :
    c.blocks i = false := by
  obtain ⟨hequality, hcomparison⟩ := h
  unfold blocks at hd ⊢
  split at hd
  · rw [hd] at hequality
    exact Bool.eq_false_of_le_false hequality
  · rw [hd] at hcomparison
    exact Bool.eq_false_of_le_false hcomparison
  · rfl

theorem after_le_after {c d : Frame} (h : c ≤ d) (i : Nat) : c.after i ≤ d.after i := by
  unfold after
  split
  · exact Frame.le_refl _
  · exact Frame.le_refl _
  · exact Frame.le_refl _
  · exact ⟨h.1, Bool.le_refl _⟩
  · exact h

/-- An operator takes every frame to the same one, or makes none smaller. -/
theorem after_const_or_le (i : Nat) :
    (∀ c d : Frame, c.after i = d.after i) ∨ ∀ c : Frame, c ≤ c.after i := by
  match i with
  | 0 | 1 | 2 => exact .inl fun _ _ => rfl
  | 3 => exact .inr fun c => ⟨Bool.le_refl _, Bool.le_true _⟩
  | _ + 4 => exact .inr Frame.le_refl

theorem blocks_after_of_lt {i j : Nat} (h : i < j) (c : Frame) :
    (c.after i).blocks j = false := by
  match i, j with
  | 0, _ | 1, _ => exact fresh_blocks _
  | 2, 3 => rfl
  | 2, _ + 4 | 3, _ + 4 | _ + 4, _ + 4 => rfl
  | 2, 0 | 2, 1 | 2, 2 | 3, 0 | 3, 1 | 3, 2 | 3, 3 => omega
  | _ + 4, 0 | _ + 4, 1 | _ + 4, 2 | _ + 4, 3 => omega

theorem blocks_after_of_gt {i j : Nat} (h : j < i) (c : Frame) :
    (c.after i).blocks j = c.blocks j := by
  match i, j with
  | 1, 0 | 2, 0 | 2, 1 | 3, 0 | 3, 1 | 3, 2 => rfl
  | _ + 4, _ => rfl
  | 0, _ => omega
  | 1, _ + 1 | 2, _ + 2 | 3, _ + 3 => omega

theorem blocks_after_self (i : Nat) (c : Frame) : (c.after i).blocks i = decide (Lone i) := by
  match i with
  | 0 | 1 | 2 | 3 => rfl
  | n + 4 =>
      have hlone : ¬ Lone (n + 4) := by
        unfold Lone
        omega
      exact (decide_eq_false hlone).symm

end Frame

/-! ## Runs over operators -/

/-- Tokens of an operand. At its end the right sides of `k` assignments are open. -/
inductive Operand : Nat → List Token → Prop where
  | atom {t : Token} (h : t.kind.isAtom = true) : Operand 0 [t]
  | group {u : List Token} (p c : Position) (inner : Derives (.phrase .expr) u) :
      Operand 0 (⟨.symbol .openParen, p⟩ :: (u ++ [⟨.symbol .closeParen, c⟩]))
  | call {u : List Token} (name : String) (p q c : Position)
      (args : Derives (listed (phrase .expr)) u) :
      Operand 0 (⟨.identifier name, p⟩ :: ⟨.symbol .openParen, q⟩ ::
        (u ++ [⟨.symbol .closeParen, c⟩]))
  | sign {k : Nat} {w : List Token} {s : Symbol} (p : Position) (known : s = .bang ∨ s = .minus)
      (operand : Operand k w) : Operand k (⟨.symbol s, p⟩ :: w)
  | assign {k : Nat} {w : List Token} (name : String) (p q : Position) (first : Operand k w) :
      Operand (k + 1) (⟨.identifier name, p⟩ :: ⟨.symbol .equal, q⟩ :: w)

/-- The stack after an operand: a new frame for each assignment that it leaves open. -/
def opened (k : Nat) (S : List Frame) : List Frame := List.replicate k .fresh ++ S

/-- The operators up to `rest`, each with its operand, taken in the open frames `S`. -/
inductive Spine (rest : List Token) : List Frame → List Token → Prop where
  | done (S : List Frame) : Spine rest S rest
  | leave {c : Frame} {S : List Frame} {T : List Token} (outer : Spine rest S T) :
      Spine rest (c :: S) T
  | take {c : Frame} {S : List Frame} {t : Token} {i k : Nat} {w T : List Token}
      (operator : t.tier? = some i) (allowed : c.blocks i = false) (operand : Operand k w)
      (more : Spine rest (opened k (c.after i :: S)) T) : Spine rest (c :: S) (t :: (w ++ T))

/-- A stack that allows all that another one does: it has a frame for each frame of the other, not
greater and in the same order. -/
def Covers (S S' : List Frame) : Prop := List.SublistForall₂ (fun c d => d ≤ c) S S'

theorem Covers.refl (S : List Frame) : Covers S S := by
  induction S with
  | nil => exact .nil
  | cons c S ih => exact .cons c.le_refl ih

theorem Covers.append_left {S S' : List Frame} (h : Covers S S') (front : List Frame) :
    Covers S (front ++ S') := by
  induction front with
  | nil => exact h
  | cons c front ih => exact .cons_right ih

theorem Covers.opened {S S' : List Frame} (h : Covers S S') (k : Nat) :
    Covers (opened k S) (opened k S') := by
  unfold Scriptlet.opened
  induction k with
  | zero => exact h
  | succ k ih => exact .cons Frame.fresh.le_refl ih

theorem Covers.tail {c : Frame} {S S' : List Frame} (h : Covers (c :: S) S') : Covers S S' := by
  generalize hS : c :: S = stack at h
  induction h with
  | nil => cases hS
  | cons _ h _ =>
      cases hS
      exact .cons_right h
  | cons_right _ ih => exact .cons_right (ih hS)

namespace Spine

variable {rest T : List Token} {c : Frame} {S S' : List Frame}

theorem mono (h : Spine rest S T) (hc : Covers S S') : Spine rest S' T := by
  induction h generalizing S' with
  | done S => exact .done S'
  | leave outer ih => exact ih hc.tail
  | @take c S t i k w T operator allowed operand more ih =>
      -- The frame that stands for `c` takes the operator; those inside it are left.
      generalize hS : c :: S = stack at hc
      induction hc with
      | nil => cases hS
      | @cons _ d _ S' hle hc _ =>
          cases hS
          refine .take operator (Frame.blocks_eq_false_of_le hle allowed) operand (ih ?_)
          exact Covers.opened (.cons (Frame.after_le_after hle i) hc) k
      | cons_right _ ih' => exact .leave (ih' hS)

theorem exists_take {t : Token} {i : Nat} (h : Spine rest S (t :: T))
    (hrest : ∀ t ∈ rest.head?, t.tier? = none) (ht : t.tier? = some i) :
    ∃ front d outer k w T', S = front ++ d :: outer ∧ T = w ++ T' ∧ Operand k w ∧
      Spine rest (opened k (d.after i :: outer)) T' := by
  generalize htokens : t :: T = tokens at h
  induction h with
  | done =>
      have hnone := hrest t (by rw [← htokens]; rfl)
      rw [ht] at hnone
      cases hnone
  | @leave c S _ _ ih =>
      obtain ⟨front, d, outer, k, w, T', rfl, hrun⟩ := ih htokens
      exact ⟨c :: front, d, outer, k, w, T', rfl, hrun⟩
  | @take c S t' i' k w T' operator _ operand more _ =>
      obtain ⟨rfl, rfl⟩ := List.cons.inj htokens
      obtain rfl : i = i' := Option.some.inj (ht.symm.trans operator)
      exact ⟨[], c, S, k, w, T', rfl, rfl, operand, more⟩

/-- Whichever frame takes the next operator, the innermost may as well. -/
theorem take_innermost {t : Token} {i : Nat} (h : Spine rest (c :: S) (t :: T))
    (hrest : ∀ t ∈ rest.head?, t.tier? = none) (ht : t.tier? = some i) :
    ∃ k w T', T = w ++ T' ∧ Operand k w ∧ Spine rest (opened k (c.after i :: S)) T' := by
  obtain ⟨front, d, outer, k, w, T', hS, rfl, operand, more⟩ := h.exists_take hrest ht
  refine ⟨k, w, T', rfl, operand, ?_⟩
  cases front with
  | nil =>
      cases hS
      exact more
  | cons c' front =>
      obtain ⟨rfl, rfl⟩ := List.cons.inj hS
      -- The frames that the run leaves open cover those left open by a taker further out.
      refine more.mono (Covers.opened ?_ k)
      rcases Frame.after_const_or_le i with hconst | hle
      · have houter : Covers outer (front ++ d :: outer) :=
          Covers.append_left (.cons_right (Covers.refl outer)) front
        rw [hconst d c]
        exact .cons (Frame.le_refl _) houter
      · have houter : Covers (d.after i :: outer) (front ++ d :: outer) :=
          Covers.append_left (.cons (hle d) (Covers.refl outer)) front
        exact .cons_right houter

/-- If the innermost frame allows no operator that comes next, the run goes on outside it. -/
theorem of_blocked (h : Spine rest (c :: S) T)
    (hT : ∀ t ∈ T.head?, ∀ i, t.tier? = some i → c.blocks i = true) : Spine rest S T := by
  cases h with
  | done => exact .done S
  | leave outer => exact outer
  | @take _ _ t i _ _ _ operator allowed _ _ =>
      have hblocks := hT t rfl i operator
      rw [allowed] at hblocks
      cases hblocks

/-- What holds of operators and of the rest holds of the token behind an operand. -/
theorem head_of_rest {P : Token → Prop} (h : Spine rest S T) (hrest : ∀ t ∈ rest.head?, P t)
    (hoperator : ∀ t : Token, ∀ i, t.tier? = some i → P t) : ∀ t ∈ T.head?, P t := by
  induction h with
  | done => exact hrest
  | leave _ ih => exact ih
  | take operator _ _ _ _ =>
      intro t ht
      cases ht
      exact hoperator _ _ operator

end Spine

/-! ## Derivations as runs -/

/-- The tokens are an operand and then operators that a frame without operators of tier `i` or
tighter can take, with operators of those tiers only. -/
def Flattens (i : Nat) (w : List Token) : Prop :=
  ∃ k u v, w = u ++ v ∧ Operand k u ∧
    ∀ (c : Frame) (S : List Frame), (∀ j, i ≤ j → c.blocks j = false) →
      ∃ d : Frame, (∀ j, j < i → d.blocks j = c.blocks j) ∧
        ∀ rest T, Spine rest (d :: S) T → Spine rest (opened k (c :: S)) (v ++ T)

theorem Operand.flattens {w : List Token} (h : Operand 0 w) : Flattens 7 w :=
  ⟨0, w, [], by simp, h, fun c _ _ => ⟨c, fun _ _ => rfl, fun _ _ run => run⟩⟩

theorem joints_run {i : Nat} {joints : Joints}
    (hjoints : ∀ joint ∈ joints, joint.1.tier? = some i ∧ Flattens (i + 1) joint.2)
    (hlone : Lone i → joints.length ≤ 1) (c : Frame) (S : List Frame)
    (hc : joints ≠ [] → c.blocks i = false) :
    ∃ d : Frame, (∀ j, j < i → d.blocks j = c.blocks j) ∧
      ∀ rest T, Spine rest (d :: S) T → Spine rest (c :: S) (joints.tokens ++ T) := by
  induction joints generalizing c with
  | nil => exact ⟨c, fun _ _ => rfl, fun _ _ run => run⟩
  | cons joint joints ih =>
      obtain ⟨t, w⟩ := joint
      obtain ⟨⟨ht, k, u, v, rfl, operand, run⟩, hmore⟩ := List.forall_mem_cons.mp hjoints
      obtain ⟨d, hd, hrun⟩ := run (c.after i) S fun j hj => Frame.blocks_after_of_lt hj c
      have hopen : joints ≠ [] → d.blocks i = false := by
        intro hne
        have hnot : ¬ Lone i := by
          intro h
          have hlength := hlone h
          have hpos := List.length_pos_of_ne_nil hne
          rw [List.length_cons] at hlength
          omega
        rw [hd i (by omega), Frame.blocks_after_self, decide_eq_false hnot]
      have hfew : Lone i → joints.length ≤ 1 := by
        intro h
        have hlength := hlone h
        rw [List.length_cons] at hlength
        omega
      obtain ⟨e, he, hlast⟩ := ih hmore hfew d hopen
      refine ⟨e, ?_, ?_⟩
      · intro j hj
        rw [he j hj, hd j (by omega), Frame.blocks_after_of_gt hj]
      · intro rest T htail
        have hspine := Spine.take ht (hc (by simp)) operand (hrun rest _ (hlast rest T htail))
        simpa [Joints.tokens] using hspine

theorem flattens_of_joints {i : Nat} {first : List Token} {joints : Joints}
    (hfirst : Flattens (i + 1) first)
    (hjoints : ∀ joint ∈ joints, joint.1.tier? = some i ∧ Flattens (i + 1) joint.2)
    (hlone : Lone i → joints.length ≤ 1) : Flattens i (first ++ joints.tokens) := by
  obtain ⟨k, u, v, rfl, operand, run⟩ := hfirst
  refine ⟨k, u, v ++ joints.tokens, by simp, operand, ?_⟩
  intro c S hc
  obtain ⟨d, hd, hrun⟩ := run c S fun j hj => hc j (by omega)
  have hopen : d.blocks i = false := by rw [hd i (by omega), hc i (Nat.le_refl i)]
  obtain ⟨e, he, hlast⟩ := joints_run hjoints hlone d S fun _ => hopen
  refine ⟨e, ?_, ?_⟩
  · intro j hj
    rw [he j hj, hd j (by omega)]
  · intro rest T htail
    rw [List.append_assoc]
    exact hrun rest _ (hlast rest T htail)

/-- Derivations of at most `n` tokens in tier `i` are runs. -/
def FlattensUpTo (n i : Nat) : Prop :=
  ∀ w : List Token, w.length ≤ n → Derives (.phrase (tier i)) w → Flattens i w

theorem FlattensUpTo.looser {n i : Nat} (hi : i < 7) (h : FlattensUpTo n (i + 1)) :
    FlattensUpTo n i := by
  intro w hw hderives
  obtain ⟨first, joints, rfl, hfirst, hjoints, hlone⟩ := (derives_tier_iff hi).mp hderives
  rw [List.length_append] at hw
  refine flattens_of_joints (h first (by omega) hfirst) ?_ hlone
  intro joint hjoint
  obtain ⟨ht, hjointDerives⟩ := hjoints joint hjoint
  have hlength : joint.2.length ≤ joints.tokens.length := by
    have hsub : (joint.1 :: joint.2).Sublist joints.tokens := by
      unfold Joints.tokens
      rw [List.flatMap_def]
      exact List.sublist_flatten_of_mem (List.mem_map_of_mem hjoint)
    have hle := hsub.length_le
    rw [List.length_cons] at hle
    omega
  exact ⟨ht, h joint.2 (by omega) hjointDerives⟩

theorem FlattensUpTo.loosest {n : Nat} (h : FlattensUpTo n 7) : FlattensUpTo n 0 := by
  have hall : ∀ k, k ≤ 7 → FlattensUpTo n (7 - k) := by
    intro k
    induction k with
    | zero => exact fun _ => h
    | succ k ih =>
        intro hk
        have htighter := ih (by omega)
        have hnext : 7 - k = 7 - (k + 1) + 1 := by omega
        rw [hnext] at htighter
        exact htighter.looser (by omega)
  exact hall 7 (Nat.le_refl 7)

/-- An operand is shorter than the expression it is part of, so the right side of an assignment
may be taken apart first. -/
theorem FlattensUpTo.operand {n : Nat} (hexpr : FlattensUpTo n 0) (hunary : FlattensUpTo n 7) :
    FlattensUpTo (n + 1) 7 := by
  intro w hw hderives
  rcases derives_unary_iff.mp hderives with ⟨s, p, v, hs, rfl, hv⟩ | ⟨t, ht, rfl⟩ |
    ⟨name, p, q, u, c, rfl, hu⟩ | ⟨name, p, q, u, rfl, hu⟩ | ⟨p, u, c, rfl, hu⟩
  · rw [List.length_cons] at hw
    obtain ⟨k, x, y, rfl, operand, run⟩ := hunary v (by omega) hv
    exact ⟨k, _, y, rfl, .sign p hs operand, run⟩
  · exact (Operand.atom ht).flattens
  · exact (Operand.call name p q c hu).flattens
  · rw [List.length_cons, List.length_cons] at hw
    obtain ⟨k, x, y, rfl, operand, run⟩ := hexpr u (by omega) (derives_expr_iff.mp hu)
    refine ⟨k + 1, _, y, rfl, .assign name p q operand, ?_⟩
    intro c S hc
    -- The operators behind the assignment belong to a fresh frame, which is left at the end.
    obtain ⟨d, hd, hrun⟩ := run .fresh (c :: S) fun j _ => Frame.fresh_blocks j
    refine ⟨c, fun _ _ => rfl, ?_⟩
    intro rest T htail
    have hrun := hrun rest T (.leave htail)
    simpa [opened, List.replicate_succ'] using hrun
  · exact (Operand.group p c hu).flattens

theorem flattensUpTo (n : Nat) : FlattensUpTo n 7 := by
  induction n with
  | zero =>
      intro w hw hderives
      obtain rfl : w = [] := List.length_eq_zero_iff.mp (by omega)
      rcases derives_unary_iff.mp hderives with h | h | h | h | h
      all_goals simp at h
  | succ n ih => exact ih.loosest.operand ih

/-- Every derivation of an expression is a run from one fresh frame. -/
theorem Derives.run {w : List Token} (h : Derives (.phrase .expr) w) (rest : List Token) :
    ∃ k u T, w ++ rest = u ++ T ∧ Operand k u ∧ Spine rest (opened k [.fresh]) T := by
  obtain ⟨k, u, v, rfl, operand, run⟩ :=
    (flattensUpTo w.length).loosest w (Nat.le_refl _) (derives_expr_iff.mp h)
  obtain ⟨d, _, hrun⟩ := run .fresh [] fun j _ => Frame.fresh_blocks j
  exact ⟨k, u, v ++ rest, by simp, operand, hrun rest rest (.done _)⟩

/-- The kinds of tokens that an operand can begin with. -/
def Kind.startsOperand : Kind → Bool
  | .symbol .bang | .symbol .minus | .symbol .openParen => true
  | kind => kind.isAtom

theorem Operand.head {k : Nat} {w : List Token} (h : Operand k w) :
    ∃ t v, w = t :: v ∧ t.kind.startsOperand = true := by
  cases h with
  | @atom t ht =>
      refine ⟨t, [], rfl, ?_⟩
      unfold Kind.startsOperand
      split <;> first | rfl | exact ht
  | group => exact ⟨_, _, rfl, rfl⟩
  | call => exact ⟨_, _, rfl, rfl⟩
  | sign p known => rcases known with rfl | rfl <;> exact ⟨_, _, rfl, rfl⟩
  | assign => exact ⟨_, _, rfl, rfl⟩

theorem Derives.head {w : List Token} (h : Derives (.phrase .expr) w) :
    ∃ t v, w = t :: v ∧ t.kind.startsOperand = true := by
  obtain ⟨k, u, T, heq, operand, _⟩ := h.run []
  obtain ⟨t, v, rfl, ht⟩ := operand.head
  rw [List.append_nil] at heq
  exact ⟨t, v ++ T, heq, ht⟩

end Scriptlet
