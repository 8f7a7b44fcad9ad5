import Mathlib.Data.List.Forall2
import Scriptlet.Proofs.Scope.Outline

/-!
# Matching arenas

Two arenas match along a relation of functions if they hold the same scopes in the same order, with
the same variables, and functions that are related. Operations on scopes cannot tell matching arenas
apart: they find the same scope missing in both, or they give the same answer and leave arenas that
match again.
-/

namespace Scriptlet

/-! ## Lists and maps -/

theorem findSome?_twins {α β γ δ : Type} {R : α → β → Prop} {Q : γ → δ → Prop}
    {f : α → Option γ} {k : β → Option δ} (hfk : ∀ x y, R x y → Option.Rel Q (f x) (k y))
    {xs : List α} {ys : List β} (h : List.Forall₂ R xs ys) :
    Option.Rel Q (xs.findSome? f) (ys.findSome? k) := by
  induction h with
  | nil => exact .none
  | @cons x y xs ys hxy _ ih =>
      have head := hfk x y hxy
      rw [List.findSome?_cons, List.findSome?_cons]
      generalize f x = a at head
      generalize k y = b at head
      cases head with
      | some hq => exact .some hq
      | none => exact ih

theorem find?_twins {α β : Type} {R : α → β → Prop} {p : α → Bool} {q : β → Bool}
    (hpq : ∀ x y, R x y → p x = q y) {xs : List α} {ys : List β} (h : List.Forall₂ R xs ys) :
    Option.Rel R (xs.find? p) (ys.find? q) := by
  induction h with
  | nil => exact .none
  | @cons x y xs ys hxy _ ih =>
      rw [List.find?_cons, List.find?_cons, ← hpq x y hxy]
      cases p x with
      | true => exact .some hxy
      | false => exact ih

namespace OrderedMap

variable {κ α β γ : Type}

/-- The same keys in the same order, with values that `R` relates. -/
def Matched (R : α → β → Prop) (m : OrderedMap κ α) (m' : OrderedMap κ β) : Prop :=
  List.Forall₂ (fun entry entry' => entry.1 = entry'.1 ∧ R entry.2 entry'.2) m.entries m'.entries

variable {R : α → β → Prop} {m : OrderedMap κ α} {m' : OrderedMap κ β}

theorem Matched.imp {Q : α → β → Prop} (h : m.Matched R m') (hRQ : ∀ a b, R a b → Q a b) :
    m.Matched Q m' :=
  List.Forall₂.imp (fun _ _ same => ⟨same.1, hRQ _ _ same.2⟩) h

theorem matched_self {R : α → α → Prop} (h : ∀ entry ∈ m.entries, R entry.2 entry.2) :
    m.Matched R m :=
  List.forall₂_same.mpr fun entry hentry => ⟨rfl, h entry hentry⟩

theorem matched_mapValues {Q : γ → β → Prop} {f : α → γ} :
    (m.mapValues f).Matched Q m' ↔ m.Matched (fun a b => Q (f a) b) m' :=
  List.forall₂_map_left_iff

theorem Matched.eq {m' : OrderedMap κ α} (h : m.Matched Eq m') : m = m' := by
  have same : List.Forall₂ Eq m.entries m'.entries :=
    List.Forall₂.imp (fun _ _ same => Prod.ext same.1 same.2) h
  rw [List.forall₂_eq_eq_eq] at same
  exact OrderedMap.ext same

variable [DecidableEq κ]

theorem Matched.get? (h : m.Matched R m') (key : κ) :
    Option.Rel R (m.get? key) (m'.get? key) := by
  unfold Matched at h
  unfold OrderedMap.get?
  generalize m.entries = entries, m'.entries = entries' at h ⊢
  induction h with
  | nil => exact .none
  | @cons entry entry' _ _ same _ ih =>
      obtain ⟨k, a⟩ := entry
      obtain ⟨k', a'⟩ := entry'
      obtain ⟨rfl, hR⟩ := same
      by_cases hk : k = key
      · simp only [valueAmong?, if_pos hk]
        exact .some hR
      · simp only [valueAmong?, if_neg hk]
        exact ih

theorem Matched.contains (h : m.Matched R m') (key : κ) : m.contains key = m'.contains key := by
  have same := h.get? key
  unfold OrderedMap.contains
  generalize m.get? key = a at same
  generalize m'.get? key = b at same
  cases same <;> rfl

theorem Matched.set (h : m.Matched R m') (key : κ) {a : α} {b : β} (hab : R a b) :
    (m.set key a).Matched R (m'.set key b) := by
  unfold Matched at h ⊢
  unfold OrderedMap.set
  dsimp only
  generalize m.entries = entries, m'.entries = entries' at h ⊢
  induction h with
  | nil => exact .cons ⟨rfl, hab⟩ .nil
  | @cons entry entry' _ _ same rest ih =>
      obtain ⟨k, x⟩ := entry
      obtain ⟨k', x'⟩ := entry'
      obtain ⟨rfl, hR⟩ := same
      by_cases hk : k = key
      · simp only [setEntry, if_pos hk]
        exact .cons ⟨rfl, hab⟩ rest
      · simp only [setEntry, if_neg hk]
        exact .cons ⟨rfl, hR⟩ ih

theorem Matched.erase (h : m.Matched R m') (key : κ) : (m.erase key).Matched R (m'.erase key) := by
  refine List.rel_filter ?_ h
  intro entry entry' same
  simp only [same.1]

end OrderedMap

/-! ## Scopes and arenas -/

section

variable {α φ ψ χ : Type}

/-- Scopes that differ at most in their functions, which `F` relates. -/
structure Scope.Matched (F : φ → ψ → Prop) (x : Scope α φ) (y : Scope α ψ) : Prop where
  parent : x.parent = y.parent
  vars : x.vars = y.vars
  functions : x.functions.Matched F y.functions

structure Arena.Matched (F : φ → ψ → Prop) (a : Arena α φ) (b : Arena α ψ) : Prop where
  next : a.next = b.next
  scopes : a.scopes.Matched (Scope.Matched F) b.scopes

/-- The scope with every function replaced by what `k` makes of it. -/
def Scope.mapFunctions (k : φ → ψ) (x : Scope α φ) : Scope α ψ :=
  ⟨x.parent, x.vars, x.functions.mapValues k⟩

def Arena.mapFunctions (k : φ → ψ) (a : Arena α φ) : Arena α ψ :=
  ⟨a.scopes.mapValues (Scope.mapFunctions k), a.next⟩

/-- The functions of all scopes. -/
def Arena.functions (a : Arena α φ) : List φ :=
  a.scopes.entries.flatMap fun entry => entry.2.functions.entries.map (·.2)

theorem Scope.Matched.set_var {F : φ → ψ → Prop} {x : Scope α φ} {y : Scope α ψ}
    (h : x.Matched F y) (name : String) (value : α) :
    Scope.Matched F { x with vars := x.vars.set name value }
      { y with vars := y.vars.set name value } :=
  ⟨h.parent, by rw [h.vars], h.functions⟩

theorem Scope.matched_mapFunctions {G : χ → ψ → Prop} {k : φ → χ} {x : Scope α φ}
    {y : Scope α ψ} :
    (x.mapFunctions k).Matched G y ↔ x.Matched (fun f g => G (k f) g) y := by
  constructor
  · intro h
    exact ⟨h.parent, h.vars, OrderedMap.matched_mapValues.mp h.functions⟩
  · intro h
    exact ⟨h.parent, h.vars, OrderedMap.matched_mapValues.mpr h.functions⟩

theorem Scope.Matched.eq {x y : Scope α φ} (h : x.Matched Eq y) : x = y := by
  cases x
  cases y
  rw [Scope.mk.injEq]
  exact ⟨h.parent, h.vars, h.functions.eq⟩

namespace Arena

variable {F : φ → ψ → Prop} {a : Arena α φ} {b : Arena α ψ}

theorem Matched.imp {G : φ → ψ → Prop} (h : a.Matched F b) (hFG : ∀ f g, F f g → G f g) :
    a.Matched G b :=
  ⟨h.next, h.scopes.imp fun _ _ same => ⟨same.parent, same.vars, same.functions.imp hFG⟩⟩

theorem matched_self {F : φ → φ → Prop} (h : ∀ f ∈ a.functions, F f f) : a.Matched F a := by
  refine ⟨rfl, OrderedMap.matched_self fun entry hentry => ⟨rfl, rfl, ?_⟩⟩
  apply OrderedMap.matched_self
  intro inner hinner
  exact h _ (List.mem_flatMap.mpr ⟨entry, hentry, List.mem_map_of_mem hinner⟩)

theorem matched_mapFunctions {G : χ → ψ → Prop} {k : φ → χ} :
    (a.mapFunctions k).Matched G b ↔ a.Matched (fun f g => G (k f) g) b := by
  have scopes : (a.mapFunctions k).scopes.Matched (Scope.Matched G) b.scopes ↔
      a.scopes.Matched (Scope.Matched fun f g => G (k f) g) b.scopes := by
    rw [Arena.mapFunctions, OrderedMap.matched_mapValues]
    simp only [Scope.matched_mapFunctions]
  constructor
  · intro h
    exact ⟨h.next, scopes.mp h.scopes⟩
  · intro h
    exact ⟨h.next, scopes.mpr h.scopes⟩

theorem Matched.eq {b : Arena α φ} (h : a.Matched Eq b) : a = b := by
  cases a
  cases b
  rw [Arena.mk.injEq]
  exact ⟨(h.scopes.imp fun _ _ => Scope.Matched.eq).eq, h.next⟩

/-- Both actions have come to a result, with arenas that match, or both have found the same fault
and have changed nothing. -/
def Together {β : Type} (F : φ → ψ → Prop) (a : Arena α φ) (b : Arena α ψ) (m : Action α φ β)
    (n : Action α ψ β) : Prop :=
  (∃ u a' b', m a = (.ok u, a') ∧ n b = (.ok u, b') ∧ a'.Matched F b') ∨
    ∃ fault, m a = (.error fault, a) ∧ n b = (.error fault, b)

namespace Matched

variable (h : a.Matched F b)

include h

theorem contains (g : Handle) : a.contains g = b.contains g := h.scopes.contains g

theorem put (g : Handle) {x : Scope α φ} {y : Scope α ψ} (hxy : x.Matched F y) :
    (a.put g x).Matched F (b.put g y) :=
  ⟨h.next, h.scopes.set g hxy⟩

theorem grown (g : Handle) : (a.grown g).Matched F (b.grown g) := by
  refine ⟨congrArg (· + 1) h.next, ?_⟩
  unfold Arena.grown
  rw [h.next]
  exact h.scopes.set b.next ⟨rfl, rfl, .nil⟩

theorem without (g : Handle) : (a.without g).Matched F (b.without g) :=
  ⟨h.next, h.scopes.erase g⟩

theorem chainFrom (fuel : Nat) (g : Handle) :
    (a.chainFrom fuel g).broken = (b.chainFrom fuel g).broken ∧
      List.Forall₂ (fun link link' => link.1 = link'.1 ∧ link.2.Matched F link'.2)
        (a.chainFrom fuel g).links (b.chainFrom fuel g).links := by
  induction fuel generalizing g with
  | zero => exact ⟨rfl, .nil⟩
  | succ fuel ih =>
      have same := h.scopes.get? g
      unfold Arena.chainFrom
      generalize a.scopes.get? g = x at same
      generalize b.scopes.get? g = y at same
      cases same with
      | none => exact ⟨rfl, .nil⟩
      | @some x y hxy =>
          have hparent := hxy.parent
          cases hy : y.parent with
          | none =>
              simp only [hy, hparent.trans hy]
              exact ⟨trivial, .cons ⟨rfl, hxy⟩ .nil⟩
          | some parent =>
              simp only [hy, hparent.trans hy]
              exact ⟨(ih parent).1, .cons ⟨rfl, hxy⟩ (ih parent).2⟩

theorem fault (g : Handle) (name : String) : (a.chain g).fault name = (b.chain g).fault name := by
  have broken : (a.chain g).broken = (b.chain g).broken := (h.chainFrom _ g).1
  simp only [Chain.fault, broken]

theorem lookup (g : Handle) (name : String) : a.lookup g name = b.lookup g name := by
  have found : Option.Rel Eq
      ((a.chain g).links.findSome? fun link => link.2.vars.get? name)
      ((b.chain g).links.findSome? fun link => link.2.vars.get? name) := by
    refine findSome?_twins ?_ (h.chainFrom _ g).2
    intro x y hxy
    rw [hxy.2.vars]
    cases y.2.vars.get? name with
    | none => exact .none
    | some value => exact .some rfl
  simp only [Arena.lookup, h.fault g name]
  generalize (a.chain g).links.findSome? (fun link => link.2.vars.get? name) = x at found
  generalize (b.chain g).links.findSome? (fun link => link.2.vars.get? name) = y at found
  cases found with
  | none => rfl
  | some same => rw [same]

theorem lookupFunction (g : Handle) (name : String) :
    (∃ f k, a.lookupFunction g name = .ok f ∧ b.lookupFunction g name = .ok k ∧ F f k) ∨
      ∃ fault, a.lookupFunction g name = .error fault ∧ b.lookupFunction g name = .error fault := by
  have found : Option.Rel F
      ((a.chain g).links.findSome? fun link => link.2.functions.get? name)
      ((b.chain g).links.findSome? fun link => link.2.functions.get? name) :=
    findSome?_twins (fun _ _ hxy => hxy.2.functions.get? name) (h.chainFrom _ g).2
  simp only [Arena.lookupFunction, h.fault g name]
  generalize (a.chain g).links.findSome? (fun link => link.2.functions.get? name) = x at found
  generalize (b.chain g).links.findSome? (fun link => link.2.functions.get? name) = y at found
  cases found with
  | none => exact .inr ⟨_, rfl, rfl⟩
  | some related => exact .inl ⟨_, _, rfl, rfl, related⟩

/-- Rewriting the scope at a handle, in the manner of `assign` and `declare`. -/
theorem atScope (g : Handle) {change : Scope α φ → Scope α φ} {change' : Scope α ψ → Scope α ψ}
    (hchange : ∀ x y, x.Matched F y → (change x).Matched F (change' y)) :
    (∃ x y, a.scopes.get? g = some x ∧ b.scopes.get? g = some y ∧
        (a.put g (change x)).Matched F (b.put g (change' y))) ∨
      a.scopes.get? g = none ∧ b.scopes.get? g = none := by
  have same := h.scopes.get? g
  generalize a.scopes.get? g = x at same
  generalize b.scopes.get? g = y at same
  cases same with
  | none => exact .inr ⟨rfl, rfl⟩
  | some hxy => exact .inl ⟨_, _, rfl, rfl, h.put g (hchange _ _ hxy)⟩

theorem assign (g : Handle) (name : String) (value : α) :
    Together F a b (Arena.assign g name value) (Arena.assign g name value) := by
  rcases h.atScope g fun _ _ hxy => hxy.set_var name value with ⟨x, y, hx, hy, after⟩ | ⟨hx, hy⟩
  · exact .inl ⟨_, _, _, assign_of_get? hx name value, assign_of_get? hy name value, after⟩
  · exact .inr ⟨_, assign_of_dead hx name value, assign_of_dead hy name value⟩

theorem declare (g : Handle) (name : String) {f : φ} {k : ψ} (hfk : F f k) :
    Together F a b (Arena.declare g name f) (Arena.declare g name k) := by
  have hchange : ∀ (x : Scope α φ) (y : Scope α ψ), x.Matched F y →
      Scope.Matched F { x with functions := x.functions.set name f }
        { y with functions := y.functions.set name k } := fun x y hxy =>
    ⟨hxy.parent, hxy.vars, hxy.functions.set name hfk⟩
  rcases h.atScope g hchange with ⟨x, y, hx, hy, after⟩ | ⟨hx, hy⟩
  · exact .inl ⟨_, _, _, declare_of_get? hx name f, declare_of_get? hy name k, after⟩
  · exact .inr ⟨_, declare_of_dead hx name f, declare_of_dead hy name k⟩

theorem assignOuter (g : Handle) (name : String) (value : α) :
    Together F a b (Arena.assignOuter g name value) (Arena.assignOuter g name value) := by
  obtain ⟨broken, links⟩ := h.chainFrom (g.toNat + 1) g
  have found := find?_twins (p := fun link => link.2.vars.contains name)
    (q := fun link => link.2.vars.contains name) (fun x y hxy => by rw [hxy.2.vars]) links
  simp only [Together, assignOuter_eq, Arena.chain, broken]
  generalize (a.chainFrom (g.toNat + 1) g).links.find? _ = x at found
  generalize (b.chainFrom (g.toNat + 1) g).links.find? _ = y at found
  cases found with
  | none =>
      cases (b.chainFrom (g.toNat + 1) g).broken with
      | some missing => exact .inr ⟨_, rfl, rfl⟩
      | none => exact .inl ⟨_, _, _, rfl, rfl, h⟩
  | @some link link' hlink =>
      obtain ⟨k, x⟩ := link
      obtain ⟨k', y⟩ := link'
      obtain ⟨rfl, hxy⟩ := hlink
      exact .inl ⟨_, _, _, rfl, rfl, h.put k (hxy.set_var name value)⟩

theorem discard (g : Handle) : Together F a b (Arena.discard g) (Arena.discard g) := by
  by_cases root : g = rootHandle
  · subst root
    exact .inl ⟨_, _, _, discard_root a, discard_root b, h⟩
  · rcases h.atScope g fun _ _ hxy => hxy with ⟨x, y, hx, hy, -⟩ | ⟨hx, hy⟩
    · exact .inl ⟨_, _, _, discard_of_live (outline_of_get? hx) root,
        discard_of_live (outline_of_get? hy) root, h.without g⟩
    · exact .inr ⟨_, discard_of_dead hx root, discard_of_dead hy root⟩

theorem extend (g : Handle) :
    Arena.extend g a = (.ok a.next, a.grown g) ∧ Arena.extend g b = (.ok a.next, b.grown g) ∨
      ∃ fault, Arena.extend g a = (.error fault, a) ∧ Arena.extend g b = (.error fault, b) := by
  have same := h.contains g
  cases live : a.contains g with
  | true =>
      obtain ⟨_, ha⟩ := contains_iff.mp live
      obtain ⟨_, hb⟩ := contains_iff.mp (same.symm.trans live)
      exact .inl ⟨extend_of_live ha, by rw [h.next, extend_of_live hb]⟩
  | false => exact .inr ⟨_, extend_of_dead live, extend_of_dead (same.symm.trans live)⟩

end Matched

end Arena

end

end Scriptlet
