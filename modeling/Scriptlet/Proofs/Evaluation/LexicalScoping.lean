import Scriptlet.Proofs.Evaluation.ScopeDiscipline
import Scriptlet.Proofs.Scope.Matching

/-!
# Lexical scoping

What a tree does in a scope depends on nothing but the scopes on the chain from there to the root.
Two runs whose chains agree may give different handles to the scopes they make on the way, so the
stores are compared along pairs of handles: a pair for each scope of the chain, and one more for
each block or call that both runs have entered.
-/

namespace Scriptlet

open Eval

/-! ## Pairs of scopes -/

/-- The same function, declared in corresponding scopes. -/
inductive FunctionTwins (g h : Handle) : Function → Function → Prop where
  | builtin (b : Builtin) : FunctionTwins g h (.builtin b) (.builtin b)
  | user (name : String) (params : List String) (body : Node) :
      FunctionTwins g h (.user ⟨name, params, body, g⟩) (.user ⟨name, params, body, h⟩)

/-- Scopes that hold the same, below corresponding parents. -/
structure ScopeTwins (pairs : List (Handle × Handle)) (g h : Handle)
    (x y : Scope Value Function) : Prop where
  parent : Option.Rel (fun p q => (p, q) ∈ pairs) x.parent y.parent
  vars : ∀ name, x.vars.get? name = y.vars.get? name
  functions : ∀ name,
    Option.Rel (FunctionTwins g h) (x.functions.get? name) (y.functions.get? name)

/-- Stores whose scopes at every pair of handles are twins. Since they parted with the outputs
`first` and `second`, they have written the same. -/
structure StoreTwins (first second : String) (pairs : List (Handle × Handle)) (s t : Store) :
    Prop where
  valid : s.scopes.Valid
  valid' : t.scopes.Valid
  bijective : ∀ {p q}, p ∈ pairs → q ∈ pairs → (p.1 = q.1 ↔ p.2 = q.2)
  scopes : ∀ {g h}, (g, h) ∈ pairs → ∃ x y, s.scopes.scopes.get? g = some x ∧
    t.scopes.scopes.get? h = some y ∧ ScopeTwins pairs g h x y
  output : ∃ text, s.output = first ++ text ∧ t.output = second ++ text

def LinkTwins (pairs : List (Handle × Handle)) (x y : Handle × Scope Value Function) : Prop :=
  (x.1, y.1) ∈ pairs ∧ ScopeTwins pairs x.1 y.1 x.2 y.2

section

variable {first second : String} {pairs : List (Handle × Handle)} {s t : Store} {g h : Handle}

theorem ScopeTwins.mono {more : List (Handle × Handle)} {x y : Scope Value Function}
    (hxy : ScopeTwins pairs g h x y) (hsub : ∀ p ∈ pairs, p ∈ more) :
    ScopeTwins more g h x y := by
  refine ⟨?_, hxy.vars, hxy.functions⟩
  have parents := hxy.parent
  generalize x.parent = p at parents
  generalize y.parent = q at parents
  cases parents with
  | some hp => exact .some (hsub _ hp)
  | none => exact .none

theorem ScopeTwins.set_var {x y : Scope Value Function} (hxy : ScopeTwins pairs g h x y)
    (name : String) (value : Value) :
    ScopeTwins pairs g h { x with vars := x.vars.set name value }
      { y with vars := y.vars.set name value } := by
  refine ⟨hxy.parent, fun other => ?_, hxy.functions⟩
  simp only [OrderedMap.get?_set, hxy.vars other]

theorem ScopeTwins.set_function {x y : Scope Value Function} (hxy : ScopeTwins pairs g h x y)
    (name : String) {f k : Function} (hfk : FunctionTwins g h f k) :
    ScopeTwins pairs g h { x with functions := x.functions.set name f }
      { y with functions := y.functions.set name k } := by
  refine ⟨hxy.parent, hxy.vars, fun other => ?_⟩
  simp only [OrderedMap.get?_set]
  split
  · exact .some hfk
  · exact hxy.functions other

namespace StoreTwins

/-- Chains from a pair of handles go through pairs of handles up to the root. -/
theorem chain (twins : StoreTwins first second pairs s t) (hgh : (g, h) ∈ pairs) :
    (s.scopes.chain g).broken = none ∧ (t.scopes.chain h).broken = none ∧
      List.Forall₂ (LinkTwins pairs) (s.scopes.chain g).links (t.scopes.chain h).links := by
  induction hn : Int.toNat g using Nat.strongRecOn generalizing g h with
  | ind n ih =>
      obtain ⟨x, y, hx, hy, hxy⟩ := twins.scopes hgh
      have parents := hxy.parent
      cases hp : x.parent with
      | none =>
          rw [hp] at parents
          cases hq : y.parent with
          | some q => rw [hq] at parents; cases parents
          | none =>
              rw [Arena.chain_of_top hx hp, Arena.chain_of_top hy hq]
              exact ⟨rfl, rfl, .cons ⟨hgh, hxy⟩ .nil⟩
      | some p =>
          rw [hp] at parents
          cases hq : y.parent with
          | none => rw [hq] at parents; cases parents
          | some q =>
              rw [hq] at parents
              cases parents with
              | some hpq =>
                  have hlt := twins.valid.descending (g := g) (p := p)
                    (by rw [Arena.outline_of_get? hx, hp])
                  obtain ⟨hs, ht, links⟩ := ih (Int.toNat p) (by omega) hpq rfl
                  rw [Arena.chain_of_child twins.valid hx hp,
                    Arena.chain_of_child twins.valid' hy hq]
                  exact ⟨hs, ht, .cons ⟨hgh, hxy⟩ links⟩

theorem bounded (twins : StoreTwins first second pairs s t) {g h : Int} (hgh : (g, h) ∈ pairs) :
    g < s.scopes.next ∧ h < t.scopes.next := by
  obtain ⟨x, y, hx, hy, _⟩ := twins.scopes hgh
  exact ⟨(twins.valid.bounded (Arena.outline_of_get? hx)).2,
    (twins.valid'.bounded (Arena.outline_of_get? hy)).2⟩

theorem put (twins : StoreTwins first second pairs s t) (hgh : (g, h) ∈ pairs)
    {x x' y y' : Scope Value Function} (hx : s.scopes.scopes.get? g = some x)
    (hy : t.scopes.scopes.get? h = some y) (hxy : ScopeTwins pairs g h x' y')
    (hx' : x'.parent = x.parent) (hy' : y'.parent = y.parent) :
    StoreTwins first second pairs { s with scopes := s.scopes.put g x' }
      { t with scopes := t.scopes.put h y' } := by
  refine ⟨twins.valid.of_outline (Arena.put_outline hx hx') rfl,
    twins.valid'.of_outline (Arena.put_outline hy hy') rfl, twins.bijective, ?_, twins.output⟩
  intro k m hkm
  have hsame := twins.bijective hkm hgh
  simp only [Arena.put_get?]
  by_cases hk : k = g
  · have hm : m = h := hsame.mp hk
    subst hk hm
    exact ⟨x', y', if_pos rfl, if_pos rfl, hxy⟩
  · have hm : m ≠ h := fun hm => hk (hsame.mpr hm)
    rw [if_neg hk, if_neg hm]
    exact twins.scopes hkm

theorem write (twins : StoreTwins first second pairs s t) (text : String) :
    StoreTwins first second pairs { s with output := s.output ++ text }
      { t with output := t.output ++ text } := by
  obtain ⟨written, hs, ht⟩ := twins.output
  refine ⟨twins.valid, twins.valid', twins.bijective, twins.scopes, written ++ text, ?_, ?_⟩
  · rw [hs, String.append_assoc]
  · rw [ht, String.append_assoc]

theorem fresh (twins : StoreTwins first second pairs s t) {k m : Handle} (hkm : (k, m) ∈ pairs) :
    k ≠ s.scopes.next ∧ m ≠ t.scopes.next := by
  have hlt := twins.bounded hkm
  constructor
  · intro he
    subst he
    omega
  · intro he
    subst he
    omega

theorem grown (twins : StoreTwins first second pairs s t) (hgh : (g, h) ∈ pairs) :
    StoreTwins first second ((s.scopes.next, t.scopes.next) :: pairs)
      { s with scopes := s.scopes.grown g } { t with scopes := t.scopes.grown h } := by
  obtain ⟨x, y, hx, hy, _⟩ := twins.scopes hgh
  refine ⟨twins.valid.grown (Arena.outline_of_get? hx),
    twins.valid'.grown (Arena.outline_of_get? hy), ?_, ?_, twins.output⟩
  · intro p q hp hq
    rcases List.mem_cons.mp hp with rfl | hp
    · rcases List.mem_cons.mp hq with rfl | hq
      · simp
      · simp [(twins.fresh hq).1.symm, (twins.fresh hq).2.symm]
    · rcases List.mem_cons.mp hq with rfl | hq
      · simp [(twins.fresh hp).1, (twins.fresh hp).2]
      · exact twins.bijective hp hq
  · intro k m hkm
    simp only [Arena.grown_get?]
    rcases List.mem_cons.mp hkm with he | hkm
    · cases he
      refine ⟨_, _, if_pos rfl, if_pos rfl, .some ?_, fun _ => rfl, fun _ => .none⟩
      exact List.mem_cons_of_mem _ hgh
    · rw [if_neg (twins.fresh hkm).1, if_neg (twins.fresh hkm).2]
      obtain ⟨x, y, hx, hy, hxy⟩ := twins.scopes hkm
      exact ⟨x, y, hx, hy, hxy.mono fun _ => List.mem_cons_of_mem _⟩

/-- When both runs leave the scopes they entered, the older scopes are still twins: none of them
has a parent as young as the one that goes. -/
theorem leave {s' t' : Store} (twins : StoreTwins first second pairs s t)
    (inner : StoreTwins first second ((s.scopes.next, t.scopes.next) :: pairs) s' t') :
    Arena.discard s.scopes.next s'.scopes = (.ok (), s'.scopes.without s.scopes.next) ∧
      Arena.discard t.scopes.next t'.scopes = (.ok (), t'.scopes.without t.scopes.next) ∧
      StoreTwins first second pairs
        { s' with scopes := s'.scopes.without s.scopes.next }
        { t' with scopes := t'.scopes.without t.scopes.next } := by
  have hs := twins.valid.next_ne_root
  have ht := twins.valid'.next_ne_root
  obtain ⟨x, y, hx, hy, _⟩ := inner.scopes List.mem_cons_self
  refine ⟨Arena.discard_of_live (Arena.outline_of_get? hx) hs,
    Arena.discard_of_live (Arena.outline_of_get? hy) ht, inner.valid.without hs,
    inner.valid'.without ht, twins.bijective, ?_, inner.output⟩
  intro k m hkm
  have hlt := twins.bounded hkm
  obtain ⟨hk, hm⟩ := twins.fresh hkm
  simp only [Arena.without_get?, if_neg hk, if_neg hm]
  obtain ⟨x, y, hx, hy, hxy⟩ := inner.scopes (List.mem_cons_of_mem _ hkm)
  refine ⟨x, y, hx, hy, ?_, hxy.vars, hxy.functions⟩
  have parents := hxy.parent
  cases hp : x.parent with
  | none =>
      rw [hp] at parents
      generalize y.parent = q at parents
      cases parents
      exact .none
  | some p =>
      have hdown := inner.valid.descending (g := k) (p := p)
        (by rw [Arena.outline_of_get? hx, hp])
      rw [hp] at parents
      generalize y.parent = q at parents
      cases parents with
      | some hpq =>
          rcases List.mem_cons.mp hpq with he | hpq
          -- The scope that goes is younger than `k`, so it is no parent of `k`.
          · cases he
            omega
          · exact .some hpq

end StoreTwins

/-! ## Lookups and the simulation -/

theorem lookup_twins (twins : StoreTwins first second pairs s t) (hgh : (g, h) ∈ pairs)
    (name : String) :
    (∃ v, s.scopes.lookup g name = .ok v ∧ t.scopes.lookup h name = .ok v) ∨
      ∃ e f, s.scopes.lookup g name = .error e ∧ t.scopes.lookup h name = .error f := by
  have found : Option.Rel Eq
      ((s.scopes.chain g).links.findSome? fun link => link.2.vars.get? name)
      ((t.scopes.chain h).links.findSome? fun link => link.2.vars.get? name) := by
    refine findSome?_twins ?_ (twins.chain hgh).2.2
    intro x y hxy
    rw [hxy.2.vars name]
    cases y.2.vars.get? name with
    | none => exact .none
    | some v => exact .some rfl
  unfold Arena.lookup
  cases hx : (s.scopes.chain g).links.findSome? fun link => link.2.vars.get? name with
  | none =>
      rw [hx] at found
      generalize hy : (t.scopes.chain h).links.findSome? _ = b at found
      cases found
      exact .inr ⟨(s.scopes.chain g).fault name, (t.scopes.chain h).fault name, by simp only [hx],
        by simp only [hy]⟩
  | some v =>
      rw [hx] at found
      generalize hy : (t.scopes.chain h).links.findSome? _ = b at found
      cases found with
      | some same =>
          subst same
          exact .inl ⟨v, by simp only [hx], by simp only [hy]⟩

theorem assignOuter_twins (twins : StoreTwins first second pairs s t) (hgh : (g, h) ∈ pairs)
    (name : String) (value : Value) :
    ∃ x y a b, Arena.assignOuter g name value s.scopes = (.ok x, a) ∧
      Arena.assignOuter h name value t.scopes = (.ok y, b) ∧
      StoreTwins first second pairs { s with scopes := a } { t with scopes := b } := by
  obtain ⟨hs, ht, links⟩ := twins.chain hgh
  have found := find?_twins
    (fun x y (hxy : LinkTwins pairs x y) => show x.2.vars.contains name = y.2.vars.contains name by
      simp only [OrderedMap.contains, hxy.2.vars name])
    links
  simp only [Arena.assignOuter_eq]
  cases hx : (s.scopes.chain g).links.find? (fun x => x.2.vars.contains name) with
  | none =>
      rw [hx] at found
      cases hy : (t.scopes.chain h).links.find? (fun x => x.2.vars.contains name) with
      | some y => rw [hy] at found; cases found
      | none => exact ⟨false, false, s.scopes, t.scopes, by simp only [hs], by
          simp only [ht], twins⟩
  | some x =>
      rw [hx] at found
      cases hy : (t.scopes.chain h).links.find? (fun x => x.2.vars.contains name) with
      | none => rw [hy] at found; cases found
      | some y =>
          rw [hy] at found
          cases found with
          | some hxy =>
              have hgetx := Arena.get?_of_mem_links (List.mem_of_find?_eq_some hx)
              have hgety := Arena.get?_of_mem_links (List.mem_of_find?_eq_some hy)
              have after := twins.put hxy.1 hgetx hgety (hxy.2.set_var name value) rfl rfl
              exact ⟨true, true, _, _, rfl, rfl, after⟩

end

/-- The two runs of a tree in stores that are twins along `pairs`. -/
def twinRuns (first second : String) : Correspondence where
  World := List (Handle × Handle)
  Stores := StoreTwins first second
  Left pairs s := ∃ t, StoreTwins first second pairs s t
  Handles pairs g h := (g, h) ∈ pairs
  Trees := Eq
  Places := Eq
  GivesUp _ := False

theorem lookupFunction_twins {first second : String} {pairs : List (Handle × Handle)}
    {s t : Store} {g h : Handle} (twins : StoreTwins first second pairs s t)
    (hgh : (g, h) ∈ pairs) (name : String) :
    (∃ f k, s.scopes.lookupFunction g name = .ok f ∧ t.scopes.lookupFunction h name = .ok k ∧
        (twinRuns first second).Functions pairs f k) ∨
      ∃ e f, s.scopes.lookupFunction g name = .error e ∧
        t.scopes.lookupFunction h name = .error f := by
  have found : Option.Rel ((twinRuns first second).Functions pairs)
      ((s.scopes.chain g).links.findSome? fun link => link.2.functions.get? name)
      ((t.scopes.chain h).links.findSome? fun link => link.2.functions.get? name) := by
    refine findSome?_twins ?_ (twins.chain hgh).2.2
    intro x y hxy
    have same := hxy.2.functions name
    generalize x.2.functions.get? name = a at same
    generalize y.2.functions.get? name = b at same
    cases same with
    | none => exact .none
    | some twin =>
        cases twin with
        | builtin b => exact .some (.builtin b)
        | user name params body => exact .some (.user rfl hxy.1)
  unfold Arena.lookupFunction
  cases hx : (s.scopes.chain g).links.findSome? fun link => link.2.functions.get? name with
  | none =>
      rw [hx] at found
      generalize hy : (t.scopes.chain h).links.findSome? _ = b at found
      cases found
      exact .inr ⟨(s.scopes.chain g).fault name, (t.scopes.chain h).fault name, by simp only [hx],
        by simp only [hy]⟩
  | some f =>
      rw [hx] at found
      generalize hy : (t.scopes.chain h).links.findSome? _ = b at found
      cases found with
      | some functions => exact .inl ⟨f, _, by simp only [hx], by simp only [hy], functions⟩

def Simulation.twinRuns (first second : String) : Simulation where
  toCorrespondence := Scriptlet.twinRuns first second
  left twins := ⟨_, twins⟩
  not_givesUp_returned := id
  closure := id
  write twins text := twins.write text
  lookup twins hgh name := lookup_twins twins hgh name
  lookupFunction twins hgh name := lookupFunction_twins twins hgh name
  assign := by
    intro pairs s t g h twins hgh name value
    obtain ⟨x, y, hx, hy, hxy⟩ := twins.scopes hgh
    exact .inl ⟨_, _, _, _, Arena.assign_of_get? hx name value, Arena.assign_of_get? hy name value,
      twins.put hgh hx hy (hxy.set_var name value) rfl rfl⟩
  assignOuter _ twins hgh name value := .inl (assignOuter_twins twins hgh name value)
  declare := by
    intro pairs s t g h body body' twins hgh same name params
    cases same
    obtain ⟨x, y, hx, hy, hxy⟩ := twins.scopes hgh
    exact .inl ⟨_, _, _, _, Arena.declare_of_get? hx name _, Arena.declare_of_get? hy name _,
      twins.put hgh hx hy (hxy.set_function name (.user name params body)) rfl rfl⟩
  enter := by
    intro pairs s t g h twins hgh
    obtain ⟨x, y, hx, hy, _⟩ := twins.scopes hgh
    refine .inl ⟨(s.scopes.next, t.scopes.next) :: pairs, s.scopes.next, t.scopes.next, _, _,
      Arena.extend_of_live (Arena.outline_of_get? hx),
      Arena.extend_of_live (Arena.outline_of_get? hy), List.mem_cons_self, twins.grown hgh, ?_, ?_⟩
    · intro s' t' inner
      obtain ⟨hs, ht, outer⟩ := twins.leave inner
      exact ⟨_, _, _, _, hs, ht, outer⟩
    · intro s' left
      obtain ⟨t', inner⟩ := left
      obtain ⟨hs, _, outer⟩ := twins.leave inner
      exact ⟨_, hs, _, outer⟩

theorem twinRuns_alike {first second : String} {n n' : Node}
    (trees : (twinRuns first second).Trees n n') : (twinRuns first second).Alike n n' := by
  cases trees
  have all : ∀ xs : List Node, List.Forall₂ (twinRuns first second).Trees xs xs := fun xs =>
    List.forall₂_same.mpr fun _ _ => rfl
  cases n <;> constructor <;> first | rfl | exact all _ | exact fun _ => trivial

/-! ## Agreeing chains -/

structure SameScope (x y : Scope Value Function) : Prop where
  parent : x.parent = y.parent
  vars : ∀ name, x.vars.get? name = y.vars.get? name
  functions : ∀ name, x.functions.get? name = y.functions.get? name

/-- From `h` up to the root both arenas have the same handles, with the same scopes there. -/
structure SameChain (a b : Scopes) (h : Handle) : Prop where
  whole : (a.chain h).broken = none
  whole' : (b.chain h).broken = none
  links : List.Forall₂ (fun x y => x.1 = y.1 ∧ SameScope x.2 y.2) (a.chain h).links
    (b.chain h).links

/-- The functions declared along the chain of `h` close over the scopes they stand in. -/
def OwnClosures (a : Scopes) (h : Handle) : Prop :=
  ∀ link ∈ (a.chain h).links, ∀ name f, link.2.functions.get? name = some (.user f) →
    f.closure = link.1

theorem WellScoped.ownClosures {B : Node → Prop} {a : Scopes} (ha : WellScoped B a) (h : Handle) :
    OwnClosures a h :=
  fun _ hlink _ _ hf => (ha.functions (Arena.get?_of_mem_links hlink) hf).1

def chainPairs (a : Scopes) (h : Handle) : List (Handle × Handle) :=
  (a.chain h).links.map fun link => (link.1, link.1)

theorem mem_chainPairs {a : Scopes} {h g k : Handle} :
    (g, k) ∈ chainPairs a h ↔ g = k ∧ ∃ x, (g, x) ∈ (a.chain h).links := by
  simp only [chainPairs, List.mem_map, Prod.mk.injEq]
  constructor
  · rintro ⟨link, hlink, rfl, rfl⟩
    exact ⟨rfl, link.2, hlink⟩
  · rintro ⟨rfl, x, hx⟩
    exact ⟨(g, x), hx, rfl, rfl⟩

theorem SameScope.twins {pairs : List (Handle × Handle)} {g : Handle}
    {x y : Scope Value Function} (same : SameScope x y)
    (hparent : ∀ p, x.parent = some p → (p, p) ∈ pairs)
    (own : ∀ name f, x.functions.get? name = some (.user f) → f.closure = g) :
    ScopeTwins pairs g g x y := by
  refine ⟨?_, same.vars, fun name => ?_⟩
  · rw [← same.parent]
    cases hp : x.parent with
    | none => exact .none
    | some p => exact .some (hparent p hp)
  · rw [← same.functions name]
    cases hf : x.functions.get? name with
    | none => exact .none
    | some f =>
        cases f with
        | builtin b => exact .some (.builtin b)
        | user f =>
            obtain ⟨fname, params, body, closure⟩ := f
            obtain rfl : closure = g := own name _ hf
            exact .some (.user fname params body)

theorem SameChain.twins {s t : Store} {h : Handle} (hs : s.scopes.Valid) (ht : t.scopes.Valid)
    (same : SameChain s.scopes t.scopes h) (own : OwnClosures s.scopes h) :
    StoreTwins s.output t.output (chainPairs s.scopes h) s t := by
  refine ⟨hs, ht, ?_, ?_, "", by simp, by simp⟩
  · rintro ⟨p, p'⟩ ⟨q, q'⟩ hp hq
    obtain ⟨rfl, _⟩ := mem_chainPairs.mp hp
    obtain ⟨rfl, _⟩ := mem_chainPairs.mp hq
    exact Iff.rfl
  · intro g k hgk
    obtain ⟨rfl, x, hx⟩ := mem_chainPairs.mp hgk
    obtain ⟨i, hi, hget⟩ := List.mem_iff_getElem.mp hx
    have hi' : i < (t.scopes.chain h).links.length := same.links.length_eq ▸ hi
    have hxy := same.links.get hi hi'
    simp only [List.get_eq_getElem, hget] at hxy
    obtain ⟨hhandle, hscope⟩ := hxy
    have hy := Arena.get?_of_mem_links (List.getElem_mem hi')
    rw [← hhandle] at hy
    refine ⟨x, _, Arena.get?_of_mem_links hx, hy, hscope.twins ?_ (own _ hx)⟩
    intro p hp
    exact mem_chainPairs.mpr ⟨rfl, Arena.mem_links_of_parent same.whole hx hp⟩

theorem StoreTwins.sameChain {first second : String} {pairs : List (Handle × Handle)}
    {s t : Store} (twins : StoreTwins first second pairs s t)
    (diagonal : ∀ {g k}, (g, k) ∈ pairs → g = k) {h : Handle} (hh : (h, h) ∈ pairs) :
    SameChain s.scopes t.scopes h := by
  obtain ⟨whole, whole', links⟩ := twins.chain hh
  refine ⟨whole, whole', links.imp ?_⟩
  rintro ⟨g, x⟩ ⟨k, y⟩ ⟨hgk, hxy⟩
  obtain rfl : g = k := diagonal hgk
  refine ⟨rfl, ?_, hxy.vars, fun name => ?_⟩
  · have parents := hxy.parent
    generalize x.parent = p at parents
    generalize y.parent = q at parents
    cases parents with
    | none => rfl
    | some hpq => rw [diagonal hpq]
  · have functions := hxy.functions name
    generalize x.functions.get? name = f at functions
    generalize y.functions.get? name = k at functions
    cases functions with
    | none => rfl
    | some twin => cases twin <;> rfl

/-- In both stores the computation ends the same, writes the same, and leaves chains from `h` that
agree. -/
structure RunsAlike (h : Handle) (m : Eval Value) (s t : Store) : Prop where
  outcome : (m s).1 = (m t).1
  output : ∃ text, (m s).2.output = s.output ++ text ∧ (m t).2.output = t.output ++ text
  chain : SameChain (m s).2.scopes (m t).2.scopes h

theorem twinRuns_stops {first second : String} {why why' : Stop}
    (stops : (twinRuns first second).Stops why why') : why = why' := by
  cases stops with
  | failed places => cases places; rfl
  | _ => rfl

theorem RunsAlike.of_coupled {s t : Store} {h : Handle} {m : Eval Value} (hs : s.scopes.Valid)
    (ht : t.scopes.Valid) (same : SameChain s.scopes t.scopes h) (own : OwnClosures s.scopes h)
    (coupled : (twinRuns s.output t.output).Coupled (chainPairs s.scopes h) Eq m m) :
    RunsAlike h m s t := by
  have diagonal : ∀ {g k}, (g, k) ∈ chainPairs s.scopes h → g = k := fun hgk =>
    (mem_chainPairs.mp hgk).1
  have hh : (h, h) ∈ chainPairs s.scopes h :=
    mem_chainPairs.mpr ⟨rfl, Arena.mem_links_self same.whole⟩
  have alike : (m s).1 = (m t).1 ∧
      StoreTwins s.output t.output (chainPairs s.scopes h) (m s).2 (m t).2 := by
    have ends := coupled s t (same.twins hs ht own)
    generalize m s = x at ends ⊢
    generalize m t = y at ends ⊢
    cases ends with
    | done results stores => exact ⟨congrArg Outcome.done results, stores⟩
    | stopped stops stores => exact ⟨congrArg Outcome.stopped (twinRuns_stops stops), stores⟩
    | gaveUp excuse => exact excuse.elim
  exact ⟨alike.1, alike.2.output, alike.2.sameChain diagonal hh⟩

/-- What a tree does in a scope depends only on the chain from that scope to the root, and what a
function does only on the chain it was declared in: not on the scope of its caller. -/
theorem evaluation_sees_only_its_chain (mode : Mode) (depth : Nat) (h : Handle) (s t : Store)
    (hs : s.scopes.Valid) (ht : t.scopes.Valid) (same : SameChain s.scopes t.scopes h)
    (own : OwnClosures s.scopes h) :
    (∀ tree, RunsAlike h (nested mode depth tree h) s t) ∧
      ∀ (f : UserFunction) (args : List Value) (position : Option Position), f.closure = h →
        RunsAlike h (applyFunction (nested mode depth) (.user f) args position) s t := by
  let S := Simulation.twinRuns s.output t.output
  have visits : S.Visits (nested mode depth) (nested mode depth) :=
    S.visits_nested twinRuns_alike mode depth
  have hh : (h, h) ∈ chainPairs s.scopes h :=
    mem_chainPairs.mpr ⟨rfl, Arena.mem_links_self same.whole⟩
  constructor
  · intro tree
    exact RunsAlike.of_coupled hs ht same own (visits rfl hh)
  · intro f args position hf
    subst hf
    refine RunsAlike.of_coupled hs ht same own ?_
    exact S.coupled_applyFunction visits (.user rfl hh) args rfl

/-- The second store has a caller's scope with a variable of the name that the function reads. -/
theorem evaluation_sees_only_its_chain_below_caller :
    let body : Node := .block [.ret (.reference "x" none) none] none
    let s := evaluateAll {} [.function "f" [] body none] startStore
    let caller : Scope Value Function :=
      ⟨some Arena.rootHandle, .ofList [("x", .boolean true)], .empty⟩
    let t : Store := ⟨(s.scopes.grown Arena.rootHandle).put 1 caller, "before"⟩
    s.scopes.Valid ∧ t.scopes.Valid ∧ SameChain s.scopes t.scopes Arena.rootHandle ∧
      OwnClosures s.scopes Arena.rootHandle ∧
      RunsAlike Arena.rootHandle (nested {} 9 (.call "f" [] none) Arena.rootHandle) s t ∧
      RunsAlike Arena.rootHandle
        (applyFunction (nested {} 9) (.user ⟨"f", [], body, Arena.rootHandle⟩) [] none) s t := by
  intro body s caller t
  have hs : WellScoped (fun _ => True) s.scopes :=
    (steadyStore_evaluateAll hereditary_true {} (fun _ _ => trivial) WellScoped.builtins).2
  have entered : (s.scopes.grown Arena.rootHandle).scopes.get? 1 =
      some ⟨some Arena.rootHandle, .empty, .empty⟩ := rfl
  have ht : t.scopes.Valid :=
    (hs.valid.grown hs.valid.rooted).of_outline (Arena.put_outline entered rfl) rfl
  have same : SameChain s.scopes t.scopes Arena.rootHandle :=
    ⟨rfl, rfl, .cons ⟨rfl, rfl, fun _ => rfl, fun _ => rfl⟩ .nil⟩
  have own := hs.ownClosures Arena.rootHandle
  have alike := evaluation_sees_only_its_chain {} 9 Arena.rootHandle s t hs.valid ht same own
  exact ⟨hs.valid, ht, same, own, alike.1 _, alike.2 _ _ _ rfl⟩

end Scriptlet
