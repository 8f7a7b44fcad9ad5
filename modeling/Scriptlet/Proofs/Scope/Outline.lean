import Scriptlet.Scope.Arena

/-!
# The outline of an arena

The outline of an arena is the map from its live handles to their parents. Binding a variable or a
function leaves the outline alone, and so does a scope that is made and removed again. In a valid
arena parents have smaller handles, so a chain can be followed parent by parent, and where every
parent is live no chain breaks.
-/

namespace Scriptlet

namespace OrderedMap

variable {κ α β : Type} [DecidableEq κ]

@[simp] theorem get?_mapValues (f : α → β) (m : OrderedMap κ α) (key : κ) :
    (m.mapValues f).get? key = (m.get? key).map f := by
  simp only [mapValues, get?]
  induction m.entries with
  | nil => rfl
  | cons entry rest ih =>
      obtain ⟨k, a⟩ := entry
      by_cases h : k = key <;> simp [valueAmong?, h, ih]

theorem mapValues_set (f : α → β) (m : OrderedMap κ α) (key : κ) (value : α) :
    (m.set key value).mapValues f = (m.mapValues f).set key (f value) := by
  ext1
  simp only [mapValues, set]
  induction m.entries with
  | nil => rfl
  | cons entry rest ih =>
      obtain ⟨k, a⟩ := entry
      by_cases h : k = key <;> simp [setEntry, h, ih]

theorem mapValues_erase (f : α → β) (m : OrderedMap κ α) (key : κ) :
    (m.erase key).mapValues f = (m.mapValues f).erase key := by
  ext1
  simp only [mapValues, erase, List.filter_map]
  rfl

theorem get?_erase (m : OrderedMap κ α) (key other : κ) :
    (m.erase key).get? other = if other = key then none else m.get? other := by
  by_cases h : other = key
  · rw [if_pos h, h, get?_erase_self]
  · rw [if_neg h, get?_erase_of_ne m h]

theorem get?_set (m : OrderedMap κ α) (key other : κ) (value : α) :
    (m.set key value).get? other = if other = key then some value else m.get? other := by
  by_cases h : other = key
  · rw [if_pos h, h, get?_set_self]
  · rw [if_neg h, get?_set_of_ne m value h]

theorem mem_keys_of_contains {m : OrderedMap κ α} {key : κ} (h : m.contains key = true) :
    key ∈ m.keys := by
  simp only [contains, get?, keys] at h ⊢
  generalize m.entries = entries at h ⊢
  induction entries with
  | nil => simp [valueAmong?] at h
  | cons entry rest ih =>
      obtain ⟨k, a⟩ := entry
      by_cases hk : k = key
      · simp [hk]
      · rw [valueAmong?, if_neg hk] at h
        exact List.mem_cons_of_mem k (ih h)

theorem set_of_get? {m : OrderedMap κ α} {key : κ} {value : α} (h : m.get? key = some value) :
    m.set key value = m := by
  ext1
  simp only [get?, set] at h ⊢
  generalize m.entries = entries at h ⊢
  induction entries with
  | nil => simp [valueAmong?] at h
  | cons entry rest ih =>
      obtain ⟨k, a⟩ := entry
      by_cases hk : k = key
      · simp_all [valueAmong?, setEntry]
      · simp only [valueAmong?, if_neg hk] at h
        simp [setEntry, hk, ih h]

theorem erase_set_of_get?_none {m : OrderedMap κ α} {key : κ} (value : α)
    (h : m.get? key = none) : (m.set key value).erase key = m := by
  ext1
  simp only [get?, set, erase] at h ⊢
  generalize m.entries = entries at h ⊢
  induction entries with
  | nil => simp [setEntry]
  | cons entry rest ih =>
      obtain ⟨k, a⟩ := entry
      by_cases hk : k = key
      · simp [valueAmong?, hk] at h
      · simp only [valueAmong?, if_neg hk] at h
        rw [setEntry, if_neg hk, List.filter_cons, if_pos (by simpa using hk), ih h]

end OrderedMap

namespace Arena

variable {α φ : Type}

/-- The live handles with their parents. -/
def outline (a : Arena α φ) : OrderedMap Handle (Option Handle) := a.scopes.mapValues (·.parent)

/-- The root is there and is nobody's child, handles were given out in order, and every parent was
given out before its children. -/
structure Valid (a : Arena α φ) : Prop where
  rooted : a.outline.get? rootHandle = some none
  bounded : ∀ {g : Int} {parent : Option Handle}, a.outline.get? g = some parent →
    0 ≤ g ∧ g < a.next
  descending : ∀ {g p : Int}, a.outline.get? g = some (some p) → 0 ≤ p ∧ p < g

/-- Every parent is live. -/
def Connected (a : Arena α φ) : Prop :=
  ∀ g p, a.outline.get? g = some (some p) → ∃ parent, a.outline.get? p = some parent

theorem outline_get? (a : Arena α φ) (h : Handle) :
    a.outline.get? h = (a.scopes.get? h).map (·.parent) := by
  simp [outline]

theorem outline_of_get? {a : Arena α φ} {h : Handle} {scope : Scope α φ}
    (hs : a.scopes.get? h = some scope) : a.outline.get? h = some scope.parent := by
  rw [outline_get?, hs]
  rfl

theorem get?_of_outline {a : Arena α φ} {h : Handle} {parent : Option Handle}
    (ho : a.outline.get? h = some parent) :
    ∃ scope, a.scopes.get? h = some scope ∧ scope.parent = parent := by
  rw [outline_get?] at ho
  exact Option.map_eq_some_iff.mp ho

theorem contains_iff {a : Arena α φ} {h : Handle} :
    a.contains h = true ↔ ∃ parent, a.outline.get? h = some parent := by
  rw [contains, OrderedMap.contains, outline_get?]
  cases a.scopes.get? h <;> simp

/-! ## What the operations do -/

theorem put_get? (a : Arena α φ) (g h : Handle) (scope : Scope α φ) :
    (a.put h scope).scopes.get? g = if g = h then some scope else a.scopes.get? g :=
  a.scopes.get?_set h g scope

theorem put_outline {a : Arena α φ} {h : Handle} {old new : Scope α φ}
    (hold : a.scopes.get? h = some old) (hparent : new.parent = old.parent) :
    (a.put h new).outline = a.outline := by
  have hget : a.outline.get? h = some new.parent := by
    rw [hparent, outline_of_get? hold]
  simp only [outline, put, OrderedMap.mapValues_set] at hget ⊢
  exact OrderedMap.set_of_get? hget

theorem Action.bind_of_ok {β γ : Type} {m : Action α φ β} {f : β → Action α φ γ}
    {a a' : Arena α φ} {b : β} (h : m a = (.ok b, a')) : (m >>= f) a = f b a' := by
  change Action.bind m f a = _
  simp [Action.bind, h]

theorem Action.bind_of_error {β γ : Type} {m : Action α φ β} {f : β → Action α φ γ}
    {a a' : Arena α φ} {fault : Fault} (h : m a = (.error fault, a')) :
    (m >>= f) a = (.error fault, a') := by
  change Action.bind m f a = _
  simp [Action.bind, h]

section

variable {a : Arena α φ} {h : Handle} {scope : Scope α φ}

theorem scopeAt_of_get? (hs : a.scopes.get? h = some scope) : scopeAt h a = (.ok scope, a) := by
  have found : Action.inspect (·.scopes.get? h) a = (.ok (some scope), a) := by
    rw [Action.inspect, hs]
  exact Action.bind_of_ok found

theorem scopeAt_of_dead (dead : a.scopes.get? h = none) :
    scopeAt h a = (.error (.noScope h), a) := by
  have found : Action.inspect (·.scopes.get? h) a = (.ok none, a) := by
    rw [Action.inspect, dead]
  exact Action.bind_of_ok found

theorem assign_of_get? (hs : a.scopes.get? h = some scope) (name : String) (value : α) :
    assign h name value a = (.ok (), a.put h { scope with vars := scope.vars.set name value }) :=
  Action.bind_of_ok (scopeAt_of_get? hs)

theorem assign_of_dead (dead : a.scopes.get? h = none) (name : String) (value : α) :
    assign h name value a = (.error (.noScope h), a) :=
  Action.bind_of_error (scopeAt_of_dead dead)

theorem declare_of_get? (hs : a.scopes.get? h = some scope) (name : String) (function : φ) :
    declare h name function a =
      (.ok (), a.put h { scope with functions := scope.functions.set name function }) :=
  Action.bind_of_ok (scopeAt_of_get? hs)

theorem declare_of_dead (dead : a.scopes.get? h = none) (name : String) (function : φ) :
    declare h name function a = (.error (.noScope h), a) :=
  Action.bind_of_error (scopeAt_of_dead dead)

/-- An assignment along a chain goes to the first link that binds the name, or comes to the end of
the chain, or to where it breaks. -/
theorem assignOuter_eq (h : Handle) (name : String) (value : α) (a : Arena α φ) :
    assignOuter h name value a =
      match (a.chain h).links.find? fun link => link.2.vars.contains name with
      | some (g, scope) => (.ok true, a.put g { scope with vars := scope.vars.set name value })
      | none =>
          match (a.chain h).broken with
          | some g => (.error (.noScope g), a)
          | none => (.ok false, a) := by
  unfold assignOuter chain
  generalize h.toNat + 1 = fuel
  induction fuel generalizing h with
  | zero => rfl
  | succ fuel ih =>
      unfold assignOuterFrom chainFrom
      cases hs : a.scopes.get? h with
      | none => exact Action.bind_of_error (scopeAt_of_dead hs)
      | some scope =>
          rw [Action.bind_of_ok (scopeAt_of_get? hs)]
          obtain ⟨parent, vars, functions⟩ := scope
          cases bound : vars.contains name with
          | true => cases parent <;> simp [bound] <;> rfl
          | false =>
              cases parent with
              | none =>
                  simp [bound]
                  rfl
              | some p => simp [bound, ih p]

end

def grown (a : Arena α φ) (parent : Handle) : Arena α φ :=
  { a with next := a.next + 1 }.put a.next ⟨some parent, .empty, .empty⟩

def without (a : Arena α φ) (h : Handle) : Arena α φ := { a with scopes := a.scopes.erase h }

theorem extend_of_live {a : Arena α φ} {h : Handle} {parent : Option Handle}
    (ho : a.outline.get? h = some parent) : extend h a = (.ok a.next, a.grown h) := by
  have hc : a.contains h = true := contains_iff.mpr ⟨parent, ho⟩
  have found : Action.inspect (·.contains h) a = (.ok true, a) := by
    rw [Action.inspect, hc]
  exact Action.bind_of_ok found

theorem extend_of_dead {a : Arena α φ} {h : Handle} (dead : a.contains h = false) :
    extend h a = (.error (.noParent h), a) := by
  have found : Action.inspect (·.contains h) a = (.ok false, a) := by
    rw [Action.inspect, dead]
  exact Action.bind_of_ok found

theorem discard_root (a : Arena α φ) : discard rootHandle a = (.ok (), a) := rfl

theorem discard_of_live {a : Arena α φ} {h : Handle} {parent : Option Handle}
    (ho : a.outline.get? h = some parent) (hne : h ≠ rootHandle) :
    discard h a = (.ok (), a.without h) := by
  obtain ⟨scope, hs, -⟩ := get?_of_outline ho
  unfold discard
  rw [if_pos hne]
  exact Action.bind_of_ok (scopeAt_of_get? hs)

theorem discard_of_dead {a : Arena α φ} {h : Handle} (dead : a.scopes.get? h = none)
    (hne : h ≠ rootHandle) : discard h a = (.error (.noScope h), a) := by
  unfold discard
  rw [if_pos hne]
  exact Action.bind_of_error (scopeAt_of_dead dead)

theorem grown_get? (a : Arena α φ) (parent g : Handle) :
    (a.grown parent).scopes.get? g =
      if g = a.next then some ⟨some parent, .empty, .empty⟩ else a.scopes.get? g :=
  a.scopes.get?_set a.next g _

theorem without_get? (a : Arena α φ) (h g : Handle) :
    (a.without h).scopes.get? g = if g = h then none else a.scopes.get? g :=
  a.scopes.get?_erase h g

theorem grown_outline (a : Arena α φ) (parent : Handle) :
    (a.grown parent).outline = a.outline.set a.next (some parent) := by
  simp only [outline, grown, put, OrderedMap.mapValues_set]

theorem without_outline (a : Arena α φ) (h : Handle) :
    (a.without h).outline = a.outline.erase h := by
  simp only [outline, without, OrderedMap.mapValues_erase]

/-! ## Validity -/

theorem Valid.of_outline {a b : Arena α φ} (hv : a.Valid) (ho : b.outline = a.outline)
    (hn : b.next = a.next) : b.Valid where
  rooted := by rw [ho]; exact hv.rooted
  bounded := by rw [ho, hn]; exact hv.bounded
  descending := by rw [ho]; exact hv.descending

theorem Connected.of_outline {a b : Arena α φ} (hc : a.Connected) (ho : b.outline = a.outline) :
    b.Connected := by
  intro g p h
  rw [ho] at h ⊢
  exact hc g p h

theorem Valid.next_fresh {a : Arena α φ} (hv : a.Valid) : a.outline.get? a.next = none := by
  cases h : a.outline.get? a.next with
  | none => rfl
  | some parent =>
      have := (hv.bounded h).2
      omega

theorem Valid.next_ne_root {a : Arena α φ} (hv : a.Valid) : a.next ≠ rootHandle := by
  intro h
  have := (hv.bounded hv.rooted).2
  rw [h] at this
  exact absurd this (by decide)

theorem valid_ofFunctions (functions : List (String × φ)) :
    (ofFunctions functions : Arena α φ).Valid := by
  have hget : ∀ g, (ofFunctions functions : Arena α φ).outline.get? g =
      if g = rootHandle then some none else none := by
    intro g
    rw [outline_get?]
    by_cases hg : g = rootHandle
    · simp [ofFunctions, hg]
    · simp [ofFunctions, hg, Ne.symm hg]
  refine ⟨by simp [hget], ?_, ?_⟩
  · intro g parent h
    rw [hget] at h
    split at h
    · next hg => subst hg; exact ⟨by decide, by show (0 : Int) < 0 + 1; omega⟩
    · cases h
  · intro g p h
    rw [hget] at h
    split at h <;> cases h

theorem Valid.grown {a : Arena α φ} (hv : a.Valid) {h : Handle} {parent : Option Handle}
    (ho : a.outline.get? h = some parent) : (a.grown h).Valid := by
  have hget : ∀ g, (a.grown h).outline.get? g =
      if g = a.next then some (some h) else a.outline.get? g := by
    intro g
    rw [grown_outline, OrderedMap.get?_set]
  have hh := hv.bounded ho
  refine ⟨by rw [hget, if_neg hv.next_ne_root.symm]; exact hv.rooted, ?_, ?_⟩
  · intro g q hg
    rw [hget] at hg
    show 0 ≤ g ∧ g < (a.next + 1 : Int)
    split at hg
    · next hnext => subst hnext; omega
    · have := hv.bounded hg
      omega
  · intro g p hg
    rw [hget] at hg
    split at hg
    · next hnext =>
        subst hnext
        cases hg
        exact hh
    · exact hv.descending hg

theorem Valid.without {a : Arena α φ} (hv : a.Valid) {h : Handle} (hne : h ≠ rootHandle) :
    (a.without h).Valid := by
  have hget : ∀ g, (a.without h).outline.get? g =
      if g = h then none else a.outline.get? g := by
    intro g
    rw [without_outline, OrderedMap.get?_erase]
  refine ⟨by rw [hget, if_neg hne.symm]; exact hv.rooted, ?_, ?_⟩
  · intro g q hg
    rw [hget] at hg
    split at hg
    · cases hg
    · exact hv.bounded hg
  · intro g p hg
    rw [hget] at hg
    split at hg
    · cases hg
    · exact hv.descending hg

/-! ## Chains -/

/-- The links of a chain are live scopes, however far the chain was followed. -/
theorem get?_of_mem_links {a : Arena α φ} {fuel : Nat} {h : Handle} {link : Handle × Scope α φ}
    (hl : link ∈ (a.chainFrom fuel h).links) : a.scopes.get? link.1 = some link.2 := by
  induction fuel generalizing h with
  | zero => simp [chainFrom] at hl
  | succ fuel ih =>
      unfold chainFrom at hl
      cases hs : a.scopes.get? h with
      | none => simp [hs] at hl
      | some scope =>
          cases hp : scope.parent with
          | none =>
              simp only [hs, hp, List.mem_singleton] at hl
              rw [hl, hs]
          | some p =>
              simp only [hs, hp, List.mem_cons] at hl
              rcases hl with rfl | hl
              · exact hs
              · exact ih hl

theorem mem_links_self {a : Arena α φ} {fuel : Nat} {h : Handle}
    (hb : (a.chainFrom fuel h).broken = none) :
    ∃ scope, (h, scope) ∈ (a.chainFrom fuel h).links := by
  cases fuel with
  | zero => simp [chainFrom] at hb
  | succ fuel =>
      unfold chainFrom at hb ⊢
      cases hs : a.scopes.get? h with
      | none => simp [hs] at hb
      | some scope => cases hp : scope.parent <;> simp [hp]

/-- A chain that does not break goes on through the parents of its links. -/
theorem mem_links_of_parent {a : Arena α φ} {fuel : Nat} {h p : Handle}
    {link : Handle × Scope α φ} (hb : (a.chainFrom fuel h).broken = none)
    (hl : link ∈ (a.chainFrom fuel h).links) (hp : link.2.parent = some p) :
    ∃ scope, (p, scope) ∈ (a.chainFrom fuel h).links := by
  induction fuel generalizing h with
  | zero => simp [chainFrom] at hb
  | succ fuel ih =>
      unfold chainFrom at hb hl ⊢
      cases hs : a.scopes.get? h with
      | none => simp [hs] at hb
      | some scope =>
          cases hq : scope.parent with
          | none =>
              simp only [hs, hq, List.mem_singleton] at hl
              rw [hl, hq] at hp
              cases hp
          | some q =>
              simp only [hs, hq, List.mem_cons] at hb hl ⊢
              have outer : ∃ scope, (p, scope) ∈ (a.chainFrom fuel q).links := by
                rcases hl with rfl | hl
                · rw [hq] at hp
                  cases hp
                  exact mem_links_self hb
                · exact ih hb hl
              obtain ⟨found, hfound⟩ := outer
              exact ⟨found, .inr hfound⟩

theorem chainFrom_eq_chain {a : Arena α φ} (hv : a.Valid) {fuel : Nat} {h : Handle}
    (hf : h.toNat < fuel) : a.chainFrom fuel h = a.chain h := by
  suffices ∀ m n (g : Handle), g.toNat < m → g.toNat < n → a.chainFrom m g = a.chainFrom n g from
    this fuel (h.toNat + 1) h hf (by omega)
  intro m
  induction m with
  | zero => intro n g hm; omega
  | succ m ih =>
      intro n g hm hn
      obtain ⟨n, rfl⟩ : ∃ k, n = k + 1 := ⟨n - 1, by omega⟩
      cases hs : a.scopes.get? g with
      | none => simp only [chainFrom, hs]
      | some scope =>
          cases hp : scope.parent with
          | none => simp only [chainFrom, hs, hp]
          | some p =>
              have hd := hv.descending (g := g) (p := p) (by rw [outline_of_get? hs, hp])
              simp only [chainFrom, hs, hp, ih n p (by omega) (by omega)]

theorem chain_of_top {a : Arena α φ} {h : Handle} {scope : Scope α φ}
    (hs : a.scopes.get? h = some scope) (hp : scope.parent = none) :
    a.chain h = ⟨[(h, scope)], none⟩ := by
  simp [chain, chainFrom, hs, hp]

theorem chain_of_child {a : Arena α φ} (hv : a.Valid) {h p : Handle} {scope : Scope α φ}
    (hs : a.scopes.get? h = some scope) (hp : scope.parent = some p) :
    a.chain h = ⟨(h, scope) :: (a.chain p).links, (a.chain p).broken⟩ := by
  have hd := hv.descending (g := h) (p := p) (by rw [outline_of_get? hs, hp])
  have hc : a.chainFrom h.toNat p = a.chain p := chainFrom_eq_chain hv (by omega)
  simp only [chain, chainFrom, hs, hp] at hc ⊢
  rw [hc]

/-- A chain along which every parent is live reaches a scope without a parent. -/
theorem chain_whole {a : Arena α φ} (hv : a.Valid) (hc : a.Connected) {h : Handle}
    {parent : Option Handle} (ho : a.outline.get? h = some parent) :
    (a.chain h).broken = none := by
  induction hn : h.toNat using Nat.strongRecOn generalizing h parent with
  | ind n ih =>
      obtain ⟨scope, hs, hparent⟩ := get?_of_outline ho
      cases hp : scope.parent with
      | none => rw [chain_of_top hs hp]
      | some p =>
          rw [← hparent, hp] at ho
          obtain ⟨outer, houter⟩ := hc h p ho
          have hd := hv.descending ho
          rw [chain_of_child hv hs hp]
          exact ih p.toNat (by omega) houter rfl

/-! ## Scopes in sight -/

/-- The handles from `h` outwards, as far as its chain goes. -/
def sight (a : Arena α φ) (h : Handle) : List Handle := (a.chain h).links.map (·.1)

theorem mem_sight_of_mem_links {a : Arena α φ} {h : Handle} {link : Handle × Scope α φ}
    (hl : link ∈ (a.chain h).links) : link.1 ∈ a.sight h :=
  List.mem_map_of_mem hl

theorem sight_of_dead {a : Arena α φ} {h : Handle} (hs : a.scopes.get? h = none) :
    a.sight h = [] := by
  simp [sight, chain, chainFrom, hs]

theorem sight_of_top {a : Arena α φ} {h : Handle} {scope : Scope α φ}
    (hs : a.scopes.get? h = some scope) (hp : scope.parent = none) : a.sight h = [h] := by
  simp [sight, chain_of_top hs hp]

theorem sight_of_child {a : Arena α φ} (hv : a.Valid) {h p : Handle} {scope : Scope α φ}
    (hs : a.scopes.get? h = some scope) (hp : scope.parent = some p) :
    a.sight h = h :: a.sight p := by
  simp [sight, chain_of_child hv hs hp]

/-- What is in sight depends on the outline alone. -/
theorem sight_of_outline {a b : Arena α φ} (ho : b.outline = a.outline) (h : Handle) :
    b.sight h = a.sight h := by
  suffices same : ∀ fuel g,
      (b.chainFrom fuel g).links.map (·.1) = (a.chainFrom fuel g).links.map (·.1) from
    same (h.toNat + 1) h
  intro fuel
  induction fuel with
  | zero => exact fun _ => rfl
  | succ fuel ih =>
      intro g
      have hg : (b.scopes.get? g).map (·.parent) = (a.scopes.get? g).map (·.parent) := by
        rw [← outline_get?, ← outline_get?, ho]
      unfold chainFrom
      cases ha : a.scopes.get? g with
      | none =>
          have hb : b.scopes.get? g = none := by simpa [ha] using hg
          simp [hb]
      | some scope =>
          obtain ⟨scope', hb, hparent⟩ : ∃ scope', b.scopes.get? g = some scope' ∧
              scope'.parent = scope.parent := by simpa [ha] using hg
          cases hp : scope.parent with
          | none => simp [hb, hparent, hp]
          | some p => simp [hb, hparent, hp, ih p]

theorem mem_sight_self {a : Arena α φ} {h : Handle} {parent : Option Handle}
    (ho : a.outline.get? h = some parent) : h ∈ a.sight h := by
  obtain ⟨scope, hs, -⟩ := get?_of_outline ho
  unfold sight chain chainFrom
  cases hp : scope.parent <;> simp [hs, hp]

theorem live_of_mem_sight {a : Arena α φ} {g h : Handle} (hg : g ∈ a.sight h) :
    ∃ parent, a.outline.get? g = some parent := by
  obtain ⟨link, hlink, rfl⟩ := List.mem_map.mp hg
  exact ⟨_, outline_of_get? (get?_of_mem_links hlink)⟩

/-- From a scope in sight nothing more can be seen. -/
theorem sight_subset {a : Arena α φ} (hv : a.Valid) {g h : Handle} (hg : g ∈ a.sight h) :
    a.sight g ⊆ a.sight h := by
  induction hn : h.toNat using Nat.strongRecOn generalizing h with
  | ind n ih =>
      cases hs : a.scopes.get? h with
      | none =>
          rw [sight_of_dead hs] at hg
          cases hg
      | some scope =>
          cases hp : scope.parent with
          | none =>
              rw [sight_of_top hs hp, List.mem_singleton] at hg
              rw [hg]
              exact List.Subset.refl _
          | some p =>
              have hd := hv.descending (g := h) (p := p) (by rw [outline_of_get? hs, hp])
              have hsight := sight_of_child hv hs hp
              rw [hsight] at hg
              rcases List.mem_cons.mp hg with rfl | hg
              · exact List.Subset.refl _
              · rw [hsight]
                exact List.subset_cons_of_subset h (ih p.toNat (by omega) hg rfl)

/-- A new scope is out of sight of all the scopes that were there before. -/
theorem sight_grown_of_lt {a : Arena α φ} (hv : a.Valid) {k : Handle} {parent : Option Handle}
    (hk : a.outline.get? k = some parent) {h : Int} (hlt : h < a.next) :
    (a.grown k).sight h = a.sight h := by
  induction hn : h.toNat using Nat.strongRecOn generalizing h with
  | ind n ih =>
      have hne : h ≠ a.next := by omega
      have hget : (a.grown k).scopes.get? h = a.scopes.get? h := by rw [grown_get?, if_neg hne]
      cases hs : a.scopes.get? h with
      | none => rw [sight_of_dead hs, sight_of_dead (hget.trans hs)]
      | some scope =>
          cases hp : scope.parent with
          | none => rw [sight_of_top hs hp, sight_of_top (hget.trans hs) hp]
          | some p =>
              have hd := hv.descending (g := h) (p := p) (by rw [outline_of_get? hs, hp])
              rw [sight_of_child hv hs hp, sight_of_child (hv.grown hk) (hget.trans hs) hp,
                ih p.toNat (by omega) (by omega) rfl]

theorem sight_grown {a : Arena α φ} (hv : a.Valid) {k : Handle} {parent : Option Handle}
    (hk : a.outline.get? k = some parent) :
    (a.grown k).sight a.next = a.next :: a.sight k := by
  have hnew : (a.grown k).scopes.get? a.next = some ⟨some k, .empty, .empty⟩ := by
    rw [grown_get?, if_pos rfl]
  rw [sight_of_child (hv.grown hk) hnew rfl, sight_grown_of_lt hv hk (hv.bounded hk).2]

/-- A function that is found stands in a live scope, which is in sight. -/
theorem get?_of_lookupFunction {a : Arena α φ} {h : Handle} {name : String} {function : φ}
    (hf : a.lookupFunction h name = .ok function) :
    ∃ g scope, g ∈ a.sight h ∧ a.scopes.get? g = some scope ∧
      scope.functions.get? name = some function := by
  unfold lookupFunction at hf
  cases hfind : (a.chain h).links.findSome? fun link => link.2.functions.get? name with
  | none => simp [hfind] at hf
  | some found =>
      simp only [hfind, Except.ok.injEq] at hf
      subst hf
      obtain ⟨link, hlink, hget⟩ := List.exists_of_findSome?_eq_some hfind
      exact ⟨link.1, link.2, mem_sight_of_mem_links hlink, get?_of_mem_links hlink, hget⟩

/-- On a whole chain the innermost binding is overwritten, or nothing happens. -/
theorem assignOuter_of_whole {a : Arena α φ} {h : Handle} (hb : (a.chain h).broken = none)
    (name : String) (value : α) :
    assignOuter h name value a = (.ok false, a) ∨
      ∃ g scope, g ∈ a.sight h ∧ a.scopes.get? g = some scope ∧
        scope.vars.contains name = true ∧
        assignOuter h name value a =
          (.ok true, a.put g { scope with vars := scope.vars.set name value }) := by
  rw [assignOuter_eq]
  cases hfind : (a.chain h).links.find? fun link => link.2.vars.contains name with
  | none =>
      left
      simp [hb]
  | some link =>
      right
      have hlink := List.mem_of_find?_eq_some hfind
      have hbound : link.2.vars.contains name = true := by simpa using List.find?_some hfind
      exact ⟨link.1, link.2, mem_sight_of_mem_links hlink, get?_of_mem_links hlink, hbound, rfl⟩

end Arena

end Scriptlet
