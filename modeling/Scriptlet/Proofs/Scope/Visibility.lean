import Scriptlet.Proofs.Scope.Histories

/-!
# Reading behind a write

A name is read in the innermost scope that binds it, and the chains of two scopes may have scopes in
common. So a write to one scope is seen from every scope whose chain comes to it before the name is
bound elsewhere, and from no other. Variables and functions are kept apart: what is written to the
one kind of name leaves the other alone.
-/

namespace Scriptlet.Arena

variable {α φ β : Type}

/-! ## Ways outwards -/

/-- The way from one scope outwards comes to another, and all the scopes it passes before satisfy
`P`. -/
inductive Passes (a : Arena α φ) (P : Scope α φ → Prop) : Handle → Handle → Prop where
  | here {h : Handle} {scope : Scope α φ} (live : a.scopes.get? h = some scope) : Passes a P h h
  | outward {g p h : Handle} {scope : Scope α φ} (live : a.scopes.get? g = some scope)
      (passed : P scope) (parent : scope.parent = some p) (more : Passes a P p h) : Passes a P g h

def ReachesRoot (a : Arena α φ) (h : Handle) : Prop := a.Passes (fun _ => True) h rootHandle

section

variable (table : Scope α φ → OrderedMap String β)

def Unbound (name : String) (scope : Scope α φ) : Prop := (table scope).get? name = none

/-- From `g` the scope `h` comes before any other that binds the name. -/
def Sees (a : Arena α φ) (name : String) (g h : Handle) : Prop := a.Passes (Unbound table name) g h

/-- The scope `k` is the first one from `g` outwards that binds the name. -/
def Innermost (a : Arena α φ) (name : String) (g k : Handle) : Prop :=
  a.Sees table name g k ∧
    ∃ scope value, a.scopes.get? k = some scope ∧ (table scope).get? name = some value

/-- The innermost binding of a name, in the tables of one kind. -/
def search (a : Arena α φ) (h : Handle) (name : String) : Except Fault β :=
  match (a.chain h).links.findSome? fun link => (table link.2).get? name with
  | some value => .ok value
  | none => .error ((a.chain h).fault name)

end

theorem lookup_eq_search (a : Arena α φ) : a.lookup = a.search (·.vars) := rfl

theorem lookupFunction_eq_search (a : Arena α φ) : a.lookupFunction = a.search (·.functions) := rfl

section

variable {table : Scope α φ → OrderedMap String β} {a : Arena α φ} {g h k : Handle} {name : String}
  {scope : Scope α φ}

/-! ## Searching scope by scope -/

theorem search_of_dead (dead : a.scopes.get? h = none) :
    a.search table h name = .error (.noScope h) := by
  simp [search, chain, chainFrom, dead, Chain.fault]

theorem search_of_bound (live : a.scopes.get? h = some scope) {value : β}
    (bound : (table scope).get? name = some value) : a.search table h name = .ok value := by
  cases hp : scope.parent <;> simp [search, chain, chainFrom, live, hp, bound]

theorem search_of_top (live : a.scopes.get? h = some scope) (alone : scope.parent = none)
    (unbound : Unbound table name scope) : a.search table h name = .error (.unbound name) := by
  unfold Unbound at unbound
  simp [search, chain_of_top live alone, unbound, Chain.fault]

theorem search_of_child (hv : a.Valid) (live : a.scopes.get? h = some scope)
    (parent : scope.parent = some k) (unbound : Unbound table name scope) :
    a.search table h name = a.search table k name := by
  unfold Unbound at unbound
  simp only [search, chain_of_child hv live parent, List.findSome?_cons, unbound, Chain.fault]

/-! ## Innermost bindings -/

theorem Innermost.unique {k' : Handle} (inner : a.Innermost table name g k)
    (inner' : a.Innermost table name g k') : k = k' := by
  obtain ⟨sees, scope, value, live, bound⟩ := inner
  obtain ⟨sees', scope', value', live', bound'⟩ := inner'
  -- Neither way passes a scope that binds the name, so neither goes on behind the other's end.
  induction sees with
  | here =>
      cases sees' with
      | here => rfl
      | outward there passed =>
          cases live.symm.trans there
          cases bound.symm.trans passed
  | outward there passed parent more ih =>
      cases sees' with
      | here =>
          cases live'.symm.trans there
          cases bound'.symm.trans passed
      | outward there' _ parent' more' =>
          cases there.symm.trans there'
          cases parent.symm.trans parent'
          exact ih live more'

theorem search_of_innermost (hv : a.Valid) (sees : a.Sees table name g k)
    (live : a.scopes.get? k = some scope) {value : β}
    (bound : (table scope).get? name = some value) : a.search table g name = .ok value := by
  induction sees with
  | here => exact search_of_bound live bound
  | outward there passed parent more ih =>
      rw [search_of_child hv there parent passed]
      exact ih live

theorem exists_innermost_of_search (hv : a.Valid) {value : β}
    (found : a.search table g name = .ok value) : ∃ k, a.Innermost table name g k := by
  have walk := hv.walks g
  generalize (a.chain g).links = links, (a.chain g).broken = broken at walk
  induction walk with
  | missing dead =>
      rw [search_of_dead dead] at found
      cases found
  | @top h scope live alone =>
      cases bound : (table scope).get? name with
      | some value' => exact ⟨h, .here live, scope, value', live, bound⟩
      | none =>
          rw [search_of_top live alone bound] at found
          cases found
  | @outward h p scope _ _ live parent _ ih =>
      cases bound : (table scope).get? name with
      | some value' => exact ⟨h, .here live, scope, value', live, bound⟩
      | none =>
          rw [search_of_child hv live parent bound] at found
          obtain ⟨k, sees, binds⟩ := ih found
          exact ⟨k, .outward live bound parent sees, binds⟩

theorem search_isOk_iff (hv : a.Valid) :
    (∃ value, a.search table g name = .ok value) ↔ ∃ k, a.Innermost table name g k := by
  constructor
  · rintro ⟨value, found⟩
    exact exists_innermost_of_search hv found
  · rintro ⟨k, sees, scope, value, live, bound⟩
    exact ⟨value, search_of_innermost hv sees live bound⟩

/-! ## Searching behind a write -/

section

variable {old new : Scope α φ} (hv : a.Valid) (live : a.scopes.get? h = some old)
  (parent : new.parent = old.parent)

include hv live parent

theorem search_put_of_sees {value : β} (bound : (table new).get? name = some value)
    (sees : a.Sees table name g h) : (a.put h new).search table g name = .ok value := by
  have hv' : (a.put h new).Valid := hv.of_outline (put_outline live parent) rfl
  have hget (k : Handle) := a.put_get? k h new
  induction sees with
  | here => exact search_of_bound (by rw [hget, if_pos rfl]) bound
  | @outward g p h scope there passed outer more ih =>
      by_cases same : g = h
      · exact search_of_bound (by rw [hget, if_pos same]) bound
      · have there' : (a.put h new).scopes.get? g = some scope := by
          rw [hget, if_neg same, there]
        rw [search_of_child hv' there' outer passed]
        exact ih live hv' hget

omit hv in
theorem get?_put_of_live (there : a.scopes.get? g = some scope)
    (kept : g = h → (table new).get? name = (table old).get? name) :
    ∃ scope', (a.put h new).scopes.get? g = some scope' ∧ scope'.parent = scope.parent ∧
      (table scope').get? name = (table scope).get? name := by
  rw [put_get?]
  by_cases same : g = h
  · subst same
    cases live.symm.trans there
    exact ⟨new, if_pos rfl, parent, kept rfl⟩
  · exact ⟨scope, by rw [if_neg same, there], rfl, rfl⟩

/-- A search stays as it was if it cannot see the scope, or finds no difference there. -/
theorem search_put_of_kept
    (kept : a.Sees table name g h → (table new).get? name = (table old).get? name) :
    (a.put h new).search table g name = a.search table g name := by
  have hv' : (a.put h new).Valid := hv.of_outline (put_outline live parent) rfl
  have walk := hv.walks g
  generalize (a.chain g).links = links, (a.chain g).broken = broken at walk
  induction walk with
  | @missing g dead =>
      have away : g ≠ h := by
        rintro rfl
        cases live.symm.trans dead
      rw [search_of_dead dead, search_of_dead (by rw [put_get?, if_neg away, dead])]
  | @top g scope there alone =>
      obtain ⟨scope', there', parent', same⟩ :=
        get?_put_of_live live parent there fun e => kept (e ▸ .here there)
      cases bound : (table scope).get? name with
      | some value => rw [search_of_bound there bound, search_of_bound there' (same.trans bound)]
      | none =>
          rw [search_of_top there alone bound,
            search_of_top there' (parent'.trans alone) (same.trans bound)]
  | @outward g p scope _ _ there outer _ ih =>
      obtain ⟨scope', there', parent', same⟩ :=
        get?_put_of_live live parent there fun e => kept (e ▸ .here there)
      cases bound : (table scope).get? name with
      | some value => rw [search_of_bound there bound, search_of_bound there' (same.trans bound)]
      | none =>
          rw [search_of_child hv there outer bound,
            search_of_child hv' there' (parent'.trans outer) (same.trans bound)]
          exact ih fun sees => kept (.outward there bound outer sees)

end

end

/-! ## Writing along a chain -/

section

variable {a : Arena α φ} {g h k : Handle} {name : String} {scope : Scope α φ}

theorem ReachesRoot.broken_eq (hv : a.Valid) (reaches : a.ReachesRoot h) :
    (a.chain h).broken = none := by
  unfold ReachesRoot at reaches
  generalize hroot : rootHandle = root at reaches
  induction reaches with
  | @here h scope live =>
      subst hroot
      have alone : scope.parent = none :=
        Option.some.inj ((outline_of_get? live).symm.trans hv.rooted)
      rw [chain_of_top live alone]
  | outward live passed parent more ih =>
      rw [chain_of_child hv live parent]
      exact ih hroot

theorem find?_links_of_innermost (hv : a.Valid) (sees : a.Sees (·.vars) name g k)
    (live : a.scopes.get? k = some scope) (bound : scope.vars.contains name = true) :
    (a.chain g).links.find? (fun link => link.2.vars.contains name) = some (k, scope) := by
  induction sees with
  | here there =>
      cases live.symm.trans there
      cases hp : scope.parent with
      | none => simp [chain_of_top live hp, bound]
      | some p => simp [chain_of_child hv live hp, bound]
  | outward there passed parent more ih =>
      have unbound : OrderedMap.contains _ name = false := Option.isSome_eq_false_iff.mpr
        (Option.isNone_iff_eq_none.mpr passed)
      rw [chain_of_child hv there parent, List.find?_cons, unbound]
      exact ih live

theorem assignOuter_of_innermost (hv : a.Valid) (inner : a.Innermost (·.vars) name h k)
    (value : α) :
    ∃ scope, a.scopes.get? k = some scope ∧ assignOuter h name value a =
      (.ok true, a.put k { scope with vars := scope.vars.set name value }) := by
  obtain ⟨sees, scope, old, live, bound⟩ := inner
  have contains : scope.vars.contains name = true := Option.isSome_iff_exists.mpr ⟨old, bound⟩
  refine ⟨scope, live, ?_⟩
  rw [assignOuter_eq, find?_links_of_innermost hv sees live contains]

theorem assignOuter_of_unbound (reaches : (a.chain h).broken = none)
    (unbound : ¬∃ value, a.search (·.vars) h name = .ok value) (value : α) :
    assignOuter h name value a = (.ok false, a) := by
  have nowhere : (a.chain h).links.findSome? (fun link => link.2.vars.get? name) = none := by
    cases found : (a.chain h).links.findSome? fun link => link.2.vars.get? name with
    | none => rfl
    | some old => exact absurd ⟨old, by simp only [search, found]⟩ unbound
  have none : (a.chain h).links.find? (fun link => link.2.vars.contains name) = none := by
    rw [List.find?_eq_none]
    intro link hlink
    have missing := List.findSome?_eq_none_iff.mp nowhere link hlink
    simp [OrderedMap.contains, missing]
  rw [assignOuter_eq, none, reaches]

end

/-! ## Reading behind a write -/

/-- Where the write is seen its value is read, and elsewhere whatever was read before. -/
def ReadsBehind (before after : Handle → String → Except Fault β) (value : β)
    (seen : Handle → String → Prop) : Prop :=
  ∀ g name, (seen g name → after g name = .ok value) ∧ (¬seen g name → after g name = before g name)

theorem readsBehind_put {table : Scope α φ → OrderedMap String β} {a : Arena α φ} {h : Handle}
    {old new : Scope α φ} {name : String} {value : β} (hv : a.Valid)
    (live : a.scopes.get? h = some old) (parent : new.parent = old.parent)
    (written : table new = (table old).set name value) :
    ReadsBehind (a.search table) ((a.put h new).search table) value
      fun g y => y = name ∧ a.Sees table name g h := by
  intro g y
  constructor
  · rintro ⟨rfl, sees⟩
    exact search_put_of_sees hv live parent (by rw [written, OrderedMap.get?_set_self]) sees
  · intro unseen
    refine search_put_of_kept hv live parent fun sees => ?_
    have other : y ≠ name := by
      rintro rfl
      exact unseen ⟨rfl, sees⟩
    rw [written, OrderedMap.get?_set_of_ne _ _ other]

/-- What is written to the innermost binding is seen from wherever this binding is the innermost
one. -/
theorem readsBehind_put_innermost {table : Scope α φ → OrderedMap String β} {a : Arena α φ}
    {h k : Handle} {old new : Scope α φ} {name : String} {value : β} (hv : a.Valid)
    (inner : a.Innermost table name h k) (live : a.scopes.get? k = some old)
    (parent : new.parent = old.parent) (written : table new = (table old).set name value) :
    ReadsBehind (a.search table) ((a.put k new).search table) value
      fun g y => y = name ∧ ∃ k, a.Innermost table name g k ∧ a.Innermost table name h k := by
  intro g y
  have reads := readsBehind_put hv live parent written g y
  constructor
  · rintro ⟨rfl, k', inner', same⟩
    cases same.unique inner
    exact reads.1 ⟨rfl, inner'.1⟩
  · intro unseen
    refine reads.2 ?_
    rintro ⟨rfl, sees⟩
    exact unseen ⟨rfl, k, ⟨sees, inner.2⟩, inner⟩

theorem search_put_of_table {table : Scope α φ → OrderedMap String β} {a : Arena α φ} {h : Handle}
    {old new : Scope α φ} (hv : a.Valid) (live : a.scopes.get? h = some old)
    (parent : new.parent = old.parent) (same : table new = table old) :
    (a.put h new).search table = a.search table := by
  funext g name
  exact search_put_of_kept hv live parent fun _ => by rw [same]

/-- Through every history of requests: a variable or a function that is bound in a live scope is
read from wherever this scope is the first one to bind its name, and nothing else is read
differently. An assignment along a whole chain goes to the innermost binding of the name, if there
is one, and is read from wherever this is the innermost one; without one nothing changes. -/
theorem reads_see_innermost_write (functions : List (String × φ)) (requests : List (Request α φ)) :
    let a := ((ofFunctions functions : Arena α φ).performAll requests).2
    ∀ h, a.contains h = true → ∀ x : String,
      (∀ v, ∃ b, assign h x v a = (.ok (), b) ∧
        ReadsBehind a.lookup b.lookup v (fun g y => y = x ∧ a.Sees (·.vars) x g h) ∧
        b.lookupFunction = a.lookupFunction) ∧
      (∀ f, ∃ b, declare h x f a = (.ok (), b) ∧
        ReadsBehind a.lookupFunction b.lookupFunction f
          (fun g y => y = x ∧ a.Sees (·.functions) x g h) ∧
        b.lookup = a.lookup) ∧
      (a.ReachesRoot h → ∀ v, ∃ found b, assignOuter h x v a = (.ok found, b) ∧
        (found = true ↔ ∃ w, a.lookup h x = .ok w) ∧
        ReadsBehind a.lookup b.lookup v (fun g y => y = x ∧
          ∃ k, a.Innermost (·.vars) x g k ∧ a.Innermost (·.vars) x h k) ∧
        (found = false → b = a) ∧
        b.lookupFunction = a.lookupFunction) := by
  intro a h contained x
  have hv : a.Valid := ((Ordered.start functions).performAll requests).valid
  obtain ⟨_, houtline⟩ := contains_iff.mp contained
  obtain ⟨scope, live, -⟩ := get?_of_outline houtline
  simp only [lookup_eq_search, lookupFunction_eq_search]
  refine ⟨fun v => ?_, fun f => ?_, fun reaches v => ?_⟩
  · exact ⟨_, assign_of_get? live x v, readsBehind_put hv live rfl rfl,
      search_put_of_table hv live rfl rfl⟩
  · exact ⟨_, declare_of_get? live x f, readsBehind_put hv live rfl rfl,
      search_put_of_table hv live rfl rfl⟩
  · rw [search_isOk_iff hv]
    by_cases bound : ∃ k, a.Innermost (·.vars) x h k
    · obtain ⟨k, inner⟩ := bound
      obtain ⟨target, there, assigned⟩ := assignOuter_of_innermost hv inner v
      exact ⟨true, _, assigned, by simpa using ⟨k, inner⟩,
        readsBehind_put_innermost hv inner there rfl rfl, by simp,
        search_put_of_table hv there rfl rfl⟩
    · have unbound := mt (search_isOk_iff hv).mp bound
      refine ⟨false, a, assignOuter_of_unbound (reaches.broken_eq hv) unbound v,
        by simpa using bound, fun g y => ⟨?_, fun _ => rfl⟩, fun _ => rfl, rfl⟩
      rintro ⟨-, k, -, inner⟩
      exact absurd ⟨k, inner⟩ bound

/-- Two chains that meet at the root, with a variable bound there and in the parent of the one. An
assignment along this chain is not seen from the other, and one to the root only from there. -/
theorem reads_see_innermost_write_on_meeting_chains :
    let requests : List (Request Nat String) :=
      [.extend 0, .extend 1, .extend 0, .assign 0 "x" 5, .assign 1 "x" 6]
    let a := ((ofFunctions [] : Arena Nat String).performAll requests).2
    a.contains 2 = true ∧ a.ReachesRoot 2 ∧
      (∃ b, assignOuter 2 "x" 7 a = (.ok true, b) ∧ b.lookup 2 "x" = .ok 7 ∧
        b.lookup 3 "x" = .ok 5) ∧
      a.contains 0 = true ∧
      ∃ b, assign 0 "x" 8 a = (.ok (), b) ∧ b.lookup 3 "x" = .ok 8 ∧ b.lookup 2 "x" = .ok 6 := by
  intro requests a
  have reaches : a.ReachesRoot 2 :=
    .outward rfl trivial rfl (.outward rfl trivial rfl (.here rfl))
  have inner : a.Innermost (·.vars) "x" 2 1 := ⟨.outward rfl rfl rfl (.here rfl), _, 6, rfl, rfl⟩
  have sees : a.Sees (·.vars) "x" 3 0 := .outward rfl rfl rfl (.here rfl)
  have outside : ¬a.Sees (·.vars) "x" 2 0 := by
    intro sees
    exact absurd (inner.unique ⟨sees, _, 5, rfl, rfl⟩) (by decide)
  refine ⟨rfl, reaches, ?_, rfl, ?_⟩
  · obtain ⟨found, b, assigned, -, reads, -⟩ :=
      (reads_see_innermost_write [] requests 2 rfl "x").2.2 reaches 7
    cases assigned
    refine ⟨_, rfl, (reads 2 "x").1 ⟨rfl, 1, inner, inner⟩, (reads 3 "x").2 ?_⟩
    rintro ⟨-, k, other, same⟩
    cases inner.unique same
    exact absurd (other.unique ⟨sees, _, 5, rfl, rfl⟩) (by decide)
  · obtain ⟨b, assigned, reads, -⟩ := (reads_see_innermost_write [] requests 0 rfl "x").1 8
    exact ⟨b, assigned, (reads 3 "x").1 ⟨rfl, sees⟩, (reads 2 "x").2 fun seen => outside seen.2⟩

end Scriptlet.Arena
