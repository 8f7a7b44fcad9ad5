import Scriptlet.Proofs.Evaluation.Simulation
import Scriptlet.Proofs.Scope.Outline

/-!
# Scope discipline

Functions are found only through the scope that declared them: each one closes over that scope,
which is live as long as the function can be called. So every scope in use has live ancestors, and
whatever way an evaluation ends, the arena has the outline it had before.
-/

namespace Scriptlet

open Eval

/-- Scopes as programs leave them: every ancestor of a scope is live, and a declared function
closes over the scope it stands in. The bodies of declared functions satisfy `B`. -/
structure WellScoped (B : Node → Prop) (a : Scopes) : Prop where
  valid : a.Valid
  connected : a.Connected
  functions : ∀ {g : Handle} {scope : Scope Value Function} {name : String} {f : UserFunction},
    a.scopes.get? g = some scope → scope.functions.get? name = some (.user f) →
      f.closure = g ∧ B f.body

namespace WellScoped

variable {B : Node → Prop} {a : Scopes}

theorem put (hw : WellScoped B a) {g : Handle} {old new : Scope Value Function}
    (hold : a.scopes.get? g = some old) (hparent : new.parent = old.parent)
    (hnew : ∀ {name f}, new.functions.get? name = some (.user f) → f.closure = g ∧ B f.body) :
    WellScoped B (a.put g new) := by
  have ho : (a.put g new).outline = a.outline := Arena.put_outline hold hparent
  refine ⟨hw.valid.of_outline ho rfl, hw.connected.of_outline ho, ?_⟩
  intro h scope name f hs hf
  rw [Arena.put_get?] at hs
  split at hs
  · next he =>
      cases hs
      rw [he]
      exact hnew hf
  · exact hw.functions hs hf

theorem put_vars (hw : WellScoped B a) {g : Handle} {old : Scope Value Function}
    (hold : a.scopes.get? g = some old) (vars : OrderedMap String Value) :
    WellScoped B (a.put g { old with vars := vars }) :=
  hw.put hold rfl fun hf => hw.functions hold hf

theorem put_function (hw : WellScoped B a) {g : Handle} {old : Scope Value Function}
    (hold : a.scopes.get? g = some old) {body : Node} (hbody : B body) (name : String)
    (params : List String) :
    WellScoped B (a.put g { old with
      functions := old.functions.set name (.user ⟨name, params, body, g⟩) }) := by
  refine hw.put hold rfl fun {other f} hf => ?_
  simp only [OrderedMap.get?_set] at hf
  split at hf
  · cases hf
    exact ⟨rfl, hbody⟩
  · exact hw.functions hold hf

theorem grown (hw : WellScoped B a) {g : Handle} {parent : Option Handle}
    (ho : a.outline.get? g = some parent) : WellScoped B (a.grown g) := by
  refine ⟨hw.valid.grown ho, ?_, ?_⟩
  · intro h p hp
    have live : ∀ {k q}, a.outline.get? k = some q → ∃ r, (a.grown g).outline.get? k = some r := by
      intro k q hk
      rw [Arena.grown_outline, OrderedMap.get?_set]
      split
      · exact ⟨_, rfl⟩
      · exact ⟨q, hk⟩
    rw [Arena.grown_outline, OrderedMap.get?_set] at hp
    split at hp
    · cases hp
      exact live ho
    · obtain ⟨q, hq⟩ := hw.connected h p hp
      exact live hq
  · intro h scope name f hs hf
    rw [Arena.grown_get?] at hs
    split at hs
    · cases hs
      simp at hf
    · exact hw.functions hs hf

/-- Once the scope that was made last is removed, the outline is `b`'s again, and so is its
discipline. -/
theorem without {b : Scopes} (hw : WellScoped B a) (hb : b.Connected) {g : Handle}
    (hne : g ≠ Arena.rootHandle) (ho : (a.without g).outline = b.outline) :
    WellScoped B (a.without g) := by
  refine ⟨hw.valid.without hne, hb.of_outline ho, ?_⟩
  intro h scope name f hs hf
  rw [Arena.without_get?] at hs
  split at hs
  · cases hs
  · exact hw.functions hs hf

theorem ofFunctions {functions : List (String × Function)}
    (hf : ∀ {name f}, (OrderedMap.ofList functions).get? name ≠ some (.user f)) :
    WellScoped B (.ofFunctions functions) := by
  have hget : ∀ {g scope}, (Arena.ofFunctions functions : Scopes).scopes.get? g = some scope →
      scope = ⟨none, .empty, .ofList functions⟩ := by
    intro g scope hs
    rw [Arena.ofFunctions, OrderedMap.get?_singleton] at hs
    split at hs
    · exact (Option.some.inj hs).symm
    · cases hs
  refine ⟨Arena.valid_ofFunctions functions, ?_, ?_⟩
  · intro g p hp
    obtain ⟨scope, hs, hparent⟩ := Arena.get?_of_outline hp
    rw [hget hs] at hparent
    cases hparent
  · intro g scope name f hs hfound
    rw [hget hs] at hfound
    exact absurd hfound hf

theorem builtins : WellScoped B (.ofFunctions builtinFunctions) := by
  refine ofFunctions fun {name f} => ?_
  have entries : (OrderedMap.ofList builtinFunctions).entries = builtinFunctions := rfl
  rw [OrderedMap.get?, entries]
  simp only [builtinFunctions, Builtin.all, List.map_cons, List.map_nil, OrderedMap.valueAmong?]
  repeat' split
  all_goals simp

end WellScoped

/-! ## One run beside itself -/

/-- A property of trees that passes to the trees below, and under which errors name only places
that satisfy `Q`. -/
structure Hereditary (B : Node → Prop) (Q : Option Position → Prop) : Prop where
  children : ∀ {n child}, B n → child ∈ n.children → B child
  places : ∀ {n p}, B n → p ∈ n.errorPlaces → Q p

/-- The stores of one run between two moments at which the arena has the same outline. -/
def SteadyStore (B : Node → Prop) (outline : OrderedMap Handle (Option Handle)) (s : Store) :
    Prop :=
  s.scopes.outline = outline ∧ WellScoped B s.scopes

/-- A run beside itself, in scopes whose functions have bodies that satisfy `B`. -/
def steady (B : Node → Prop) (Q : Option Position → Prop) (E : Stop → Prop) : Correspondence where
  World := OrderedMap Handle (Option Handle)
  Stores outline s t := s = t ∧ SteadyStore B outline s
  Left := SteadyStore B
  Handles outline g h := g = h ∧ ∃ parent, outline.get? g = some parent
  Trees n n' := n = n' ∧ B n
  Places p q := p = q ∧ Q p
  GivesUp := E

section

variable {B : Node → Prop} {Q : Option Position → Prop} {E : Stop → Prop}
  {outline : OrderedMap Handle (Option Handle)} {s : Store} {g : Handle}

theorem SteadyStore.get? (hs : SteadyStore B outline s)
    (hg : ∃ parent, outline.get? g = some parent) :
    ∃ scope, s.scopes.scopes.get? g = some scope := by
  obtain ⟨parent, hparent⟩ := hg
  rw [← hs.1] at hparent
  obtain ⟨scope, hscope, _⟩ := Arena.get?_of_outline hparent
  exact ⟨scope, hscope⟩

theorem SteadyStore.chain_whole (hs : SteadyStore B outline s)
    (hg : ∃ parent, outline.get? g = some parent) : (s.scopes.chain g).broken = none := by
  obtain ⟨parent, hparent⟩ := hg
  rw [← hs.1] at hparent
  exact Arena.chain_whole hs.2.valid hs.2.connected hparent

theorem SteadyStore.put (hs : SteadyStore B outline s) {old new : Scope Value Function}
    (hold : s.scopes.scopes.get? g = some old) (hparent : new.parent = old.parent)
    (hw : WellScoped B (s.scopes.put g new)) :
    SteadyStore B outline { s with scopes := s.scopes.put g new } :=
  ⟨(Arena.put_outline hold hparent).trans hs.1, hw⟩

theorem steady_lookupFunction (hs : SteadyStore B outline s)
    {name : String} {f : Function} (hf : s.scopes.lookupFunction g name = .ok f) :
    (steady B Q E).Functions outline f f := by
  obtain ⟨k, scope, -, hscope, hget⟩ := Arena.get?_of_lookupFunction hf
  cases f with
  | builtin b => exact .builtin b
  | user f =>
      obtain ⟨hclosure, hbody⟩ := hs.2.functions hscope hget
      have live := Arena.outline_of_get? hscope
      rw [hs.1, ← hclosure] at live
      exact .user ⟨rfl, hbody⟩ ⟨rfl, _, live⟩

theorem SteadyStore.grown (hs : SteadyStore B outline s)
    (hg : ∃ parent, outline.get? g = some parent) :
    SteadyStore B (outline.set s.scopes.next (some g))
      { s with scopes := s.scopes.grown g } := by
  obtain ⟨parent, hparent⟩ := hg
  rw [← hs.1] at hparent ⊢
  exact ⟨Arena.grown_outline s.scopes g, hs.2.grown hparent⟩

theorem SteadyStore.leave {t : Store} (hs : SteadyStore B outline s)
    (ht : SteadyStore B (outline.set s.scopes.next (some g)) t) :
    Arena.discard s.scopes.next t.scopes = (.ok (), t.scopes.without s.scopes.next) ∧
      SteadyStore B outline { t with scopes := t.scopes.without s.scopes.next } := by
  have hne := hs.2.valid.next_ne_root
  have live : t.scopes.outline.get? s.scopes.next = some (some g) := by
    rw [ht.1, OrderedMap.get?_set_self]
  -- The handle was fresh when the scope was made, so nothing older is erased with it.
  have hout : (t.scopes.without s.scopes.next).outline = s.scopes.outline := by
    rw [Arena.without_outline, ht.1, hs.1]
    exact OrderedMap.erase_set_of_get?_none _ (hs.1 ▸ hs.2.valid.next_fresh)
  exact ⟨Arena.discard_of_live live hne, hout.trans hs.1, ht.2.without hs.2.connected hne hout⟩

end

/-- Nothing that a program does with scopes unsettles a steady store. -/
def Simulation.steady (B : Node → Prop) (Q : Option Position → Prop) (E : Stop → Prop)
    (hE : ∀ {v}, ¬ E (.returned v)) : Simulation where
  toCorrespondence := Scriptlet.steady B Q E
  left stores := stores.2
  not_givesUp_returned := hE
  closure := id
  write := by
    rintro w s _ ⟨rfl, hs⟩ text
    exact ⟨rfl, hs⟩
  lookup := by
    rintro w s _ g _ ⟨rfl, hs⟩ ⟨rfl, hg⟩ name
    cases s.scopes.lookup g name with
    | ok v => exact .inl ⟨v, rfl, rfl⟩
    | error e => exact .inr ⟨e, e, rfl, rfl⟩
  lookupFunction := by
    rintro w s _ g _ ⟨rfl, hs⟩ ⟨rfl, hg⟩ name
    cases hf : s.scopes.lookupFunction g name with
    | ok f => exact .inl ⟨f, f, rfl, rfl, steady_lookupFunction hs hf⟩
    | error e => exact .inr ⟨e, e, rfl, rfl⟩
  assign := by
    rintro w s _ g _ ⟨rfl, hs⟩ ⟨rfl, hg⟩ name value
    obtain ⟨scope, hscope⟩ := hs.get? hg
    exact .inl ⟨_, _, _, _, Arena.assign_of_get? hscope name value,
      Arena.assign_of_get? hscope name value, rfl, hs.put hscope rfl (hs.2.put_vars hscope _)⟩
  assignOuter := by
    rintro w s _ g _ - ⟨rfl, hs⟩ ⟨rfl, hg⟩ name value
    rcases Arena.assignOuter_of_whole (hs.chain_whole hg) name value with
      h | ⟨k, scope, -, hscope, -, h⟩
    · exact .inl ⟨_, _, _, _, h, h, rfl, hs⟩
    · exact .inl ⟨_, _, _, _, h, h, rfl, hs.put hscope rfl (hs.2.put_vars hscope _)⟩
  declare := by
    rintro w s _ g _ x _ ⟨rfl, hs⟩ ⟨rfl, hg⟩ ⟨rfl, hx⟩ name params
    obtain ⟨scope, hscope⟩ := hs.get? hg
    exact .inl ⟨_, _, _, _, Arena.declare_of_get? hscope name _,
      Arena.declare_of_get? hscope name _, rfl,
      hs.put hscope rfl (hs.2.put_function hscope hx name params)⟩
  enter := by
    rintro w s _ g _ ⟨rfl, hs⟩ ⟨rfl, hg⟩
    have hgrown := hs.grown hg
    have hext : Arena.extend g s.scopes = (.ok s.scopes.next, s.scopes.grown g) := by
      obtain ⟨parent, hparent⟩ := hg
      exact Arena.extend_of_live (hs.1 ▸ hparent)
    refine .inl ⟨w.set s.scopes.next (some g), _, _, _, _, hext, hext,
      ⟨rfl, _, OrderedMap.get?_set_self _ _ _⟩, ⟨rfl, hgrown⟩, ?_, ?_⟩
    · rintro t _ ⟨rfl, ht⟩
      obtain ⟨hdiscard, hleft⟩ := hs.leave ht
      exact ⟨_, _, _, _, hdiscard, hdiscard, rfl, hleft⟩
    · intro t ht
      obtain ⟨hdiscard, hleft⟩ := hs.leave ht
      exact ⟨_, hdiscard, hleft⟩

theorem Hereditary.alike {B : Node → Prop} {Q : Option Position → Prop} {E : Stop → Prop}
    (hB : Hereditary B Q) {n n' : Node} (trees : (steady B Q E).Trees n n') :
    (steady B Q E).Alike n n' := by
  obtain ⟨rfl, hn⟩ := trees
  refine .refl ?_ ?_ (fun _ _ _ _ => trivial) ?_
  · exact fun child hchild => ⟨rfl, hB.children hn hchild⟩
  · exact fun p hp => ⟨rfl, hB.places hn hp⟩
  · rintro rfl
    exact ⟨rfl, hn⟩

theorem hereditary_true : Hereditary (fun _ => True) fun _ => True :=
  ⟨fun _ _ => trivial, fun _ _ => trivial⟩

theorem Correspondence.Ends.steady {B : Node → Prop} {Q : Option Position → Prop}
    {E : Stop → Prop} {α β : Type} {R : α → β → Prop}
    {outline : OrderedMap Handle (Option Handle)} {x : Outcome α × Store} {y : Outcome β × Store}
    (ends : (steady B Q E).Ends outline R x y) : SteadyStore B outline x.2 := by
  cases ends with
  | done _ stores => exact stores.2
  | stopped _ stores => exact stores.2
  | gaveUp _ left => exact left

/-- However an evaluation ends, the scopes are disciplined again and have the same outline. -/
theorem steadyStore_nested {B : Node → Prop} {Q : Option Position → Prop} (hB : Hereditary B Q)
    (mode : Mode) (depth : Nat) {n : Node} (hn : B n) {h : Handle} {parent : Option Handle}
    {s : Store} (hs : WellScoped B s.scopes) (live : s.scopes.outline.get? h = some parent) :
    SteadyStore B s.scopes.outline (nested mode depth n h s).2 := by
  let S := Simulation.steady B Q (fun _ => False) id
  have visits : S.Visits (nested mode depth) (nested mode depth) :=
    S.visits_nested (fun trees => hB.alike trees) mode depth
  have ends := visits (w := s.scopes.outline) (g := h) (h := h) ⟨rfl, hn⟩ ⟨rfl, parent, live⟩ s s
    ⟨rfl, rfl, hs⟩
  exact ends.steady

/-! ## Environments of programs -/

/-- The scopes that a program can meet: those at the start, those after any tree was evaluated in a
live scope, and those inside a block or a call that has been entered. -/
inductive Reached : Scopes → Prop where
  | start : Reached (.ofFunctions builtinFunctions)
  | evaluated {a : Scopes} (before : Reached a) (mode : Mode) (depth : Nat) (tree : Node)
      {h : Handle} (live : a.contains h = true) (output : String) :
      Reached (nested mode depth tree h ⟨a, output⟩).2.scopes
  | entered {a b : Scopes} (before : Reached a) {h child : Handle}
      (extended : Arena.extend h a = (.ok child, b)) : Reached b
  | bound {a b : Scopes} (before : Reached a) {h : Handle} {name : String} {value : Value}
      (assigned : Arena.assign h name value a = (.ok (), b)) : Reached b

theorem Reached.wellScoped {a : Scopes} (ha : Reached a) : WellScoped (fun _ => True) a := by
  induction ha with
  | start => exact WellScoped.builtins
  | @evaluated a before mode depth tree h live output ih =>
      obtain ⟨parent, hparent⟩ := Arena.contains_iff.mp live
      exact (steadyStore_nested hereditary_true mode depth trivial (s := ⟨a, output⟩) ih hparent).2
  | @entered a b before h child extended ih =>
      -- A scope that is not live cannot be extended.
      cases live : a.contains h with
      | true =>
          obtain ⟨parent, hparent⟩ := Arena.contains_iff.mp live
          rw [Arena.extend_of_live hparent] at extended
          cases extended
          exact ih.grown hparent
      | false =>
          rw [Arena.extend_of_dead live] at extended
          cases extended
  | @bound a b before h name value assigned ih =>
      cases hs : a.scopes.get? h with
      | none =>
          rw [Arena.assign_of_dead hs] at assigned
          cases assigned
      | some scope =>
          rw [Arena.assign_of_get? hs] at assigned
          cases assigned
          exact ih.put_vars hs _

def startStore : Store := ⟨.ofFunctions builtinFunctions, ""⟩

def evaluateAll (mode : Mode) (trees : List Node) (s : Store) : Store :=
  trees.foldl (fun s tree => (evaluate mode tree Arena.rootHandle s).2) s

theorem evaluate_store (mode : Mode) (tree : Node) (h : Handle) (s : Store) :
    (evaluate mode tree h s).2 = (nested mode mode.depth tree h s).2 := by
  unfold evaluate
  split <;> simp_all

theorem steadyStore_evaluateAll {B : Node → Prop} {Q : Option Position → Prop}
    (hB : Hereditary B Q) (mode : Mode) {trees : List Node} (ht : ∀ tree ∈ trees, B tree)
    {s : Store} (hs : WellScoped B s.scopes) :
    SteadyStore B s.scopes.outline (evaluateAll mode trees s) := by
  induction trees generalizing s with
  | nil => exact ⟨rfl, hs⟩
  | cons tree rest ih =>
      have first := steadyStore_nested hB mode mode.depth (ht tree List.mem_cons_self) hs
        hs.valid.rooted
      rw [← evaluate_store] at first
      have last := ih (fun tree h => ht tree (List.mem_cons_of_mem _ h)) first.2
      rwa [first.1] at last

theorem outline_keys {α φ : Type} (a : Arena α φ) : a.outline.keys = a.handles := by
  simp [Arena.outline, Arena.handles, OrderedMap.keys, OrderedMap.mapValues]

/-- No scope is left over and none is lost: an evaluation in a live scope ends with the live
handles and the parents it began with, and between programs only the root is live. -/
theorem evaluation_restores_scopes :
    (∀ (mode : Mode) (depth : Nat) (tree : Node) (a : Scopes) (h : Handle) (output : String),
      Reached a → a.contains h = true →
        (nested mode depth tree h ⟨a, output⟩).2.scopes.outline = a.outline) ∧
      ∀ (mode : Mode) (trees : List Node),
        (evaluateAll mode trees startStore).scopes.handles = [Arena.rootHandle] := by
  constructor
  · intro mode depth tree a h output reached live
    obtain ⟨parent, hparent⟩ := Arena.contains_iff.mp live
    exact (steadyStore_nested hereditary_true mode depth trivial (s := ⟨a, output⟩)
      reached.wellScoped hparent).1
  · intro mode trees
    have steady : SteadyStore _ startStore.scopes.outline (evaluateAll mode trees startStore) :=
      steadyStore_evaluateAll hereditary_true mode (fun _ _ => trivial) WellScoped.builtins
    rw [← outline_keys, steady.1]
    rfl

/-- A function that returns from inside a block, called in the root scope. -/
theorem evaluation_restores_scopes_after_return :
    let tree : Node :=
      .block [.function "f" ["x"] (.block [.ret (.reference "x" none) none] none) none,
        .ret (.call "f" [.nil none] none) none] none
    Reached startStore.scopes ∧ startStore.scopes.contains Arena.rootHandle = true ∧
      (nested {} 9 tree Arena.rootHandle startStore).2.scopes.outline =
        startStore.scopes.outline := by
  refine ⟨.start, by decide, ?_⟩
  exact evaluation_restores_scopes.1 {} 9 _ _ _ _ .start (by decide)

end Scriptlet
