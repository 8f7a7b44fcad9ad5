import Scriptlet.Proofs.Evaluation.ScopeDiscipline

/-!
# What evaluation may write

Evaluation in a scope binds variables and functions in that scope and in scopes of its own. Every
other scope keeps its functions and the names of its variables. The values of variables change only
in scopes in sight, and only where a tree assigns to an outer variable.
-/

namespace Scriptlet

open Eval

/-! ## Frames -/

/-- The scope binds the same names as before, and its functions to the same functions. -/
structure KeepsNames (x y : Scope Value Function) : Prop where
  names : y.vars.keys = x.vars.keys
  functions : y.functions = x.functions

namespace KeepsNames

variable {x y z : Scope Value Function}

protected theorem refl (x : Scope Value Function) : KeepsNames x x := ⟨rfl, rfl⟩

protected theorem trans (hxy : KeepsNames x y) (hyz : KeepsNames y z) : KeepsNames x z :=
  ⟨hyz.names.trans hxy.names, hyz.functions.trans hxy.functions⟩

theorem set_var {name : String} (hbound : x.vars.contains name = true) (value : Value) :
    KeepsNames x { x with vars := x.vars.set name value } :=
  ⟨x.vars.keys_set_of_mem value (OrderedMap.mem_keys_of_contains hbound), rfl⟩

end KeepsNames

/-- The scopes of `a` that are not exempt keep their names in `b`, and all that is not touched stays
as it is. -/
def Framed (exempt touched : Handle → Prop) (a b : Scopes) : Prop :=
  ∀ g x, ¬ exempt g → a.scopes.get? g = some x →
    ∃ y, b.scopes.get? g = some y ∧ KeepsNames x y ∧ (¬ touched g → y = x)

namespace Framed

variable {exempt touched : Handle → Prop} {a b c : Scopes}

protected theorem refl (a : Scopes) : Framed exempt touched a a :=
  fun _ x _ hx => ⟨x, hx, .refl x, fun _ => rfl⟩

protected theorem trans (hab : Framed exempt touched a b) (hbc : Framed exempt touched b c) :
    Framed exempt touched a c := by
  intro g x hg hx
  obtain ⟨y, hy, hxy, hsame⟩ := hab g x hg hx
  obtain ⟨z, hz, hyz, hsame'⟩ := hbc g y hg hy
  exact ⟨z, hz, hxy.trans hyz, fun h => (hsame' h).trans (hsame h)⟩

/-- An exempt scope may become anything, and a touched one may get new values for its names. -/
theorem put {g : Handle} {old new : Scope Value Function} (hold : a.scopes.get? g = some old)
    (hnew : exempt g ∨ touched g ∧ KeepsNames old new) :
    Framed exempt touched a (a.put g new) := by
  intro h x hh hx
  rw [Arena.put_get?]
  by_cases he : h = g
  · subst he
    rw [hold] at hx
    cases hx
    rcases hnew with hexempt | ⟨htouched, hkeeps⟩
    · exact absurd hexempt hh
    · exact ⟨new, if_pos rfl, hkeeps, fun h => absurd htouched h⟩
  · exact ⟨x, by rw [if_neg he, hx], .refl x, fun _ => rfl⟩

end Framed

/-! ## The site of an evaluation -/

/-- An evaluation that began with the scopes `base`, in the scope `home` or in a child of it. -/
structure Site where
  base : Scopes
  home : Handle
  /-- Whether `home` itself is written to. -/
  inside : Prop

namespace Site

def Exempt (w : Site) (g : Handle) : Prop := w.inside ∧ g = w.home

/-- The scopes in which outer variables may change. -/
def Touched (outward : Prop) (w : Site) (g : Handle) : Prop := outward ∧ g ∈ w.base.sight w.home

end Site

/-- Stores that an evaluation at the site passes through. -/
structure SiteStore (B : Node → Prop) (outward : Prop) (w : Site) (s : Store) : Prop where
  steady : SteadyStore B w.base.outline s
  framed : Framed w.Exempt (w.Touched outward) w.base s.scopes

/-- A run beside itself, at a site. Functions in sight close over scopes in sight. -/
def sited (B : Node → Prop) (outward : Prop) : Correspondence where
  World := Site
  Stores w s t := s = t ∧ SiteStore B outward w s
  Left := SiteStore B outward
  Handles w g h := g = h ∧ w.Exempt g ∧ ∃ parent, w.base.outline.get? g = some parent
  Closures w g h := g = h ∧ g ∈ w.base.sight w.home
  Trees n n' := n = n' ∧ B n
  Places := Eq
  Outward := outward
  GivesUp _ := False

section

variable {B : Node → Prop} {outward : Prop} {w : Site} {s : Store} {g : Handle}

theorem SiteStore.put (hs : SiteStore B outward w s) {old new : Scope Value Function}
    (hold : s.scopes.scopes.get? g = some old) (hparent : new.parent = old.parent)
    (hw : WellScoped B (s.scopes.put g new))
    (hnew : w.Exempt g ∨ w.Touched outward g ∧ KeepsNames old new) :
    SiteStore B outward w { s with scopes := s.scopes.put g new } :=
  ⟨hs.steady.put hold hparent hw, hs.framed.trans (Framed.put hold hnew)⟩

theorem SiteStore.sight (hs : SiteStore B outward w s) (h : Handle) :
    s.scopes.sight h = w.base.sight h :=
  Arena.sight_of_outline hs.steady.1 h

theorem sited_lookupFunction (hs : SiteStore B outward w s) {name : String} {f : Function}
    (hf : s.scopes.lookupFunction w.home name = .ok f) : (sited B outward).Functions w f f := by
  obtain ⟨k, scope, hk, hscope, hget⟩ := Arena.get?_of_lookupFunction hf
  cases f with
  | builtin b => exact .builtin b
  | user f =>
      obtain ⟨hclosure, hbody⟩ := hs.steady.2.functions hscope hget
      rw [hs.sight, ← hclosure] at hk
      exact .user ⟨rfl, hbody⟩ ⟨rfl, hk⟩

def Store.siteBelow (s : Store) (k : Handle) : Site := ⟨s.scopes.grown k, s.scopes.next, True⟩

theorem SiteStore.enter {k : Handle} (hs : SiteStore B outward w s)
    (hk : ∃ parent, w.base.outline.get? k = some parent) :
    SiteStore B outward (s.siteBelow k) { s with scopes := s.scopes.grown k } := by
  have hgrown := (hs.steady.grown hk).2
  exact ⟨⟨rfl, hgrown⟩, .refl _⟩

/-- What happened in a child of a scope in sight is a matter of the site, once the child is gone. -/
theorem SiteStore.leave {k : Handle} {t : Store} (hs : SiteStore B outward w s)
    (hk : k ∈ w.base.sight w.home) (ht : SiteStore B outward (s.siteBelow k) t) :
    Arena.discard s.scopes.next t.scopes = (.ok (), t.scopes.without s.scopes.next) ∧
      SiteStore B outward w { t with scopes := t.scopes.without s.scopes.next } := by
  have hvalid := hs.steady.2.valid
  have hinner : SteadyStore B (w.base.outline.set s.scopes.next (some k)) t := by
    have houtline := ht.steady.1
    rw [Store.siteBelow, Arena.grown_outline, hs.steady.1] at houtline
    exact ⟨houtline, ht.steady.2⟩
  obtain ⟨hdiscard, hsteady⟩ := hs.steady.leave hinner
  refine ⟨hdiscard, hsteady, ?_⟩
  intro g x hg hx
  obtain ⟨y, hy, hxy, hsame⟩ := hs.framed g x hg hx
  have hne : g ≠ s.scopes.next := by
    intro h
    have hfresh := hvalid.next_fresh
    rw [← h, Arena.outline_of_get? hy] at hfresh
    cases hfresh
  have hgrown : (s.scopes.grown k).scopes.get? g = some y := by
    rw [Arena.grown_get?, if_neg hne, hy]
  obtain ⟨z, hz, hyz, hsame'⟩ := ht.framed g y (fun h => hne h.2) hgrown
  refine ⟨z, by rw [Arena.without_get?, if_neg hne, hz], hxy.trans hyz, ?_⟩
  intro huntouched
  -- Whatever older scope the child sees was in sight of the site before.
  have huntouched' : ¬ (s.siteBelow k).Touched outward g := by
    rintro ⟨hout, hsight⟩
    rw [← hs.sight] at hk
    obtain ⟨parent, hparent⟩ := Arena.live_of_mem_sight hk
    rw [Store.siteBelow, Arena.sight_grown hvalid hparent] at hsight
    rcases List.mem_cons.mp hsight with h | h
    · exact hne h
    · exact huntouched ⟨hout, hs.sight _ ▸ Arena.sight_subset hvalid hk h⟩
  exact (hsame' huntouched').trans (hsame huntouched)

end

/-- Nothing that a program does with scopes breaks the frame of its site. -/
def Simulation.sited (B : Node → Prop) (outward : Prop) : Simulation where
  toCorrespondence := Scriptlet.sited B outward
  left stores := stores.2
  not_givesUp_returned := id
  closure := by
    rintro w g _ ⟨rfl, ⟨hinside, rfl⟩, parent, hparent⟩
    exact ⟨rfl, Arena.mem_sight_self hparent⟩
  write := by
    rintro w s _ ⟨rfl, hs⟩ text
    exact ⟨rfl, ⟨hs.steady, hs.framed⟩⟩
  lookup := by
    rintro w s _ g _ ⟨rfl, hs⟩ ⟨rfl, hg⟩ name
    cases s.scopes.lookup g name with
    | ok v => exact .inl ⟨v, rfl, rfl⟩
    | error e => exact .inr ⟨e, e, rfl, rfl⟩
  lookupFunction := by
    rintro w s _ g _ ⟨rfl, hs⟩ ⟨rfl, ⟨hinside, rfl⟩, hg⟩ name
    cases hf : s.scopes.lookupFunction w.home name with
    | ok f => exact .inl ⟨f, f, rfl, rfl, sited_lookupFunction hs hf⟩
    | error e => exact .inr ⟨e, e, rfl, rfl⟩
  assign := by
    rintro w s _ g _ ⟨rfl, hs⟩ ⟨rfl, hg, live⟩ name value
    obtain ⟨scope, hscope⟩ := hs.steady.get? live
    exact .inl ⟨_, _, _, _, Arena.assign_of_get? hscope name value,
      Arena.assign_of_get? hscope name value, rfl,
      hs.put hscope rfl (hs.steady.2.put_vars hscope _) (.inl hg)⟩
  assignOuter := by
    rintro w s _ g _ hout ⟨rfl, hs⟩ ⟨rfl, ⟨hinside, rfl⟩, live⟩ name value
    rcases Arena.assignOuter_of_whole (hs.steady.chain_whole live) name value with
      h | ⟨k, scope, hk, hscope, hbound, h⟩
    · exact .inl ⟨_, _, _, _, h, h, rfl, hs⟩
    · rw [hs.sight] at hk
      exact .inl ⟨_, _, _, _, h, h, rfl, hs.put hscope rfl (hs.steady.2.put_vars hscope _)
        (.inr ⟨⟨hout, hk⟩, .set_var hbound value⟩)⟩
  declare := by
    rintro w s _ g _ x _ ⟨rfl, hs⟩ ⟨rfl, hg, live⟩ ⟨rfl, hx⟩ name params
    obtain ⟨scope, hscope⟩ := hs.steady.get? live
    exact .inl ⟨_, _, _, _, Arena.declare_of_get? hscope name _,
      Arena.declare_of_get? hscope name _, rfl,
      hs.put hscope rfl (hs.steady.2.put_function hscope hx name params) (.inl hg)⟩
  enter := by
    rintro w s _ k _ ⟨rfl, hs⟩ ⟨rfl, hk⟩
    have live := Arena.live_of_mem_sight hk
    have hext : Arena.extend k s.scopes = (.ok s.scopes.next, s.scopes.grown k) := by
      obtain ⟨parent, hparent⟩ := live
      exact Arena.extend_of_live (hs.steady.1 ▸ hparent)
    have hnew : (s.scopes.grown k).outline.get? s.scopes.next = some (some k) := by
      rw [Arena.grown_outline, OrderedMap.get?_set_self]
    refine .inl ⟨s.siteBelow k, _, _, _, _, hext, hext, ⟨rfl, ⟨trivial, rfl⟩, _, hnew⟩,
      ⟨rfl, hs.enter live⟩, ?_, ?_⟩
    · rintro t _ ⟨rfl, ht⟩
      obtain ⟨hdiscard, hleft⟩ := hs.leave hk ht
      exact ⟨_, _, _, _, hdiscard, hdiscard, rfl, hleft⟩
    · intro t ht
      obtain ⟨hdiscard, hleft⟩ := hs.leave hk ht
      exact ⟨_, hdiscard, hleft⟩

/-! ## Trees -/

inductive Node.Homebound : Node → Prop where
  | mk {n : Node} (here : ∀ name x p, n ≠ .assign name x true p)
      (children : ∀ child ∈ n.children, Homebound child) : Homebound n

/-- A property of trees that passes to the trees below, with no outer assignments unless
`outward`. -/
structure Bounded (B : Node → Prop) (outward : Prop) : Prop where
  children : ∀ {n child}, B n → child ∈ n.children → B child
  outward : ∀ {name x p}, B (.assign name x true p) → outward

theorem bounded_true : Bounded (fun _ => True) True := ⟨fun _ _ => trivial, fun _ => trivial⟩

theorem bounded_homebound : Bounded Node.Homebound False where
  children := by
    intro n child hn hchild
    cases hn with
    | mk here children => exact children child hchild
  outward := by
    intro name x p hn
    cases hn with
    | mk here children => exact here name x p rfl

section

variable {B : Node → Prop} {outward : Prop}

theorem Bounded.alike (hB : Bounded B outward) {n n' : Node}
    (trees : (sited B outward).Trees n n') : (sited B outward).Alike n n' := by
  obtain ⟨rfl, hn⟩ := trees
  refine .refl ?_ (fun _ _ => rfl) ?_ ?_
  · exact fun child hchild => ⟨rfl, hB.children hn hchild⟩
  · rintro name x p rfl
    exact hB.outward hn
  · rintro rfl
    exact ⟨rfl, hn⟩

theorem Bounded.visits (hB : Bounded B outward) (mode : Mode) (depth : Nat) :
    (Simulation.sited B outward).Visits (nested mode depth) (nested mode depth) :=
  (Simulation.sited B outward).visits_nested (fun trees => hB.alike trees) mode depth

theorem Correspondence.Ends.framed {α β : Type} {R : α → β → Prop} {w : Site}
    {x : Outcome α × Store} {y : Outcome β × Store} (ends : (sited B outward).Ends w R x y) :
    Framed w.Exempt (w.Touched outward) w.base x.2.scopes := by
  cases ends with
  | done _ stores => exact stores.2.framed
  | stopped _ stores => exact stores.2.framed
  | gaveUp excuse _ => exact excuse.elim

variable {a : Scopes} {h : Handle} {parent : Option Handle}

theorem WellScoped.siteStore (ha : WellScoped B a) (h : Handle) (inside : Prop)
    (output : String) : SiteStore B outward ⟨a, h, inside⟩ ⟨a, output⟩ :=
  ⟨⟨rfl, ha⟩, .refl a⟩

/-- Work in a child of a scope leaves that scope its names as well. -/
theorem framed_inChild {α : Type} {work : Handle → Eval α} (ha : WellScoped B a)
    (live : a.outline.get? h = some parent) (output : String)
    (coupled : ∀ {w child}, (sited B outward).Handles w child child →
      (sited B outward).Coupled w Eq (work child) (work child)) :
    Framed (fun _ => False) (fun g => outward ∧ g ∈ a.sight h) a
      (inChild h work ⟨a, output⟩).2.scopes := by
  have whole := (Simulation.sited B outward).coupled_inChild (w := ⟨a, h, False⟩) (R := Eq)
    (f := work) (k := work) ⟨rfl, Arena.mem_sight_self live⟩ fun handles => by
      obtain rfl := handles.1
      exact coupled handles
  have framed := (whole _ _ ⟨rfl, ha.siteStore h False output⟩).framed
  intro g x _ hx
  exact framed g x (fun exempt => exempt.1) hx

def Node.isBlock : Node → Bool
  | .block _ _ => true
  | _ => false

theorem framed_nested (hB : Bounded B outward) (mode : Mode) (depth : Nat) {n : Node} (hn : B n)
    (ha : WellScoped B a) (live : a.outline.get? h = some parent) (output : String) :
    Framed (fun g => n.isBlock = false ∧ g = h) (fun g => outward ∧ g ∈ a.sight h) a
      (nested mode depth n h ⟨a, output⟩).2.scopes := by
  cases hblock : n.isBlock with
  | false =>
      have ends := hB.visits mode depth (w := ⟨a, h, True⟩) ⟨rfl, hn⟩
        ⟨rfl, ⟨trivial, rfl⟩, parent, live⟩ _ _ ⟨rfl, ha.siteStore h True output⟩
      have framed := ends.framed
      intro g x hg hx
      exact framed g x (fun exempt => hg ⟨rfl, exempt.2⟩) hx
  | true =>
      cases n with
      | block statements p =>
          cases depth with
          | zero => exact .refl a
          | succ depth =>
              have trees : List.Forall₂ (sited B outward).Trees statements statements :=
                List.forall₂_same.mpr fun x hx => ⟨rfl, hB.children hn hx⟩
              have framed := framed_inChild ha live output fun handles =>
                Correspondence.Coupled.sequence (hB.visits mode depth) handles trees .nil
              intro g x _ hx
              exact framed g x id hx
      | _ => cases hblock

/-- A call touches what the function sees from the scope that declared it, not what the caller
sees. -/
theorem framed_applyFunction (hB : Bounded B outward) (mode : Mode) (depth : Nat)
    {f : UserFunction} (hbody : B f.body) (ha : WellScoped B a)
    (live : a.outline.get? f.closure = some parent) (args : List Value)
    (position : Option Position) (output : String) :
    Framed (fun _ => False) (fun g => outward ∧ g ∈ a.sight f.closure) a
      (applyFunction (nested mode depth) (.user f) args position ⟨a, output⟩).2.scopes := by
  unfold applyFunction
  by_cases hlen : args.length = f.params.length
  · simp only [if_pos hlen]
    refine framed_inChild ha live output fun handles => ?_
    exact Correspondence.Coupled.bind
      ((Simulation.sited B outward).coupled_bindAll handles f.params args) fun _ _ _ =>
        (Simulation.sited B outward).coupled_catchReturn
          (hB.visits mode depth ⟨rfl, hbody⟩ handles)
  · simp only [if_neg hlen]
    exact .refl a

end

def HomeboundFunctions (a : Scopes) : Prop :=
  ∀ {g scope name f}, a.scopes.get? g = some scope → scope.functions.get? name = some (.user f) →
    f.body.Homebound

/-- However an evaluation ends, every scope that was live before is live after it, with the
functions and the names of variables it had, unless it is the scope that the evaluation worked in.
The scope a block stands in and all scopes around a call are no exception. Only scopes on the chain
have other values, and only through assignments to outer variables. -/
theorem evaluation_writes_in_its_scope (a : Scopes) (reached : Reached a) (mode : Mode)
    (depth : Nat) (output : String) :
    (∀ tree h, a.contains h = true →
      Framed (fun g => tree.isBlock = false ∧ g = h) (· ∈ a.sight h) a
          (nested mode depth tree h ⟨a, output⟩).2.scopes ∧
        (tree.Homebound → HomeboundFunctions a →
          Framed (fun g => tree.isBlock = false ∧ g = h) (fun _ => False) a
            (nested mode depth tree h ⟨a, output⟩).2.scopes)) ∧
      ∀ (f : UserFunction) args position, a.contains f.closure = true →
        Framed (fun _ => False) (· ∈ a.sight f.closure) a
          (applyFunction (nested mode depth) (.user f) args position ⟨a, output⟩).2.scopes := by
  have ha := reached.wellScoped
  refine ⟨fun tree h hlive => ?_, fun f args position hlive => ?_⟩
  · obtain ⟨parent, live⟩ := Arena.contains_iff.mp hlive
    constructor
    · simpa only [true_and] using framed_nested bounded_true mode depth trivial ha live output
    · intro htree hfunctions
      have ha' : WellScoped Node.Homebound a :=
        ⟨ha.valid, ha.connected, fun hs hf => ⟨(ha.functions hs hf).1, hfunctions hs hf⟩⟩
      simpa only [false_and] using framed_nested bounded_homebound mode depth htree ha' live output
  · obtain ⟨parent, live⟩ := Arena.contains_iff.mp hlive
    simpa only [true_and] using
      framed_applyFunction bounded_true mode depth trivial ha live args position output

/-- A block with an assignment and a declaration, in a child of the root, and a call of a function
of the root that assigns to an outer variable. -/
theorem evaluation_writes_in_its_scope_below_root :
    let a := startStore.scopes.grown Arena.rootHandle
    let tree : Node :=
      .block [.assign "x" (.nil none) false none, .function "f" [] (.nil none) none] none
    let f : UserFunction := ⟨"f", [], .assign "x" (.nil none) true none, Arena.rootHandle⟩
    Reached a ∧ a.contains 1 = true ∧ tree.Homebound ∧ HomeboundFunctions a ∧
      Framed (fun _ => False) (fun _ => False) a (nested {} 9 tree 1 ⟨a, ""⟩).2.scopes ∧
      a.contains f.closure = true ∧
      Framed (fun _ => False) (· ∈ [Arena.rootHandle]) a
        (applyFunction (nested {} 9) (.user f) [] none ⟨a, ""⟩).2.scopes := by
  intro a tree f
  have extended : Arena.extend Arena.rootHandle startStore.scopes = (.ok 1, a) := rfl
  have reached : Reached a := .entered .start extended
  have leaf : Node.Homebound (.nil none) := ⟨by simp, by simp [Node.children]⟩
  have assigns : Node.Homebound (.assign "x" (.nil none) false none) :=
    ⟨by simp, by simpa [Node.children] using leaf⟩
  have declares : Node.Homebound (.function "f" [] (.nil none) none) :=
    ⟨by simp, by simpa [Node.children] using leaf⟩
  have htree : tree.Homebound :=
    ⟨by simp [tree], by simpa [tree, Node.children] using ⟨assigns, declares⟩⟩
  have hstart : WellScoped Node.Homebound startStore.scopes := WellScoped.builtins
  have hfunctions : HomeboundFunctions a := fun hs hf =>
    ((hstart.grown hstart.valid.rooted).functions hs hf).2
  have framed := evaluation_writes_in_its_scope a reached {} 9 ""
  refine ⟨reached, by decide, htree, hfunctions, ?_, by decide, framed.2 f [] none (by decide)⟩
  simpa [tree, Node.isBlock] using (framed.1 tree 1 (by decide)).2 htree hfunctions

end Scriptlet
