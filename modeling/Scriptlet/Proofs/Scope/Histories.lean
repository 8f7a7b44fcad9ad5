import Scriptlet.Proofs.Scope.Outline

/-!
# Histories of an arena

An arena can be asked for anything, with handles that are live, that were given up or that were
never given out. Scopes may be given up in any order, parents before their children too, so chains
can break. Still parents have smaller handles than their children through every history, and no
handle is given out twice. So the walk from a scope to its parents always comes to an end.
-/

namespace Scriptlet.Arena

variable {α φ : Type}

/-! ## Requests -/

inductive Request (α φ : Type) where
  | extend (parent : Handle)
  | discard (h : Handle)
  | assign (h : Handle) (name : String) (value : α)
  | assignOuter (h : Handle) (name : String) (value : α)
  | declare (h : Handle) (name : String) (function : φ)
  | lookup (h : Handle) (name : String)
  | lookupFunction (h : Handle) (name : String)

inductive Answer (α φ : Type) where
  | done
  | handle (h : Handle)
  | found (bound : Bool)
  | value (value : α)
  | function (function : φ)

def Answer.handle? : Answer α φ → Option Handle
  | .handle h => some h
  | _ => none

def perform : Request α φ → Action α φ (Answer α φ)
  | .extend parent => do return .handle (← extend parent)
  | .discard h => do
      discard h
      return .done
  | .assign h name value => do
      assign h name value
      return .done
  | .assignOuter h name value => do return .found (← assignOuter h name value)
  | .declare h name function => do
      declare h name function
      return .done
  | .lookup h name => fun a => ((a.lookup h name).map .value, a)
  | .lookupFunction h name => fun a => ((a.lookupFunction h name).map .function, a)

def performAll (a : Arena α φ) :
    List (Request α φ) → List (Except Fault (Answer α φ)) × Arena α φ
  | [] => ([], a)
  | request :: rest =>
      let first := perform request a
      let later := first.2.performAll rest
      (first.1 :: later.1, later.2)

def given? : Except Fault (Answer α φ) → Option Handle
  | .ok answer => answer.handle?
  | .error _ => none

/-- What a request can do: make a scope at the next handle, remove a scope other than the root,
leave handles and parents as they are, or fail and leave everything as it is. -/
inductive Does (a : Arena α φ) : Except Fault (Answer α φ) × Arena α φ → Prop where
  | grows {parent : Handle} {outer : Option Handle} (live : a.outline.get? parent = some outer) :
      Does a (.ok (.handle a.next), a.grown parent)
  | loses {h : Handle} (notRoot : h ≠ rootHandle) : Does a (.ok .done, a.without h)
  | keeps {answer : Answer α φ} {b : Arena α φ} (outline : b.outline = a.outline)
      (next : b.next = a.next) (none : answer.handle? = none) : Does a (.ok answer, b)
  | fails (fault : Fault) : Does a (.error fault, a)

section

variable (a : Arena α φ) (h : Handle) (name : String)

theorem does_extend : Does a (perform (.extend h) a) := by
  cases live : a.contains h with
  | true =>
      obtain ⟨outer, houter⟩ := contains_iff.mp live
      rw [perform, Action.bind_of_ok (extend_of_live houter)]
      exact .grows houter
  | false =>
      rw [perform, Action.bind_of_error (extend_of_dead live)]
      exact .fails _

theorem does_discard : Does a (perform (.discard h) a) := by
  by_cases root : h = rootHandle
  · subst root
    exact .keeps rfl rfl rfl
  · cases hs : a.scopes.get? h with
    | none =>
        rw [perform, Action.bind_of_error (discard_of_dead hs root)]
        exact .fails _
    | some scope =>
        rw [perform, Action.bind_of_ok (discard_of_live (outline_of_get? hs) root)]
        exact .loses root

/-- Whatever is written into a live scope, its parent stays. -/
theorem does_put {a : Arena α φ} {h : Handle} {scope : Scope α φ}
    (hs : a.scopes.get? h = some scope) {vars : OrderedMap String α}
    {functions : OrderedMap String φ} (answer : Answer α φ) (none : answer.handle? = none) :
    Does a (.ok answer, a.put h ⟨scope.parent, vars, functions⟩) :=
  .keeps (put_outline hs rfl) rfl none

theorem does_assign (value : α) : Does a (perform (.assign h name value) a) := by
  cases hs : a.scopes.get? h with
  | none =>
      rw [perform, Action.bind_of_error (assign_of_dead hs name value)]
      exact .fails _
  | some scope =>
      rw [perform, Action.bind_of_ok (assign_of_get? hs name value)]
      exact does_put hs .done rfl

theorem does_declare (function : φ) : Does a (perform (.declare h name function) a) := by
  cases hs : a.scopes.get? h with
  | none =>
      rw [perform, Action.bind_of_error (declare_of_dead hs name function)]
      exact .fails _
  | some scope =>
      rw [perform, Action.bind_of_ok (declare_of_get? hs name function)]
      exact does_put hs .done rfl

theorem does_assignOuter (value : α) : Does a (perform (.assignOuter h name value) a) := by
  have outcome := assignOuter_eq h name value a
  split at outcome
  · next g scope hfind =>
      have live := get?_of_mem_links (List.mem_of_find?_eq_some hfind)
      rw [perform, Action.bind_of_ok outcome]
      exact does_put live (.found true) rfl
  · split at outcome
    · rw [perform, Action.bind_of_error outcome]
      exact .fails _
    · rw [perform, Action.bind_of_ok outcome]
      exact .keeps rfl rfl rfl

theorem does_ask {β : Type} (x : Except Fault β) {f : β → Answer α φ}
    (none : ∀ b, (f b).handle? = none) : Does a (x.map f, a) := by
  cases x with
  | error fault => exact .fails fault
  | ok b => exact .keeps rfl rfl (none b)

theorem does_perform (request : Request α φ) : Does a (perform request a) := by
  cases request with
  | extend parent => exact does_extend a parent
  | discard h => exact does_discard a h
  | assign h name value => exact does_assign a h name value
  | assignOuter h name value => exact does_assignOuter a h name value
  | declare h name function => exact does_declare a h name function
  | lookup h name => exact does_ask a _ fun _ => rfl
  | lookupFunction h name => exact does_ask a _ fun _ => rfl

theorem perform_of_error {a : Arena α φ} {request : Request α φ} {fault : Fault}
    (failed : (perform request a).1 = .error fault) : (perform request a).2 = a := by
  have does := does_perform a request
  generalize perform request a = result at does failed
  cases does with
  | grows | loses | keeps => cases failed
  | fails => rfl

end

/-! ## Order -/

/-- The arena is valid, only the root has no parent, and every handle it knows of is among those
given out so far, which came in ascending order. -/
structure Ordered (issued : List Handle) (a : Arena α φ) : Prop where
  valid : a.Valid
  topmost : ∀ {g}, a.outline.get? g = some none → g = rootHandle
  known : ∀ {g parent}, a.outline.get? g = some parent → g ∈ issued ∧ ∀ p ∈ parent, p ∈ issued
  past : ∀ {g : Int}, g ∈ issued → g < a.next
  ascending : issued.Pairwise (· < ·)

namespace Ordered

variable {issued : List Handle} {a b : Arena α φ}

theorem start (functions : List (String × φ)) :
    Ordered [rootHandle] (ofFunctions functions : Arena α φ) := by
  have hget : ∀ {g parent}, (ofFunctions functions : Arena α φ).outline.get? g = some parent →
      g = rootHandle ∧ parent = none := by
    intro g parent hg
    rw [outline_get?, ofFunctions, OrderedMap.get?_singleton] at hg
    split at hg
    · next hroot => exact ⟨hroot.symm, (Option.some.inj hg).symm⟩
    · cases hg
  refine ⟨valid_ofFunctions functions, fun hg => (hget hg).1, ?_, ?_, List.pairwise_singleton _ _⟩
  · intro g parent hg
    obtain ⟨rfl, rfl⟩ := hget hg
    refine ⟨List.mem_cons_self, ?_⟩
    intro p hp
    cases hp
  · intro g hg
    rw [List.mem_singleton.mp hg]
    exact (by decide : (0 : Int) < 0 + 1)

theorem grown (order : Ordered issued a) {parent : Handle} {outer : Option Handle}
    (live : a.outline.get? parent = some outer) :
    Ordered (issued ++ [a.next]) (a.grown parent) := by
  have hget : ∀ g, (a.grown parent).outline.get? g =
      if g = a.next then some (some parent) else a.outline.get? g := by
    intro g
    rw [grown_outline, OrderedMap.get?_set]
  refine ⟨order.valid.grown live, ?_, ?_, ?_, ?_⟩
  · intro g hg
    rw [hget] at hg
    split at hg
    · cases hg
    · exact order.topmost hg
  · intro g p hg
    rw [hget] at hg
    split at hg
    · next hnew =>
        cases hg
        have hparent := List.mem_append_left [a.next] (order.known live).1
        exact ⟨by simp [hnew], fun q hq => Option.mem_some.mp hq ▸ hparent⟩
    · obtain ⟨hissued, hparents⟩ := order.known hg
      exact ⟨List.mem_append_left _ hissued, fun q hq => List.mem_append_left _ (hparents q hq)⟩
  · intro g hg
    show g < (a.next + 1 : Int)
    rcases List.mem_append.mp hg with hg | hg
    · have := order.past hg
      omega
    · have := List.mem_singleton.mp hg
      omega
  · rw [List.pairwise_append]
    refine ⟨order.ascending, List.pairwise_singleton _ _, fun g hg k hk => ?_⟩
    rw [List.mem_singleton.mp hk]
    exact order.past hg

theorem without (order : Ordered issued a) {h : Handle} (notRoot : h ≠ rootHandle) :
    Ordered issued (a.without h) := by
  have hget : ∀ {g parent}, (a.without h).outline.get? g = some parent →
      a.outline.get? g = some parent := by
    intro g parent hg
    rw [without_outline, OrderedMap.get?_erase] at hg
    split at hg
    · cases hg
    · exact hg
  exact ⟨order.valid.without notRoot, fun hg => order.topmost (hget hg),
    fun hg => order.known (hget hg), order.past, order.ascending⟩

theorem of_outline (order : Ordered issued a) (outline : b.outline = a.outline)
    (next : b.next = a.next) : Ordered issued b := by
  refine ⟨order.valid.of_outline outline next, ?_, ?_, ?_, order.ascending⟩
  · rw [outline]
    exact order.topmost
  · rw [outline]
    exact order.known
  · rw [next]
    exact order.past

theorem does (order : Ordered issued a) {result : Except Fault (Answer α φ) × Arena α φ}
    (does : Does a result) : Ordered (issued ++ (given? result.1).toList) result.2 := by
  cases does with
  | grows live => exact order.grown live
  | loses notRoot => simpa [given?, Answer.handle?] using order.without notRoot
  | keeps outline next none =>
      rw [given?, none, Option.toList_none, List.append_nil]
      exact order.of_outline outline next
  | fails fault => simpa [given?] using order

theorem perform (order : Ordered issued a) (request : Request α φ) :
    Ordered (issued ++ (given? (perform request a).1).toList) (perform request a).2 :=
  order.does (does_perform a request)

/-- Order lasts through any requests, with the handles that they bring added. -/
theorem performAll (order : Ordered issued a) (requests : List (Request α φ)) :
    Ordered (issued ++ (a.performAll requests).1.filterMap given?) (a.performAll requests).2 := by
  induction requests generalizing issued a with
  | nil => simpa [Arena.performAll] using order
  | cons request rest ih =>
      have later := ih (order.perform request)
      rw [List.append_assoc] at later
      have hgiven : (a.performAll (request :: rest)).1.filterMap given? =
          (given? (Arena.perform request a).1).toList ++
            ((Arena.perform request a).2.performAll rest).1.filterMap given? := by
        simp only [Arena.performAll, List.filterMap_cons]
        cases given? (Arena.perform request a).1 <;> rfl
      rw [hgiven]
      exact later

end Ordered

/-! ## Walks -/

/-- The walk from a handle to its parents passes the given scopes and then ends: it has passed a
scope without a parent, or it has met a handle that no scope has. -/
inductive Walks (a : Arena α φ) : Handle → List (Handle × Scope α φ) → Option Handle → Prop where
  | missing {h : Handle} (dead : a.scopes.get? h = none) : Walks a h [] (some h)
  | top {h : Handle} {scope : Scope α φ} (live : a.scopes.get? h = some scope)
      (alone : scope.parent = none) : Walks a h [(h, scope)] none
  | outward {h p : Handle} {scope : Scope α φ} {links : List (Handle × Scope α φ)}
      {broken : Option Handle} (live : a.scopes.get? h = some scope)
      (parent : scope.parent = some p) (more : Walks a p links broken) :
      Walks a h ((h, scope) :: links) broken

/-- The chain of a handle is the whole walk from it. -/
theorem Valid.walks {a : Arena α φ} (hv : a.Valid) (h : Handle) :
    a.Walks h (a.chain h).links (a.chain h).broken := by
  induction hn : h.toNat using Nat.strongRecOn generalizing h with
  | ind n ih =>
      cases hs : a.scopes.get? h with
      | none =>
          have hchain : a.chain h = ⟨[], some h⟩ := by simp [chain, chainFrom, hs]
          rw [hchain]
          exact .missing hs
      | some scope =>
          cases hp : scope.parent with
          | none =>
              rw [chain_of_top hs hp]
              exact .top hs hp
          | some p =>
              have hd := hv.descending (g := h) (p := p) (by rw [outline_of_get? hs, hp])
              rw [chain_of_child hv hs hp]
              exact .outward hs hp (ih p.toNat (by omega) p rfl)

section

variable {issued : List Handle} {a : Arena α φ} {h : Handle} {links : List (Handle × Scope α φ)}
  {broken : Option Handle}

theorem Walks.le (walk : a.Walks h links broken) (hv : a.Valid) :
    ∀ g ∈ links.map (·.1), (g : Int) ≤ h := by
  induction walk with
  | missing dead => exact fun _ hg => nomatch hg
  | @top h scope live alone => simp
  | @outward h p scope links broken live parent more ih =>
      have hd := hv.descending (g := h) (p := p) (by rw [outline_of_get? live, parent])
      rw [List.map_cons, List.forall_mem_cons]
      exact ⟨Int.le_refl h, fun g hg => Int.le_trans (ih g hg) (Int.le_of_lt hd.2)⟩

theorem Walks.descends (walk : a.Walks h links broken) (hv : a.Valid) :
    (links.map (·.1)).Pairwise (· > ·) := by
  induction walk with
  | missing dead => exact .nil
  | @top h scope live alone => exact List.pairwise_singleton _ _
  | @outward h p scope links broken live parent more ih =>
      have hd := hv.descending (g := h) (p := p) (by rw [outline_of_get? live, parent])
      rw [List.map_cons, List.pairwise_cons]
      exact ⟨fun g hg => Int.lt_of_le_of_lt (more.le hv g hg) hd.2, ih⟩

/-- A walk that does not break ends at the root. -/
theorem Walks.getLast? (walk : a.Walks h links none) (order : Ordered issued a) :
    (links.map (·.1)).getLast? = some rootHandle := by
  generalize hbroken : (none : Option Handle) = broken at walk
  induction walk with
  | missing dead => cases hbroken
  | @top h scope live alone =>
      have hroot : h = rootHandle := order.topmost (by rw [outline_of_get? live, alone])
      simp [hroot]
  | outward live parent more ih =>
      rw [List.map_cons, List.getLast?_cons, ih hbroken]
      rfl

/-- A walk that breaks does so at a handle without a scope, which was given out unless the walk
began there. -/
theorem Walks.dead {g : Handle} (walk : a.Walks h links (some g)) (order : Ordered issued a) :
    a.contains g = false ∧ (g = h ∨ g ∈ issued) := by
  generalize hbroken : some g = broken at walk
  induction walk with
  | missing dead =>
      cases hbroken
      exact ⟨by simp [contains, OrderedMap.contains, dead], .inl rfl⟩
  | top live alone => cases hbroken
  | @outward h p scope links broken live parent more ih =>
      obtain ⟨hdead, hwhere⟩ := ih hbroken
      refine ⟨hdead, .inr ?_⟩
      rcases hwhere with rfl | hissued
      · exact (order.known (outline_of_get? live)).2 g parent
      · exact hissued

end

/-- Through every history of requests the root is live and nobody's child, live handles lie below
the next one, every other live scope has a parent with a smaller handle, and handles are given out
in ascending order, so none twice. The walk from any handle passes ever smaller handles and ends at
the root, or at the first handle on its way that is not live any more. A request that fails changes
nothing. -/
theorem arena_keeps_order (functions : List (String × φ)) (requests : List (Request α φ)) :
    let history := (ofFunctions functions : Arena α φ).performAll requests
    let issued := rootHandle :: history.1.filterMap given?
    let a := history.2
    a.outline.get? rootHandle = some none ∧
      (∀ h : Int, a.contains h = true → h < a.next) ∧
      (∀ (h : Int) scope, a.scopes.get? h = some scope → h ≠ rootHandle →
        ∃ p : Int, scope.parent = some p ∧ p < h) ∧
      issued.Pairwise (· < ·) ∧
      (∀ h, a.Walks h (a.chain h).links (a.chain h).broken ∧
        ((a.chain h).links.map (·.1)).Pairwise (· > ·) ∧
        ((a.chain h).broken = none ∧ ((a.chain h).links.map (·.1)).getLast? = some rootHandle ∨
          ∃ g, (a.chain h).broken = some g ∧ a.contains g = false ∧ (g = h ∨ g ∈ issued))) ∧
      ∀ request fault, (perform request a).1 = .error fault → (perform request a).2 = a := by
  intro history issued a
  have order : Ordered issued a := (Ordered.start functions).performAll requests
  refine ⟨order.valid.rooted, ?_, ?_, order.ascending, ?_, ?_⟩
  · intro h live
    obtain ⟨parent, hparent⟩ := contains_iff.mp live
    exact (order.valid.bounded hparent).2
  · intro h scope hs hroot
    have houtline := outline_of_get? hs
    cases hp : scope.parent with
    | none =>
        rw [hp] at houtline
        exact absurd (order.topmost houtline) hroot
    | some p =>
        rw [hp] at houtline
        exact ⟨p, rfl, (order.valid.descending houtline).2⟩
  · intro h
    have walk := order.valid.walks h
    refine ⟨walk, walk.descends order.valid, ?_⟩
    cases hbroken : (a.chain h).broken with
    | none =>
        rw [hbroken] at walk
        exact .inl ⟨rfl, walk.getLast? order⟩
    | some g =>
        rw [hbroken] at walk
        exact .inr ⟨g, rfl, walk.dead order⟩
  · intro request fault failed
    exact perform_of_error failed

/-- A scope has lost its parent. Its chain breaks there, and an assignment along the chain fails. -/
theorem arena_keeps_order_around_gap :
    let requests : List (Request Nat String) := [.extend 0, .extend 1, .discard 1]
    let a := ((ofFunctions [("f", "body")] : Arena Nat String).performAll requests).2
    a.contains 2 = true ∧ 2 < a.next ∧
      a.scopes.get? 2 = some ⟨some 1, .empty, .empty⟩ ∧ (∃ p : Int, some 1 = some p ∧ p < 2) ∧
      (a.chain 2).broken = some 1 ∧
      (perform (.assignOuter 2 "x" 7) a).1 = .error (.noScope 1) ∧
      (perform (.assignOuter 2 "x" 7) a).2 = a := by
  intro requests a
  have order := arena_keeps_order [("f", "body")] requests
  exact ⟨rfl, order.2.1 2 rfl, rfl, order.2.2.1 2 _ rfl (by decide), rfl, rfl,
    order.2.2.2.2.2 _ _ rfl⟩

end Scriptlet.Arena
