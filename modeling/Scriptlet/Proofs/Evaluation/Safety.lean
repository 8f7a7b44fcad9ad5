import Scriptlet.Proofs.Evaluation.ScopeDiscipline
import Scriptlet.Proofs.Syntax.Spelling

/-!
# Safety of evaluation

A program that was read from a source ends with a value or with an error that has a place in some
source, unless it runs out of depth or of rounds. No scope is ever missing, and a name is called
undefined only where no scope in sight binds it. The last point is said by a second evaluator, which
watches every lookup: it always comes to the same end.
-/

namespace Scriptlet

open Eval

/-! ## Places in trees -/

/-- Every node of the tree has a place, which satisfies `P`. -/
inductive Placed (P : Position → Prop) : Node → Prop where
  | mk {n : Node} {p : Position} (position : n.position = some p) (holds : P p)
      (children : ∀ child ∈ n.children, Placed P child) : Placed P n

/-- Only the top of the tree may be without a place, if it raises no error itself. -/
structure Located (P : Position → Prop) (n : Node) : Prop where
  meaningful : n ≠ .blank
  places : ∀ q ∈ n.errorPlaces, ∃ p, q = some p ∧ P p
  children : ∀ child ∈ n.children, Placed P child

section

variable {P : Position → Prop}

theorem Node.errorPlaces_eq {n : Node} {q : Option Position} (h : q ∈ n.errorPlaces) :
    q = n.position ∨ ∃ child ∈ n.children, q = child.position := by
  cases n with
  | reference | unary | binary | call => exact .inl (List.mem_singleton.mp h)
  | ifThen c | ifElse c | whileLoop c =>
      exact .inr ⟨c, List.mem_cons_self, List.mem_singleton.mp h⟩
  | _ => cases h

theorem Placed.exists_position {n : Node} (h : Placed P n) : ∃ p, n.position = some p ∧ P p := by
  cases h with
  | mk position holds _ => exact ⟨_, position, holds⟩

theorem Placed.located {n : Node} (h : Placed P n) : Located P n := by
  have hplace := h.exists_position
  obtain ⟨hposition, -, hchildren⟩ := h
  refine ⟨?_, ?_, hchildren⟩
  · rintro rfl
    cases hposition
  · intro q hq
    rcases Node.errorPlaces_eq hq with rfl | ⟨child, hchild, rfl⟩
    · exact hplace
    · exact (hchildren child hchild).exists_position

theorem hereditary_located : Hereditary (Located P) fun q => ∃ p, q = some p ∧ P p :=
  ⟨fun hn hchild => (hn.children _ hchild).located, fun hn hq => hn.places _ hq⟩

theorem placed_bodyAt {nodes : List Node} {w : List Token} {next : Token}
    (hnodes : ∀ n ∈ nodes, Placed P n) (hw : ∀ t ∈ w, P t.position) (hnext : P next.position) :
    Placed P (bodyAt nodes w next) := by
  cases w with
  | nil => exact .mk rfl hnext hnodes
  | cons t w => exact .mk rfl (hw t List.mem_cons_self) hnodes

theorem placed_alone {n : Node} {p : Position} (position : n.position = some p) (holds : P p)
    (children : ∀ child ∈ n.children, Placed P child) : ∀ m ∈ [n], Placed P m :=
  List.forall_mem_singleton.mpr (.mk position holds children)

theorem Spells.placed {part : Part} {nodes : List Node} {w : List Token}
    (h : Spells part nodes w) (hw : ∀ t ∈ w, P t.position) : ∀ n ∈ nodes, Placed P n := by
  induction h
  all_goals try simp only [List.cons_append, List.append_assoc, List.forall_mem_cons,
    List.forall_mem_append] at hw
  case number | boolean | string | nil | reference =>
    exact placed_alone rfl hw.1 fun _ hchild => by cases hchild
  case unary ih | ret ih => exact placed_alone rfl hw.1 (ih hw.2)
  case group ih => exact placed_alone rfl hw.1 (ih hw.2.1)
  case call ih => exact placed_alone rfl hw.1 (ih hw.2.2.1)
  case assign ih => exact placed_alone rfl hw.1 (ih hw.2.2)
  case outer ih => exact placed_alone rfl hw.1 (ih hw.2.2.2)
  case single ih | lastArgument ih | expression ih | lastStatement ih => exact ih hw
  case joined x y u v operator p known left right ihl ihr =>
    have hleft := ihl hw.1 x List.mem_cons_self
    have hright := ihr hw.2.2
    obtain ⟨p, hposition, hp⟩ := hleft.exists_position
    exact placed_alone hposition hp (List.forall_mem_cons.mpr ⟨hleft, hright⟩)
  case noArguments | noStatements => exact fun _ hn => by cases hn
  case moreArguments ihf iho | afterSimple ihf iho | afterControlComma ihf iho =>
    exact List.forall_mem_cons.mpr ⟨List.forall_mem_singleton.mp (ihf hw.1), iho hw.2.2⟩
  case afterControl ihf iho =>
    exact List.forall_mem_cons.mpr ⟨List.forall_mem_singleton.mp (ihf hw.1), iho hw.2⟩
  case ifThen ihc ihb | whileLoop ihc ihb =>
    obtain ⟨hp, hu, hq, hv, hr, -⟩ := hw
    refine placed_alone rfl hp (List.forall_mem_cons.mpr ⟨ihc hu _ List.mem_cons_self, ?_⟩)
    exact List.forall_mem_singleton.mpr (placed_bodyAt (ihb hv) hv hr)
  case ifElse ihc ihb ihe =>
    obtain ⟨hp, hu, hq, hv, hr, hv', hr', -⟩ := hw
    refine placed_alone rfl hp (List.forall_mem_cons.mpr ⟨ihc hu _ List.mem_cons_self, ?_⟩)
    refine List.forall_mem_cons.mpr ⟨placed_bodyAt (ihb hv) hv hr, ?_⟩
    exact List.forall_mem_singleton.mpr (placed_bodyAt (ihe hv') hv' hr')
  case function ihb =>
    obtain ⟨hp, hq, ho, hu, hc, hk, hv, hr, -⟩ := hw
    exact placed_alone rfl hp (List.forall_mem_singleton.mpr (placed_bodyAt (ihb hv) hv hr))

end

def TokenPlace (sources : List (List UInt8)) (p : Position) : Prop :=
  ∃ source ∈ sources, ∃ t ∈ (Scan.ofBytes source).tokens, t.position = p

theorem located_tree {sources : List (List UInt8)} {source : List UInt8} (h : source ∈ sources)
    (nesting : Nat) : Located (TokenPlace sources) (Parsed.ofBytes nesting source).tree := by
  -- A source that was not read stands for a tree without parts that raises no error.
  have hnone : Located (TokenPlace sources) (.nil none) :=
    ⟨Node.noConfusion, (fun _ hq => by cases hq), (fun _ hchild => by cases hchild)⟩
  unfold Parsed.ofBytes Parsed.ofScan
  cases hroot : Parser.root nesting (Scan.ofBytes source).tokens with
  | error failure => exact hnone
  | ok result =>
      cases hend : (Scan.ofBytes source).ending with
      | unclosed quote => exact hnone
      | finished last =>
          obtain ⟨tree, rest⟩ := result
          obtain ⟨-, nodes, rfl, hspells⟩ := Parser.root_eq_ok hroot
          have hplaced : ∀ n ∈ nodes, Placed (TokenPlace sources) n :=
            hspells.placed fun t ht => ⟨source, h, t, ht, rfl⟩
          exact ⟨Node.noConfusion, (fun _ hq => by cases hq), hplaced⟩

/-! ## Watching the lookups -/

/-- The chain of the scope is whole, and if the node is about to call a name undefined, no scope on
the chain binds that name. -/
def Node.seesTruly (a : Scopes) (h : Handle) (n : Node) : Bool :=
  (a.chain h).broken.isNone &&
    match n with
    | .reference name _ =>
        (a.lookup h name).isOk || (a.chain h).links.all fun link => (link.2.vars.get? name).isNone
    | .call name _ _ =>
        (a.lookupFunction h name).isOk ||
          (a.chain h).links.all fun link => (link.2.functions.get? name).isNone
    | _ => true

/-- Evaluate as always, but stop with a fault at the first node that does not see truly. -/
def Eval.watched (mode : Mode) : (depth : Nat) → Visit
  | 0, _, _ => stop .tooDeep
  | depth + 1, n, h => fun s =>
      if n.seesTruly s.scopes h then node mode (watched mode depth) n h s
      else (.stopped (.scopeFault (.noScope h)), s)

theorem all_isNone_of_findSome? {β γ : Type} {links : List β} {f : β → Option γ}
    (h : links.findSome? f = none) : (links.all fun link => (f link).isNone) = true := by
  rw [List.all_eq_true]
  intro link hlink
  rw [List.findSome?_eq_none_iff.mp h link hlink]
  rfl

theorem seesTruly_of_whole {a : Scopes} {h : Handle} (hwhole : (a.chain h).broken = none)
    (n : Node) : n.seesTruly a h = true := by
  unfold Node.seesTruly
  rw [hwhole, Option.isNone_none, Bool.true_and]
  cases n with
  | reference name =>
      rw [Bool.or_eq_true]
      cases hfind : (a.chain h).links.findSome? fun link => link.2.vars.get? name with
      | some value =>
          left
          simp [Arena.lookup, hfind, Except.isOk, Except.toBool]
      | none => exact .inr (all_isNone_of_findSome? hfind)
  | call name =>
      rw [Bool.or_eq_true]
      cases hfind : (a.chain h).links.findSome? fun link => link.2.functions.get? name with
      | some function =>
          left
          simp [Arena.lookupFunction, hfind, Except.isOk, Except.toBool]
      | none => exact .inr (all_isNone_of_findSome? hfind)
  | _ => rfl

section

variable {B : Node → Prop} {Q : Option Position → Prop}

theorem visits_watched (hB : Hereditary B Q) (mode : Mode) (depth : Nat) :
    (steady B Q fun _ => False).Visits (nested mode depth) (watched mode depth) := by
  let S := Simulation.steady B Q (fun _ => False) id
  induction depth with
  | zero => exact fun _ _ => .stop .tooDeep
  | succ depth ih =>
      intro w n n' g h trees handles s t stores
      have hnode : S.Ends w Eq (node mode (nested mode depth) n g s)
          (node mode (watched mode depth) n' h t) :=
        S.coupled_node rfl rfl ih (hB.alike trees) handles s t stores
      obtain ⟨rfl, hg⟩ := handles
      obtain ⟨rfl, hs⟩ := stores
      obtain ⟨rfl, hn⟩ := trees
      unfold watched nested
      rw [if_pos (seesTruly_of_whole (hs.chain_whole hg) n)]
      exact hnode

/-- Two runs that end alike in the steady correspondence are one and the same. -/
theorem Correspondence.Ends.eq_of_steady {α : Type} {outline : OrderedMap Handle (Option Handle)}
    {x y : Outcome α × Store} (ends : (Scriptlet.steady B Q fun _ => False).Ends outline Eq x y) :
    x = y := by
  cases ends with
  | done results stores => rw [results, stores.1]
  | gaveUp excuse left => exact excuse.elim
  | stopped stops stores =>
      rw [stores.1]
      cases stops with
      | failed places => rw [places.1]
      | returned | scopeFault | meaningless | tooDeep | tooLong => rfl

end

theorem evaluate_of_ends {P : Position → Prop} {mode : Mode} {tree : Node} {h : Handle} {s : Store}
    {outline : OrderedMap Handle (Option Handle)} {y : Outcome Value × Store}
    (ends : (steady (Located P) (fun q => ∃ p, q = some p ∧ P p) fun _ => False).Ends outline Eq
      (nested mode mode.depth tree h s) y) :
    (nested mode mode.depth tree h s).1 = .stopped .tooDeep ∨
      (nested mode mode.depth tree h s).1 = .stopped .tooLong ∨
      (∃ v, (evaluate mode tree h s).1 = .value v) ∨
      ∃ e p, (evaluate mode tree h s).1 = .error e ∧ e.position = some p ∧ P p := by
  unfold evaluate
  generalize nested mode mode.depth tree h s = run at ends ⊢
  cases ends with
  | done results stores => exact .inr (.inr (.inl ⟨_, rfl⟩))
  | gaveUp excuse left => exact excuse.elim
  | stopped stops stores =>
      cases stops with
      | returned v => exact .inr (.inr (.inl ⟨v, rfl⟩))
      | failed places =>
          obtain ⟨p, hposition, hp⟩ := places.2
          exact .inr (.inr (.inr ⟨_, p, rfl, hposition, hp⟩))
      | scopeFault faulty _ => exact faulty.elim
      | meaningless trees => exact absurd rfl trees.2.meaningful
      | tooDeep => exact .inl rfl
      | tooLong => exact .inr (.inl rfl)

/-- A source that is read and evaluated in the root scope, after any others, gives a value or an
error at a token of the sources so far, unless it runs out of depth or of rounds. It never finds a
scope missing, and never calls a name undefined that is bound in sight. -/
theorem evaluation_is_safe (mode : Mode) (nesting : Nat) (earlier : List (List UInt8))
    (source : List UInt8) :
    let s := evaluateAll mode (earlier.map fun bytes => (Parsed.ofBytes nesting bytes).tree)
      startStore
    let tree := (Parsed.ofBytes nesting source).tree
    let run := nested mode mode.depth tree Arena.rootHandle s
    let verdict := (evaluate mode tree Arena.rootHandle s).1
    (run.1 = .stopped .tooDeep ∨ run.1 = .stopped .tooLong ∨ (∃ v, verdict = .value v) ∨
      ∃ e p, verdict = .error e ∧ e.position = some p ∧ TokenPlace (earlier ++ [source]) p) ∧
    run = watched mode mode.depth tree Arena.rootHandle s := by
  intro s tree run verdict
  have htrees : ∀ tree ∈ earlier.map fun bytes => (Parsed.ofBytes nesting bytes).tree,
      Located (TokenPlace (earlier ++ [source])) tree := by
    intro tree htree
    obtain ⟨bytes, hbytes, rfl⟩ := List.mem_map.mp htree
    exact located_tree (List.mem_append_left _ hbytes) nesting
  have htree : Located (TokenPlace (earlier ++ [source])) tree :=
    located_tree (List.mem_append_right _ List.mem_cons_self) nesting
  have hs : SteadyStore _ startStore.scopes.outline s :=
    steadyStore_evaluateAll hereditary_located mode htrees WellScoped.builtins
  have ends : (steady _ _ fun _ => False).Ends startStore.scopes.outline Eq run
      (watched mode mode.depth tree Arena.rootHandle s) :=
    visits_watched hereditary_located mode mode.depth ⟨rfl, htree⟩ ⟨rfl, none, rfl⟩ s s ⟨rfl, hs⟩
  exact ⟨evaluate_of_ends ends, ends.eq_of_steady⟩

end Scriptlet
