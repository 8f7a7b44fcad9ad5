import Mathlib.Data.List.Forall2
import Scriptlet.Evaluation.Eval
import Scriptlet.Proofs.Syntax.Rebuilding

/-!
# Two evaluations side by side

A correspondence says which scopes, trees and places of two runs belong together. It becomes a
simulation once every operation on corresponding scopes can be done in both runs and keeps the
stores in correspondence. Evaluating corresponding trees then ends alike in both runs: with the
same value, or stopped for the same reason. The first run may also give up for a reason that the
correspondence excuses, and then nothing is said of the second.

Invariants of a single run are the case in which both runs are the same.
-/

namespace Scriptlet

open Eval

/-- The places that the errors a node raises can name. -/
def Node.errorPlaces : Node → List (Option Position)
  | .reference _ p | .unary _ _ p | .binary _ _ _ p | .call _ _ p => [p]
  | .ifThen c _ _ | .ifElse c _ _ _ | .whileLoop c _ _ => [c.position]
  | _ => []

/-- What belongs together in two runs. -/
structure Correspondence where
  /-- Which scopes are open in the two runs. -/
  World : Type
  Stores : World → Store → Store → Prop
  /-- What the first store keeps to when its run gives up. -/
  Left : World → Store → Prop
  /-- The scopes that nodes are evaluated in. -/
  Handles : World → Handle → Handle → Prop
  /-- The scopes that children may be made of: those, and the ones that functions close over. -/
  Closures : World → Handle → Handle → Prop := Handles
  Trees : Node → Node → Prop
  /-- The places that errors at corresponding nodes may name. -/
  Places : Option Position → Option Position → Prop
  /-- Whether nodes may assign to outer variables. -/
  Outward : Prop := True
  /-- Whether a scope may be missing, in both runs alike. -/
  Faulty : Prop := False
  GivesUp : Stop → Prop

namespace Correspondence

variable {α β γ δ : Type}

inductive Functions (C : Correspondence) (w : C.World) : Function → Function → Prop where
  | builtin (b : Builtin) : C.Functions w (.builtin b) (.builtin b)
  | user {name : String} {params : List String} {body body' : Node} {g h : Handle}
      (trees : C.Trees body body') (closures : C.Closures w g h) :
      C.Functions w (.user ⟨name, params, body, g⟩) (.user ⟨name, params, body', h⟩)

inductive Stops (C : Correspondence) : Stop → Stop → Prop where
  | returned (v : Value) : C.Stops (.returned v) (.returned v)
  | failed {cause : EvalError.Cause} {p q : Option Position} (places : C.Places p q) :
      C.Stops (.failed ⟨cause, p⟩) (.failed ⟨cause, q⟩)
  | scopeFault (faulty : C.Faulty) (fault : Arena.Fault) :
      C.Stops (.scopeFault fault) (.scopeFault fault)
  | meaningless (trees : C.Trees .blank .blank) : C.Stops .meaningless .meaningless
  | tooDeep : C.Stops .tooDeep .tooDeep
  | tooLong : C.Stops .tooLong .tooLong

/-- Both runs have come to the same end, or the first one gave up. -/
inductive Ends (C : Correspondence) (w : C.World) (R : α → β → Prop) :
    Outcome α × Store → Outcome β × Store → Prop where
  | done {a : α} {b : β} {s t : Store} (results : R a b) (stores : C.Stores w s t) :
      C.Ends w R (.done a, s) (.done b, t)
  | stopped {why why' : Stop} {s t : Store} (stops : C.Stops why why')
      (stores : C.Stores w s t) : C.Ends w R (.stopped why, s) (.stopped why', t)
  | gaveUp {why : Stop} {s : Store} {second : Outcome β × Store} (excuse : C.GivesUp why)
      (left : C.Left w s) : C.Ends w R (.stopped why, s) second

/-- Both runs work on their scopes, and come to corresponding stores. -/
def BothWork (C : Correspondence) (w : C.World) (s t : Store) (m : Arena.Action Value Function α)
    (n : Arena.Action Value Function β) : Prop :=
  ∃ x y a b, m s.scopes = (.ok x, a) ∧ n t.scopes = (.ok y, b) ∧
    C.Stores w { s with scopes := a } { t with scopes := b }

/-- Both runs find the same scope missing, and change nothing. -/
def BothFault (C : Correspondence) (s t : Store) (m : Arena.Action Value Function α)
    (n : Arena.Action Value Function β) : Prop :=
  C.Faulty ∧ ∃ fault, m s.scopes = (.error fault, s.scopes) ∧
    n t.scopes = (.error fault, t.scopes)

/-- From corresponding stores the two computations end alike. -/
def Coupled (C : Correspondence) (w : C.World) (R : α → β → Prop) (m : Eval α) (n : Eval β) :
    Prop :=
  ∀ s t, C.Stores w s t → C.Ends w R (m s) (n t)

/-- Two ways to evaluate nodes that end alike on corresponding trees and scopes. -/
def Visits (C : Correspondence) (visit visit' : Visit) : Prop :=
  ∀ {w : C.World} {n n' : Node} {g h : Handle}, C.Trees n n' → C.Handles w g h →
    C.Coupled w Eq (visit n g) (visit' n' h)

/-- Two nodes of the same form over corresponding nodes. The place of an error is that of the node,
or of its condition. -/
inductive Alike (C : Correspondence) : Node → Node → Prop where
  | root {xs ys : List Node} {p q : Option Position} (trees : List.Forall₂ C.Trees xs ys) :
      C.Alike (.root xs p) (.root ys q)
  | block {xs ys : List Node} {p q : Option Position} (trees : List.Forall₂ C.Trees xs ys) :
      C.Alike (.block xs p) (.block ys q)
  | number (x : Float) (p q : Option Position) : C.Alike (.number x p) (.number x q)
  | boolean (b : Bool) (p q : Option Position) : C.Alike (.boolean b p) (.boolean b q)
  | string (s : String) (p q : Option Position) : C.Alike (.string s p) (.string s q)
  | nil (p q : Option Position) : C.Alike (.nil p) (.nil q)
  | reference {name : String} {p q : Option Position} (places : C.Places p q) :
      C.Alike (.reference name p) (.reference name q)
  | group {x y : Node} {p q : Option Position} (tree : C.Trees x y) :
      C.Alike (.group x p) (.group y q)
  | unary {operator : Kind} {x y : Node} {p q : Option Position} (tree : C.Trees x y)
      (places : C.Places p q) : C.Alike (.unary operator x p) (.unary operator y q)
  | binary {operator : Kind} {x x' y y' : Node} {p q : Option Position} (left : C.Trees x y)
      (right : C.Trees x' y') (places : C.Places p q) :
      C.Alike (.binary operator x x' p) (.binary operator y y' q)
  | assign {name : String} {x y : Node} {outer : Bool} {p q : Option Position}
      (tree : C.Trees x y) (outward : outer = true → C.Outward) :
      C.Alike (.assign name x outer p) (.assign name y outer q)
  | ifThen {c d x y : Node} {p q : Option Position} (condition : C.Trees c d)
      (places : C.Places c.position d.position) (body : C.Trees x y) :
      C.Alike (.ifThen c x p) (.ifThen d y q)
  | ifElse {c d x x' y y' : Node} {p q : Option Position} (condition : C.Trees c d)
      (places : C.Places c.position d.position) (body : C.Trees x y)
      (otherwise : C.Trees x' y') : C.Alike (.ifElse c x x' p) (.ifElse d y y' q)
  | whileLoop {c d x y : Node} {p q : Option Position} (condition : C.Trees c d)
      (places : C.Places c.position d.position) (body : C.Trees x y) :
      C.Alike (.whileLoop c x p) (.whileLoop d y q)
  | function {name : String} {params : List String} {x y : Node} {p q : Option Position}
      (body : C.Trees x y) : C.Alike (.function name params x p) (.function name params y q)
  | call {name : String} {xs ys : List Node} {p q : Option Position}
      (trees : List.Forall₂ C.Trees xs ys) (places : C.Places p q) :
      C.Alike (.call name xs p) (.call name ys q)
  | ret {x y : Node} {p q : Option Position} (tree : C.Trees x y) :
      C.Alike (.ret x p) (.ret y q)
  | blank (tree : C.Trees .blank .blank) : C.Alike .blank .blank

/-- One node, changed in two ways, keeps its form if what it is changed into belongs together. -/
theorem Alike.mapParts {C : Correspondence} {n : Node}
    {place place' : Option Position → Option Position} {f g : Node → Node}
    (children : ∀ c ∈ n.children, C.Trees (f c) (g c))
    (places : ∀ p ∈ n.errorPlaces, C.Places (place p) (place' p))
    (conditions : ∀ c : Node, c.position ∈ n.errorPlaces → C.Places (f c).position (g c).position)
    (outward : ∀ name x p, n = .assign name x true p → C.Outward)
    (blank : n = .blank → C.Trees .blank .blank) :
    C.Alike (n.mapParts place f) (n.mapParts place' g) := by
  have all : List.Forall₂ C.Trees (n.children.map f) (n.children.map g) :=
    List.forall₂_map_left_iff.mpr (List.forall₂_map_right_iff.mpr (List.forall₂_same.mpr children))
  have child : ∀ {c}, c ∈ n.children → C.Trees (f c) (g c) := fun {c} => children c
  have own : ∀ {p}, p ∈ n.errorPlaces → C.Places (place p) (place' p) := fun {p} => places p
  have condition : ∀ {c : Node}, c.position ∈ n.errorPlaces →
      C.Places (f c).position (g c).position := fun {c} => conditions c
  cases n with
  | root | block => constructor; exact all
  | number | boolean | string | nil => constructor
  | reference => exact .reference (own (by simp [Node.errorPlaces]))
  | group => exact .group (child (by simp [Node.children]))
  | unary => exact .unary (child (by simp [Node.children])) (own (by simp [Node.errorPlaces]))
  | binary =>
      exact .binary (child (by simp [Node.children])) (child (by simp [Node.children]))
        (own (by simp [Node.errorPlaces]))
  | assign name x outer p =>
      refine .assign (child (by simp [Node.children])) ?_
      rintro rfl
      exact outward name x p rfl
  | ifThen =>
      exact .ifThen (child (by simp [Node.children])) (condition (by simp [Node.errorPlaces]))
        (child (by simp [Node.children]))
  | ifElse =>
      exact .ifElse (child (by simp [Node.children])) (condition (by simp [Node.errorPlaces]))
        (child (by simp [Node.children])) (child (by simp [Node.children]))
  | whileLoop =>
      exact .whileLoop (child (by simp [Node.children])) (condition (by simp [Node.errorPlaces]))
        (child (by simp [Node.children]))
  | function => exact .function (child (by simp [Node.children]))
  | call => exact .call all (own (by simp [Node.errorPlaces]))
  | ret => exact .ret (child (by simp [Node.children]))
  | blank => exact .blank (blank rfl)

theorem Alike.mapParts_right {C : Correspondence} {n : Node}
    {place : Option Position → Option Position} {f : Node → Node}
    (children : ∀ c ∈ n.children, C.Trees c (f c))
    (places : ∀ p ∈ n.errorPlaces, C.Places p (place p))
    (conditions : ∀ c : Node, c.position ∈ n.errorPlaces → C.Places c.position (f c).position)
    (outward : ∀ name x p, n = .assign name x true p → C.Outward)
    (blank : n = .blank → C.Trees .blank .blank) : C.Alike n (n.mapParts place f) := by
  have alike : C.Alike (n.mapParts id id) (n.mapParts place f) :=
    .mapParts children places conditions outward blank
  rwa [Node.mapParts_id] at alike

theorem Alike.refl {C : Correspondence} {n : Node}
    (children : ∀ child ∈ n.children, C.Trees child child)
    (places : ∀ p ∈ n.errorPlaces, C.Places p p)
    (outward : ∀ name x p, n = .assign name x true p → C.Outward)
    (blank : n = .blank → C.Trees .blank .blank) : C.Alike n n := by
  have alike : C.Alike n (n.mapParts id id) :=
    .mapParts_right children places (fun c => places c.position) outward blank
  rwa [Node.mapParts_id] at alike

/-! ## Computations that touch no scope -/

variable {C : Correspondence} {w : C.World}

theorem Coupled.pure {R : α → β → Prop} {a : α} {b : β} (h : R a b) :
    C.Coupled w R (Pure.pure a) (Pure.pure b) :=
  fun _ _ stores => .done h stores

theorem Coupled.stop {R : α → β → Prop} {why why' : Stop} (h : C.Stops why why') :
    C.Coupled w R (Eval.stop why) (Eval.stop why') :=
  fun _ _ stores => .stopped h stores

theorem Coupled.fail {R : α → β → Prop} {cause : EvalError.Cause} {p q : Option Position}
    (h : C.Places p q) : C.Coupled w R (Eval.fail cause p) (Eval.fail cause q) :=
  Coupled.stop (.failed h)

theorem Coupled.bind {R : α → β → Prop} {Q : γ → δ → Prop} {m : Eval α} {n : Eval β}
    {f : α → Eval γ} {k : β → Eval δ} (first : C.Coupled w R m n)
    (second : ∀ a b, R a b → C.Coupled w Q (f a) (k b)) :
    C.Coupled w Q (m >>= f) (n >>= k) := by
  intro s t stores
  have ends := first s t stores
  generalize hm : m s = x at ends
  generalize hn : n t = y at ends
  cases ends with
  | done results stores =>
      rw [bind_of_done hm, bind_of_done hn]
      exact second _ _ results _ _ stores
  | stopped stops stores =>
      rw [bind_of_stopped hm, bind_of_stopped hn]
      exact .stopped stops stores
  | gaveUp excuse left =>
      rw [bind_of_stopped hm]
      exact .gaveUp excuse left

theorem Coupled.repeatWhile {c d : Eval Bool} {body body' : Eval Value}
    (condition : C.Coupled w Eq c d) (work : C.Coupled w Eq body body') (rounds : Nat) :
    C.Coupled w Eq (Eval.repeatWhile c body rounds) (Eval.repeatWhile d body' rounds) := by
  induction rounds with
  | zero => exact fun _ _ stores => .stopped .tooLong stores
  | succ rounds ih =>
      intro s t stores
      unfold Eval.repeatWhile
      have ends := condition s t stores
      generalize c s = x at ends
      generalize d t = y at ends
      cases ends with
      | stopped stops stores => exact .stopped stops stores
      | gaveUp excuse left => exact .gaveUp excuse left
      | @done b b' s' t' results stores =>
          subst results
          cases b with
          | false => exact .done rfl stores
          | true =>
              have ends := work s' t' stores
              dsimp only
              generalize body s' = x at ends
              generalize body' t' = y at ends
              cases ends with
              | stopped stops stores => exact .stopped stops stores
              | gaveUp excuse left => exact .gaveUp excuse left
              | done results stores => exact ih _ _ stores

/-! ## Nodes over their parts

What a node does with its parts touches no scope either, as long as its parts are visited. -/

section

variable {visit visit' : Visit} {g h : Handle}

theorem Coupled.sequence (visits : C.Visits visit visit') (handles : C.Handles w g h)
    {xs ys : List Node} (trees : List.Forall₂ C.Trees xs ys) (value : Value) :
    C.Coupled w Eq (Eval.sequence visit g value xs) (Eval.sequence visit' h value ys) := by
  induction trees generalizing value with
  | nil => exact Coupled.pure rfl
  | cons tree _ ih =>
      refine Coupled.bind (visits tree handles) ?_
      intro a second same
      subst same
      exact ih a

theorem Coupled.arguments (visits : C.Visits visit visit') (handles : C.Handles w g h)
    {xs ys : List Node} (trees : List.Forall₂ C.Trees xs ys) :
    C.Coupled w Eq (Eval.arguments visit g xs) (Eval.arguments visit' h ys) := by
  induction trees with
  | nil => exact Coupled.pure rfl
  | cons tree _ ih =>
      refine Coupled.bind (visits tree handles) ?_
      intro a second same
      subst same
      refine Coupled.bind ih ?_
      intro values second same
      subst same
      exact Coupled.pure rfl

theorem Coupled.condition (visits : C.Visits visit visit') (handles : C.Handles w g h)
    {c d : Node} (tree : C.Trees c d) (places : C.Places c.position d.position)
    (construct : String) :
    C.Coupled w Eq (Eval.condition visit g construct c) (Eval.condition visit' h construct d) := by
  refine Coupled.bind (visits tree handles) ?_
  intro a second same
  subst same
  cases a with
  | boolean b => exact Coupled.pure rfl
  | number | string | nil => exact Coupled.fail places

theorem Coupled.unary (visits : C.Visits visit visit') (handles : C.Handles w g h)
    {x y : Node} (tree : C.Trees x y) {p q : Option Position} (places : C.Places p q)
    (operator : Kind) :
    C.Coupled w Eq (Eval.unary visit g operator x p) (Eval.unary visit' h operator y q) := by
  refine Coupled.bind (visits tree handles) ?_
  intro a second same
  subst same
  cases Operator.unary? operator a with
  | some result => exact Coupled.pure rfl
  | none => exact Coupled.fail places

theorem Coupled.strict (visits : C.Visits visit visit') (handles : C.Handles w g h)
    {x x' y y' : Node} (left : C.Trees x y) (right : C.Trees x' y') {p q : Option Position}
    (places : C.Places p q) (operator : Kind) :
    C.Coupled w Eq (Eval.strict visit g operator x x' p)
      (Eval.strict visit' h operator y y' q) := by
  refine Coupled.bind (visits left handles) ?_
  intro a second same
  subst same
  refine Coupled.bind (visits right handles) ?_
  intro b second same
  subst same
  cases Operator.strict? operator a b with
  | some result => exact Coupled.pure rfl
  | none => exact Coupled.fail places

theorem Coupled.logicalRest (visits : C.Visits visit visit') (handles : C.Handles w g h)
    {x y : Node} (right : C.Trees x y) {p q : Option Position} (places : C.Places p q)
    (operator : Kind) (join : Bool → Bool → Bool) (value : Value) :
    C.Coupled w Eq (Eval.logicalRest visit g operator join value x p)
      (Eval.logicalRest visit' h operator join value y q) := by
  refine Coupled.bind (visits right handles) ?_
  intro b second same
  subst same
  cases value with
  | boolean =>
      cases b with
      | boolean => exact Coupled.pure rfl
      | number | string | nil => exact Coupled.fail places
  | number | string | nil => exact Coupled.fail places

theorem Coupled.logical {mode mode' : Mode} (same : mode.shortCircuit = mode'.shortCircuit)
    (visits : C.Visits visit visit') (handles : C.Handles w g h) {x x' y y' : Node}
    (left : C.Trees x y) (right : C.Trees x' y') {p q : Option Position} (places : C.Places p q)
    (operator : Kind) (decisive : Bool) (join : Bool → Bool → Bool) :
    C.Coupled w Eq (Eval.logical mode visit g operator decisive join x x' p)
      (Eval.logical mode' visit' h operator decisive join y y' q) := by
  refine Coupled.bind (visits left handles) ?_
  intro a second same
  subst same
  have rest := Coupled.logicalRest visits handles right places operator join a
  rw [← same]
  cases mode.shortCircuit with
  | false => exact rest
  | true =>
      cases a with
      | boolean b =>
          by_cases hb : b = decisive
          · simpa [hb] using Coupled.pure rfl
          · simpa [hb] using rest
      | number | string | nil => exact Coupled.fail places

end

end Correspondence

/-- What a call of a builtin does depends on its arguments alone: it adds to the output, or fails
without a place. -/
theorem Builtin.apply_cases (b : Builtin) (args : List Value) :
    (∃ value text, ∀ s : Store,
        b.apply args s = (.done value, { s with output := s.output ++ text })) ∨
      ∃ cause, ∀ s : Store, b.apply args s = (.stopped (.failed ⟨cause, none⟩), s) := by
  have numbers (name : String) :
      (∃ pair, ∀ s : Store, twoNumbers name args s = (.done pair, s)) ∨
        ∃ cause, ∀ s : Store, twoNumbers name args s = (.stopped (.failed ⟨cause, none⟩), s) := by
    unfold twoNumbers
    split
    · exact .inl ⟨_, fun _ => rfl⟩
    · exact .inr ⟨_, fun _ => rfl⟩
    · exact .inr ⟨_, fun _ => rfl⟩
  have onNumbers (name : String) (f : Float × Float → Value) :
      (∃ value text, ∀ s : Store, (twoNumbers name args >>= fun pair => return f pair) s =
          (.done value, { s with output := s.output ++ text })) ∨
        ∃ cause, ∀ s : Store, (twoNumbers name args >>= fun pair => return f pair) s =
          (.stopped (.failed ⟨cause, none⟩), s) := by
    rcases numbers name with ⟨pair, h⟩ | ⟨cause, h⟩
    · refine .inl ⟨f pair, "", fun s => ?_⟩
      rw [bind_of_done (h s), String.append_empty]
      rfl
    · exact .inr ⟨cause, fun s => bind_of_stopped (h s)⟩
  cases b with
  | print => exact .inl ⟨.nil, rawText args, fun _ => rfl⟩
  | println => exact .inl ⟨.nil, rawText args ++ "\n", fun _ => rfl⟩
  | addTwo => exact onNumbers "add_two" fun pair => .number (pair.1 + pair.2)
  | div => exact onNumbers "div" fun pair => .boolean (Number.remainder pair.2 pair.1 == 0)

namespace Eval

theorem inChild_of_extend {α : Type} {parent child : Handle} {work : Handle → Eval α} {s : Store}
    {scopes : Scopes} (h : Arena.extend parent s.scopes = (.ok child, scopes)) :
    inChild parent work s =
      match discard child (work child { s with scopes := scopes }).2 with
      | (.done _, after) => ((work child { s with scopes := scopes }).1, after)
      | (.stopped why, after) => (.stopped why, after) := by
  have entered : update (Arena.extend parent) s = (.done child, { s with scopes := scopes }) := by
    simp only [update, h]
  exact bind_of_done entered

theorem inChild_of_fault {α : Type} {parent : Handle} {work : Handle → Eval α} {s : Store}
    {fault : Arena.Fault} (h : Arena.extend parent s.scopes = (.error fault, s.scopes)) :
    inChild parent work s = (.stopped (.scopeFault fault), s) := by
  have refused : update (Arena.extend parent) s = (.stopped (.scopeFault fault), s) := by
    simp only [update, h]
  exact bind_of_stopped refused

theorem node_of_logical {operator : Kind} {decisive : Bool} {join : Bool → Bool → Bool}
    (h : Operator.logical? operator = some (decisive, join)) (mode : Mode) (visit : Visit)
    (left right : Node) (position : Option Position) (g : Handle) :
    node mode visit (.binary operator left right position) g =
      logical mode visit g operator decisive join left right position := by
  simp only [node, h]

theorem node_of_strict {operator : Kind} (h : Operator.logical? operator = none) (mode : Mode)
    (visit : Visit) (left right : Node) (position : Option Position) (g : Handle) :
    node mode visit (.binary operator left right position) g =
      strict visit g operator left right position := by
  simp only [node, h]

end Eval

/-- A correspondence that every operation on scopes respects. An operation that can fail does so in
both runs or in none. -/
structure Simulation extends Correspondence where
  left : ∀ {w s t}, Stores w s t → Left w s
  not_givesUp_returned : ∀ {v}, ¬ GivesUp (.returned v)
  closure : ∀ {w g h}, Handles w g h → Closures w g h
  write : ∀ {w s t}, Stores w s t → ∀ text : String,
    Stores w { s with output := s.output ++ text } { t with output := t.output ++ text }
  lookup : ∀ {w s t g h}, Stores w s t → Handles w g h → ∀ name,
    (∃ v, s.scopes.lookup g name = .ok v ∧ t.scopes.lookup h name = .ok v) ∨
      ∃ e f, s.scopes.lookup g name = .error e ∧ t.scopes.lookup h name = .error f
  lookupFunction : ∀ {w s t g h}, Stores w s t → Handles w g h → ∀ name,
    (∃ f k, s.scopes.lookupFunction g name = .ok f ∧ t.scopes.lookupFunction h name = .ok k ∧
        toCorrespondence.Functions w f k) ∨
      ∃ e f, s.scopes.lookupFunction g name = .error e ∧ t.scopes.lookupFunction h name = .error f
  assign : ∀ {w s t g h}, Stores w s t → Handles w g h → ∀ name value,
    toCorrespondence.BothWork w s t (Arena.assign g name value) (Arena.assign h name value) ∨
      toCorrespondence.BothFault s t (Arena.assign g name value) (Arena.assign h name value)
  assignOuter : ∀ {w s t g h}, Outward → Stores w s t → Handles w g h → ∀ name value,
    toCorrespondence.BothWork w s t (Arena.assignOuter g name value)
        (Arena.assignOuter h name value) ∨
      toCorrespondence.BothFault s t (Arena.assignOuter g name value)
        (Arena.assignOuter h name value)
  declare : ∀ {w s t g h x y}, Stores w s t → Handles w g h → Trees x y → ∀ name params,
    toCorrespondence.BothWork w s t (Arena.declare g name (.user ⟨name, params, x, g⟩))
        (Arena.declare h name (.user ⟨name, params, y, h⟩)) ∨
      toCorrespondence.BothFault s t (Arena.declare g name (.user ⟨name, params, x, g⟩))
        (Arena.declare h name (.user ⟨name, params, y, h⟩))
  enter : ∀ {w s t g h}, Stores w s t → Closures w g h →
    (∃ w' g' h' a b, Arena.extend g s.scopes = (.ok g', a) ∧
        Arena.extend h t.scopes = (.ok h', b) ∧
        Handles w' g' h' ∧ Stores w' { s with scopes := a } { t with scopes := b } ∧
        (∀ {s t}, Stores w' s t →
          toCorrespondence.BothWork w s t (Arena.discard g') (Arena.discard h')) ∧
        ∀ {s}, Left w' s →
          ∃ a, Arena.discard g' s.scopes = (.ok (), a) ∧ Left w { s with scopes := a }) ∨
      toCorrespondence.BothFault s t (Arena.extend g) (Arena.extend h)

namespace Simulation

open Correspondence

variable {α β : Type} {S : Simulation} {w : S.World}

/-! ## Computations on scopes -/

theorem coupled_update {m : Arena.Action Value Function α} {n : Arena.Action Value Function β}
    (meets : ∀ {s t}, S.Stores w s t → S.BothWork w s t m n ∨ S.BothFault s t m n) :
    S.Coupled w (fun _ _ => True) (Eval.update m) (Eval.update n) := by
  intro s t stores
  rcases meets stores with ⟨x, y, a, b, ha, hb, after⟩ | ⟨faulty, fault, ha, hb⟩
  · simp only [Eval.update, ha, hb]
    exact .done trivial after
  · simp only [Eval.update, ha, hb]
    exact .stopped (.scopeFault faulty fault) stores

theorem coupled_lookup {g h : Handle} (handles : S.Handles w g h) (name : String)
    {p q : Option Position} (places : S.Places p q) :
    S.Coupled w Eq
      (Eval.query (fun scopes => scopes.lookup g name) fun _ =>
        .failed ⟨.undefinedVariable name, p⟩)
      (Eval.query (fun scopes => scopes.lookup h name) fun _ =>
        .failed ⟨.undefinedVariable name, q⟩) := by
  intro s t stores
  rcases S.lookup stores handles name with ⟨v, hs, ht⟩ | ⟨e, f, hs, ht⟩
  · simp only [Eval.query, hs, ht]
    exact .done rfl stores
  · simp only [Eval.query, hs, ht]
    exact .stopped (.failed places) stores

theorem coupled_lookupFunction {g h : Handle} (handles : S.Handles w g h) (name : String)
    {p q : Option Position} (places : S.Places p q) :
    S.Coupled w (S.Functions w)
      (Eval.query (fun scopes => scopes.lookupFunction g name) fun _ =>
        .failed ⟨.undefinedFunction name, p⟩)
      (Eval.query (fun scopes => scopes.lookupFunction h name) fun _ =>
        .failed ⟨.undefinedFunction name, q⟩) := by
  intro s t stores
  rcases S.lookupFunction stores handles name with ⟨f, k, hs, ht, functions⟩ | ⟨e, f, hs, ht⟩
  · simp only [Eval.query, hs, ht]
    exact .done functions stores
  · simp only [Eval.query, hs, ht]
    exact .stopped (.failed places) stores

theorem coupled_catchReturn {m n : Eval Value} (coupled : S.Coupled w Eq m n) :
    S.Coupled w Eq (Eval.catchReturn m) (Eval.catchReturn n) := by
  intro s t stores
  unfold Eval.catchReturn
  have ends := coupled s t stores
  generalize m s = x at ends
  generalize n t = y at ends
  cases ends with
  | done results stores => exact .done results stores
  | stopped stops stores =>
      cases stops with
      | returned v => exact .done rfl stores
      | failed places => exact .stopped (.failed places) stores
      | scopeFault faulty fault => exact .stopped (.scopeFault faulty fault) stores
      | meaningless trees => exact .stopped (.meaningless trees) stores
      | tooDeep => exact .stopped .tooDeep stores
      | tooLong => exact .stopped .tooLong stores
  | @gaveUp why _ _ excuse left =>
      -- Only a returned value is caught, and that is no reason to give up.
      cases why with
      | returned v => exact absurd excuse S.not_givesUp_returned
      | _ => exact .gaveUp excuse left

/-- Work in corresponding new scopes, which both runs remove again however the work ends. -/
theorem coupled_inChild {R : α → β → Prop} {g h : Handle} (closures : S.Closures w g h)
    {f : Handle → Eval α} {k : Handle → Eval β}
    (work : ∀ {w' g' h'}, S.Handles w' g' h' → S.Coupled w' R (f g') (k h')) :
    S.Coupled w R (Eval.inChild g f) (Eval.inChild h k) := by
  intro s t stores
  rcases S.enter stores closures with
    ⟨w', g', h', a, b, ha, hb, handles', stores', leave, leaveLeft⟩ | faults
  · rw [inChild_of_extend ha, inChild_of_extend hb]
    have ends := work handles' _ _ stores'
    generalize f g' { s with scopes := a } = x at ends
    generalize k h' { t with scopes := b } = y at ends
    cases ends with
    | done results stores =>
        obtain ⟨_, _, c, d, hc, hd, after⟩ := leave stores
        simp only [Eval.discard, Eval.update, hc, hd]
        exact .done results after
    | stopped stops stores =>
        obtain ⟨_, _, c, d, hc, hd, after⟩ := leave stores
        simp only [Eval.discard, Eval.update, hc, hd]
        exact .stopped stops after
    | gaveUp excuse left =>
        obtain ⟨c, hc, after⟩ := leaveLeft left
        simp only [Eval.discard, Eval.update, hc]
        exact .gaveUp excuse after
  · obtain ⟨faulty, fault, hs, ht⟩ := faults
    rw [inChild_of_fault hs, inChild_of_fault ht]
    exact .stopped (.scopeFault faulty fault) stores

theorem coupled_bindAll {g h : Handle} (handles : S.Handles w g h) (names : List String)
    (values : List Value) :
    S.Coupled w (fun _ _ => True) (Eval.bindAll g names values) (Eval.bindAll h names values) := by
  induction names generalizing values with
  | nil => exact Coupled.pure trivial
  | cons name names ih =>
      cases values with
      | nil => exact Coupled.pure trivial
      | cons value values =>
          exact Coupled.bind (coupled_update fun stores => S.assign stores handles name value)
            fun _ _ _ => ih values

theorem coupled_builtin (b : Builtin) (args : List Value) {p q : Option Position}
    (places : S.Places p q) :
    S.Coupled w Eq (Eval.locate p (b.apply args)) (Eval.locate q (b.apply args)) := by
  intro s t stores
  unfold Eval.locate
  rcases b.apply_cases args with ⟨value, text, happly⟩ | ⟨cause, happly⟩
  · rw [happly s, happly t]
    exact .done rfl (S.write stores text)
  · rw [happly s, happly t]
    exact .stopped (.failed places) stores

theorem coupled_applyFunction {visit visit' : Visit} (visits : S.Visits visit visit')
    {f k : Function} (functions : S.Functions w f k) (args : List Value)
    {p q : Option Position} (places : S.Places p q) :
    S.Coupled w Eq (Eval.applyFunction visit f args p) (Eval.applyFunction visit' k args q) := by
  cases functions with
  | builtin b => exact coupled_builtin b args places
  | @user name params body body' g h trees closures =>
      unfold Eval.applyFunction
      by_cases hlen : args.length = params.length
      · simp only [if_pos hlen]
        refine coupled_inChild closures fun handles' => ?_
        exact Coupled.bind (coupled_bindAll handles' params args) fun _ _ _ =>
          coupled_catchReturn (visits trees handles')
      · simp only [if_neg hlen]
        exact Coupled.fail places

theorem coupled_call {visit visit' : Visit} (visits : S.Visits visit visit') {g h : Handle}
    (handles : S.Handles w g h) (name : String) {xs ys : List Node}
    (trees : List.Forall₂ S.Trees xs ys) {p q : Option Position} (places : S.Places p q) :
    S.Coupled w Eq (Eval.call visit g name xs p) (Eval.call visit' h name ys q) := by
  refine Coupled.bind (coupled_lookupFunction handles name places) fun f k functions => ?_
  refine Coupled.bind (Coupled.arguments visits handles trees) ?_
  intro values second same
  subst same
  exact coupled_applyFunction visits functions values places

/-! ## Nodes and trees -/

/-- Nodes of the same form end alike if the nodes below them do. -/
theorem coupled_node {mode mode' : Mode} (sameOperators : mode.shortCircuit = mode'.shortCircuit)
    (sameRounds : mode.rounds = mode'.rounds) {visit visit' : Visit}
    (visits : S.Visits visit visit') {n n' : Node} (alike : S.Alike n n') {g h : Handle}
    (handles : S.Handles w g h) :
    S.Coupled w Eq (Eval.node mode visit n g) (Eval.node mode' visit' n' h) := by
  cases alike with
  | root trees => exact Coupled.sequence visits handles trees .nil
  | block trees =>
      exact coupled_inChild (S.closure handles) fun handles' =>
        Coupled.sequence visits handles' trees .nil
  | number | boolean | string | nil => exact Coupled.pure rfl
  | reference places => exact coupled_lookup handles _ places
  | group tree => exact visits tree handles
  | unary tree places => exact Coupled.unary visits handles tree places _
  | @binary operator _ _ _ _ _ _ left right places =>
      cases hop : Operator.logical? operator with
      | none =>
          rw [node_of_strict hop, node_of_strict hop]
          exact Coupled.strict visits handles left right places operator
      | some pair =>
          obtain ⟨decisive, join⟩ := pair
          rw [node_of_logical hop, node_of_logical hop]
          exact Coupled.logical sameOperators visits handles left right places operator decisive
            join
  | @assign name _ _ outer _ _ tree outward =>
      refine Coupled.bind (visits tree handles) ?_
      intro value second same
      subst same
      cases outer with
      | true =>
          exact Coupled.bind (coupled_update fun stores =>
              S.assignOuter (outward rfl) stores handles name value) fun _ _ _ =>
            Coupled.pure rfl
      | false =>
          exact Coupled.bind (coupled_update fun stores => S.assign stores handles name value)
            fun _ _ _ => Coupled.pure rfl
  | ifThen condition places body =>
      refine Coupled.bind (Coupled.condition visits handles condition places "if") ?_
      intro b second same
      subst same
      cases b with
      | true => exact visits body handles
      | false => exact Coupled.pure rfl
  | ifElse condition places body otherwise =>
      refine Coupled.bind (Coupled.condition visits handles condition places "if") ?_
      intro b second same
      subst same
      cases b with
      | true => exact visits body handles
      | false => exact visits otherwise handles
  | whileLoop condition places body =>
      unfold Eval.node
      rw [← sameRounds]
      exact Coupled.bind
        (Coupled.repeatWhile (Coupled.condition visits handles condition places "while")
          (visits body handles) mode.rounds)
        fun _ _ _ => Coupled.pure rfl
  | function body =>
      exact Coupled.bind (coupled_update fun stores => S.declare stores handles body _ _)
        fun _ _ _ => Coupled.pure rfl
  | call trees places => exact coupled_call visits handles _ trees places
  | ret tree =>
      refine Coupled.bind (visits tree handles) ?_
      intro value second same
      subst same
      exact Coupled.stop (.returned value)
  | blank tree => exact Coupled.stop (.meaningless tree)

/-- If corresponding trees always have the same form, evaluating them ends alike. -/
theorem visits_nested (alike : ∀ {n n'}, S.Trees n n' → S.Alike n n') (mode : Mode)
    (depth : Nat) : S.Visits (Eval.nested mode depth) (Eval.nested mode depth) := by
  induction depth with
  | zero => exact fun _ _ => Coupled.stop .tooDeep
  | succ depth ih => exact fun trees handles => coupled_node rfl rfl ih (alike trees) handles

end Simulation

end Scriptlet
