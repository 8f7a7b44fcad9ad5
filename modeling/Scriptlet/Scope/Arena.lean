import Scriptlet.OrderedMap

/-!
# Scopes

Scopes live in an arena and are known by handles. Every scope but the root has a parent with a
smaller handle, and handles are never given out twice. A name is looked up along the chain of
parents.
-/

namespace Scriptlet

/-- The handles given out count up from the root, which has zero. -/
abbrev Handle := Int

structure Scope (α φ : Type) where
  parent : Option Handle
  vars : OrderedMap String α := .empty
  functions : OrderedMap String φ := .empty

structure Arena (α φ : Type) where
  scopes : OrderedMap Handle (Scope α φ)
  next : Handle

namespace Arena

variable {α φ : Type}

inductive Fault where
  /-- A scope that is not there was to become a parent. -/
  | noParent (handle : Handle)
  /-- A scope that is not there was asked for. -/
  | noScope (handle : Handle)
  | unbound (name : String)
  deriving DecidableEq, Repr

def rootHandle : Handle := 0

def ofFunctions (functions : List (String × φ)) : Arena α φ :=
  ⟨.singleton rootHandle ⟨none, .empty, .ofList functions⟩, rootHandle + 1⟩

def contains (a : Arena α φ) (h : Handle) : Bool := a.scopes.contains h

def size (a : Arena α φ) : Nat := a.scopes.size

def handles (a : Arena α φ) : List Handle := a.scopes.keys

/-- The scopes from one outwards. A chain breaks at a handle that is not there. -/
structure Chain (α φ : Type) where
  links : List (Handle × Scope α φ)
  broken : Option Handle

/-- Parents have smaller handles, and none is below zero, so a chain from `h` has at most `h + 1`
links. -/
def chainFrom (a : Arena α φ) : (fuel : Nat) → Handle → Chain α φ
  | 0, h => ⟨[], some h⟩
  | fuel + 1, h =>
      match a.scopes.get? h with
      | none => ⟨[], some h⟩
      | some scope =>
          match scope.parent with
          | none => ⟨[(h, scope)], none⟩
          | some parent =>
              let outer := chainFrom a fuel parent
              ⟨(h, scope) :: outer.links, outer.broken⟩

def chain (a : Arena α φ) (h : Handle) : Chain α φ := a.chainFrom (h.toNat + 1) h

/-- The fault of a search that found nothing: a break in the chain comes before the name. -/
def Chain.fault (c : Chain α φ) (name : String) : Fault :=
  match c.broken with
  | some h => .noScope h
  | none => .unbound name

/-- The innermost binding of a variable. -/
def lookup (a : Arena α φ) (h : Handle) (name : String) : Except Fault α :=
  let c := a.chain h
  match c.links.findSome? fun link => link.2.vars.get? name with
  | some value => .ok value
  | none => .error (c.fault name)

def lookupFunction (a : Arena α φ) (h : Handle) (name : String) : Except Fault φ :=
  let c := a.chain h
  match c.links.findSome? fun link => link.2.functions.get? name with
  | some function => .ok function
  | none => .error (c.fault name)

def put (a : Arena α φ) (h : Handle) (scope : Scope α φ) : Arena α φ :=
  { a with scopes := a.scopes.set h scope }

/-! ## Operations -/

/-- Work on an arena. It comes to a result or to a fault, and in both cases to the arena as it has
left it. -/
def Action (α φ β : Type) : Type := Arena α φ → Except Fault β × Arena α φ

namespace Action

variable {β γ : Type}

def pure (b : β) : Action α φ β := fun a => (.ok b, a)

def bind (m : Action α φ β) (f : β → Action α φ γ) : Action α φ γ := fun a =>
  match m a with
  | (.ok b, a') => f b a'
  | (.error fault, a') => (.error fault, a')

instance : Monad (Action α φ) where
  pure := Action.pure
  bind := Action.bind

def fail (fault : Fault) : Action α φ β := fun a => (.error fault, a)

def inspect (f : Arena α φ → β) : Action α φ β := fun a => (.ok (f a), a)

def change (f : Arena α φ → Arena α φ) : Action α φ Unit := fun a => (.ok (), f a)

end Action

open Scriptlet.Arena.Action

def scopeAt (h : Handle) : Action α φ (Scope α φ) := do
  match ← inspect (·.scopes.get? h) with
  | some scope => return scope
  | none => fail (.noScope h)

def extend (parent : Handle) : Action α φ Handle := do
  unless ← inspect (·.contains parent) do fail (.noParent parent)
  let handle ← inspect (·.next)
  change fun a => { a with next := a.next + 1 }
  change (·.put handle ⟨some parent, .empty, .empty⟩)
  return handle

/-- Remove a scope; the root stays. -/
def discard (h : Handle) : Action α φ Unit := do
  if h ≠ rootHandle then
    let _ ← scopeAt h
    change fun a => { a with scopes := a.scopes.erase h }

def assign (h : Handle) (name : String) (value : α) : Action α φ Unit := do
  let scope ← scopeAt h
  change (·.put h { scope with vars := scope.vars.set name value })

/-- Change the innermost binding of a variable, scope after scope from `h` outwards. -/
def assignOuterFrom (name : String) (value : α) : (fuel : Nat) → Handle → Action α φ Bool
  | 0, h => fail (.noScope h)
  | fuel + 1, h => do
      let scope ← scopeAt h
      if scope.vars.contains name then
        change (·.put h { scope with vars := scope.vars.set name value })
        return true
      else
        match scope.parent with
        | none => return false
        | some parent => assignOuterFrom name value fuel parent

/-- Change the innermost binding of a variable. Without one nothing happens. -/
def assignOuter (h : Handle) (name : String) (value : α) : Action α φ Bool :=
  assignOuterFrom name value (h.toNat + 1) h

def declare (h : Handle) (name : String) (function : φ) : Action α φ Unit := do
  let scope ← scopeAt h
  change (·.put h { scope with functions := scope.functions.set name function })

end Arena

end Scriptlet
