import SceneScript.Bindings
import SceneScript.Error

/-! A tree of scopes. Scopes are numbered in the order they are made; every scope but the root has
a parent made before it, and a name is looked for from a scope towards the root. -/

namespace SceneScript

/-- A scope of a tree: the number of its parent and its own bindings. -/
structure ScopeNode (α : Type) where
  parent : Option Nat
  bindings : Bindings α

/-- A tree of scopes, the newest first. A scope's number is the number of scopes made before it. -/
structure ScopeTree (α : Type) where
  nodes : List (ScopeNode α)

namespace ScopeTree

variable {α : Type}

/-- The tree of a root alone. -/
def root : ScopeTree α := ⟨[⟨none, .empty⟩]⟩

/-- How many scopes there are, which is also the number of the next one. -/
def size (t : ScopeTree α) : Nat := t.nodes.length

/-- The tree with a new scope below the scope `e`. -/
def child (t : ScopeTree α) (e : Nat) : ScopeTree α := ⟨⟨some e, .empty⟩ :: t.nodes⟩

/-- The numbers of the scopes from the scope `e` to the root, in a list of nodes. -/
def pathIn : List (ScopeNode α) → Nat → List Nat
  | [], _ => []
  | node :: rest, e =>
    if e = rest.length then
      e :: match node.parent with
        | none => []
        | some p => pathIn rest p
    else pathIn rest e

/-- The numbers of the scopes from the scope `e` to the root. -/
def path (t : ScopeTree α) (e : Nat) : List Nat := pathIn t.nodes e

/-- The bindings of a scope. -/
def bindings (t : ScopeTree α) (e : Nat) : Bindings α :=
  match t.nodes.reverse[e]? with
  | some node => node.bindings
  | none => .empty

/-- Changes the bindings of the scope `e`, in a list of nodes. -/
def modifyIn (f : Bindings α → Bindings α) (e : Nat) : List (ScopeNode α) → List (ScopeNode α)
  | [] => []
  | node :: rest =>
    if e = rest.length then { node with bindings := f node.bindings } :: rest
    else node :: modifyIn f e rest

/-- Binds a name in the scope `e` and nowhere else. -/
def define (t : ScopeTree α) (e : Nat) (name : String) (v : α) : ScopeTree α :=
  ⟨modifyIn (·.put name v) e t.nodes⟩

/-- The nearest scope from `e` on that binds a name. -/
def nearest? (t : ScopeTree α) (e : Nat) (name : String) : Option Nat :=
  (t.path e).find? fun i => (t.bindings i).binds name

/-- Rebinds a name in the nearest scope that binds it, and binds it in `e` when none does. -/
def assign (t : ScopeTree α) (e : Nat) (name : String) (v : α) : ScopeTree α :=
  t.define ((t.nearest? e name).getD e) name v

/-- What a name is bound to in the nearest scope from `e` on that binds it. -/
def lookup (t : ScopeTree α) (e : Nat) (name : String) : Option α :=
  (t.path e).findSome? fun i => (t.bindings i).get? name

/-- What a name is bound to, or the error that it is not. -/
def get (t : ScopeTree α) (e : Nat) (name : String) : Except RuntimeCause α :=
  match t.lookup e name with
  | some v => .ok v
  | none => .error (.undefined name)

/-- Whether a name is bound in a scope from `e` on. -/
def has (t : ScopeTree α) (e : Nat) (name : String) : Bool := (t.lookup e name).isSome

end ScopeTree

end SceneScript
