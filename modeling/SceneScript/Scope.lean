import SceneScript.Bindings

/-! Scopes. A running script sees the globals through the local scopes of the calls that are going
on, innermost first: a call sees the variables of its caller. What a native function calls back sees
the globals alone, and the scopes of the calls it interrupts wait until it has ended. -/

namespace SceneScript

/-- The scopes of a script: the local ones that it sees, innermost first, the globals behind them,
and the local ones that wait, those of the last interrupted calls first. -/
structure Scopes (α : Type) where
  locals : List (Bindings α)
  globals : Bindings α
  waiting : List (List (Bindings α))

namespace Scopes

variable {α : Type}

/-- The globals alone. -/
def ofGlobals (globals : Bindings α) : Scopes α := ⟨[], globals, []⟩

/-- What a name is bound to in the nearest scope that binds it. -/
def lookup (s : Scopes α) (name : String) : Option α :=
  (s.locals.findSome? (·.get? name)).or (s.globals.get? name)

/-- Binds a name in the innermost scope. -/
def define (s : Scopes α) (name : String) (v : α) : Scopes α :=
  match s.locals with
  | [] => { s with globals := s.globals.put name v }
  | f :: fs => { s with locals := f.put name v :: fs }

/-- Rebinds a name in the nearest of some scopes that binds it. -/
def update? (name : String) (v : α) : List (Bindings α) → Option (List (Bindings α))
  | [] => none
  | f :: fs => if f.binds name then some (f.put name v :: fs) else (update? name v fs).map (f :: ·)

/-- Rebinds a name in the nearest scope that binds it, and binds it in the innermost scope when
none does. -/
def assign (s : Scopes α) (name : String) (v : α) : Scopes α :=
  match update? name v s.locals with
  | some locals => { s with locals }
  | none =>
    if s.globals.binds name then { s with globals := s.globals.put name v } else s.define name v

/-- How many local scopes there are. -/
def depth (s : Scopes α) : Nat := s.locals.length

/-- The scopes with a new innermost one. -/
def push (s : Scopes α) (f : Bindings α) : Scopes α := { s with locals := f :: s.locals }

/-- The scopes without the innermost local one. -/
def pop (s : Scopes α) : Scopes α := { s with locals := s.locals.tail }

/-- The scopes with the local ones set aside. -/
def enter (s : Scopes α) : Scopes α := { s with locals := [], waiting := s.locals :: s.waiting }

/-- The scopes with the local ones back that were set aside last. -/
def leave (s : Scopes α) : Scopes α :=
  { s with locals := s.waiting.headD [], waiting := s.waiting.tail }

end Scopes

end SceneScript
