import SceneScript.Request
import SceneScript.Scope

/-! The state of a running script and the steps that a run is made of. A run that fails keeps the
state it had reached. -/

namespace SceneScript

/-- The keys that are held and those that were just pressed, each by the text of its code. They stay
as they are while a script runs: a host whose answers change in the middle of a run is left out. -/
structure Keyboard where
  down : List String
  pressed : List String
deriving DecidableEq, Repr, Inhabited

/-- Everything that outlives a statement. -/
structure State (ν : Type) where
  scopes : Scopes (Value ν)
  /-- The programs registered for events, in the order in which the events were first named. -/
  events : Bindings Program
  /-- What has been put out, oldest first. -/
  outputs : Array (Output ν)
  keyboard : Keyboard
  /-- Whether a call or an expression was ever refused because there was no room for it. -/
  overflowed : Bool

/-- Why a run stops before its end. -/
inductive Failure where
  | script (e : RuntimeError)
  | host (e : HostError)
  /-- Too many calls were going on for a native function to call back, or an expression was nested
  too deep. -/
  | exhausted
  /-- A loop went on past every number it could count to. -/
  | endless
deriving DecidableEq, Repr

/-- A step of a run. -/
abbrev Run (ν α : Type) := ExceptT Failure (StateM (State ν)) α

namespace State

variable {ν : Type}

/-- A state without globals. -/
def empty : State ν := ⟨.ofGlobals .empty, .empty, #[], ⟨[], []⟩, false⟩

instance : Inhabited (State ν) := ⟨empty⟩

/-- What a global is bound to. -/
def global? (s : State ν) (name : String) : Option (Value ν) := s.scopes.globals.get? name

/-- Binds a global. -/
def setGlobal (s : State ν) (name : String) (v : Value ν) : State ν :=
  { s with scopes := { s.scopes with globals := s.scopes.globals.put name v } }

/-- Binds a global to a native function of its own name. -/
def setNative (s : State ν) (name : String) (key : ν) : State ν :=
  s.setGlobal name (.fn (.native name key))

/-- Registers the program of an event, in place of an earlier one. -/
def register (s : State ν) (event : String) (program : Program) : State ν :=
  { s with events := s.events.put event program }

end State

namespace Run

variable {ν α : Type}

/-- Stops with an error of the script. -/
def fail (cause : RuntimeCause) (pos : Option Pos) : Run ν α :=
  throw (.script ⟨cause, pos⟩)

/-- A result, or its error at the given place. -/
def located (pos : Pos) : Except RuntimeCause α → Run ν α
  | .ok a => pure a
  | .error cause => fail cause (some pos)

/-- Changes the scopes. -/
def onScopes (f : Scopes (Value ν) → Scopes (Value ν)) : Run ν Unit :=
  modify fun s => { s with scopes := f s.scopes }

/-- Binds a name in the innermost scope. -/
def define (name : String) (v : Value ν) : Run ν Unit := onScopes (·.define name v)

/-- Rebinds a name where it is bound, or binds it in the innermost scope. -/
def assign (name : String) (v : Value ν) : Run ν Unit := onScopes (·.assign name v)

/-- What a name is bound to. -/
def lookup (name : String) : Run ν (Option (Value ν)) := return (← get).scopes.lookup name

/-- What a name is bound to. A name that is not bound is an error at the given place. -/
def fetch (name : String) (pos : Option Pos) : Run ν (Value ν) := do
  match ← lookup name with
  | some v => return v
  | none => fail (.undefined name) pos

/-- The callable that a name is bound to. -/
def callee (name : String) (pos : Option Pos) : Run ν (Callable ν) := do
  match ← fetch name pos with
  | .fn f => return f
  | _ => fail (.notCallable name) pos

/-- Puts something out. -/
def emit (o : Output ν) : Run ν Unit := modify fun s => { s with outputs := s.outputs.push o }

/-- Runs in a new innermost scope, which is gone afterwards, also after a failure. -/
def inScope (f : Bindings (Value ν)) (x : Run ν α) : Run ν α :=
  ExceptT.mk fun s =>
    let (r, s) := x.run { s with scopes := s.scopes.push f }
    (r, { s with scopes := s.scopes.pop })

/-- Runs with no local scope. The local scopes wait and are back afterwards, also after a
failure. -/
def onGlobals (x : Run ν α) : Run ν α :=
  ExceptT.mk fun s =>
    let (r, s) := x.run { s with scopes := s.scopes.enter }
    (r, { s with scopes := s.scopes.leave })

/-- Runs and turns an error of the script into a result. Other failures pass. -/
def attempt (x : Run ν α) : Run ν (Except RuntimeError α) :=
  ExceptT.mk fun s =>
    match x.run s with
    | (.ok a, s) => (.ok (.ok a), s)
    | (.error (.script e), s) => (.ok (.error e), s)
    | (.error f, s) => (.error f, s)

/-- Refuses to go on because there is no room: too many calls are going on for a native function to
call back, or an expression is nested too deep. -/
def refuse : Run ν α := do
  modify fun s => { s with overflowed := true }
  throw .exhausted

/-- Refuses a call of the named procedure because too many calls are going on. -/
def overflow (name : String) : Run ν α := do
  modify fun s => { s with overflowed := true }
  fail (.stackOverflow name) none

/-- Runs the body of the named procedure. Where there was no room to go on in it, the procedure
counts as refused. -/
def refusing (name : String) (x : Run ν α) : Run ν α :=
  ExceptT.mk fun s =>
    match x.run s with
    | (.error .exhausted, s) => (overflow name : Run ν α).run s
    | r => r

end Run

end SceneScript
