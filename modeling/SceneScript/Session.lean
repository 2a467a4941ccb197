import SceneScript.Run.Call

/-! Sessions: what a host does with scripts. A machine fixes what native functions do and how deep
calls and expressions may nest; a session is the state that its operations leave behind. -/

namespace SceneScript

/-- What native functions do, how many calls may nest and how deep an expression may. The language
sets neither limit: both belong to whatever scripts run on. -/
structure Machine (ν : Type) where
  natives : Natives ν
  depth : Nat
  room : Nat

namespace Machine

variable {ν : Type}

/-- What a call does. -/
def invoke (m : Machine ν) : Invoke ν := Run.invoke m.natives m.room m.depth

/-- Runs a program against the globals. -/
def run (m : Machine ν) (p : Program) : Run ν Unit := Run.program m.invoke m.room p

/-- The value of an expression against the globals. -/
def eval (m : Machine ν) (e : Expr) : Run ν (Value ν) :=
  Run.onGlobals (Run.eval m.invoke m.room e)

/-- Runs the program registered for an event. -/
def trigger (m : Machine ν) (event : String) : Run ν (Except RuntimeError Unit) :=
  Run.trigger m.invoke m.room event

/-- Calls a global function. -/
def call (m : Machine ν) (name : String) (args : List (Value ν)) :
    Run ν (Except RuntimeError (Value ν)) :=
  Run.call m.invoke name args

end Machine

namespace State

variable {ν : Type}

/-- A state in which the given native functions and then the given globals are bound. -/
def init (natives : List (String × ν)) (globals : List (String × Value ν)) : State ν :=
  let s := natives.foldl (fun s e => s.setNative e.1 e.2) empty
  globals.foldl (fun s e => s.setGlobal e.1 e.2) s

/-- Whether a program is registered for an event. -/
def hasEvent (s : State ν) (event : String) : Bool := s.events.binds event

/-- The events in the order in which they were first named. -/
def eventNames (s : State ν) : List String := s.events.names

/-- The globals that are no native functions, in the order of their names. -/
def dump (s : State ν) : List (String × Value ν) :=
  let own := s.scopes.globals.entries.filter fun e =>
    match e.2 with
    | .fn (.native ..) => false
    | _ => true
  own.mergeSort fun a b => Text.unitsLe a.1 b.1

end State

end SceneScript
