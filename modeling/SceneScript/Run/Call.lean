import SceneScript.Run.Eval

/-! Calls. A procedure runs in a scope of its own inside its caller's; a native function's requests
are carried out one by one. Calls nest up to a limit, and so does calling back from a native
function. An expression that is nested too deep fails the procedure it stands in; outside every
procedure nothing turns its failure into an error of the script. -/

namespace SceneScript

/-- What native functions do: the requests of a key, registered under a name, with some
arguments. -/
abbrev Natives (ν : Type) := ν → String → List (Value ν) → Request ν (Value ν)

/-- The ways into a script from outside every call. -/
structure Entry (ν : Type) where
  trigger : String → Run ν (Except RuntimeError Unit)
  call : String → List (Value ν) → Run ν (Except RuntimeError (Value ν))

/-- The ways in when no further call may nest: none. -/
def Entry.closed {ν : Type} : Entry ν := ⟨fun _ => Run.refuse, fun _ _ => Run.refuse⟩

/-- The scope of a call: the parameters bound in order to the arguments, or to nothing where there
are too few. -/
def Procedure.scope {ν : Type} (p : Procedure) (args : List (Value ν)) : Bindings (Value ν) :=
  bind .empty p.params args
where
  bind (b : Bindings (Value ν)) : List String → List (Value ν) → Bindings (Value ν)
    | [], _ => b
    | name :: names, [] => bind (b.put name .nil) names []
    | name :: names, v :: vs => bind (b.put name v) names vs

namespace Run

variable {ν α : Type}

/-- Carries out the requests of a native function. -/
def perform (entry : Entry ν) : Request ν α → Run ν α
  | .done a => return a
  | .fail e => throw (.script e)
  | .crash e => throw (.host e)
  | .lookup name next => do
    let v ← lookup name
    perform entry (next v)
  | .assign name v next => do
    assign name v
    perform entry next
  | .define name v next => do
    define name v
    perform entry next
  | .depth next => do
    let s ← get
    perform entry (next s.scopes.depth)
  | .trigger event next => do
    let r ← entry.trigger event
    perform entry (next r)
  | .call name args next => do
    let r ← entry.call name args
    perform entry (next r)
  | .emit o next => do
    emit o
    perform entry next
  | .keyDown key next => do
    let s ← get
    perform entry (next (s.keyboard.down.contains (key.writtenIn .signed)))
  | .keyPressed key next => do
    let s ← get
    perform entry (next (s.keyboard.pressed.contains (key.writtenIn .signed)))

/-- Runs a program against the globals. -/
def program (invoke : Invoke ν) (room : Nat) (p : Program) : Run ν Unit :=
  onGlobals do
    let _ ← execAll invoke room p
    return

/-- Runs the program registered for an event against the globals. An event without one does
nothing. -/
def trigger (invoke : Invoke ν) (room : Nat) (event : String) :
    Run ν (Except RuntimeError Unit) :=
  attempt do
    match (← get).events.get? event with
    | some p => program invoke room p
    | none => return

/-- Calls a global function from outside every call. -/
def call (invoke : Invoke ν) (name : String) (args : List (Value ν)) :
    Run ν (Except RuntimeError (Value ν)) :=
  attempt (onGlobals do
    let f ← callee name none
    invoke f args)

/-- The ways into a script whose calls are made by `invoke`. -/
def entry (invoke : Invoke ν) (room : Nat) : Entry ν := ⟨trigger invoke room, call invoke⟩

/-- Calls a callable while at most `depth` further calls may nest. Every body has the whole `room`
for its expressions. -/
def invoke (natives : Natives ν) (room : Nat) : Nat → Invoke ν
  | 0, .native name key, args => perform .closed (natives key name args)
  | 0, .proc p, _ => overflow p.name
  | depth + 1, .native name key, args =>
    perform (entry (invoke natives room depth) room) (natives key name args)
  | depth + 1, .proc p, args =>
    refusing p.name (inScope (p.scope args) do
      match ← execAll (invoke natives room depth) room p.body with
      | .returned v => return v
      | .next => return .nil)

end Run

end SceneScript
