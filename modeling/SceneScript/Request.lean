import SceneScript.Draw
import SceneScript.Value

/-! What native functions may ask for. A native function is a tree of requests: it reads and writes
variables as its caller sees them, calls back into the script, puts something out or looks at the
keyboard, and goes on with the answer. Nothing else of a run is in its reach. It does not get hold of
the scopes around its caller's one by one, to look up or bind a name in one of them alone. -/

namespace SceneScript

/-- What a run puts out. -/
inductive Output (ν : Type) where
  | print (line : String)
  | draw (command : Draw)
  | record (values : List (Value ν))

/-- A failure of the host itself, which no script can catch. -/
structure HostError where
  message : String
deriving DecidableEq, Repr

/-- The requests of a native function that ends in an `α`. -/
inductive Request (ν α : Type) where
  | done (value : α)
  /-- Stops with an error of the script. -/
  | fail (e : RuntimeError)
  /-- Stops with a failure of the host. -/
  | crash (e : HostError)
  | lookup (name : String) (next : Option (Value ν) → Request ν α)
  | assign (name : String) (value : Value ν) (next : Request ν α)
  | define (name : String) (value : Value ν) (next : Request ν α)
  /-- How many calls lie between the caller and the globals. -/
  | depth (next : Nat → Request ν α)
  /-- Runs an event against the globals. -/
  | trigger (event : String) (next : Except RuntimeError Unit → Request ν α)
  /-- Calls a global function from outside every call that is going on. -/
  | call (name : String) (args : List (Value ν))
      (next : Except RuntimeError (Value ν) → Request ν α)
  | emit (output : Output ν) (next : Request ν α)
  | keyDown (key : Number) (next : Bool → Request ν α)
  | keyPressed (key : Number) (next : Bool → Request ν α)

namespace Request

variable {ν α β : Type}

/-- The requests of one function followed by those that its result leads to. -/
def bind : Request ν α → (α → Request ν β) → Request ν β
  | .done a, f => f a
  | .fail e, _ => .fail e
  | .crash e, _ => .crash e
  | .lookup name next, f => .lookup name fun v => (next v).bind f
  | .assign name v next, f => .assign name v (next.bind f)
  | .define name v next, f => .define name v (next.bind f)
  | .depth next, f => .depth fun n => (next n).bind f
  | .trigger event next, f => .trigger event fun r => (next r).bind f
  | .call name args next, f => .call name args fun r => (next r).bind f
  | .emit output next, f => .emit output (next.bind f)
  | .keyDown key next, f => .keyDown key fun b => (next b).bind f
  | .keyPressed key next, f => .keyPressed key fun b => (next b).bind f

instance : Monad (Request ν) where
  pure := .done
  bind := bind

/-- A result, or the error that a native function stops with. Such errors have no place. -/
def ofExcept : Except RuntimeCause α → Request ν α
  | .ok a => .done a
  | .error cause => .fail ⟨cause, none⟩

/-- A result, or an error passed on as it is. -/
def ofOutcome : Except RuntimeError α → Request ν α
  | .ok a => .done a
  | .error e => .fail e

end Request

end SceneScript
