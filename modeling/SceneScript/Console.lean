import SceneScript.Native.Binding
import SceneScript.Session

/-! The console: a host without a screen or a keyboard, on which drawing commands are lines. -/

namespace SceneScript.Console

variable {ν : Type}

/-- The line that something put out becomes. A quiet console shows no drawing. -/
def line? (quiet : Bool) : Output ν → Option String
  | .print line => some line
  | .draw command => if quiet then none else some command.line
  | .record _ => none

/-- The lines of everything put out. -/
def lines (quiet : Bool) (outputs : List (Output ν)) : List String :=
  outputs.filterMap (line? quiet)

/-- No key is ever down or pressed on a console. -/
def keyboard : Keyboard := ⟨[], []⟩

/-- Whether a key is down and whether it was just pressed. -/
def keyState (key : Number) : Bool × Bool :=
  (keyboard.down.contains (key.writtenIn .signed),
    keyboard.pressed.contains (key.writtenIn .signed))

/-- What the native functions of a console do. -/
def natives : Natives Binding := fun b _ args => b.request args

/-- The machine of a console on which so many calls may nest and expressions so deep. -/
def machine (depth room : Nat) : Machine Binding := ⟨natives, depth, room⟩

/-- The state of a console before its first script. -/
def start : State Binding := Binding.install id { State.empty with keyboard := keyboard }

end SceneScript.Console
