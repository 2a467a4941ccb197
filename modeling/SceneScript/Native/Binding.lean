import SceneScript.Native.Argument
import SceneScript.Run.State

/-! The bindings that every host offers: printing, drawing and the keyboard, and names for a few
colours. -/

namespace SceneScript

/-- The native functions of a host. -/
inductive Binding where
  | print
  | drawText
  | drawRect
  | drawRectLines
  | drawCircle
  | clear
  | isKeyDown
  | isKeyPressed
deriving DecidableEq, Repr

namespace Binding

variable {ν : Type}

/-- The native functions in the order in which they are bound. -/
def all : List Binding :=
  [.print, .drawText, .drawRect, .drawRectLines, .drawCircle, .clear, .isKeyDown, .isKeyPressed]

/-- The name of a native function. -/
def name : Binding → String
  | .print => "print"
  | .drawText => "drawText"
  | .drawRect => "drawRect"
  | .drawRectLines => "drawRectLines"
  | .drawCircle => "drawCircle"
  | .clear => "clear"
  | .isKeyDown => "isKeyDown"
  | .isKeyPressed => "isKeyPressed"

/-- The text, place, size and colour of a text to draw. -/
def textCommand (args : List (Value ν)) : Except RuntimeCause Draw := do
  let fn := Binding.drawText.name
  Argument.atLeast 5 args fn "text, x, y, size, color"
  let s ← Argument.string args 0 fn
  let x ← Argument.integer args 1 fn
  let y ← Argument.integer args 2 fn
  let size ← Argument.integer args 3 fn
  let color ← Argument.color args 4 fn
  return .text s x y size color

/-- The place, sides and colour of a rectangle, which `make` fills or outlines. -/
def boxCommand (fn : String) (make : Number → Number → Number → Number → Color → Draw)
    (args : List (Value ν)) : Except RuntimeCause Draw := do
  Argument.atLeast 5 args fn "x, y, w, h, color"
  let x ← Argument.integer args 0 fn
  let y ← Argument.integer args 1 fn
  let w ← Argument.integer args 2 fn
  let h ← Argument.integer args 3 fn
  let color ← Argument.color args 4 fn
  return make x y w h color

/-- The place, radius and colour of a circle. The radius keeps its fraction. -/
def circleCommand (args : List (Value ν)) : Except RuntimeCause Draw := do
  let fn := Binding.drawCircle.name
  Argument.atLeast 4 args fn "x, y, radius, color"
  let x ← Argument.integer args 0 fn
  let y ← Argument.integer args 1 fn
  let radius ← Argument.number args 2 fn
  let color ← Argument.color args 3 fn
  return .circle x y radius color

/-- The colour to clear with. -/
def clearCommand (args : List (Value ν)) : Except RuntimeCause Draw := do
  let fn := Binding.clear.name
  Argument.atLeast 1 args fn "color"
  let color ← Argument.color args 0 fn
  return .clear color

/-- Draws one command, or nothing when it cannot be made. -/
def draw (command : Except RuntimeCause Draw) : Request ν (Value ν) := do
  let command ← .ofExcept command
  .emit (.draw command) (.done .nil)

/-- What a native function of a host does. -/
def request (b : Binding) (args : List (Value ν)) : Request ν (Value ν) :=
  match b with
  | .print => .emit (.print (Value.texts args)) (.done .nil)
  | .drawText => draw (textCommand args)
  | .drawRect => draw (boxCommand Binding.drawRect.name .rect args)
  | .drawRectLines => draw (boxCommand Binding.drawRectLines.name .rectLines args)
  | .drawCircle => draw (circleCommand args)
  | .clear => draw (clearCommand args)
  | .isKeyDown => do
    let key ← .ofExcept (Argument.key args 0 Binding.isKeyDown.name)
    .keyDown key fun b => .done (.bool b)
  | .isKeyPressed => do
    let key ← .ofExcept (Argument.key args 0 Binding.isKeyPressed.name)
    .keyPressed key fun b => .done (.bool b)

/-- The names in capitals for a few colours, bound to the colours' own names. -/
def colorNames : List (String × String) :=
  [("WHITE", "white"), ("BLACK", "black"), ("RED", "red"), ("GREEN", "green"), ("BLUE", "blue"),
    ("YELLOW", "yellow")]

/-- Binds the native functions, each by the key that `embed` gives it, and the names of colours. -/
def install (embed : Binding → ν) (s : State ν) : State ν :=
  let s := all.foldl (fun s b => s.setNative b.name (embed b)) s
  colorNames.foldl (fun s e => s.setGlobal e.1 (.str e.2)) s

end Binding

end SceneScript
