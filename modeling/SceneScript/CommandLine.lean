import SceneScript.Clock
import SceneScript.Number.Numeral

/-! The command line. Options may stand anywhere; of one given twice the first counts, and the
script is the first word that is no option and no option's value. -/

namespace SceneScript

/-- What a command line asks for. -/
structure Config where
  file : Option String
  event : String
  frames : Number
  dt : Number
  viewport : Viewport
  quiet : Bool
  help : Bool
deriving DecidableEq, Repr

/-- Why a command line is refused. -/
inductive UsageError where
  | notNumber (option raw : String)
  | notCount (raw : String)
deriving DecidableEq, Repr

def UsageError.message : UsageError → String
  | .notNumber option raw => option ++ " expects a number, got '" ++ raw ++ "'"
  | .notCount raw => "--frames expects a non-negative integer, got '" ++ raw ++ "'"

namespace Config

/-- The options that take the word behind them as their value. -/
def valued : List String := ["--event", "--frames", "--dt", "--width", "--height"]

/-- The word behind the first occurrence of an option. -/
def option? (name : String) : List String → Option String
  | [] => none
  | arg :: args => if arg = name then args.head? else option? name args

/-- The number given for an option, or its usual value. -/
def numeric (args : List String) (name : String) (usual : Number) : Except UsageError Number :=
  match option? name args with
  | none => .ok usual
  | some raw =>
    let x := Number.read raw
    if Text.allBlank raw || !x.isFinite then .error (.notNumber name raw) else .ok x

/-- Whether a word is an option. -/
def isOption (arg : String) : Bool :=
  match arg.toList with
  | '-' :: '-' :: _ => true
  | _ => false

/-- The first word that is no option and does not stand behind one that takes a value, where
`before` is the word in front of the list. -/
def fileAfter? (before : String) : List String → Option String
  | [] => none
  | arg :: args =>
    if !isOption arg && !valued.contains before then some arg else fileAfter? arg args

/-- How many frames to play, which is a natural number. -/
def frameCount? (x : Number) : Option Nat :=
  match x.integer? with
  | some n => if 0 ≤ n then some n.toNat else none
  | none => none

/-- What a list of arguments asks for. The options are looked at in a fixed order, so of several
faults the same one is told. -/
def ofArgs (args : List String) : Except UsageError Config := do
  let frames ← numeric args "--frames" .one
  if (frameCount? frames).isNone then
    .error (.notCount ((option? "--frames" args).getD ""))
  let dt ← numeric args "--dt" (.ofRatio false 1 60)
  let width ← numeric args "--width" (.ofNat 800)
  let height ← numeric args "--height" (.ofNat 600)
  return {
    file := fileAfter? "" args
    event := (option? "--event" args).getD "render"
    frames
    dt
    viewport := ⟨width, height⟩
    quiet := args.contains "--quiet"
    help := args.contains "--help" }

end Config

end SceneScript
