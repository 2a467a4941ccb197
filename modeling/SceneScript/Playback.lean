import SceneScript.Clock
import SceneScript.CommandLine
import SceneScript.Console
import SceneScript.Program

/-! Playing a script on the console: it is registered for an event, which is triggered once a frame
until the frames are over or one fails. What the native functions of the console do is up to the
machine it is played on. -/

namespace SceneScript

/-- How a command ends: with an exit code, or broken off by a failure that no script is to blame
for. A command does not handle such a failure and writes nothing about it. An endless loop keeps it
from ending; at any other failure, what the command runs on stops it in a way of its own. -/
inductive Exit where
  | code (n : Nat)
  | broken (f : Failure)
deriving DecidableEq, Repr

/-- What a command leaves behind: the text it wrote, the text of its errors and how it ended. -/
structure Outcome where
  stdout : String
  stderr : String
  exit : Exit
deriving DecidableEq, Repr

/-- Each line ended by a newline. -/
def unlines (ls : List String) : String := String.join (ls.map (· ++ "\n"))

namespace Playback

/-- How a playback ended: every frame was played, or the first error of a script in some frame. A
failure of the machine itself stops it too. -/
inductive Ending where
  | finished
  | failed (frame : Nat) (e : RuntimeError)
  | broken (f : Failure)
deriving DecidableEq, Repr

/-- Plays `n` more frames. -/
def frames (m : Machine Binding) (event : String) (dt : Number) :
    Nat → Clock → State Binding → Ending × State Binding
  | 0, _, s => (.finished, s)
  | n + 1, clock, s =>
    let (clock, s) := clock.tick dt none s
    match (m.trigger event).run s with
    | (.ok (.ok ()), s) => frames m event dt n clock s
    | (.ok (.error e), s) => (.failed clock.frame e, s)
    | (.error f, s) => (.broken f, s)

/-- Plays a program. -/
def play (m : Machine Binding) (config : Config) (program : Program) : Outcome :=
  let s := Console.start.register config.event program
  let (clock, s) := (Clock.new config.viewport).init s
  let count := (Config.frameCount? config.frames).getD 0
  let (ending, s) := frames m config.event config.dt count clock s
  let stdout := unlines (Console.lines config.quiet s.outputs.toList)
  match ending with
  | .finished => ⟨stdout, "", .code 0⟩
  | .failed frame e =>
    ⟨stdout, unlines ["frame " ++ toString frame ++ ": " ++ (ScriptError.runtime e).message],
      .code 1⟩
  | .broken f => ⟨stdout, "", .broken f⟩

/-- Plays a script from its text. -/
def playSource (m : Machine Binding) (config : Config) (source : String) : Outcome :=
  match Program.ofSource source with
  | .error e => ⟨"", unlines [e.message], .code 1⟩
  | .ok program => play m config program

end Playback

end SceneScript
