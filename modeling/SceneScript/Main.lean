import SceneScript.Command

/-! The program as a command: arguments, files and the terminal. -/

namespace SceneScript.Main

/-- The machine of this command, within what its stack has room for. -/
def machine : Machine Binding := Console.machine 1000 5000

/-- Writes to the terminal what a step of the prompt wrote. -/
def write (w : Prompt.Write) : IO Unit := do
  match w with
  | .out text =>
    let stdout ← IO.getStdout
    stdout.putStr text
    stdout.flush
  | .err text => (← IO.getStderr).putStr text

/-- Ends with an exit code, or with an uncaught failure. -/
def leave : Exit → IO UInt32
  | .code n => return n.toUInt32
  | .broken f => throw (IO.userError (reprStr f))

/-- Reads lines and hands them to the prompt until the input ends or the prompt breaks off. -/
partial def listen (quiet : Bool) (p : Prompt) : IO UInt32 := do
  let line ← (← IO.getStdin).getLine
  if line.isEmpty then leave (.code 0)
  else
    let (writes, next) := Prompt.step machine quiet p ((line.dropEndWhile (· == '\n')).toString)
    writes.forM write
    match next with
    | .ok p => listen quiet p
    | .error f => leave (.broken f)

/-- Writes what a command leaves behind and ends as it ended. -/
def finish (o : Outcome) : IO UInt32 := do
  (← IO.getStdout).putStr o.stdout
  (← IO.getStderr).putStr o.stderr
  leave o.exit

end SceneScript.Main

open SceneScript in
def main (args : List String) : IO UInt32 := do
  match Command.ofArgs args with
  | .play file config =>
    let source ← IO.FS.readFile file
    Main.finish (Playback.playSource Main.machine config source)
  | .prompt config =>
    Main.write (.out (Prompt.ask none))
    Main.listen config.quiet (Prompt.start config)
  | command => Main.finish (command.outcome Main.machine (fun _ => "") [])
