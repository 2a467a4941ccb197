import SceneScript.Prompt

/-! The command: what a list of arguments makes the program do. -/

namespace SceneScript

/-- The text that explains the command. -/
def usage : String :=
  "usage: cuescript [file] [--event NAME] [--frames N] [--dt SECONDS] [--width W] [--height H] " ++
  "[--quiet]\n\n" ++
  "  file      script registered as event NAME (default \"render\") and triggered " ++
  "once per frame\n" ++
  "  (none)    interactive prompt; a line ending in ':' opens a block, an empty line closes it"

/-- What the program is asked to do. -/
inductive Command where
  | refuse (e : UsageError)
  | explain
  | play (file : String) (config : Config)
  | prompt (config : Config)
deriving DecidableEq, Repr

namespace Command

/-- The command that some arguments stand for. A file with an empty name is no file. -/
def ofArgs (args : List String) : Command :=
  match Config.ofArgs args with
  | .error e => .refuse e
  | .ok config =>
    if config.help then .explain
    else match config.file with
      | some file => if file = "" then .prompt config else .play file config
      | none => .prompt config

/-- What a command leaves behind on a machine, given the texts of files and the lines of its
input. -/
def outcome (m : Machine Binding) (readFile : String → String) (lines : List String) :
    Command → Outcome
  | .refuse e => ⟨"", unlines [e.message], .code 2⟩
  | .explain => ⟨unlines [usage], "", .code 0⟩
  | .play file config => Playback.playSource m config (readFile file)
  | .prompt config => Prompt.outcome m config lines

end Command

end SceneScript
