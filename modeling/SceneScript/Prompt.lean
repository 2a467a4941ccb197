import SceneScript.Playback
import SceneScript.Text.Blank

/-! The interactive prompt. Lines are gathered to chunks: a line that ends in a colon opens a block
that goes on to the next blank line, and any other line is a chunk of its own. Chunks run one after
another on what the earlier ones left behind, until one fails for which no script is to blame. -/

namespace SceneScript

/-- The text of the block that is being entered, if one is. -/
abbrev Pending := Option String

/-- The prompt between two lines: what the chunks so far left behind and the block being
entered. -/
structure Prompt where
  state : State Binding
  pending : Pending

namespace Prompt

/-- Whether a line ends in a colon, blanks aside. -/
def opensBlock (line : String) : Bool := (Text.trimEnd line.toList).getLast? == some ':'

/-- What a line makes of the block being entered, and the chunk that it completes if any. -/
def feed (pending : Pending) (line : String) : Pending × Option String :=
  match pending with
  | some text =>
    if Text.allBlank line then (none, some text) else (some (text ++ line ++ "\n"), none)
  | none =>
    if opensBlock line then (some (line ++ "\n"), none)
    else if Text.allBlank line then (none, none)
    else (none, some line)

/-- The text that asks for a line. -/
def ask : Pending → String
  | some _ => "...> "
  | none => "cue> "

/-- Something written to one of the two ends of a terminal. -/
inductive Write where
  | out (text : String)
  | err (text : String)
deriving DecidableEq, Repr

/-- The expression that a program is, if it is nothing else. -/
def lone? : Program → Option Expr
  | [.expr _ e] => some e
  | _ => none

/-- Runs a program, and gives the text of its value when it is a lone expression. -/
def execute (m : Machine Binding) (p : Program) : Run Binding (Option String) :=
  match lone? p with
  | some e => do
    let v ← m.eval e
    return some v.text
  | none => do
    m.run p
    return none

/-- Runs a chunk. It gives what the chunk wrote and the state behind it, or the failure that the
prompt breaks off with. The prompt goes on only after errors of the script. -/
def evalChunk (m : Machine Binding) (quiet : Bool) (s : State Binding) (chunk : String) :
    List Write × Except Failure (State Binding) :=
  match Program.ofSource chunk with
  | .error e => ([.err (e.message ++ "\n")], .ok s)
  | .ok p =>
    let (r, t) := (execute m p).run { s with outputs := #[] }
    let shown := (Console.lines quiet t.outputs.toList).map fun l => Write.out (l ++ "\n")
    match r with
    | .ok (some echo) => (shown ++ [.out (echo ++ "\n")], .ok t)
    | .ok none => (shown, .ok t)
    | .error (.script e) => (shown ++ [.err ((ScriptError.runtime e).message ++ "\n")], .ok t)
    | .error f => (shown, .error f)

/-- The prompt before its first line. -/
def start (config : Config) : Prompt :=
  ⟨((Clock.new config.viewport).init Console.start).2, none⟩

/-- Takes a line and asks for the next one, unless it breaks off. -/
def step (m : Machine Binding) (quiet : Bool) (p : Prompt) (line : String) :
    List Write × Except Failure Prompt :=
  let (pending, chunk) := feed p.pending line
  let (writes, ran) := match chunk with
    | some chunk => evalChunk m quiet p.state chunk
    | none => ([], .ok p.state)
  match ran with
  | .ok state => (writes ++ [.out (ask pending)], .ok ⟨state, pending⟩)
  | .error f => (writes, .error f)

/-- Takes all lines, asking for one before each and after the last. Where the prompt breaks off, the
lines behind are not taken. -/
def session (m : Machine Binding) (config : Config) (lines : List String) : List Write × Exit :=
  let (writes, exit) := go (start config) lines
  (.out (ask none) :: writes, exit)
where
  go (p : Prompt) : List String → List Write × Exit
    | [] => ([], .code 0)
    | line :: rest =>
      let (writes, next) := step m config.quiet p line
      match next with
      | .ok p =>
        let (more, exit) := go p rest
        (writes ++ more, exit)
      | .error f => (writes, .broken f)

/-- The text that went to the output, if it did. -/
def Write.out? : Write → Option String
  | .out text => some text
  | .err _ => none

/-- The text that went to the errors, if it did. -/
def Write.err? : Write → Option String
  | .out _ => none
  | .err text => some text

/-- What a whole session at the prompt leaves behind. -/
def outcome (m : Machine Binding) (config : Config) (lines : List String) : Outcome :=
  let (ws, exit) := session m config lines
  ⟨String.join (ws.filterMap Write.out?), String.join (ws.filterMap Write.err?), exit⟩

end Prompt

end SceneScript
