import SceneScript.Command
import SceneScript.Proofs.Run.Hush
import SceneScript.Proofs.Session.Playback

/-! The quiet command. Each thing that a command writes has an origin: it is printed or drawn, the
echo of a value, what asks for a line, an explanation or an error. A quiet command leaves out what
is drawn and nothing else. It is also what the command would be on a machine that does not draw,
since no script can tell whether it does. -/

namespace SceneScript

/-- Whether something put out is not a drawing. -/
def Output.undrawn {ν : Type} : Output ν → Bool
  | .draw _ => false
  | _ => true

/-- Something that a command writes, by its origin. -/
inductive Piece where
  | print (line : String)
  | draw (command : Draw)
  | echo (text : String)
  | ask (pending : Pending)
  | explanation
  | error (message : String)
deriving DecidableEq

namespace Piece

def write : Piece → Prompt.Write
  | .print line => .out (line ++ "\n")
  | .draw command => .out (command.line ++ "\n")
  | .echo text => .out (text ++ "\n")
  | .ask pending => .out (Prompt.ask pending)
  | .explanation => .out (usage ++ "\n")
  | .error message => .err (message ++ "\n")

def undrawn : Piece → Bool
  | .draw _ => false
  | _ => true

/-- What is written of something put out. -/
def ofOutput? : Output Binding → Option Piece
  | .print line => some (.print line)
  | .draw command => some (.draw command)
  | .record _ => none

/-- The pieces of everything put out. -/
def ofOutputs (os : List (Output Binding)) : List Piece := os.filterMap ofOutput?

/-- Whether a command writes a piece. -/
def shown (quiet : Bool) (p : Piece) : Bool := p.undrawn || !quiet

/-- What is written of some pieces. -/
def writes (quiet : Bool) (ps : List Piece) : List Prompt.Write :=
  (ps.filter (shown quiet)).map write

theorem writes_append (quiet : Bool) (ps qs : List Piece) :
    writes quiet (ps ++ qs) = writes quiet ps ++ writes quiet qs := by
  unfold writes
  rw [List.filter_append, List.map_append]

theorem writes_nil (quiet : Bool) : writes quiet [] = [] := rfl

theorem writes_error (quiet : Bool) (message : String) :
    writes quiet [.error message] = [.err (message ++ "\n")] := rfl

theorem writes_ofOutputs (quiet : Bool) (os : List (Output Binding)) :
    writes quiet (ofOutputs os) = (Console.lines quiet os).map fun l => .out (l ++ "\n") := by
  induction os with
  | nil => rfl
  | cons o os ih =>
    unfold writes ofOutputs Console.lines at ih ⊢
    cases o with
    | print line => exact congrArg (List.cons _) ih
    | draw command =>
      cases quiet with
      | true => exact ih
      | false => exact congrArg (List.cons _) ih
    | record values => exact ih

theorem ofOutputs_undrawn (os : List (Output Binding)) :
    ofOutputs (os.filter Output.undrawn) = (ofOutputs os).filter undrawn := by
  induction os with
  | nil => rfl
  | cons o os ih =>
    unfold ofOutputs at ih ⊢
    cases o with
    | print line => exact congrArg (List.cons _) ih
    | draw command => exact ih
    | record values => exact ih

theorem ofOutputs_hush (s : State Binding) :
    ofOutputs (s.hush Output.undrawn).outputs.toList =
      (ofOutputs s.outputs.toList).filter undrawn := by
  unfold State.hush
  rw [Array.toList_filter, ofOutputs_undrawn]

/-- What goes to the output. -/
def stdout (ps : List Piece) : String :=
  String.join ((ps.map write).filterMap Prompt.Write.out?)

/-- What goes to the errors. -/
def stderr (ps : List Piece) : String :=
  String.join ((ps.map write).filterMap Prompt.Write.err?)

/-- No error is drawn. -/
theorem stderr_undrawn (ps : List Piece) : stderr (ps.filter undrawn) = stderr ps := by
  unfold stderr
  refine congrArg String.join ?_
  induction ps with
  | nil => rfl
  | cons p ps ih =>
    cases p with
    | error message => exact congrArg (List.cons _) ih
    | _ => exact ih

end Piece

/-- All that a command writes, quiet or not, and how it ends. -/
structure Transcript where
  pieces : List Piece
  exit : Exit
deriving DecidableEq

namespace Transcript

/-- What is left behind by a command with this transcript. -/
def outcome (t : Transcript) (quiet : Bool) : Outcome :=
  let ws := Piece.writes quiet t.pieces
  ⟨String.join (ws.filterMap Prompt.Write.out?), String.join (ws.filterMap Prompt.Write.err?),
    t.exit⟩

/-- The transcript without its drawings. -/
def undrawn (t : Transcript) : Transcript := ⟨t.pieces.filter Piece.undrawn, t.exit⟩

theorem outcome_loud (t : Transcript) :
    t.outcome false = ⟨Piece.stdout t.pieces, Piece.stderr t.pieces, t.exit⟩ := by
  have hall : t.pieces.filter (Piece.shown false) = t.pieces :=
    List.filter_eq_self.mpr fun p _ => Bool.or_true p.undrawn
  unfold outcome Piece.writes
  rw [hall]
  rfl

/-- A quiet command with a transcript leaves behind what one that is not leaves behind without its
drawings. -/
theorem outcome_quiet_eq_undrawn (t : Transcript) : t.outcome true = t.undrawn.outcome false := by
  have hshown : Piece.shown true = Piece.undrawn := funext fun p => Bool.or_false p.undrawn
  rw [outcome_loud]
  unfold outcome Piece.writes
  rw [hshown]
  rfl

end Transcript

theorem Clock.publish_hush {ν : Type} (keep : Output ν → Bool) (clock : Clock) (dt : Number)
    (s : State ν) : clock.publish dt (s.hush keep) = (clock.publish dt s).hush keep := by
  unfold Clock.publish
  rw [State.setGlobal_hush, State.setGlobal_hush, State.setGlobal_hush, State.setGlobal_hush]

theorem Clock.tick_hush {ν : Type} (keep : Output ν → Bool) (clock : Clock) (dt : Number)
    (viewport : Option Viewport) (s : State ν) :
    clock.tick dt viewport (s.hush keep) =
      ((clock.tick dt viewport s).1, (clock.tick dt viewport s).2.hush keep) :=
  Prod.ext rfl (Clock.publish_hush keep _ dt s)

theorem Console.start_outputs : Console.start.outputs = #[] := rfl

/-! Playing a script -/

namespace Playback

variable (m : Machine Binding)

/-- What is written of an ending. -/
def Ending.pieces : Ending → List Piece
  | .finished => []
  | .failed frame e =>
    [.error ("frame " ++ toString frame ++ ": " ++ (ScriptError.runtime e).message)]
  | .broken _ => []

def Ending.exit : Ending → Exit
  | .finished => .code 0
  | .failed .. => .code 1
  | .broken f => .broken f

/-- What playing a script from its text writes. -/
def transcript (config : Config) (source : String) : Transcript :=
  match Program.ofSource source with
  | .error e => ⟨[.error e.message], .code 1⟩
  | .ok program =>
    let r := whole m config program ((Config.frameCount? config.frames).getD 0)
    ⟨Piece.ofOutputs r.2.outputs.toList ++ r.1.pieces, r.1.exit⟩

theorem unlines_eq_join (ls : List String) :
    unlines ls = String.join
      ((ls.map fun l => Prompt.Write.out (l ++ "\n")).filterMap Prompt.Write.out?) := by
  unfold unlines
  rw [List.filterMap_map]
  exact congrArg String.join (congrFun List.filterMap_eq_map' ls).symm

theorem filterMap_err?_lines (ls : List String) :
    (ls.map fun l => Prompt.Write.out (l ++ "\n")).filterMap Prompt.Write.err? = [] := by
  rw [List.filterMap_map]
  exact List.filterMap_eq_nil_iff.mpr fun _ _ => rfl

/-- What an ending leaves behind is what is put out and the pieces of the ending. -/
theorem report_eq_outcome (quiet : Bool) (os : List (Output Binding)) (ending : Ending) :
    ending.report (unlines (Console.lines quiet os)) =
      Transcript.outcome ⟨Piece.ofOutputs os ++ ending.pieces, ending.exit⟩ quiet := by
  unfold Transcript.outcome
  dsimp only
  rw [Piece.writes_append, Piece.writes_ofOutputs, List.filterMap_append, List.filterMap_append,
    String.join_append, String.join_append, ← unlines_eq_join, filterMap_err?_lines]
  cases ending <;>
    simp [Ending.report, Ending.pieces, Ending.exit, blame, unlines, Piece.writes_nil,
      Piece.writes_error, Prompt.Write.out?, Prompt.Write.err?, List.filterMap_cons]

theorem playSource_eq_outcome (config : Config) (source : String) :
    playSource m config source = (transcript m config source).outcome config.quiet := by
  unfold playSource transcript
  cases Program.ofSource source with
  | error e => cases config.quiet <;> rfl
  | ok program => exact (play_eq m config program).trans (report_eq_outcome config.quiet _ _)

/-! The frames of a machine that keeps something to itself. -/

variable (keep : Output Binding → Bool)

theorem frames_hush (event : String) (dt : Number) (n : Nat) (clock : Clock) (s : State Binding) :
    frames (m.hush keep) event dt n clock (s.hush keep) =
      ((frames m event dt n clock s).1, (frames m event dt n clock s).2.hush keep) := by
  induction n generalizing clock s with
  | zero => rfl
  | succ n ih =>
    unfold frames
    rw [Clock.tick_hush]
    dsimp only
    rw [Machine.trigger_hushes keep m event]
    -- The event ends alike on both machines, so both go on or stop at the same frame.
    generalize (m.trigger event).run (clock.tick dt none s).2 = r
    obtain ⟨f | e | u, t⟩ := r
    · rfl
    · rfl
    · exact ih _ t

theorem opening_hush (config : Config) (program : Program) :
    (opening config program).2.hush keep = (opening config program).2 :=
  State.hush_eq_self Console.start_outputs

theorem whole_hush (config : Config) (program : Program) (n : Nat) :
    whole (m.hush keep) config program n =
      ((whole m config program n).1, (whole m config program n).2.hush keep) := by
  unfold whole
  rw [← frames_hush, opening_hush]

theorem transcript_undrawn (config : Config) (source : String) :
    transcript (m.hush Output.undrawn) config source = (transcript m config source).undrawn := by
  unfold transcript
  cases Program.ofSource source with
  | error e => rfl
  | ok program =>
    dsimp only
    rw [whole_hush, Piece.ofOutputs_hush]
    unfold Transcript.undrawn
    dsimp only
    rw [List.filter_append]
    generalize (whole m config program _).1 = ending
    cases ending <;> rfl

end Playback

/-! The prompt -/

namespace Prompt

variable (m : Machine Binding)

/-- What is written of how a chunk ends. -/
def endPieces : Except Failure (Option String) → List Piece
  | .ok (some echo) => [.echo echo]
  | .ok none => []
  | .error (.script e) => [.error (ScriptError.runtime e).message]
  | .error _ => []

/-- The state that the prompt goes on with behind a chunk that ends so, unless it breaks off. -/
def endState (t : State Binding) : Except Failure (Option String) → Except Failure (State Binding)
  | .ok _ => .ok t
  | .error (.script _) => .ok t
  | .error f => .error f

/-- Runs a chunk and tells what it writes. -/
def chunkPieces (s : State Binding) (chunk : String) :
    List Piece × Except Failure (State Binding) :=
  match Program.ofSource chunk with
  | .error e => ([.error e.message], .ok s)
  | .ok p =>
    let r := (execute m p).run { s with outputs := #[] }
    (Piece.ofOutputs r.2.outputs.toList ++ endPieces r.1, endState r.2 r.1)

/-- What the prompt writes when it asks for the next line, unless it breaks off. -/
def askPieces (pending : Pending) : Except Failure (State Binding) → List Piece
  | .ok _ => [.ask pending]
  | .error _ => []

/-- Takes a line and tells what it makes the prompt write, up to asking for the next one. -/
def stepPieces (p : Prompt) (line : String) : List Piece × Except Failure Prompt :=
  let fed := feed p.pending line
  let ran := fed.2.elim ([], .ok p.state) (chunkPieces m p.state)
  (ran.1 ++ askPieces fed.1 ran.2, ran.2.map (⟨·, fed.1⟩))

/-- What all lines make the prompt write. -/
def pieces (p : Prompt) : List String → Transcript
  | [] => ⟨[], .code 0⟩
  | line :: lines =>
    match (stepPieces m p line).2 with
    | .ok p' => ⟨(stepPieces m p line).1 ++ (pieces p' lines).pieces, (pieces p' lines).exit⟩
    | .error f => ⟨(stepPieces m p line).1, .broken f⟩

/-- What a whole session at the prompt writes. -/
def transcript (config : Config) (lines : List String) : Transcript :=
  let t := pieces m (start config) lines
  ⟨.ask none :: t.pieces, t.exit⟩

theorem evalChunk_eq (quiet : Bool) (s : State Binding) (chunk : String) :
    evalChunk m quiet s chunk =
      (Piece.writes quiet (chunkPieces m s chunk).1, (chunkPieces m s chunk).2) := by
  unfold evalChunk chunkPieces
  cases Program.ofSource chunk with
  | error e => rfl
  | ok p =>
    dsimp only
    rw [Piece.writes_append, Piece.writes_ofOutputs]
    generalize (execute m p).run { s with outputs := #[] } = r
    obtain ⟨f | echo, t⟩ := r
    · cases f with
      | script e => rfl
      | host | exhausted | endless => exact congrArg (Prod.mk · _) (List.append_nil _).symm
    · cases echo with
      | none => exact congrArg (Prod.mk · _) (List.append_nil _).symm
      | some echo => rfl

theorem step_eq (quiet : Bool) (p : Prompt) (line : String) :
    step m quiet p line =
      (Piece.writes quiet (stepPieces m p line).1, (stepPieces m p line).2) := by
  unfold step stepPieces
  generalize feed p.pending line = fed
  obtain ⟨pending, _ | chunk⟩ := fed
  · rfl
  · dsimp only [Option.elim]
    rw [evalChunk_eq, Piece.writes_append]
    cases (chunkPieces m p.state chunk).2 with
    | ok state => rfl
    | error f => exact congrArg (Prod.mk · _) (List.append_nil _).symm

theorem go_eq (config : Config) (p : Prompt) (lines : List String) :
    session.go m config p lines =
      (Piece.writes config.quiet (pieces m p lines).pieces, (pieces m p lines).exit) := by
  induction lines generalizing p with
  | nil => rfl
  | cons line lines ih =>
    unfold session.go pieces
    rw [step_eq]
    dsimp only
    cases (stepPieces m p line).2 with
    | error f => rfl
    | ok p' =>
      dsimp only
      rw [ih, Piece.writes_append]

theorem outcome_eq (config : Config) (lines : List String) :
    outcome m config lines = (transcript m config lines).outcome config.quiet := by
  unfold outcome session
  rw [go_eq]
  rfl

/-! A session on a machine that does not draw. -/

/-- The prompt as if nothing had been drawn. -/
def undrawn (p : Prompt) : Prompt := ⟨p.state.hush Output.undrawn, p.pending⟩

theorem execute_hushes (keep : Output Binding → Bool) (p : Program) :
    Run.Hushes keep (execute m p) (execute (m.hush keep) p) := by
  unfold execute
  cases lone? p with
  | some e => exact .bind (m.eval_hushes keep e) fun _ => .pure _
  | none => exact .bind (m.run_hushes keep p) fun _ => .pure _

theorem chunkPieces_undrawn (s : State Binding) (chunk : String) :
    chunkPieces (m.hush Output.undrawn) (s.hush Output.undrawn) chunk =
      ((chunkPieces m s chunk).1.filter Piece.undrawn,
        (chunkPieces m s chunk).2.map (State.hush Output.undrawn)) := by
  unfold chunkPieces
  cases Program.ofSource chunk with
  | error e => rfl
  | ok p =>
    -- A chunk begins with nothing put out, so what was drawn before it is gone on either machine.
    have hfresh : ({ s.hush Output.undrawn with outputs := #[] } : State Binding) =
        { s with outputs := #[] } := rfl
    have hempty : ({ s with outputs := #[] } : State Binding).hush Output.undrawn =
        { s with outputs := #[] } := State.hush_eq_self rfl
    have hrun := execute_hushes m Output.undrawn p { s with outputs := #[] }
    rw [hempty] at hrun
    dsimp only
    rw [hfresh, hrun, Piece.ofOutputs_hush, List.filter_append]
    generalize (execute m p).run { s with outputs := #[] } = r
    obtain ⟨(_ | _ | _ | _) | _ | echo, t⟩ := r <;> rfl

theorem stepPieces_undrawn (p : Prompt) (line : String) :
    stepPieces (m.hush Output.undrawn) p.undrawn line =
      ((stepPieces m p line).1.filter Piece.undrawn, (stepPieces m p line).2.map undrawn) := by
  unfold stepPieces
  rw [show p.undrawn.pending = p.pending from rfl]
  generalize feed p.pending line = fed
  obtain ⟨pending, _ | chunk⟩ := fed
  · rfl
  · dsimp only [Option.elim]
    rw [show p.undrawn.state = p.state.hush Output.undrawn from rfl, chunkPieces_undrawn,
      List.filter_append]
    cases (chunkPieces m p.state chunk).2 with
    | ok state => rfl
    | error f => rfl

theorem pieces_undrawn (p : Prompt) (lines : List String) :
    pieces (m.hush Output.undrawn) p.undrawn lines = (pieces m p lines).undrawn := by
  induction lines generalizing p with
  | nil => rfl
  | cons line lines ih =>
    unfold pieces
    rw [stepPieces_undrawn]
    cases (stepPieces m p line).2 with
    | error f => rfl
    | ok p' =>
      dsimp only [Except.map]
      rw [ih]
      unfold Transcript.undrawn
      rw [List.filter_append]

theorem start_undrawn (config : Config) : (start config).undrawn = start config := by
  unfold undrawn
  rw [State.hush_eq_self (s := (start config).state) Console.start_outputs]

theorem transcript_undrawn (config : Config) (lines : List String) :
    transcript (m.hush Output.undrawn) config lines = (transcript m config lines).undrawn := by
  have hpieces := pieces_undrawn m (start config) lines
  rw [start_undrawn] at hpieces
  unfold transcript
  rw [hpieces]
  rfl

end Prompt

/-! The command line -/

namespace Config

theorem option?_cons_of_ne {name arg : String} (h : arg ≠ name) (args : List String) :
    option? name (arg :: args) = option? name args :=
  if_neg h

/-- What stands in front of the first word counts only where it takes a value. -/
theorem fileAfter?_congr {before other : String}
    (h : valued.contains before = valued.contains other) (args : List String) :
    fileAfter? before args = fileAfter? other args := by
  cases args with
  | nil => rfl
  | cons arg args =>
    unfold fileAfter?
    rw [h]

/-- Arguments with the same values for options, the same file and the same wish for help differ at
most in being quiet. -/
theorem ofArgs_eq_map {args args' : List String}
    (hoption : ∀ name ∈ valued, option? name args' = option? name args)
    (hfile : fileAfter? "" args' = fileAfter? "" args)
    (hhelp : args'.contains "--help" = args.contains "--help") :
    ofArgs args' =
      (ofArgs args).map fun c => { c with quiet := args'.contains "--quiet" } := by
  have hnumeric : ∀ name ∈ valued, ∀ usual, numeric args' name usual = numeric args name usual := by
    intro name hname usual
    unfold numeric
    rw [hoption name hname]
  unfold ofArgs
  rw [hnumeric "--frames" (by decide), hnumeric "--dt" (by decide), hnumeric "--width" (by decide),
    hnumeric "--height" (by decide), hoption "--frames" (by decide),
    hoption "--event" (by decide), hfile, hhelp]
  -- The first fault is told, so the cases follow the order in which the options are looked at.
  generalize numeric args "--dt" _ = dt
  generalize numeric args "--width" _ = width
  generalize numeric args "--height" _ = height
  cases numeric args "--frames" .one with
  | error e => rfl
  | ok frames =>
    dsimp only [bind, Except.bind]
    cases (frameCount? frames).isNone with
    | true => rfl
    | false =>
      cases dt with
      | error e => rfl
      | ok dt =>
        cases width with
        | error e => rfl
        | ok width => cases height <;> rfl

/-- Asking for quiet in front of other arguments asks for nothing else. -/
theorem ofArgs_quiet (args : List String) :
    ofArgs ("--quiet" :: args) = (ofArgs args).map fun c => { c with quiet := true } := by
  have hvalued : ∀ name ∈ valued, "--quiet" ≠ name := by decide
  exact ofArgs_eq_map (fun name hname => option?_cons_of_ne (hvalued name hname) args)
    (fileAfter?_congr (by decide) args) rfl

theorem ofArgs_of_not_mem {args : List String} (h : "--quiet" ∉ args) :
    ofArgs args = (ofArgs args).map fun c => { c with quiet := false } := by
  have hquiet : args.contains "--quiet" = false := by simpa using h
  rw [← hquiet]
  exact ofArgs_eq_map (fun _ _ => rfl) rfl rfl

end Config

namespace Command

variable (m : Machine Binding) (readFile : String → String) (lines : List String)

/-- The command, quiet or not. -/
def withQuiet (quiet : Bool) : Command → Command
  | .play file config => .play file { config with quiet }
  | .prompt config => .prompt { config with quiet }
  | c => c

/-- What a command writes. -/
def transcript : Command → Transcript
  | .refuse e => ⟨[.error e.message], .code 2⟩
  | .explain => ⟨[.explanation], .code 0⟩
  | .play file config => Playback.transcript m config (readFile file)
  | .prompt config => Prompt.transcript m config lines

theorem outcome_withQuiet (quiet : Bool) (c : Command) :
    (c.withQuiet quiet).outcome m readFile lines =
      (c.transcript m readFile lines).outcome quiet := by
  cases c with
  | refuse e => rfl
  | explain => rfl
  | play file config => exact Playback.playSource_eq_outcome m { config with quiet } (readFile file)
  | prompt config => exact Prompt.outcome_eq m { config with quiet } lines

theorem transcript_undrawn (c : Command) :
    c.transcript (m.hush Output.undrawn) readFile lines =
      (c.transcript m readFile lines).undrawn := by
  cases c with
  | refuse e => rfl
  | explain => rfl
  | play file config => exact Playback.transcript_undrawn m config (readFile file)
  | prompt config => exact Prompt.transcript_undrawn m config lines

theorem ofArgs_withQuiet {args args' : List String} {quiet : Bool}
    (h : Config.ofArgs args' = (Config.ofArgs args).map fun c => { c with quiet }) :
    ofArgs args' = (ofArgs args).withQuiet quiet := by
  unfold ofArgs
  rw [h]
  cases Config.ofArgs args with
  | error e => rfl
  | ok config =>
    obtain ⟨file, event, frames, dt, viewport, _, help⟩ := config
    dsimp only [Except.map]
    cases help with
    | true => rfl
    | false =>
      cases file with
      | none => rfl
      | some file =>
        by_cases hfile : file = ""
        · simp [hfile, withQuiet]
        · simp [hfile, withQuiet]

/-- Quiet, a command leaves out what is drawn and nothing else, on whatever machine. Put in front of
arguments that do not ask for it, the option takes the drawings and only these out of what goes to
the output, in which everything else stays as it is and in its order; errors are the same, and so is
the end, also of a command that breaks off. What is left behind is also what the command without the
option leaves behind on a machine whose native functions do not draw: no script can tell. -/
theorem outcome_quiet {args : List String} (h : "--quiet" ∉ args) :
    let pieces := ((ofArgs args).transcript m readFile lines).pieces
    let loud := (ofArgs args).outcome m readFile lines
    let quiet := (ofArgs ("--quiet" :: args)).outcome m readFile lines
    loud.stdout = Piece.stdout pieces ∧ quiet.stdout = Piece.stdout (pieces.filter Piece.undrawn) ∧
      quiet.stderr = loud.stderr ∧ quiet.exit = loud.exit ∧
      quiet = (ofArgs args).outcome (m.hush Output.undrawn) readFile lines := by
  intro pieces loud quiet
  let t := (ofArgs args).transcript m readFile lines
  have hloud : ∀ m, (ofArgs args).outcome m readFile lines =
      ((ofArgs args).transcript m readFile lines).outcome false := by
    intro m
    rw [← outcome_withQuiet, ← ofArgs_withQuiet (Config.ofArgs_of_not_mem h)]
  have hquiet : quiet = t.undrawn.outcome false := by
    rw [← Transcript.outcome_quiet_eq_undrawn, ← outcome_withQuiet,
      ← ofArgs_withQuiet (Config.ofArgs_quiet args)]
  have hstdout : loud = _ := (hloud m).trans t.outcome_loud
  rw [hloud, transcript_undrawn, hstdout, hquiet, Transcript.outcome_loud]
  exact ⟨rfl, rfl, Piece.stderr_undrawn pieces, rfl, rfl⟩

/-- A drawing at the prompt, with the echo of its value and the texts that ask for a line. -/
theorem outcome_quiet_prompt :
    let args := ["--width", "40"]
    let m := Console.machine 0 1
    let readFile : String → String := fun _ => ""
    let lines := ["clear(RED)"]
    "--quiet" ∉ args ∧
      ((ofArgs args).outcome m readFile lines).stdout = "cue> clear red\nnil\ncue> " ∧
      ((ofArgs ("--quiet" :: args)).outcome m readFile lines).stdout = "cue> nil\ncue> " := by
  intro args m readFile lines
  have hquiet : "--quiet" ∉ args := by decide
  let config : Config :=
    ⟨none, "render", .one, .ofRatio false 1 60, ⟨.ofNat 40, .ofNat 600⟩, false, false⟩
  have hargs : ofArgs args = .prompt config := by decide +kernel
  have hsource : Program.ofSource "clear(RED)" =
      .ok [.expr ⟨1, 1⟩ (.call ⟨1, 1⟩ "clear" [.ident ⟨1, 7⟩ "RED"])] := by
    decide +kernel
  have hfeed : Prompt.feed none "clear(RED)" = (none, some "clear(RED)") := by decide +kernel
  let drawn : Piece := .draw (.clear (.solid "red" 230 41 55))
  have hchunk : Prompt.chunkPieces m (Prompt.start config).state "clear(RED)" =
      ([drawn, .echo "nil"], .ok (Prompt.execute m
        [.expr ⟨1, 1⟩ (.call ⟨1, 1⟩ "clear" [.ident ⟨1, 7⟩ "RED"])] |>.run
          { (Prompt.start config).state with outputs := #[] }).2) := by
    unfold Prompt.chunkPieces
    rw [hsource]
    refine Prod.ext ?_ rfl
    decide +kernel
  have hpieces : ((ofArgs args).transcript m readFile lines).pieces =
      [.ask none, drawn, .echo "nil", .ask none] := by
    rw [hargs]
    show Piece.ask none :: (Prompt.pieces m (Prompt.start config) ["clear(RED)"]).pieces = _
    unfold Prompt.pieces Prompt.stepPieces
    rw [show (Prompt.start config).pending = none from rfl, hfeed]
    dsimp only [Option.elim]
    rw [hchunk]
    rfl
  obtain ⟨hstdout, hundrawn, -⟩ := outcome_quiet m readFile lines hquiet
  rw [hpieces] at hstdout hundrawn
  exact ⟨hquiet, hstdout.trans (by decide +kernel), hundrawn.trans (by decide +kernel)⟩

end Command

end SceneScript
