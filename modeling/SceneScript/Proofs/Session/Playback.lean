import SceneScript.Playback
import SceneScript.Proofs.Run.Isolation
import SceneScript.Proofs.Tree.Equality

/-! Playing more frames. A playback goes on from what its earlier frames have left and stops at the
first that fails, so a longer one is the shorter one and what comes after, or the same where the
shorter one stops. It stops at an error of the script, which it tells, or breaks off where the
machine fails. -/

namespace SceneScript

/-- An event only adds to what was put out. -/
theorem Machine.trigger_outputs {ν : Type} (m : Machine ν) (event : String) (s : State ν) :
    ∃ os, ((m.trigger event).run s).2.outputs.toList = s.outputs.toList ++ os := by
  have hroom : (Likeness.exactly False).Fits m.room m.room := .refl _ m.room
  have hinv : Invoke.Alike (Likeness.exactly False) m.invoke m.invoke :=
    Run.invoke_exactly m.natives hroom (.refl _ m.depth)
  have happart : Run.Apart _ (m.trigger event) (m.trigger event) :=
    Run.trigger_apart hinv hroom trivial
  obtain ⟨os, -, hos, -⟩ := (happart.meets id (State.outside_exactly rfl rfl rfl)).onward.outputs
  exact ⟨os, hos⟩

namespace Playback

variable {m : Machine Binding} {event : String} {dt : Number} {x y : Clock × State Binding}
  {k n : Nat}

/-- One frame: the clock ticks and the event is triggered. How it ended comes first, then the clock
and what is left behind. -/
def frame (m : Machine Binding) (event : String) (dt : Number) (x : Clock × State Binding) :
    Except Failure (Except RuntimeError Unit) × Clock × State Binding :=
  let ticked := x.1.tick dt none x.2
  let r := (m.trigger event).run ticked.2
  (r.1, ticked.1, r.2)

/-- `k` frames, none of which fails, lead from `x` to `y`. -/
inductive Played (m : Machine Binding) (event : String) (dt : Number) (x : Clock × State Binding) :
    Nat → Clock × State Binding → Prop
  | start : Played m event dt x 0 x
  | next {k : Nat} {y : Clock × State Binding} : Played m event dt x k y →
      (frame m event dt y).1 = .ok (.ok ()) → Played m event dt x (k + 1) (frame m event dt y).2

theorem run_trigger_tick {r : Except Failure (Except RuntimeError Unit)}
    (h : (frame m event dt x).1 = r) :
    (m.trigger event).run (x.1.tick dt none x.2).2 = (r, (frame m event dt x).2.2) :=
  Prod.ext h rfl

/-! How a playback goes on behind its next frame. -/

theorem frames_played (h : (frame m event dt x).1 = .ok (.ok ())) (n : Nat) :
    frames m event dt (n + 1) x.1 x.2 =
      frames m event dt n (frame m event dt x).2.1 (frame m event dt x).2.2 := by
  rw [frames]
  dsimp only
  rw [run_trigger_tick h]
  rfl

theorem frames_failed {e : RuntimeError} (h : (frame m event dt x).1 = .ok (.error e)) (n : Nat) :
    frames m event dt (n + 1) x.1 x.2 =
      (.failed (x.1.frame + 1) e, (frame m event dt x).2.2) := by
  rw [frames]
  dsimp only
  rw [run_trigger_tick h]
  rfl

theorem frames_broken {f : Failure} (h : (frame m event dt x).1 = .error f) (n : Nat) :
    frames m event dt (n + 1) x.1 x.2 = (.broken f, (frame m event dt x).2.2) := by
  rw [frames]
  dsimp only
  rw [run_trigger_tick h]

/-- Frames that are played in full come before the rest. -/
theorem Played.frames_add (h : Played m event dt x k y) (n : Nat) :
    frames m event dt (k + n) x.1 x.2 = frames m event dt n y.1 y.2 := by
  induction h generalizing n with
  | start => rw [Nat.zero_add]
  | @next k y _ hframe ih =>
    rw [Nat.add_assoc, Nat.add_comm 1 n, ih, frames_played hframe]

theorem Played.clock_frame (h : Played m event dt x k y) : y.1.frame = x.1.frame + k := by
  induction h with
  | start => rfl
  | @next k y _ _ ih =>
    show y.1.frame + 1 = x.1.frame + (k + 1)
    rw [ih, Nat.add_assoc]

/-- A frame that is not played in full ends a playback of any length that comes to it. -/
theorem Played.frames_of_stopped (h : Played m event dt x k y)
    (hstop : (frame m event dt y).1 ≠ .ok (.ok ())) (hk : k < n) :
    frames m event dt n x.1 x.2 = frames m event dt (k + 1) x.1 x.2 := by
  obtain ⟨d, rfl⟩ : ∃ d, n = k + (d + 1) := ⟨n - k - 1, by omega⟩
  rw [h.frames_add, h.frames_add]
  cases hframe : (frame m event dt y).1 with
  | error f => rw [frames_broken hframe, frames_broken hframe]
  | ok r =>
    cases r with
    | error e => rw [frames_failed hframe, frames_failed hframe]
    | ok u => exact absurd hframe hstop

/-- Either all frames are played in full, or there is a first that is not. -/
theorem played_or_stopped (m : Machine Binding) (event : String) (dt : Number)
    (x : Clock × State Binding) (n : Nat) :
    (∃ y, Played m event dt x n y) ∨
      ∃ k < n, ∃ y, Played m event dt x k y ∧ (frame m event dt y).1 ≠ .ok (.ok ()) := by
  induction n with
  | zero => exact .inl ⟨x, .start⟩
  | succ n ih =>
    obtain ⟨y, hy⟩ | ⟨k, hk, hstopped⟩ := ih
    · by_cases hframe : (frame m event dt y).1 = .ok (.ok ())
      · exact .inl ⟨_, hy.next hframe⟩
      · exact .inr ⟨n, Nat.lt_succ_self n, y, hy, hframe⟩
    · exact .inr ⟨k, Nat.lt_succ_of_lt hk, hstopped⟩

theorem frames_outputs (m : Machine Binding) (event : String) (dt : Number) (n : Nat)
    (x : Clock × State Binding) :
    ∃ os, (frames m event dt n x.1 x.2).2.outputs.toList = x.2.outputs.toList ++ os := by
  induction n generalizing x with
  | zero => exact ⟨[], (List.append_nil _).symm⟩
  | succ n ih =>
    have hframe : ∃ os, (frame m event dt x).2.2.outputs.toList = x.2.outputs.toList ++ os :=
      m.trigger_outputs event (x.1.tick dt none x.2).2
    cases hend : (frame m event dt x).1 with
    | error f =>
      rw [frames_broken hend]
      exact hframe
    | ok r =>
      cases r with
      | error e =>
        rw [frames_failed hend]
        exact hframe
      | ok u =>
        obtain ⟨os, hos⟩ := hframe
        obtain ⟨us, hus⟩ := ih (frame m event dt x).2
        rw [frames_played hend]
        exact ⟨os ++ us, by rw [hus, hos, List.append_assoc]⟩

/-- What is put out in more frames begins with what is put out in fewer. -/
theorem frames_le_outputs (m : Machine Binding) (event : String) (dt : Number)
    (x : Clock × State Binding) (h : k ≤ n) :
    ∃ os, (frames m event dt n x.1 x.2).2.outputs.toList =
      (frames m event dt k x.1 x.2).2.outputs.toList ++ os := by
  obtain ⟨y, hy⟩ | ⟨j, hj, y, hy, hstop⟩ := played_or_stopped m event dt x k
  · obtain ⟨d, rfl⟩ := Nat.exists_eq_add_of_le h
    have hfinished : frames m event dt k x.1 x.2 = (.finished, y.2) := hy.frames_add 0
    rw [hy.frames_add, hfinished]
    exact frames_outputs m event dt d y
  · rw [hy.frames_of_stopped hstop hj, hy.frames_of_stopped hstop (Nat.lt_of_lt_of_le hj h)]
    exact ⟨[], (List.append_nil _).symm⟩

/-! Playing a program -/

/-- The clock and the state before the first frame. -/
def opening (config : Config) (program : Program) : Clock × State Binding :=
  (Clock.new config.viewport).init (Console.start.register config.event program)

/-- The text of what was put out. -/
def shown (config : Config) (s : State Binding) : String :=
  unlines (Console.lines config.quiet s.outputs.toList)

/-- What an error in a frame is told as. -/
def blame (frame : Nat) (e : RuntimeError) : String :=
  unlines ["frame " ++ toString frame ++ ": " ++ (ScriptError.runtime e).message]

/-- What is left behind by a playback with the given ending that has put out the given text. -/
def Ending.report (shown : String) : Ending → Outcome
  | .finished => ⟨shown, "", .code 0⟩
  | .failed frame e => ⟨shown, blame frame e, .code 1⟩
  | .broken f => ⟨shown, "", .broken f⟩

theorem Ending.report_stdout (shown : String) (e : Ending) : (e.report shown).stdout = shown := by
  cases e <;> rfl

theorem unlines_append (ls ms : List String) : unlines (ls ++ ms) = unlines ls ++ unlines ms := by
  unfold unlines
  rw [List.map_append, String.join_append]

/-- All frames of a playback, from its opening on. -/
def whole (m : Machine Binding) (config : Config) (program : Program) (n : Nat) :
    Ending × State Binding :=
  frames m config.event config.dt n (opening config program).1 (opening config program).2

theorem play_eq (m : Machine Binding) (config : Config) (program : Program) :
    let r := whole m config program ((Config.frameCount? config.frames).getD 0)
    play m config program = r.1.report (shown config r.2) := by
  unfold play whole opening
  dsimp only
  generalize frames m config.event config.dt _ _ _ = r
  obtain ⟨ending, s⟩ := r
  cases ending <;> rfl

/-- A source fails to be played for `n` frames and leaves `o` behind: it does not compile, or frames
are played in full until one ends in an error. -/
inductive Fails (m : Machine Binding) (config : Config) (source : String) (n : Nat) :
    Outcome → Prop
  | compile {e : ScriptError} : Program.ofSource source = .error e →
      Fails m config source n ⟨"", unlines [e.message], .code 1⟩
  | frame {program : Program} {k : Nat} {y : Clock × State Binding} {e : RuntimeError} :
      Program.ofSource source = .ok program → k < n →
      Played m config.event config.dt (opening config program) k y →
      (frame m config.event config.dt y).1 = .ok (.error e) →
      Fails m config source n
        ⟨shown config (frame m config.event config.dt y).2.2, blame (k + 1) e, .code 1⟩

/-- A playback for `n` frames does not come to an end of its own and leaves `o` behind: frames are
played in full until the machine fails in one. Nothing is told of it. -/
inductive Breaks (m : Machine Binding) (config : Config) (source : String) (n : Nat) :
    Outcome → Prop
  | frame {program : Program} {k : Nat} {y : Clock × State Binding} {f : Failure} :
      Program.ofSource source = .ok program → k < n →
      Played m config.event config.dt (opening config program) k y →
      (Playback.frame m config.event config.dt y).1 = .error f →
      Breaks m config source n
        ⟨shown config (Playback.frame m config.event config.dt y).2.2, "", .broken f⟩

/-- A source compiles and `n` frames of it are played in full. -/
def Succeeds (m : Machine Binding) (config : Config) (source : String) (n : Nat) : Prop :=
  ∃ program, Program.ofSource source = .ok program ∧
    ∃ y, Played m config.event config.dt (opening config program) n y

variable {config : Config} {source : String} {program : Program} {number : Number}

/-- A playback that comes to a frame which ends in an error ends there. -/
theorem whole_of_failed {e : RuntimeError}
    (hy : Played m config.event config.dt (opening config program) k y)
    (hframe : (frame m config.event config.dt y).1 = .ok (.error e)) (hk : k < n) :
    whole m config program n = (.failed (k + 1) e, (frame m config.event config.dt y).2.2) := by
  have hstop : (frame m config.event config.dt y).1 ≠ .ok (.ok ()) := by simp [hframe]
  have hclock : y.1.frame = k := hy.clock_frame.trans (Nat.zero_add k)
  unfold whole
  rw [hy.frames_of_stopped hstop hk, hy.frames_add, frames_failed hframe, hclock]

/-- A playback that comes to a frame in which the machine fails breaks off there. -/
theorem whole_of_broken {f : Failure}
    (hy : Played m config.event config.dt (opening config program) k y)
    (hframe : (frame m config.event config.dt y).1 = .error f) (hk : k < n) :
    whole m config program n = (.broken f, (frame m config.event config.dt y).2.2) := by
  have hstop : (frame m config.event config.dt y).1 ≠ .ok (.ok ()) := by simp [hframe]
  unfold whole
  rw [hy.frames_of_stopped hstop hk, hy.frames_add, frames_broken hframe]

theorem playSource_of_compiled (hn : Config.frameCount? number = some n)
    (hprogram : Program.ofSource source = .ok program) :
    playSource m { config with frames := number } source =
      (whole m config program n).1.report (shown config (whole m config program n).2) := by
  unfold playSource
  rw [hprogram]
  have hplay := play_eq m { config with frames := number } program
  rw [hn] at hplay
  exact hplay

theorem Fails.playSource_eq {o : Outcome} (h : Fails m config source k o)
    (hn : Config.frameCount? number = some n) (hk : k ≤ n) :
    playSource m { config with frames := number } source = o := by
  cases h with
  | compile he =>
    unfold playSource
    rw [he]
  | frame hprogram hj hy hframe =>
    rw [playSource_of_compiled hn hprogram, whole_of_failed hy hframe (Nat.lt_of_lt_of_le hj hk)]
    rfl

theorem Breaks.playSource_eq {o : Outcome} (h : Breaks m config source k o)
    (hn : Config.frameCount? number = some n) (hk : k ≤ n) :
    playSource m { config with frames := number } source = o := by
  cases h with
  | frame hprogram hj hy hframe =>
    rw [playSource_of_compiled hn hprogram, whole_of_broken hy hframe (Nat.lt_of_lt_of_le hj hk)]
    rfl

theorem Succeeds.exit_eq (h : Succeeds m config source n)
    (hn : Config.frameCount? number = some n) :
    (playSource m { config with frames := number } source).exit = .code 0 := by
  obtain ⟨program, hprogram, y, hy⟩ := h
  have hwhole : whole m config program n = (.finished, y.2) := hy.frames_add 0
  rw [playSource_of_compiled hn hprogram, hwhole]
  rfl

/-- A playback succeeds, fails or breaks off. -/
theorem succeeds_or_stops (m : Machine Binding) (config : Config) (source : String) (n : Nat) :
    Succeeds m config source n ∨ (∃ o, Fails m config source n o) ∨
      ∃ o, Breaks m config source n o := by
  cases hsource : Program.ofSource source with
  | error e => exact .inr (.inl ⟨_, .compile hsource⟩)
  | ok program =>
    obtain ⟨y, hy⟩ | ⟨k, hk, y, hy, hstop⟩ :=
      played_or_stopped m config.event config.dt (opening config program) n
    · exact .inl ⟨program, hsource, y, hy⟩
    · cases hframe : (frame m config.event config.dt y).1 with
      | error f => exact .inr (.inr ⟨_, .frame hsource hk hy hframe⟩)
      | ok r =>
        cases r with
        | error e => exact .inr (.inl ⟨_, .frame hsource hk hy hframe⟩)
        | ok u => exact absurd hframe hstop

theorem Fails.exit_eq {o : Outcome} (h : Fails m config source n o) : o.exit = .code 1 := by
  cases h <;> rfl

theorem Breaks.exit_ne {o : Outcome} (h : Breaks m config source n o) (code : Nat) :
    o.exit ≠ .code code := by
  cases h
  exact Exit.noConfusion

/-- What a playback that does not succeed leaves behind is what it fails or breaks off with. -/
theorem playSource_succeeds_or_stops (hn : Config.frameCount? number = some n) :
    let o := playSource m { config with frames := number } source
    Succeeds m config source n ∨ Fails m config source n o ∨ Breaks m config source n o := by
  intro o
  obtain h | ⟨o', h⟩ | ⟨o', h⟩ := succeeds_or_stops m config source n
  · exact .inl h
  · have ho : o = o' := h.playSource_eq hn (Nat.le_refl n)
    exact .inr (.inl (ho ▸ h))
  · have ho : o = o' := h.playSource_eq hn (Nat.le_refl n)
    exact .inr (.inr (ho ▸ h))

theorem playSource_exit_eq_zero (hn : Config.frameCount? number = some n) :
    (playSource m { config with frames := number } source).exit = .code 0 ↔
      Succeeds m config source n := by
  refine ⟨fun hexit => ?_, fun h => h.exit_eq hn⟩
  obtain h | h | h := playSource_succeeds_or_stops hn
  · exact h
  · cases hexit.symm.trans h.exit_eq
  · exact absurd hexit (h.exit_ne 0)

theorem exists_stdout_append {longer : Number} (hk : Config.frameCount? number = some k)
    (hn : Config.frameCount? longer = some n) (h : k ≤ n) :
    ∃ rest, (playSource m { config with frames := longer } source).stdout =
      (playSource m { config with frames := number } source).stdout ++ rest := by
  cases hsource : Program.ofSource source with
  | error e =>
    have hfails : Fails m config source k _ := .compile hsource
    rw [hfails.playSource_eq hk (Nat.le_refl k), hfails.playSource_eq hn h]
    exact ⟨"", rfl⟩
  | ok program =>
    rw [playSource_of_compiled hk hsource, playSource_of_compiled hn hsource,
      Ending.report_stdout, Ending.report_stdout]
    obtain ⟨os, hos⟩ :=
      frames_le_outputs m config.event config.dt (opening config program) h
    refine ⟨unlines (Console.lines config.quiet os), ?_⟩
    unfold shown whole Console.lines
    rw [hos, List.filterMap_append, unlines_append]

/-- A frame names itself only where the script is to blame. Here an expression outside every
procedure is nested deeper than there is room for in the first frame, and nothing is told of it. -/
theorem playSource_unnamed :
    let m : Machine Binding := Console.machine 1000 2
    let source := "print(\"a\")\n1 + 1 + 1 + 1"
    let config : Config :=
      ⟨some "script", "render", .one, .one, ⟨.ofNat 800, .ofNat 600⟩, false, false⟩
    playSource m config source = ⟨"a\n", "", .broken .exhausted⟩ ∧
      (¬ Succeeds m config source 1) ∧ ¬ ∃ o, Fails m config source 1 o := by
  intro m source config
  let one (col : Int) : Expr := .int ⟨2, col⟩ .one
  let sum (col : Int) (a b : Expr) : Expr := .binary ⟨2, col⟩ (.arith .add) a b
  let program : Program := [.expr ⟨1, 1⟩ (.call ⟨1, 1⟩ "print" [.str ⟨1, 7⟩ "a"]),
    .expr ⟨2, 1⟩ (sum 11 (sum 7 (sum 3 (one 1) (one 5)) (one 9)) (one 13))]
  have hone : Config.frameCount? .one = some 1 := by decide +kernel
  have hsource : Program.ofSource source = .ok program := by decide +kernel
  have hframe : (frame m "render" .one (opening config program)).1 = .error .exhausted := by
    decide +kernel
  have hbreaks : Breaks m config source 1 _ := .frame hsource Nat.zero_lt_one .start hframe
  have hshown : shown config (frame m "render" .one (opening config program)).2.2 = "a\n" := by
    decide +kernel
  have hplay : playSource m config source = _ := hbreaks.playSource_eq hone (Nat.le_refl 1)
  refine ⟨hplay.trans (by rw [hshown]), fun hall => ?_, fun ⟨o, ho⟩ => ?_⟩
  · exact hbreaks.exit_ne 0 (hplay ▸ hall.exit_eq hone)
  · exact hbreaks.exit_ne 1 (hplay ▸ ho.playSource_eq hone (Nat.le_refl 1) ▸ ho.exit_eq)

/-- More frames only extend a playback, on whatever machine. Of one source and configuration, what
is put out in fewer frames is where that of more frames begins. A playback that fails, at compiling
or in the first frame that ends in an error, is the same for every greater number of frames: it
tells the error, shows nothing of later frames and exits with one. It exits with zero just when the
source compiles and all frames succeed. If it comes to an end otherwise, it has failed so; and one
that breaks off, and so does not, is the same for every greater number of frames too. -/
theorem playSource_extends (m : Machine Binding) (config : Config) (source : String)
    {shorter longer : Number} {k n : Nat} (hk : Config.frameCount? shorter = some k)
    (hn : Config.frameCount? longer = some n) (h : k ≤ n) :
    let short := playSource m { config with frames := shorter } source
    let long := playSource m { config with frames := longer } source
    (∃ rest, long.stdout = short.stdout ++ rest) ∧
      (∀ o, Fails m config source k o → short = o ∧ long = o) ∧
      (short.exit = .code 0 ↔ Succeeds m config source k) ∧
      (∀ code, short.exit = .code code → code ≠ 0 → Fails m config source k short) ∧
      ∀ f, short.exit = .broken f → Breaks m config source k short ∧ long = short := by
  intro short long
  refine ⟨exists_stdout_append hk hn h, fun o ho => ?_, playSource_exit_eq_zero hk,
    fun code hexit hcode => ?_, fun f hexit => ?_⟩
  · exact ⟨ho.playSource_eq hk (Nat.le_refl k), ho.playSource_eq hn h⟩
  · obtain hall | hfails | hbreaks := playSource_succeeds_or_stops hk
    · cases hexit.symm.trans (hall.exit_eq hk)
      exact absurd rfl hcode
    · exact hfails
    · exact absurd hexit (hbreaks.exit_ne code)
  · obtain hall | hfails | hbreaks := playSource_succeeds_or_stops hk
    · cases hexit.symm.trans (hall.exit_eq hk)
    · cases hexit.symm.trans hfails.exit_eq
    · exact ⟨hbreaks, hbreaks.playSource_eq hn h⟩

/-- A script that binds the name of a native function to something else, and so fails in its second
frame. -/
theorem playSource_extends_rebound :
    let source := "print(\"a\")\nprint = true"
    let config : Config :=
      ⟨some "script", "render", .one, .one, ⟨.ofNat 800, .ofNat 600⟩, false, false⟩
    let m := Console.machine 1 1
    let o : Outcome := ⟨"a\n", "frame 2: [RUNTIME] 'print' is not callable at 1:1\n", .code 1⟩
    Fails m config source 2 o ∧ playSource m { config with frames := .ofNat 2 } source = o ∧
      playSource m { config with frames := .ofNat 3 } source = o := by
  intro source config m o
  let program : Program := [.expr ⟨1, 1⟩ (.call ⟨1, 1⟩ "print" [.str ⟨1, 7⟩ "a"]),
    .assign ⟨2, 1⟩ "print" (.bool ⟨2, 9⟩ true)]
  have hsource : Program.ofSource source = .ok program := by decide +kernel
  have hfirst : (frame m "render" .one (opening config program)).1 = .ok (.ok ()) := by
    decide +kernel
  have hsecond : (frame m "render" .one (frame m "render" .one (opening config program)).2).1 =
      .ok (.error ⟨.notCallable "print", some ⟨1, 1⟩⟩) := by decide +kernel
  have hfails : Fails m config source 2 _ :=
    .frame hsource (by decide) (.next .start hfirst) hsecond
  have hshown : shown config
      (frame m "render" .one (frame m "render" .one (opening config program)).2).2.2 = "a\n" := by
    decide +kernel
  have hblame : blame 2 ⟨.notCallable "print", some ⟨1, 1⟩⟩ =
      "frame 2: [RUNTIME] 'print' is not callable at 1:1\n" := by decide +kernel
  rw [hshown, hblame] at hfails
  have htwo : Config.frameCount? (.ofNat 2) = some 2 := by decide +kernel
  have hthree : Config.frameCount? (.ofNat 3) = some 3 := by decide +kernel
  exact ⟨hfails, (playSource_extends m config source htwo hthree (by decide)).2.1 o hfails⟩

end Playback

end SceneScript
