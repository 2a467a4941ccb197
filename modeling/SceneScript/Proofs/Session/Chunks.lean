import Mathlib.Data.List.TakeWhile
import SceneScript.Prompt
import SceneScript.Proofs.Run.Unroll
import SceneScript.Proofs.Tree.Equality

/-! What the prompt makes of its lines. The prompt keeps a text to which it adds line after line;
`Gathered` says without that text which lines form a chunk together, and `Runs` what comes of the
chunks, each of them run as a program on what the one before left. A session at the prompt is a
reading of its lines by the first and a run by the second, up to a chunk that does not come back,
and there is only one such reading. -/

namespace SceneScript.Prompt

/-- Lines that run together: a line alone, or the head of a block and the lines behind it. -/
inductive Chunk where
  | line (text : String)
  | block (head : String) (body : List String)
deriving DecidableEq, Repr

namespace Chunk

def lines : Chunk → List String
  | line text => [text]
  | block head body => head :: body

/-- The text that runs. -/
def text : Chunk → String
  | line text => text
  | block head body => unlines (head :: body)

end Chunk

/-- What the prompt makes of a line: the chunk that it completes, if any, and whether a block is
open behind it. -/
structure Mark where
  chunk : Option Chunk
  inBlock : Bool
deriving DecidableEq, Repr

/-- What asks for the next line. -/
def Mark.prompt (k : Mark) : String := if k.inBlock then "...> " else "cue> "

/-- How lines are gathered to chunks. A line that ends in a colon opens a block, to which all lines
up to the next blank one belong. The lines of a block without such an end are left over. -/
inductive Gathered : List String → List Mark → List String → Prop
  | done : Gathered [] [] []
  | blank {line : String} {lines left : List String} {marks : List Mark} :
      Text.allBlank line = true → Gathered lines marks left →
      Gathered (line :: lines) (⟨none, false⟩ :: marks) left
  | single {line : String} {lines left : List String} {marks : List Mark} :
      Text.allBlank line = false → opensBlock line = false → Gathered lines marks left →
      Gathered (line :: lines) (⟨some (.line line), false⟩ :: marks) left
  | block {head last : String} {body lines left : List String} {marks : List Mark} :
      opensBlock head = true → (∀ l ∈ body, Text.allBlank l = false) →
      Text.allBlank last = true → Gathered lines marks left →
      Gathered (head :: (body ++ last :: lines))
        (List.replicate (body.length + 1) ⟨none, true⟩ ++
          ⟨some (.block head body), false⟩ :: marks) left
  | unclosed {head : String} {body : List String} :
      opensBlock head = true → (∀ l ∈ body, Text.allBlank l = false) →
      Gathered (head :: body) (List.replicate (body.length + 1) ⟨none, true⟩) (head :: body)

/-- What is written of all that a run put out. -/
def shown (quiet : Bool) (t : State Binding) : List Write :=
  (Console.lines quiet t.outputs.toList).map fun l => .out (l ++ "\n")

/-- What comes of a chunk with this text: the state behind it and what it writes. Every chunk that
is a program does what a run of the program does, and writes its value besides when it is a lone
expression that has one. -/
inductive Ran (m : Machine Binding) (quiet : Bool) (s : State Binding) (text : String) :
    State Binding → List Write → Prop
  | refused {e : ScriptError} :
      Program.ofSource text = .error e → Ran m quiet s text s [.err (e.message ++ "\n")]
  | failed {p : Program} {e : RuntimeError} {t : State Binding} :
      Program.ofSource text = .ok p →
      (m.run p).run { s with outputs := #[] } = (.error (.script e), t) →
      Ran m quiet s text t (shown quiet t ++ [.err ((ScriptError.runtime e).message ++ "\n")])
  | echoed {pos : Pos} {e : Expr} {v : Value Binding} {t : State Binding} :
      Program.ofSource text = .ok [.expr pos e] →
      (m.run [.expr pos e]).run { s with outputs := #[] } = (.ok (), t) →
      (m.eval e).run { s with outputs := #[] } = (.ok v, t) →
      Ran m quiet s text t (shown quiet t ++ [.out (v.text ++ "\n")])
  | finished {p : Program} {t : State Binding} :
      Program.ofSource text = .ok p → (∀ pos e, p ≠ [.expr pos e]) →
      (m.run p).run { s with outputs := #[] } = (.ok (), t) →
      Ran m quiet s text t (shown quiet t)

/-- A chunk with this text does not come back: its run fails and no script is to blame. What it has
put out by then is written. -/
def Broke (m : Machine Binding) (quiet : Bool) (s : State Binding) (text : String) (f : Failure)
    (ws : List Write) : Prop :=
  ∃ p t, Program.ofSource text = .ok p ∧ (∀ e, f ≠ .script e) ∧
    (m.run p).run { s with outputs := #[] } = (.error f, t) ∧ ws = shown quiet t

/-- The chunks run in turn, each on the state behind the one before. Every line has a reply, which
is what the chunk writes that it completes. -/
inductive Runs (m : Machine Binding) (quiet : Bool) :
    State Binding → List Mark → State Binding → List (List Write) → Prop
  | done {s : State Binding} : Runs m quiet s [] s []
  | idle {s t : State Binding} {inBlock : Bool} {marks : List Mark} {replies : List (List Write)} :
      Runs m quiet s marks t replies → Runs m quiet s (⟨none, inBlock⟩ :: marks) t ([] :: replies)
  | chunk {s s' t : State Binding} {c : Chunk} {inBlock : Bool} {marks : List Mark}
      {ws : List Write} {replies : List (List Write)} :
      Ran m quiet s c.text s' ws → Runs m quiet s' marks t replies →
      Runs m quiet s (⟨some c, inBlock⟩ :: marks) t (ws :: replies)

theorem Runs.length_eq {m : Machine Binding} {quiet : Bool} {s t : State Binding}
    {marks : List Mark} {replies : List (List Write)} (h : Runs m quiet s marks t replies) :
    replies.length = marks.length := by
  induction h with
  | done => rfl
  | idle _ ih => exact congrArg (· + 1) ih
  | chunk _ _ ih => exact congrArg (· + 1) ih

/-- What is written of lines with these replies: each reply, and behind it what asks for the next
line. -/
def written (marks : List Mark) (replies : List (List Write)) : List Write :=
  (List.zipWith (fun k ws => ws ++ [.out k.prompt]) marks replies).flatten

theorem written_cons (k : Mark) (marks : List Mark) (ws : List Write)
    (replies : List (List Write)) :
    written (k :: marks) (ws :: replies) = ws ++ .out k.prompt :: written marks replies := by
  simp [written]

/-! Lines. -/

theorem not_opensBlock {line : String} (h : Text.allBlank line = true) :
    opensBlock line = false := by
  have hdrop : line.toList.reverse.dropWhile Text.isBlank = [] := by
    rw [List.dropWhile_eq_nil_iff]
    intro c hc
    exact List.all_eq_true.mp h c (List.mem_reverse.mp hc)
  simp [opensBlock, Text.trimEnd, hdrop]

theorem not_allBlank {line : String} (h : opensBlock line = true) :
    Text.allBlank line = false := by
  by_contra hblank
  rw [not_opensBlock (by simpa using hblank)] at h
  cases h

/-- What the lines make of the block being entered, one after another: whether a block is open
behind each line, and the text of the chunk that it completes. -/
def fed (pending : Pending) : List String → List (Bool × Option String)
  | [] => []
  | line :: lines =>
    ((feed pending line).1.isSome, (feed pending line).2) :: fed (feed pending line).1 lines

theorem length_fed (pending : Pending) (lines : List String) :
    (fed pending lines).length = lines.length := by
  induction lines generalizing pending with
  | nil => rfl
  | cons line lines ih => exact congrArg (· + 1) (ih _)

theorem fed_take (pending : Pending) (lines : List String) (n : Nat) :
    fed pending (lines.take n) = (fed pending lines).take n := by
  induction lines generalizing pending n with
  | nil => simp [fed]
  | cons line lines ih =>
    cases n with
    | zero => rfl
    | succ n => exact congrArg (List.cons _) (ih _ n)

theorem fed_body {body : List String} (h : ∀ l ∈ body, Text.allBlank l = false) (text : String)
    (rest : List String) :
    fed (some text) (body ++ rest) =
      List.replicate body.length (true, none) ++ fed (some (text ++ unlines body)) rest := by
  induction body generalizing text with
  | nil => simp [unlines]
  | cons line body ih =>
    rw [List.forall_mem_cons] at h
    have hfeed : feed (some text) line = (some (text ++ line ++ "\n"), none) := by
      simp [feed, h.1]
    have htext : text ++ unlines (line :: body) =
        text ++ line ++ "\n" ++ unlines body := by
      simp [unlines, String.append_assoc]
    rw [List.cons_append, fed, hfeed, ih h.2, htext]
    rfl

theorem feed_head {head : String} (h : opensBlock head = true) :
    feed none head = (some (head ++ "\n"), none) := by
  simp [feed, h]

/-- Lines are fed as they are gathered. -/
theorem Gathered.fed_eq {lines left : List String} {marks : List Mark}
    (h : Gathered lines marks left) :
    fed none lines = marks.map fun k => (k.inBlock, k.chunk.map Chunk.text) := by
  induction h with
  | done => rfl
  | @blank line _ _ _ hblank _ ih =>
    have hfeed : feed none line = (none, none) := by simp [feed, not_opensBlock hblank, hblank]
    rw [fed, hfeed, ih]
    rfl
  | @single line _ _ _ hblank hopens _ ih =>
    have hfeed : feed none line = (none, some line) := by simp [feed, hopens, hblank]
    rw [fed, hfeed, ih]
    rfl
  | @block head last body lines left marks hopens hbody hlast _ ih =>
    have hfeed : ∀ text, feed (some text) last = (none, some text) := by simp [feed, hlast]
    have htext : head ++ "\n" ++ unlines body = unlines (head :: body) := by
      simp [unlines]
    rw [fed, feed_head hopens, fed_body hbody, htext, fed, hfeed, ih]
    simp [List.replicate_succ, Chunk.text]
  | @unclosed head body hopens hbody =>
    have hlines := fed_body hbody (head ++ "\n") []
    rw [List.append_nil] at hlines
    rw [fed, feed_head hopens, hlines]
    simp [List.replicate_succ, fed]

theorem exists_gathered (lines : List String) : ∃ marks left, Gathered lines marks left := by
  -- Inside a block the lines read so far are carried along as its head and body.
  suffices h : (∃ marks left, Gathered lines marks left) ∧ ∀ head body,
      opensBlock head = true → (∀ l ∈ body, Text.allBlank l = false) →
      ∃ marks left, Gathered (head :: (body ++ lines)) marks left from h.1
  induction lines with
  | nil =>
    refine ⟨⟨[], [], .done⟩, fun head body hopens hbody => ?_⟩
    rw [List.append_nil]
    exact ⟨_, _, .unclosed hopens hbody⟩
  | cons line lines ih =>
    obtain ⟨⟨marks, left, hlines⟩, hblock⟩ := ih
    constructor
    · cases hblank : Text.allBlank line with
      | true => exact ⟨_, _, .blank hblank hlines⟩
      | false =>
        cases hopens : opensBlock line with
        | true => exact hblock line [] hopens (by simp)
        | false => exact ⟨_, _, .single hblank hopens hlines⟩
    · intro head body hopens hbody
      cases hblank : Text.allBlank line with
      | true => exact ⟨_, _, .block hopens hbody hblank hlines⟩
      | false =>
        have hlonger := hblock head (body ++ [line]) hopens
          (List.forall_mem_append.mpr ⟨hbody, by simpa using hblank⟩)
        rwa [List.append_assoc] at hlonger

/-- A block with its end, and behind a blank line the head of a block without one. -/
example : Gathered ["if x:", "  f(", " ", "", "y", "g: "]
    [⟨none, true⟩, ⟨none, true⟩, ⟨some (.block "if x:" ["  f("]), false⟩, ⟨none, false⟩,
      ⟨some (.line "y"), false⟩, ⟨none, true⟩] ["g: "] :=
  @Gathered.block "if x:" " " ["  f("] ["", "y", "g: "] _ _ (by decide +kernel)
    (by decide +kernel) (by decide +kernel) <|
      .blank (by decide +kernel) <| .single (by decide +kernel) (by decide +kernel) <|
        @Gathered.unclosed "g: " [] (by decide +kernel) (by simp)

/-- A block ends at the first blank line. -/
theorem eq_of_body_eq {body body' lines lines' : List String} {last last' : String}
    (hbody : ∀ l ∈ body, Text.allBlank l = false) (hbody' : ∀ l ∈ body', Text.allBlank l = false)
    (hlast : Text.allBlank last = true) (hlast' : Text.allBlank last' = true)
    (h : body ++ last :: lines = body' ++ last' :: lines') : body = body' ∧ lines = lines' := by
  induction body generalizing body' with
  | nil =>
    cases body' with
    | nil =>
      cases h
      exact ⟨rfl, rfl⟩
    | cons l body' =>
      cases h
      simp [hlast] at hbody'
  | cons l body ih =>
    rw [List.forall_mem_cons] at hbody
    cases body' with
    | nil =>
      cases h
      simp [hlast'] at hbody
    | cons l' body' =>
      rw [List.forall_mem_cons] at hbody'
      obtain ⟨rfl, htail⟩ := List.cons.inj h
      obtain ⟨rfl, rfl⟩ := ih hbody.2 hbody'.2 htail
      exact ⟨rfl, rfl⟩

/-- Lines that begin with the head of a block are a block with its end and other lines, or all of
them a block without an end. -/
theorem Gathered.opened {head : String} {rest left : List String} {marks : List Mark}
    (h : Gathered (head :: rest) marks left) (hopens : opensBlock head = true) :
    (∃ body last lines marks', rest = body ++ last :: lines ∧
      (∀ l ∈ body, Text.allBlank l = false) ∧ Text.allBlank last = true ∧
      Gathered lines marks' left ∧
      marks = List.replicate (body.length + 1) ⟨none, true⟩ ++
        ⟨some (.block head body), false⟩ :: marks') ∨
    (∀ l ∈ rest, Text.allBlank l = false) ∧
      marks = List.replicate (rest.length + 1) ⟨none, true⟩ ∧ left = head :: rest := by
  cases h with
  | blank hblank => exact absurd hblank (by simp [not_allBlank hopens])
  | single _ hopens' => exact absurd hopens (by simp [hopens'])
  | block _ hbody hlast hlines => exact .inl ⟨_, _, _, _, rfl, hbody, hlast, hlines, rfl⟩
  | unclosed _ hbody => exact .inr ⟨hbody, rfl, rfl⟩

/-- Lines are gathered in one way. -/
theorem Gathered.unique {lines left left' : List String} {marks marks' : List Mark}
    (h : Gathered lines marks left) (h' : Gathered lines marks' left') :
    marks' = marks ∧ left' = left := by
  induction h generalizing marks' left' with
  | done =>
    cases h'
    exact ⟨rfl, rfl⟩
  | blank hblank _ ih =>
    cases h' with
    | blank _ hlines => exact ⟨congrArg _ (ih hlines).1, (ih hlines).2⟩
    | single hblank' => exact absurd hblank (by simp [hblank'])
    | block hopens | unclosed hopens => exact absurd hblank (by simp [not_allBlank hopens])
  | single hblank hopens _ ih =>
    cases h' with
    | blank hblank' => exact absurd hblank' (by simp [hblank])
    | single _ _ hlines => exact ⟨congrArg _ (ih hlines).1, (ih hlines).2⟩
    | block hopens' | unclosed hopens' => exact absurd hopens' (by simp [hopens])
  | @block head last body lines left marks hopens hbody hlast _ ih =>
    rcases h'.opened hopens with ⟨body', last', lines', ks, heq, hbody', hlast', hlines, rfl⟩ |
      ⟨hopen, -, -⟩
    · obtain ⟨rfl, rfl⟩ := eq_of_body_eq hbody hbody' hlast hlast' heq
      obtain ⟨rfl, rfl⟩ := ih hlines
      exact ⟨rfl, rfl⟩
    · exact absurd hlast (by simp [hopen last])
  | unclosed hopens hbody =>
    rcases h'.opened hopens with ⟨body', last', lines', ks, rfl, -, hlast', -, -⟩ | ⟨-, rfl, rfl⟩
    · exact absurd hlast' (by simp [hbody last'])
    · exact ⟨rfl, rfl⟩

/-- No line but the blank ones is lost, and none is repeated or moved. -/
theorem Gathered.lines_eq {lines left : List String} {marks : List Mark}
    (h : Gathered lines marks left) :
    (marks.filterMap Mark.chunk).flatMap Chunk.lines ++ left =
      lines.filter fun l => !Text.allBlank l := by
  have hblock : ∀ {head : String} {body : List String}, opensBlock head = true →
      (∀ l ∈ body, Text.allBlank l = false) →
      (head :: body).filter (fun l => !Text.allBlank l) = head :: body := by
    intro head body hopens hbody
    rw [List.filter_eq_self]
    simpa [not_allBlank hopens] using hbody
  induction h with
  | done => rfl
  | blank hblank _ ih => simpa [hblank] using ih
  | single hblank _ _ ih => simpa [hblank, Chunk.lines] using ih
  | @block head last body lines left marks hopens hbody hlast _ ih =>
    rw [← List.cons_append, List.filter_append, hblock hopens hbody]
    simpa [hlast, Chunk.lines] using ih
  | unclosed hopens hbody =>
    rw [hblock hopens hbody]
    simp

/-- A block is open behind the last line when lines are left over. -/
theorem Gathered.getLast?_inBlock {lines left : List String} {marks : List Mark}
    (h : Gathered lines marks left) :
    (marks.map Mark.inBlock).getLast? = some true ↔ left ≠ [] := by
  induction h with
  | done => simp
  | @blank line lines left marks _ _ ih | @single line lines left marks _ _ _ ih =>
    rw [← ih]
    cases hmarks : marks.map Mark.inBlock with
    | nil => simp [hmarks]
    | cons b bs => simp [hmarks, List.getLast?_cons_cons]
  | @block head last body lines left marks _ _ _ _ ih =>
    rw [← ih, List.map_append, List.getLast?_append, List.map_cons]
    cases hmarks : marks.map Mark.inBlock with
    | nil => simp
    | cons b bs => simp [List.getLast?_cons_cons]
  | unclosed => simp [List.getLast?_replicate]

/-- A block is open behind a line when the lines up to it leave some over. -/
theorem Gathered.inBlock_iff {lines left left' : List String} {marks marks' : List Mark}
    (h : Gathered lines marks left) {n : Nat} (hn : n < lines.length)
    (h' : Gathered (lines.take (n + 1)) marks' left') :
    (marks.map Mark.inBlock)[n]? = some true ↔ left' ≠ [] := by
  have hmap : ∀ {ls left : List String} {ks : List Mark}, Gathered ls ks left →
      ks.map Mark.inBlock = (fed none ls).map Prod.fst := by
    intro ls left ks hks
    rw [hks.fed_eq, List.map_map]
    rfl
  have hlength : n < (marks.map Mark.inBlock).length := by
    rwa [hmap h, List.length_map, length_fed]
  rw [← h'.getLast?_inBlock, hmap h', fed_take, List.map_take, ← hmap h, List.getLast?_take,
    if_neg (Nat.succ_ne_zero n), Nat.add_sub_cancel, List.getElem?_eq_getElem hlength]
  rfl

/-! Chunks. -/

theorem lone?_eq_some {p : Program} {e : Expr} (h : lone? p = some e) :
    ∃ pos, p = [.expr pos e] := by
  unfold lone? at h
  split at h <;> cases h
  exact ⟨_, rfl⟩

theorem lone?_eq_none {p : Program} (h : lone? p = none) : ∀ pos e, p ≠ [.expr pos e] := by
  rintro pos e rfl
  cases h

theorem run_bind_pure {α β : Type} (x : Run Binding α) (f : α → β) (s : State Binding) :
    (x >>= fun a => pure (f a)).run s = ((x.run s).1.map f, (x.run s).2) := by
  rw [Run.run_bind]
  obtain ⟨_ | a, t⟩ := x.run s <;> rfl

/-- To run a lone expression is to evaluate it and to forget its value. -/
theorem run_lone (m : Machine Binding) (pos : Pos) (e : Expr) (s : State Binding) :
    (m.run [.expr pos e]).run s =
      (((m.eval e).run s).1.map fun _ => (), ((m.eval e).run s).2) := by
  unfold Machine.run Machine.eval Run.program
  rw [Run.execAll_singleton, Run.exec, Run.run_onGlobals, Run.run_onGlobals, run_bind_pure,
    run_bind_pure]
  generalize (Run.eval m.invoke m.room e).run { s with scopes := s.scopes.enter } = r
  obtain ⟨_ | v, t⟩ := r <;> rfl

theorem failed_or_broke {m : Machine Binding} {quiet : Bool} {s t : State Binding} {text : String}
    {p : Program} {f : Failure} (hp : Program.ofSource text = .ok p)
    (hrun : (m.run p).run { s with outputs := #[] } = (.error f, t)) :
    (∃ e, f = .script e ∧
      Ran m quiet s text t (shown quiet t ++ [.err ((ScriptError.runtime e).message ++ "\n")])) ∨
    (∀ e, f ≠ .script e) ∧ Broke m quiet s text f (shown quiet t) := by
  by_cases hscript : ∃ e, f = .script e
  · obtain ⟨e, rfl⟩ := hscript
    exact .inl ⟨e, rfl, .failed hp hrun⟩
  · have hf : ∀ e, f ≠ .script e := fun e heq => hscript ⟨e, heq⟩
    exact .inr ⟨hf, p, t, hp, hf, hrun, rfl⟩

/-- What a chunk writes and what comes of it. -/
inductive Chunked (m : Machine Binding) (quiet : Bool) (s : State Binding) (text : String) :
    List Write × Except Failure (State Binding) → Prop
  | ran {t : State Binding} {ws : List Write} :
      Ran m quiet s text t ws → Chunked m quiet s text (ws, .ok t)
  | broke {f : Failure} {ws : List Write} :
      Broke m quiet s text f ws → Chunked m quiet s text (ws, .error f)

/-- What the prompt makes of how a program in a chunk ends. -/
def ending (quiet : Bool) (t : State Binding) :
    Except Failure (Option String) → List Write × Except Failure (State Binding)
  | .ok (some echo) => (shown quiet t ++ [.out (echo ++ "\n")], .ok t)
  | .ok none => (shown quiet t, .ok t)
  | .error (.script e) => (shown quiet t ++ [.err ((ScriptError.runtime e).message ++ "\n")], .ok t)
  | .error f => (shown quiet t, .error f)

theorem ending_error {f : Failure} (h : ∀ e, f ≠ .script e) (quiet : Bool) (t : State Binding) :
    ending quiet t (.error f) = (shown quiet t, .error f) := by
  cases f with
  | script e => exact absurd rfl (h e)
  | _ => rfl

theorem evalChunk_of_compiled (m : Machine Binding) (quiet : Bool) (s : State Binding)
    {text : String} {p : Program} (hp : Program.ofSource text = .ok p) :
    evalChunk m quiet s text =
      ending quiet ((execute m p).run { s with outputs := #[] }).2
        ((execute m p).run { s with outputs := #[] }).1 := by
  unfold evalChunk
  rw [hp]
  dsimp only
  generalize (execute m p).run { s with outputs := #[] } = r
  obtain ⟨(_ | _ | _ | _) | _ | echo, t⟩ := r <;> rfl

theorem ending_chunked {m : Machine Binding} {quiet : Bool} {s t : State Binding} {text : String}
    {p : Program} {f : Failure} (hp : Program.ofSource text = .ok p)
    (hrun : (m.run p).run { s with outputs := #[] } = (.error f, t)) :
    Chunked m quiet s text (ending quiet t (.error f)) := by
  obtain ⟨e, rfl, hran⟩ | ⟨hf, hbroke⟩ := @failed_or_broke m quiet s t text p f hp hrun
  · exact .ran hran
  · rw [ending_error hf]
    exact .broke hbroke

theorem evalChunk_chunked (m : Machine Binding) (quiet : Bool) (s : State Binding)
    (text : String) : Chunked m quiet s text (evalChunk m quiet s text) := by
  cases hp : Program.ofSource text with
  | error e =>
    unfold evalChunk
    rw [hp]
    exact .ran (.refused hp)
  | ok p =>
    rw [evalChunk_of_compiled m quiet s hp]
    unfold execute
    cases hlone : lone? p with
    | some e =>
      obtain ⟨pos, rfl⟩ := lone?_eq_some hlone
      have hrun := run_lone m pos e { s with outputs := #[] }
      dsimp only
      rw [run_bind_pure]
      cases heval : (m.eval e).run { s with outputs := #[] } with
      | mk r t =>
        rw [heval] at hrun
        cases r with
        | error f => exact ending_chunked hp hrun
        | ok v => exact .ran (.echoed hp hrun heval)
    | none =>
      dsimp only
      rw [run_bind_pure]
      cases hrun : (m.run p).run { s with outputs := #[] } with
      | mk r t =>
        cases r with
        | error f => exact ending_chunked hp hrun
        | ok _ => exact .ran (.finished hp (lone?_eq_none hlone) hrun)

/-! Sessions. -/

/-- What the prompt writes of lines by what they make of the block being entered, and how it
ends. -/
def answer (m : Machine Binding) (quiet : Bool) (s : State Binding) :
    List (Bool × Option String) → List Write × Exit
  | [] => ([], .code 0)
  | (inBlock, chunk) :: rest =>
    let ran := chunk.elim ([], .ok s) (evalChunk m quiet s)
    match ran.2 with
    | .ok t =>
      let more := answer m quiet t rest
      (ran.1 ++ .out (if inBlock then "...> " else "cue> ") :: more.1, more.2)
    | .error f => (ran.1, .broken f)

theorem answer_idle (m : Machine Binding) (quiet : Bool) (s : State Binding) (inBlock : Bool)
    (rest : List (Bool × Option String)) :
    answer m quiet s ((inBlock, none) :: rest) =
      (.out (if inBlock then "...> " else "cue> ") :: (answer m quiet s rest).1,
        (answer m quiet s rest).2) := rfl

/-- Nothing behind a chunk that does not come back is looked at. -/
theorem answer_broke {m : Machine Binding} {quiet : Bool} {s : State Binding} {text : String}
    {f : Failure} {ws : List Write} (h : evalChunk m quiet s text = (ws, .error f))
    (inBlock : Bool) (rest : List (Bool × Option String)) :
    answer m quiet s ((inBlock, some text) :: rest) = (ws, .broken f) := by
  simp [answer, h]

theorem ask_eq (pending : Pending) :
    ask pending = if pending.isSome then "...> " else "cue> " := by
  cases pending <;> rfl

theorem go_eq_answer (m : Machine Binding) (config : Config) (s : State Binding)
    (pending : Pending) (lines : List String) :
    session.go m config ⟨s, pending⟩ lines = answer m config.quiet s (fed pending lines) := by
  induction lines generalizing s pending with
  | nil => rfl
  | cons line lines ih =>
    rw [session.go, fed, answer, step]
    cases feed pending line with
    | mk pending' chunk =>
      cases chunk with
      | none => simp [ih, ask_eq]
      | some text =>
        dsimp only [Option.elim]
        cases (evalChunk m config.quiet s text).2 with
        | error f => rfl
        | ok t => simp [ih, ask_eq]

theorem session_eq_answer (m : Machine Binding) (config : Config) (lines : List String) :
    session m config lines =
      (.out "cue> " :: (answer m config.quiet (start config).state (fed none lines)).1,
        (answer m config.quiet (start config).state (fed none lines)).2) := by
  rw [← go_eq_answer]
  rfl

/-- The chunks of all lines come back, and the prompt writes what they write. -/
def Completes (m : Machine Binding) (quiet : Bool) (s : State Binding) (marks : List Mark)
    (r : List Write × Exit) : Prop :=
  ∃ t replies, Runs m quiet s marks t replies ∧ r = (written marks replies, .code 0)

/-- The chunks of some lines come back, and the chunk that the next line completes does not. The
prompt writes what they write, and nothing behind it: it does not ask for another line. -/
def StopsAt (m : Machine Binding) (quiet : Bool) (s : State Binding) (marks : List Mark)
    (r : List Write × Exit) : Prop :=
  ∃ before c inBlock after t replies f ws, marks = before ++ ⟨some c, inBlock⟩ :: after ∧
    Runs m quiet s before t replies ∧ Broke m quiet t c.text f ws ∧
    r = (written before replies ++ ws, .broken f)

/-- A line and its reply in front of others. -/
theorem Runs.ends_cons {m : Machine Binding} {quiet : Bool} {s s' : State Binding} {k : Mark}
    {marks : List Mark} {r : List Write × Exit} (ws : List Write)
    (hstep : ∀ {ks t replies}, Runs m quiet s' ks t replies →
      Runs m quiet s (k :: ks) t (ws :: replies))
    (h : Completes m quiet s' marks r ∨ StopsAt m quiet s' marks r) :
    Completes m quiet s (k :: marks) (ws ++ .out k.prompt :: r.1, r.2) ∨
      StopsAt m quiet s (k :: marks) (ws ++ .out k.prompt :: r.1, r.2) := by
  obtain ⟨t, replies, hruns, rfl⟩ | ⟨before, c, b, after, t, replies, f, last, rfl, hruns, hbroke,
    rfl⟩ := h
  · refine .inl ⟨t, ws :: replies, hstep hruns, ?_⟩
    rw [written_cons]
  · refine .inr ⟨k :: before, c, b, after, t, ws :: replies, f, last, rfl, hstep hruns, hbroke, ?_⟩
    rw [written_cons, List.append_assoc, List.cons_append]

theorem completes_or_stops (m : Machine Binding) (quiet : Bool) (s : State Binding)
    (marks : List Mark) :
    let r := answer m quiet s (marks.map fun k => (k.inBlock, k.chunk.map Chunk.text))
    Completes m quiet s marks r ∨ StopsAt m quiet s marks r := by
  induction marks generalizing s with
  | nil => exact .inl ⟨s, [], .done, rfl⟩
  | cons k marks ih =>
    obtain ⟨chunk, inBlock⟩ := k
    cases chunk with
    | none => exact Runs.ends_cons [] .idle (ih s)
    | some c =>
      have hchunk := evalChunk_chunked m quiet s c.text
      rw [List.map_cons, answer]
      dsimp only [Option.map_some, Option.elim]
      generalize evalChunk m quiet s c.text = ran at hchunk ⊢
      cases hchunk with
      | broke hbroke => exact .inr ⟨[], c, inBlock, marks, s, [], _, _, rfl, .done, hbroke, rfl⟩
      | @ran s' ws hran => exact Runs.ends_cons ws (.chunk hran) (ih s')

/-- The lines of a session are gathered in one way, in which every line but the blank ones is in one
chunk, in order, or left over at the end. The chunks that the lines complete run in turn, up to the
first that does not come back. The prompt asks once before the lines and once behind each of them up
to there, otherwise than usual where the lines leave some over that far, and writes in between what
the chunks write. -/
theorem session_gathers (m : Machine Binding) (config : Config) (lines : List String) :
    ∃ marks left,
      (∀ marks' left', Gathered lines marks' left' ↔ marks' = marks ∧ left' = left) ∧
        (marks.filterMap Mark.chunk).flatMap Chunk.lines ++ left =
          lines.filter (fun l => !Text.allBlank l) ∧
        marks.length = lines.length ∧
        (∀ n < lines.length, ∀ marks' left', Gathered (lines.take (n + 1)) marks' left' →
          (marks[n]?.map Mark.prompt = some "...> " ↔ left' ≠ [])) ∧
        (∀ s t ks replies, Runs m config.quiet s ks t replies → replies.length = ks.length) ∧
        ∃ writes exit, session m config lines = (.out "cue> " :: writes, exit) ∧
          (Completes m config.quiet (start config).state marks (writes, exit) ∨
            StopsAt m config.quiet (start config).state marks (writes, exit)) := by
  obtain ⟨marks, left, h⟩ := exists_gathered lines
  have hlength : marks.length = lines.length := by
    have hfed := congrArg List.length h.fed_eq
    rw [length_fed, List.length_map] at hfed
    exact hfed.symm
  have hends := completes_or_stops m config.quiet (start config).state marks
  rw [← h.fed_eq] at hends
  refine ⟨marks, left, fun marks' left' => ⟨h.unique, ?_⟩, h.lines_eq, hlength,
    fun n hn marks' left' h' => ?_, fun _ _ _ _ => Runs.length_eq, _, _,
    session_eq_answer m config lines, hends⟩
  · rintro ⟨rfl, rfl⟩
    exact h
  · rw [← h.inBlock_iff hn h', List.getElem?_map]
    cases marks[n]? with
    | none => simp
    | some k => cases hk : k.inBlock <;> simp [Mark.prompt, hk]

/-- The program of the lines `for i in range(-1 / (1 - 1), 1):` and `  x = 1`: a loop from the least
number on, to which one more is that number again. -/
def stuckLoop : Program :=
  [.loop ⟨1, 1⟩ "i"
    (.binary ⟨1, 19⟩ (.arith .div) (.unary ⟨1, 16⟩ .neg (.int ⟨1, 17⟩ .one))
      (.binary ⟨1, 24⟩ (.arith .sub) (.int ⟨1, 22⟩ .one) (.int ⟨1, 26⟩ .one)))
    (.int ⟨1, 30⟩ .one) [.assign ⟨2, 3⟩ "x" (.int ⟨2, 7⟩ .one)]]

theorem run_stuckLoop (depth room : Nat) (s : State Binding) :
    ∃ t, ((Console.machine depth (room + 2)).run stuckLoop).run s = (.error .endless, t) ∧
      t.outputs = s.outputs := by
  let m := Console.machine depth (room + 2)
  let body : List Stmt := [.assign ⟨2, 3⟩ "x" (.int ⟨2, 7⟩ .one)]
  let one := Number.one.truncate
  let least := ArithOp.div.compute (-one) (ArithOp.sub.compute one one)
  have hin : least.truncate.less one = true := by decide +kernel
  have hstuck : least.truncate + .one = least.truncate := by decide +kernel
  have hbody : ∀ s : State Binding, ∃ t, (Run.execAll m.invoke m.room body).run s =
      (.ok .next, t) ∧ t.outputs = s.outputs := fun s => ⟨_, rfl, rfl⟩
  obtain ⟨t, ht, hquiet⟩ := Run.iterate_endless hin hstuck hbody Run.countLimit
    { s with scopes := s.scopes.enter }
  refine ⟨{ t with scopes := t.scopes.leave }, ?_, hquiet⟩
  unfold Machine.run Run.program stuckLoop
  rw [Run.execAll_singleton, Run.run_onGlobals, Run.run_bind,
    Run.run_exec_loop m.invoke m.room _ "i" body (v := .float least) rfl rfl rfl rfl, ht]
  rfl

theorem evalChunk_stuckLoop (quiet : Bool) (s : State Binding) {text : String}
    (hp : Program.ofSource text = .ok stuckLoop) (depth room : Nat) :
    evalChunk (Console.machine depth (room + 2)) quiet s text = ([], .error .endless) := by
  let m := Console.machine depth (room + 2)
  obtain ⟨t, ht, hquiet⟩ := run_stuckLoop depth room { s with outputs := #[] }
  have hexecute : (execute m stuckLoop).run { s with outputs := #[] } = (.error .endless, t) := by
    show ((m.run stuckLoop >>= fun _ => pure none : Run Binding (Option String)).run _) = _
    rw [run_bind_pure, ht]
    rfl
  rw [evalChunk_of_compiled m quiet s hp, hexecute, ending_error fun _ => Failure.noConfusion]
  unfold shown
  rw [hquiet]
  rfl

/-- A chunk that does not come back ends the session, be it for a loop without end or for an
expression that is nested deeper than there is room for. The lines behind it are not read, and
nothing asks for them. -/
theorem session_stops_early :
    let config : Config := ⟨none, "render", .one, .one, ⟨.ofNat 800, .ofNat 600⟩, false, false⟩
    session (Console.machine 1000 100) config
        ["for i in range(-1 / (1 - 1), 1):", "  x = 1", "", "7"] =
      ([.out "cue> ", .out "...> ", .out "...> "], .broken .endless) ∧
    session (Console.machine 1000 2) config ["1 + 1 + 1 + 1", "7"] =
      ([.out "cue> "], .broken .exhausted) := by
  intro config
  refine ⟨?_, by decide +kernel⟩
  let text := "for i in range(-1 / (1 - 1), 1):\n  x = 1\n"
  have hp : Program.ofSource text = .ok stuckLoop := by decide +kernel
  have hfed : fed none ["for i in range(-1 / (1 - 1), 1):", "  x = 1", "", "7"] =
      [(true, none), (true, none), (false, some text), (false, some "7")] := by decide +kernel
  have hchunk := evalChunk_stuckLoop config.quiet (start config).state hp 1000 98
  rw [session_eq_answer, hfed, answer_idle, answer_idle, answer_broke hchunk]
  rfl

end SceneScript.Prompt
