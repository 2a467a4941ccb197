import SceneScript.Proofs.Native.Binding
import SceneScript.Proofs.Run.Reach

/-! Where errors come from. On a host that offers the usual native functions, an error of a run is
explained by a part of the program or of a procedure that the globals held at the start, and tells
the place of an expression there; only complaints of native functions and refused calls have no
place. What is no error of the script comes from outside every procedure: from an expression there
that is nested too deep. -/

namespace SceneScript

variable {ν : Type}

namespace State

/-- Code that a run of `p` can come to from `s`: the program itself and the bodies of the procedures
that the globals hold. -/
def HasCode (s : State ν) (p body : Program) : Prop :=
  body = p ∨ ∃ global f, s.global? global = some (.fn (.proc f)) ∧ f.body = body

/-- Procedures that a run of `p` can come to from `s`: those that the globals hold and those
declared in the code. -/
def Knows (s : State ν) (p : Program) (f : Procedure) : Prop :=
  (∃ global, s.global? global = some (.fn (.proc f))) ∨
    ∃ body, s.HasCode p body ∧ .proc f ∈ Stmt.partsAll body

/-- What an error of a run of `p` from `s` can be: something wrong at a part of the code, told with
a place there, or, told without a place, a complaint of a native function about its arguments or a
refused call of a procedure. -/
inductive Explains (s : State ν) (p : Program) : RuntimeError → Prop
  | fault {body : Program} {part : Part} {e : RuntimeError} : s.HasCode p body →
      part ∈ Stmt.partsAll body → Fault part e → Explains s p e
  | argument {b : Binding} {cause : RuntimeCause} : cause.Blames b.name →
      Explains s p ⟨cause, none⟩
  | overflow {f : Procedure} : s.Knows p f → Explains s p ⟨.stackOverflow f.name, none⟩

/-- The place of the error, if it has one, is that of an expression in the code. -/
def Locates (s : State ν) (p : Program) (e : RuntimeError) : Prop :=
  ∀ pos, e.pos = some pos →
    ∃ body node, s.HasCode p body ∧ .expr node ∈ Stmt.partsAll body ∧ node.pos = pos

variable {s : State ν} {p : Program}

theorem Explains.locates {e : RuntimeError} (h : s.Explains p e) : s.Locates p e := by
  intro pos hpos
  cases h with
  | @fault body part e hbody hpart hfault =>
    obtain ⟨node, hnode, hplace⟩ := hfault.exists_expr
    rw [hplace] at hpos
    cases hpos
    exact ⟨body, node, hbody, Stmt.partsAll_closed body part hpart hnode, rfl⟩
  | argument => cases hpos
  | overflow => cases hpos

theorem Knows.exists_code {f : Procedure} (h : s.Knows p f) :
    ∃ body, s.HasCode p body ∧ Stmt.partsAll f.body ⊆ Stmt.partsAll body := by
  obtain ⟨global, hglobal⟩ | ⟨body, hbody, hpart⟩ := h
  · exact ⟨f.body, .inr ⟨global, f, hglobal, rfl⟩, List.Subset.refl _⟩
  · exact ⟨body, hbody, Stmt.partsAll_closed body _ hpart⟩

end State

namespace Reach

/-- What a run of `p` from `s` can reach on a host with the usual native functions and with `room`
for expressions. -/
def ofRun (room : Nat) (s : State Binding) (p : Program) : Reach Binding where
  callable
    | .proc f => s.Knows p f
    | .native .. => True
  failure
    | .script e => s.Explains p e
    | .exhausted => room < Stmt.heightAll p
    | .endless => True
    | .host _ => False

variable {room : Nat} {s : State Binding} {p : Program}

theorem ofRun_holds {body : Program} (hbody : s.HasCode p body) :
    ∀ part ∈ Stmt.partsAll body, (ofRun room s p).Holds part := by
  intro part hpart
  refine ⟨fun e he => .fault hbody hpart he, ?_⟩
  rintro f rfl
  exact .inr ⟨body, hbody, hpart⟩

/-- A request that first checks arguments of its native function. -/
theorem ofRun_checked (b : Binding) {α : Type} {x : Except RuntimeCause α} (hx : Blamed b.name x)
    (entry : Entry Binding) {next : α → Request Binding (Value Binding)}
    (hnext : ∀ a, Run.Stays (ofRun room s p) Scopes.Kept (ofRun room s p).value
      (Run.perform entry (next a))) :
    Run.Stays (ofRun room s p) Scopes.Kept (ofRun room s p).value
      (Run.perform entry (Request.ofExcept x >>= next)) := by
  cases x with
  | error cause => exact .throw (.argument (hx cause rfl))
  | ok a => exact hnext a

theorem ofRun_request (b : Binding) (args : List (Value Binding)) (entry : Entry Binding) :
    Run.Stays (ofRun room s p) Scopes.Kept (ofRun room s p).value
      (Run.perform entry (b.request args)) := by
  have hdraw : ∀ command : Except RuntimeCause Draw, Blamed b.name command →
      Run.Stays (ofRun room s p) Scopes.Kept (ofRun room s p).value
        (Run.perform entry (Binding.draw command)) :=
    fun _ h => ofRun_checked b h entry fun _ => .bind (.emit _) fun _ _ => .pure trivial
  cases b with
  | print => exact .bind (.emit _) fun _ _ => .pure trivial
  | drawText => exact hdraw _ (.textCommand args)
  | drawRect => exact hdraw _ (.boxCommand args .rect)
  | drawRectLines => exact hdraw _ (.boxCommand args .rectLines)
  | drawCircle => exact hdraw _ (.circleCommand args)
  | clear => exact hdraw _ (.clearCommand args)
  | isKeyDown =>
    exact ofRun_checked .isKeyDown (.key args 0) entry fun _ => .get fun _ => .pure trivial
  | isKeyPressed =>
    exact ofRun_checked .isKeyPressed (.key args 0) entry fun _ => .get fun _ => .pure trivial

theorem ofRun_closed : (ofRun room s p).Closed Console.natives where
  native _ key args _ _ entry := ofRun_request key args entry
  body f hf part hpart := by
    obtain ⟨body, hbody, hparts⟩ := State.Knows.exists_code hf
    exact ofRun_holds hbody part (hparts hpart)
  overflow _ hf := .overflow hf
  endless := trivial

theorem ofRun_globals : s.scopes.globals.All (ofRun room s p).value := by
  intro global v hv
  cases v with
  | fn f =>
    cases f with
    | proc f => exact .inl ⟨global, hv⟩
    | native => trivial
  | _ => trivial

theorem ofRun_suffices : (ofRun room s p).Suffices room (Stmt.heightAll p) :=
  (Nat.lt_or_ge _ _).symm

end Reach

/-- A failure for which no script is to blame: a loop without end, or an expression of the program
that is nested too deep. -/
def Failure.Raw (room : Nat) (p : Program) (f : Failure) : Prop :=
  f = .endless ∨ f = .exhausted ∧ room < Stmt.heightAll p

namespace Run

theorem caught_eq_error {α : Type} {r : Except Failure α} {f : Failure}
    (h : caught r = .error f) : r = .error f ∧ ∀ e, f ≠ .script e := by
  obtain (_ | _ | _ | _) | a := r <;> cases h <;> exact ⟨rfl, fun _ => Failure.noConfusion⟩

theorem caught_eq_ok_error {α : Type} {r : Except Failure α} {e : RuntimeError}
    (h : caught r = .ok (.error e)) : r = .error (.script e) := by
  obtain (_ | _ | _ | _) | a := r <;> cases h
  rfl

/-- What an event ends in is what the program registered for it does. -/
theorem run_trigger (invoke : Invoke ν) (room : Nat) (event : String) (s : State ν) :
    ((trigger invoke room event).run s).1 =
      (s.events.get? event).elim (.ok (.ok ()))
        fun p => caught ((program invoke room p).run s).1 := by
  rw [trigger_eq_elim, run_attempt]
  show caught (((s.events.get? event).elim (pure ()) (program invoke room)).run s).1 = _
  cases s.events.get? event with
  | none => rfl
  | some p => rfl

/-- An expression that is higher than there is room for is not evaluated. -/
theorem eval_ones (invoke : Invoke ν) {room n : Nat} (h : room < n) (s : State ν) :
    (eval invoke room (.ones n)).run s = (.error .exhausted, { s with overflowed := true }) := by
  induction room generalizing n with
  | zero =>
    cases n with
    | zero => cases h
    | succ n => rfl
  | succ room ih =>
    cases n with
    | zero => cases h
    | succ n =>
      rw [Expr.ones, eval, deeper, run_bind, ih (Nat.lt_of_succ_lt_succ h)]
      rfl

end Run

namespace Console

variable {depth room : Nat} {s : State Binding}

/-- A failed run failed at an error that its code explains, or at what no script is to blame for. -/
theorem run_eq_error {p : Program} {f : Failure}
    (h : (((machine depth room).run p).run s).1 = .error f) :
    f.Raw room p ∨ ∃ e, f = .script e ∧ s.Explains p e := by
  have hglobals : s.scopes.globals.All (Reach.ofRun room s p).value := Reach.ofRun_globals
  have hends := Run.program_ends Reach.ofRun_closed depth Reach.ofRun_suffices
    (Reach.ofRun_holds (.inl rfl)) hglobals
  have hrun : ((Run.program (Run.invoke natives room depth) room p).run s).1 = .error f := h
  rw [hrun] at hends
  cases f with
  | script e => exact .inr ⟨e, rfl, hends⟩
  | endless => exact .inl (.inl rfl)
  | exhausted => exact .inl (.inr ⟨rfl, hends⟩)
  | host => exact hends.elim

theorem trigger_eq_error {event : String} {f : Failure}
    (h : (((machine depth room).trigger event).run s).1 = .error f) :
    ∃ p, s.events.get? event = some p ∧ f.Raw room p := by
  have htrigger := (Run.run_trigger (machine depth room).invoke room event s).symm.trans h
  cases hevent : s.events.get? event with
  | none =>
    rw [hevent] at htrigger
    cases htrigger
  | some p =>
    rw [hevent] at htrigger
    obtain ⟨hf, hscript⟩ := Run.caught_eq_error htrigger
    exact ⟨p, rfl, (run_eq_error hf).resolve_right fun ⟨e, he, _⟩ => hscript e he⟩

theorem trigger_eq_ok_error {event : String} {e : RuntimeError}
    (h : (((machine depth room).trigger event).run s).1 = .ok (.error e)) :
    ∃ p, s.events.get? event = some p ∧ s.Explains p e := by
  have htrigger := (Run.run_trigger (machine depth room).invoke room event s).symm.trans h
  cases hevent : s.events.get? event with
  | none =>
    rw [hevent] at htrigger
    cases htrigger
  | some p =>
    rw [hevent] at htrigger
    refine ⟨p, rfl, ?_⟩
    obtain (hend | hend) | ⟨e', he', hexplains⟩ := run_eq_error (Run.caught_eq_ok_error htrigger)
    · cases hend
    · cases hend.1
    · cases he'
      exact hexplains

end Console

/-- Outside every procedure an expression that is nested too deep fails in a way that no part of the
code explains, and whatever the limits are, there is one that is. -/
theorem Machine.run_unexplained :
    (((Console.machine 1000 2).run [.expr ⟨1, 1⟩ (.ones 3)]).run Console.start).1 =
        .error .exhausted ∧
      ¬ ∃ depth room : Nat, ∀ (s : State Binding) (p : Program) (f : Failure),
        (((Console.machine depth room).run p).run s).1 = .error f →
          f = .endless ∨ ∃ e, f = .script e ∧ s.Explains p e := by
  have hones : ∀ depth room, (((Console.machine depth room).run
      [.expr ⟨1, 1⟩ (.ones (room + 1))]).run Console.start).1 = .error .exhausted := by
    intro depth room
    unfold Machine.run Run.program
    rw [Run.execAll_singleton, Run.exec]
    rw [Run.run_onGlobals, Run.run_bind, Run.run_bind]
    rw [show (Console.machine depth room).room = room from rfl,
      Run.eval_ones _ (Nat.lt_succ_self room)]
    rfl
  refine ⟨hones 1000 2, ?_⟩
  rintro ⟨depth, room, h⟩
  obtain hend | ⟨e, he, -⟩ := h _ _ _ (hones depth room)
  · cases hend
  · cases he

/-- Every error of a run or of an event, on a host that offers the usual native functions and
whatever its limits are, is an error of the script that its code explains and that is located there.
There are two other ways not to come to an end: a loop without end, and an expression outside every
procedure that is higher than there is room for. -/
theorem Machine.run_explained (depth room : Nat) (s : State Binding) :
    (∀ p f, (((Console.machine depth room).run p).run s).1 = .error f →
      f.Raw room p ∨ ∃ e, f = .script e ∧ s.Explains p e ∧ s.Locates p e) ∧
    ∀ event,
      (∀ f, (((Console.machine depth room).trigger event).run s).1 = .error f →
        ∃ p, s.events.get? event = some p ∧ f.Raw room p) ∧
      ∀ e, (((Console.machine depth room).trigger event).run s).1 = .ok (.error e) →
        ∃ p, s.events.get? event = some p ∧ s.Explains p e ∧ s.Locates p e := by
  refine ⟨fun p f hf => ?_, fun event => ⟨fun f hf => Console.trigger_eq_error hf, fun e he => ?_⟩⟩
  · exact (Console.run_eq_error hf).imp_right fun ⟨e, he, hexplains⟩ =>
      ⟨e, he, hexplains, hexplains.locates⟩
  · obtain ⟨p, hp, hexplains⟩ := Console.trigger_eq_ok_error he
    exact ⟨p, hp, hexplains, hexplains.locates⟩

/-- An event that calls a procedure of an earlier program without the argument that it adds, and a
program whose procedure calls itself. -/
theorem Machine.run_explained_earlier :
    let f : Procedure := ⟨"f", ["x"],
      [.ret ⟨2, 3⟩ (.binary ⟨2, 12⟩ (.arith .add) (.ident ⟨2, 10⟩ "x") (.bool ⟨2, 14⟩ true))]⟩
    let p : Program := [.expr ⟨7, 1⟩ (.call ⟨7, 1⟩ "f" [])]
    let q : Program := [.proc ⟨8, 1⟩ "g" [] [.ret ⟨9, 3⟩ (.call ⟨9, 10⟩ "g" [])],
      .expr ⟨10, 1⟩ (.call ⟨10, 1⟩ "g" [])]
    let s : State Binding := { State.empty with
      scopes := .ofGlobals ⟨[("f", .fn (.proc f))]⟩, events := ⟨[("render", p)]⟩ }
    let m : Machine Binding := Console.machine 2 1
    let misplaced : RuntimeError := ⟨.notNumeric .nil, some ⟨2, 10⟩⟩
    let overflow : RuntimeError := ⟨.stackOverflow "g", none⟩
    (((m.trigger "render").run s).1 = .ok (.error misplaced) ∧ s.Explains p misplaced ∧
        s.Locates p misplaced) ∧
      ((m.run q).run s).1 = .error (.script overflow) ∧ s.Explains q overflow := by
  intro f p q s m misplaced overflow
  have hevent : ((m.trigger "render").run s).1 = .ok (.error misplaced) := rfl
  have hrun : ((m.run q).run s).1 = .error (.script overflow) := rfl
  obtain ⟨hruns, hevents⟩ := Machine.run_explained 2 1 s
  obtain ⟨p', hp', hexplains⟩ := (hevents "render").2 _ hevent
  cases (rfl : s.events.get? "render" = some p).symm.trans hp'
  obtain (hend | hend) | ⟨e, he, hoverflow, -⟩ := hruns q _ hrun
  · cases hend
  · cases hend.1
  · cases he
    exact ⟨⟨hevent, hexplains⟩, hrun, hoverflow⟩

end SceneScript
