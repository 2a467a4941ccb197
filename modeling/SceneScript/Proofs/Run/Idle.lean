import SceneScript.Proofs.Native.Binding

/-! What no run depends on: the places of a program, the types of parameters and the word by which
a variable is declared. Only a native function can bring a place to light, when it is handed back an
error of what it called. -/

namespace SceneScript

variable {ν : Type}

namespace Likeness

/-- Programs may differ in places, in types of parameters and in the words of declarations, and
errors in their places. -/
def idle : Likeness where
  error e f := e.cause = f.cause ∧ e.pos.isSome = f.pos.isSome
  bound _ := False
  fires _ := True
  exact := False
  cut := False
  refl_of_cut := False.elim

theorem idle_finds (name : String) (p q : Pos) : idle.Finds name (some p) (some q) :=
  .inr ⟨rfl, rfl⟩

end Likeness

open Likeness

/-- A native function that triggers an event and prints what comes of it. It looks at no value. -/
def reporting : Natives Unit := fun _ _ _ =>
  .trigger "render" fun r => .emit (.print (told r)) (.done .nil)
where
  told : Except RuntimeError Unit → String
    | .ok () => "ok"
    | .error e => (ScriptError.runtime e).message

/-- Places do show where a native function tells an error that is handed back to it: on states that
differ only in the place of a name, the same program prints different lines. -/
theorem Machine.run_tells_place :
    let m : Machine Unit := ⟨reporting, 2, 1⟩
    let s (pos : Pos) : State Unit := { State.empty with
      scopes := .ofGlobals ⟨[("report", .fn (.native "report" ()))]⟩
      events := ⟨[("render", [.expr pos (.ident pos "x")])]⟩ }
    let p : Program := [.expr ⟨1, 1⟩ (.call ⟨1, 1⟩ "report" [])]
    (∀ key name args args', reporting key name args = reporting key name args') ∧
      State.Outside idle (s ⟨1, 1⟩) (s ⟨2, 1⟩) ∧ Stmt.AlikeAll idle p p ∧
      Console.lines false ((m.run p).run (s ⟨1, 1⟩)).2.outputs.toList =
        ["[RUNTIME] Undefined variable 'x' at 1:1"] ∧
      Console.lines false ((m.run p).run (s ⟨2, 1⟩)).2.outputs.toList =
        ["[RUNTIME] Undefined variable 'x' at 2:1"] := by
  intro m s p
  have hst : State.Outside idle (s ⟨1, 1⟩) (s ⟨2, 1⟩) := by
    refine ⟨.cons ⟨rfl, .fn .native⟩ .nil, fun _ => False.elim, fun event _ => ?_, rfl⟩
    by_cases hevent : event = "render"
    · subst hevent
      exact .some (.cons (.expr False.elim (.ident False.elim (idle_finds _ _ _))) .nil)
    · have hnone : ∀ pos, (s pos).events.get? event = none := fun pos => by
        simp [s, Bindings.get?, hevent]
      rw [hnone, hnone]
      exact .none
  have hp : Stmt.AlikeAll idle p p :=
    .cons (.expr False.elim (.call False.elim (idle_finds _ _ _) ⟨rfl, rfl⟩ .nil)) .nil
  exact ⟨fun _ _ _ _ => rfl, hst, hp, by decide +kernel, by decide +kernel⟩

/-- Programs that differ only in places, types of parameters and words of declarations do the same,
on states that differ only so inside procedures and with native functions that look neither into
procedures nor at the places of errors that are handed back to them: they put out the same, end
alike, with the same cause when they fail, and leave states that differ only so. The same holds of
an event and of a call from outside. -/
theorem Machine.run_idle (m : Machine ν) (hnatives : m.natives.Alike idle) {s t : State ν}
    (hst : State.Outside idle s t) :
    (∀ p q : Program, Stmt.AlikeAll idle p q →
      Run.Meets (idle.same Unit) s t ((m.run p).run s) ((m.run q).run t)) ∧
    (∀ event,
      Run.Meets (idle.same Unit).ends s t ((m.trigger event).run s) ((m.trigger event).run t)) ∧
    ∀ name args args', List.Forall₂ (Value.Alike idle) args args' →
      Run.Meets idle.value.ends s t ((m.call name args).run s) ((m.call name args').run t) := by
  have hroom : idle.Fits m.room m.room := .refl idle m.room
  have hinv : Invoke.Alike idle m.invoke m.invoke :=
    Run.invoke_alike hnatives (fun _ => ⟨rfl, rfl⟩) hroom (.refl idle m.depth)
  refine ⟨fun p q hpq => ?_, fun event => ?_, fun name args args' hargs => ?_⟩
  · exact (Run.program_apart hinv hroom hpq).meets id hst
  · exact (Run.trigger_apart hinv hroom trivial).meets id hst
  · exact (Run.call_apart hinv (.inr ⟨rfl, rfl⟩) ⟨rfl, rfl⟩ hargs).meets id hst

/-- A procedure that fails at another place, called for a variable that is declared by another
word. -/
theorem Machine.run_idle_undefined :
    let s (pos : Pos) : State Binding := { State.empty with
      scopes := .ofGlobals ⟨[("f", .fn (.proc ⟨"f", ["a"], [.ret pos (.ident pos "y")]⟩))]⟩ }
    let p : Program := [.proc ⟨1, 1⟩ "g" [⟨"b", "int"⟩] [], .var ⟨2, 1⟩ "x" (.call ⟨2, 9⟩ "f" [])]
    let q : Program := [.proc ⟨4, 1⟩ "g" [⟨"b", "any"⟩] [], .let ⟨5, 1⟩ "x" (.call ⟨5, 9⟩ "f" [])]
    let m := Console.machine 1 1
    let x := (m.run p).run (s ⟨1, 7⟩)
    let y := (m.run q).run (s ⟨3, 7⟩)
    Run.Meets (idle.same Unit) (s ⟨1, 7⟩) (s ⟨3, 7⟩) x y ∧
      x.1 = .error (.script ⟨.undefined "y", some ⟨1, 7⟩⟩) ∧
      y.1 = .error (.script ⟨.undefined "y", some ⟨3, 7⟩⟩) := by
  intro s p q m x y
  have hst : State.Outside idle (s ⟨1, 7⟩) (s ⟨3, 7⟩) := by
    refine ⟨.cons ⟨rfl, .fn (.proc ?_)⟩ .nil, fun _ => False.elim, fun _ _ => .none, rfl⟩
    exact .cons (.ret False.elim (.ident False.elim (idle_finds _ _ _))) .nil
  have hpq : Stmt.AlikeAll idle p q :=
    .cons (.proc False.elim rfl False.elim .nil)
      (.cons (.varLet id (.call False.elim (idle_finds _ _ _) ⟨rfl, rfl⟩ .nil)) .nil)
  have hnatives := Console.natives_alike (L := idle) fun _ _ => ⟨rfl, rfl⟩
  exact ⟨(Machine.run_idle m hnatives hst).1 p q hpq, rfl, rfl⟩

end SceneScript
