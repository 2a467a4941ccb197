import SceneScript.Proofs.Native.Binding

/-! Names that are found. Globals are never unbound and the globals stand behind all other scopes,
so a program that looks only for names bound among the globals finds them in every call. -/

namespace SceneScript

namespace Likeness

/-- Runs that find the names in `bound`, as a likeness of a run with itself. -/
def finding (bound fires : String → Prop) : Likeness where
  error e f := e = f ∧ ∀ name, e.cause ≠ .undefined name
  bound := bound
  fires := fires
  exact := False
  cut := False
  refl_of_cut := False.elim

variable {bound fires : String → Prop}

theorem finding_steady : (finding bound fires).Steady := fun _ h => ⟨rfl, h⟩

theorem finding_natives : Console.natives.Alike (finding bound fires) :=
  Console.natives_alike fun cause hcause => ⟨rfl, by rintro name rfl; cases hcause⟩

end Likeness

open Likeness

/-- A program every name of which is bound among the globals, as is every name in the procedures
that the globals hold, fails in no run because a name is not bound, on a host that offers no other
native functions than the usual ones, whatever its limits are. -/
theorem Machine.run_defined (depth room : Nat) (p : Program) (s : State Binding)
    (hp : ∀ name ∈ Stmt.namesAll p, s.scopes.globals.binds name = true)
    (hglobals : ∀ global f, (global, .fn (.proc f)) ∈ s.scopes.globals.entries →
      ∀ name ∈ Stmt.namesAll f.body, s.scopes.globals.binds name = true) :
    (∀ e, (((Console.machine depth room).run p).run s).1 = .error (.script e) →
      ∀ name, e.cause ≠ .undefined name) ∧
    ∀ event, s.events.get? event = some p → ∀ e,
      (((Console.machine depth room).trigger event).run s).1 = .ok (.error e) →
        ∀ name, e.cause ≠ .undefined name := by
  let L := finding (s.scopes.globals.binds · = true) (s.events.get? · = some p)
  have hprogram : Stmt.AlikeAll L p p :=
    Stmt.alikeAll_self finding_steady p fun name h _ => .inl (hp name h)
  have hst : State.Outside L s s := by
    refine ⟨List.forall₂_same.mpr ?_, fun _ => id, ?_, rfl⟩
    · rintro ⟨global, v⟩ hv
      refine ⟨rfl, Value.alike_self finding_steady ?_⟩
      rintro f rfl name hname _
      exact .inl (hglobals global f hv name hname)
    · intro event hevent
      rw [show s.events.get? event = some p from hevent]
      exact .some hprogram
  have hroom : L.Fits room room := .refl L room
  have hinv : Invoke.Alike L (Run.invoke Console.natives room depth)
      (Run.invoke Console.natives room depth) :=
    Run.invoke_alike finding_natives (fun _ => ⟨rfl, by simp⟩) hroom (.refl L depth)
  refine ⟨fun e he => ?_, fun event hevent e he => ?_⟩
  · have hmeets := (Run.program_apart hinv hroom hprogram).meets id hst
    cases hmeets.ends.error_self he with
    | script herror => exact herror.2
  · have hmeets := (Run.trigger_apart hinv hroom hevent).meets id hst
    cases hmeets.ends.ok_self he with
    | error herror => exact herror.2

/-- A program that fails in a procedure it declares, for another reason than an unbound name. -/
theorem Machine.run_defined_sum :
    let pos : Pos := ⟨1, 1⟩
    let f : Procedure := ⟨"f", ["a"], [.ret pos (.binary pos (.arith .add) (.ident pos "x")
      (.call pos "f" []))]⟩
    let s : State Binding := { State.empty with
      scopes := .ofGlobals ⟨[("x", .nil), ("f", .fn (.proc f))]⟩ }
    let p : Program := [.proc pos "g" [] [.ret pos (.call pos "f" [.ident pos "x"])],
      .var pos "x" (.str pos "one"), .assign pos "y" (.call pos "f" [])]
    (((Console.machine 3 1).run p).run s).1 =
      .error (.script ⟨.notNumeric .str, some pos⟩) ∧
    ∀ e, (((Console.machine 3 1).run p).run s).1 = .error (.script e) →
      ∀ name, e.cause ≠ .undefined name := by
  intro pos f s p
  refine ⟨rfl, (Machine.run_defined 3 1 p s ?_ ?_).1⟩
  · decide
  · intro global f' hf'
    cases hf' with
    | tail _ hf' =>
      cases hf' with
      | head => decide
      | tail _ hnone => cases hnone

end SceneScript
