import SceneScript.Proofs.Native.Binding

/-! Ways of nesting. A block does what its statements do in its place, and a further branch of a
condition what a condition in the else branch does. This holds wherever they stand, in the bodies of
procedures too, which are values that a run keeps and calls later. -/

namespace SceneScript

variable {ν : Type}

namespace Likeness

/-- Programs may differ in that the statements of blocks stand in the place of the blocks, and that
conditions in else branches stand in the place of further branches. -/
def unfolding : Likeness where
  error := Eq
  bound _ := False
  fires _ := True
  exact := True
  cut := False
  refl_of_cut _ _ := rfl
  unfolds := True

theorem unfolding_steady : unfolding.Steady := fun _ _ => rfl

theorem unfolding_finds (name : String) (p : Option Pos) : unfolding.Finds name p p := .inr rfl

end Likeness

open Likeness

theorem Expr.alike_unfolding (e : Expr) : Expr.Alike unfolding e e :=
  Expr.alike_self unfolding_steady e fun name _ => unfolding_finds name

theorem Stmt.alikeAll_unfolding (ss : List Stmt) : Stmt.AlikeAll unfolding ss ss :=
  Stmt.alikeAll_self unfolding_steady ss fun name _ => unfolding_finds name

/-- Runs that may differ in nesting alone and give the same result end in the same way. -/
theorem Run.Meets.ends_eq {α : Type} {R : unfolding.On α} (hR : ∀ a b, R.rel a b → a = b)
    {s t : State ν} {x y : Except Failure α × State ν} (h : Meets R s t x y) : x.1 = y.1 :=
  h.ends.eq (fun _ _ => Failure.Alike.eq fun _ _ => id) hR

/-- Programs that differ only in nesting do the same, on states that differ only so inside
procedures: they end in the same way, with the same error at the same place when they fail, put out
the same and leave states that differ only so. The same holds of an event, of a call from outside
and of statements inside a call, which return where the others return. -/
theorem Machine.run_unfolded (m : Machine ν) (hnatives : m.natives.Alike unfolding) :
    (∀ s t : State ν, State.Outside unfolding s t →
      (∀ p q : Program, Stmt.AlikeAll unfolding p q →
        ((m.run p).run s).1 = ((m.run q).run t).1 ∧
          Run.Meets (unfolding.same Unit) s t ((m.run p).run s) ((m.run q).run t)) ∧
      (∀ event,
        ((m.trigger event).run s).1 = ((m.trigger event).run t).1 ∧
          Run.Meets (unfolding.same Unit).ends s t ((m.trigger event).run s)
            ((m.trigger event).run t)) ∧
      ∀ name args args', List.Forall₂ (Value.Alike unfolding) args args' →
        Run.Meets unfolding.value.ends s t ((m.call name args).run s)
          ((m.call name args').run t)) ∧
    ∀ s t : State ν, State.Alike unfolding s t → ∀ ss ts, Stmt.AlikeAll unfolding ss ts →
      let x := (Run.execAll m.invoke m.room ss).run s
      let y := (Run.execAll m.invoke m.room ts).run t
      Run.Meets unfolding.flow s t x y ∧ State.Alike unfolding x.2 y.2 := by
  have hinv : Invoke.Alike unfolding m.invoke m.invoke :=
    Run.invoke_alike hnatives (fun _ => rfl) (.refl _ m.room) (.refl _ m.depth)
  have hroom : unfolding.Fits m.room m.room := .refl _ m.room
  refine ⟨fun s t hst => ⟨fun p q hpq => ?_, fun event => ?_, fun name args args' hargs => ?_⟩,
    fun s t hst ss ts hall => ?_⟩
  · have hmeets := (Run.program_apart hinv hroom hpq).meets id hst
    exact ⟨hmeets.ends_eq fun _ _ => id, hmeets⟩
  · have hfires : unfolding.fires event := trivial
    have hmeets := (Run.trigger_apart hinv hroom hfires).meets id hst
    exact ⟨hmeets.ends_eq fun _ _ => EndsAlike.eq (fun _ _ => id) fun _ _ => id, hmeets⟩
  · exact (Run.call_apart hinv (unfolding_finds name none) rfl hargs).meets id hst
  · exact ((Run.execAll_agree hinv hroom hall).alike s t hst).resolve_left And.left

/-- A return out of a block, a further branch whose condition prints, an error in the else branch
behind it, and a global procedure with a block in it. -/
theorem Machine.run_unfolded_returning :
    let at1 : Pos := ⟨1, 1⟩
    let say (text : Expr) : Expr := .call at1 "print" [text]
    let told : Stmt := .expr at1 (say (.str at1 "told"))
    let s (body : List Stmt) : State Binding := { State.empty with
      scopes := .ofGlobals
        ⟨[("print", .fn (.native "print" .print)), ("tell", .fn (.proc ⟨"tell", [], body⟩))]⟩ }
    let one : List Stmt := [.ret at1 (.str at1 "one")]
    let two : List Stmt := [.ret at1 (.str at1 "two")]
    let lost : List Stmt := [.expr ⟨6, 5⟩ (.ident ⟨6, 5⟩ "y")]
    let calls : Program := [.expr at1 (say (.call at1 "f" [.bool at1 true])),
      .expr at1 (.call at1 "tell" []), .expr at1 (.call at1 "f" [.bool at1 false])]
    let p : Program := .proc at1 "f" [⟨"a", "any"⟩] [.block at1 [.cond at1 (.ident at1 "a") one
      (.elif (say (.str at1 "asked")) two (.otherwise lost))], told] :: calls
    let q : Program := .proc at1 "f" [⟨"a", "any"⟩] [.cond at1 (.ident at1 "a") one
      (.otherwise [.cond at1 (say (.str at1 "asked")) two (.otherwise lost)]), told] :: calls
    let m := Console.machine 2 2
    let x := (m.run p).run (s [.block at1 [told]])
    let y := (m.run q).run (s [told])
    x.1 = y.1 ∧ Run.Meets (unfolding.same Unit) (s [.block at1 [told]]) (s [told]) x y ∧
      y.1 = .error (.script ⟨.undefined "y", some ⟨6, 5⟩⟩) ∧
      Console.lines false y.2.outputs.toList = ["one", "told", "asked"] := by
  intro at1 say told s one two lost calls p q m x y
  have hst : State.Outside unfolding (s [.block at1 [told]]) (s [told]) := by
    refine ⟨.cons ⟨rfl, .fn .native⟩ (.cons ⟨rfl, .fn (.proc ?_)⟩ .nil), fun _ => False.elim,
      fun _ _ => .none, rfl⟩
    exact .unfold trivial (Stmt.alikeAll_unfolding [told]) .nil
  have hcond : Alternative.Alike unfolding (.elif (say (.str at1 "asked")) two (.otherwise lost))
      (.otherwise [.cond at1 (say (.str at1 "asked")) two (.otherwise lost)]) :=
    .nest trivial (Expr.alike_unfolding _) (Stmt.alikeAll_unfolding two)
      (.otherwise (Stmt.alikeAll_unfolding lost))
  have hpq : Stmt.AlikeAll unfolding p q := by
    refine .cons (.proc (fun _ => rfl) rfl (fun _ => rfl) ?_) (Stmt.alikeAll_unfolding calls)
    refine .unfold trivial (.cons (.cond (fun _ => rfl) ?_ ?_ hcond) .nil)
      (Stmt.alikeAll_unfolding [told])
    · exact Expr.alike_unfolding _
    · exact Stmt.alikeAll_unfolding one
  have hnatives := Console.natives_alike (L := unfolding) fun _ _ => rfl
  have hrun := ((Machine.run_unfolded m hnatives).1 _ _ hst).1 p q hpq
  exact ⟨hrun.1, hrun.2, rfl, by decide +kernel⟩

end SceneScript
