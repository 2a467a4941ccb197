import SceneScript.Proofs.Run.Isolation

/-! The limits of a machine. A run that is refused nothing within some limits is the same run within
all wider ones, also where native functions call back into the script and swallow the errors of what
they called. -/

namespace SceneScript

open Likeness

variable {ν α : Type}

/-- States that may differ in nothing have the same scopes, if the same scopes wait in them. -/
theorem State.Alike.scopes_eq {c : Prop} {s t : State ν} (h : State.Alike (exactly c) s t)
    (hwaiting : s.scopes.waiting = t.scopes.waiting) : s.scopes = t.scopes := by
  have hvalue : ∀ v w : Value ν, Value.Alike (exactly c) v w → v = w :=
    fun _ _ => Value.Alike.eq trivial
  have hlocals : s.scopes.locals = t.scopes.locals :=
    forall₂_eq (fun _ _ hbindings => hbindings.eq hvalue) h.locals
  have hglobals : s.scopes.globals = t.scopes.globals := h.globals.eq hvalue
  calc s.scopes
      = ⟨s.scopes.locals, s.scopes.globals, s.scopes.waiting⟩ := rfl
    _ = ⟨t.scopes.locals, t.scopes.globals, t.scopes.waiting⟩ := by
      rw [hlocals, hglobals, hwaiting]
    _ = t.scopes := rfl

namespace Run

/-- The two runs end in the same way, with the same scopes and having put out the same in the same
order. -/
structure SameEnd (x y : Except Failure α × State ν) : Prop where
  ends : x.1 = y.1
  scopes : x.2.scopes = y.2.scopes
  outputs : x.2.outputs = y.2.outputs

namespace SameEnd

variable {x y z : Except Failure α × State ν}

theorem symm (h : SameEnd x y) : SameEnd y x := ⟨h.ends.symm, h.scopes.symm, h.outputs.symm⟩

theorem trans (h : SameEnd x y) (h' : SameEnd y z) : SameEnd x z :=
  ⟨h.ends.trans h'.ends, h.scopes.trans h'.scopes, h.outputs.trans h'.outputs⟩

end SameEnd

theorem Agree.sameEnd {Q : (exactly True).On α} (hQ : ∀ a b, Q.rel a b → a = b) {x y : Run ν α}
    (h : Agree Q x y) {s : State ν} (hfits : ¬ Refuses x s) :
    SameEnd (x.run { s with overflowed := false }) (y.run s) := by
  have hstart : State.Alike (exactly True) { s with overflowed := false } s :=
    ⟨State.outside_exactly rfl rfl rfl,
      List.forall₂_same.mpr fun _ _ => List.forall₂_same.mpr fun e _ => ⟨rfl, e.2.alike_exactly⟩⟩
  obtain hlost | ⟨hmeets, halike⟩ := h.alike _ s hstart
  · exact absurd hlost.2 hfits
  obtain ⟨hends, -, os, hx, hy⟩ := hmeets.sameEffect hQ
  obtain ⟨hwaiting, hwaiting'⟩ := hmeets.onward.waiting
  exact ⟨hends, halike.scopes_eq (hwaiting.trans hwaiting'.symm),
    Array.toList_inj.mp (hx.trans hy.symm)⟩

/-- From every state in which nothing is refused to `x`, `y` comes to the same end as `x`. -/
def SameUnlessRefused (x y : Run ν α) : Prop :=
  ∀ s, ¬ Refuses x s → SameEnd (x.run s) (y.run s)

theorem Agree.sameUnlessRefused {Q : (exactly True).On α} (hQ : ∀ a b, Q.rel a b → a = b)
    {x y : Run ν α} (hself : Agree Q x x) (h : Agree Q x y) : SameUnlessRefused x y :=
  -- Both are compared with the run of `x` before which nothing had been refused.
  fun _ hfits => (hself.sameEnd hQ hfits).symm.trans (h.sameEnd hQ hfits)

/-- More room changes nothing for a run that had enough. Whether it is a program, an expression, an
event or a function that is run, and whatever native functions do, the end, the scopes and the
outputs are those of the run with less room for calls and for expressions, unless something was
refused to that one. -/
theorem sameUnlessRefused_of_le (natives : Natives ν) {d D r R : Nat} (hd : d ≤ D) (hr : r ≤ R) :
    (∀ p, SameUnlessRefused (Machine.run ⟨natives, d, r⟩ p) (Machine.run ⟨natives, D, R⟩ p)) ∧
    (∀ e, SameUnlessRefused (Machine.eval ⟨natives, d, r⟩ e) (Machine.eval ⟨natives, D, R⟩ e)) ∧
    (∀ event, SameUnlessRefused (Machine.trigger ⟨natives, d, r⟩ event)
      (Machine.trigger ⟨natives, D, R⟩ event)) ∧
    ∀ name args, SameUnlessRefused (Machine.call ⟨natives, d, r⟩ name args)
      (Machine.call ⟨natives, D, R⟩ name args) := by
  have hvalue : ∀ v w : Value ν, Value.Alike (exactly True) v w → v = w :=
    fun _ _ => Value.Alike.eq trivial
  have hsame : (exactly True).Fits r r := .refl _ r
  have hwider : (exactly True).Fits r R := .inr ⟨trivial, hr⟩
  have hself : Invoke.Alike (exactly True) (invoke natives r d) (invoke natives r d) :=
    invoke_exactly natives hsame (.refl _ d)
  have hdeeper : Invoke.Alike (exactly True) (invoke natives r d) (invoke natives R D) :=
    invoke_exactly natives hwider (.inr ⟨trivial, hd⟩)
  refine ⟨fun p => ?_, fun e => ?_, fun event => ?_, fun name args => ?_⟩
  · have hp := Stmt.alikeAll_exactly (c := True) p
    exact Agree.sameUnlessRefused (fun _ _ => id) (program_apart hself hsame hp).agree
      (program_apart hdeeper hwider hp).agree
  · have he : Expr.Alike (exactly True) e e :=
      Expr.alike_self exactly_steady e fun name _ => exactly_finds name
    exact Agree.sameUnlessRefused hvalue (Apart.onGlobals (eval_agree hself he hsame)).agree
      (Apart.onGlobals (eval_agree hdeeper he hwider)).agree
  · exact Agree.sameUnlessRefused (fun _ _ => EndsAlike.eq (fun _ _ => id) fun _ _ => id)
      (trigger_apart hself hsame trivial).agree (trigger_apart hdeeper hwider trivial).agree
  · have hargs := Value.alikeAll_exactly (c := True) args
    exact Agree.sameUnlessRefused (fun _ _ => EndsAlike.eq (fun _ _ => id) hvalue)
      (call_apart hself (exactly_finds name none) rfl hargs).agree
      (call_apart hdeeper (exactly_finds name none) rfl hargs).agree

/-- A call in an event that a native function fires within a call. Three calls nest, and the error
behind them is swallowed. -/
theorem sameUnlessRefused_of_le_swallowed :
    let p : Pos := ⟨1, 1⟩
    let outer : Procedure := ⟨"outer", [], [.ret p (.call p "tryFire" [.str p "inner"])]⟩
    let leaf : Procedure := ⟨"leaf", [], [.ret p (.bool p true)]⟩
    let s : State Bench := { State.empty with
      scopes := .ofGlobals ⟨[("outer", .fn (.proc outer)), ("leaf", .fn (.proc leaf)),
        ("tryFire", .fn (.native "tryFire" (.probe .tryFire))),
        ("record", .fn (.native "record" (.probe .record))),
        ("fail", .fn (.native "fail" (.probe .fail)))]⟩
      events := ⟨[("inner", [.expr p (.call p "record" [.call p "leaf" []]),
        .expr p (.call p "fail" [])])]⟩ }
    let x (d r : Nat) : Run Bench Unit :=
      Machine.run ⟨Bench.natives, d, r⟩ [.assign p "done" (.call p "outer" [])]
    Refuses (x 2 2) s ∧ Refuses (x 3 1) s ∧ ¬ Refuses (x 3 2) s ∧
      SameEnd ((x 3 2).run s) ((x 1000 100).run s) ∧
      ((x 3 2).run s).2.global? "done" = some (.bool false) ∧
      ((x 3 2).run s).2.outputs = #[.record [.bool true]] := by
  intro p outer leaf s x
  have hx : SameUnlessRefused (x 3 2) (x 1000 100) :=
    (sameUnlessRefused_of_le Bench.natives (by decide) (by decide)).1 _
  have hfits : ¬ Refuses (x 3 2) s := by
    unfold Refuses
    decide +kernel
  exact ⟨rfl, rfl, hfits, hx s hfits, rfl, rfl⟩

end Run

end SceneScript
