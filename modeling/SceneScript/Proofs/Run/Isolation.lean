import SceneScript.Native.Probe
import SceneScript.Proofs.Run.Alike
import SceneScript.Session

/-! Calling back. A native function that calls back into the script does so from within the calls
that are going on, and yet its entry is the one a host makes when none is: it sees nothing of the
local scopes of those calls and leaves them as they are. -/

namespace SceneScript

variable {ν α : Type}

namespace Likeness

/-- Nothing may differ, except that the first run is lost where calls are cut. -/
def exactly (cut : Prop) : Likeness where
  error := Eq
  bound _ := False
  fires _ := True
  exact := True
  cut := cut
  refl_of_cut _ _ := rfl

variable {c : Prop}

theorem exactly_steady : (exactly c).Steady := fun _ _ => rfl

theorem exactly_finds (name : String) (p : Option Pos) : (exactly c).Finds name p p := .inr rfl

end Likeness

open Likeness

variable {c : Prop}

theorem Stmt.alikeAll_exactly (ss : List Stmt) : Stmt.AlikeAll (exactly c) ss ss :=
  Stmt.alikeAll_self exactly_steady ss fun name _ => exactly_finds name

theorem Value.alike_exactly (v : Value ν) : Value.Alike (exactly c) v v :=
  Value.alike_self exactly_steady fun _ _ name _ => exactly_finds name

theorem Value.alikeAll_exactly (vs : List (Value ν)) :
    List.Forall₂ (Value.Alike (exactly c)) vs vs :=
  List.forall₂_same.mpr fun v _ => v.alike_exactly

theorem Output.alike_exactly (o : Output ν) : Output.Alike (exactly c) o o := by
  cases o with
  | print line => exact .print
  | draw command => exact .draw
  | record vs => exact .record (Value.alikeAll_exactly vs)

/-- Every native function goes on in one way from one answer. -/
theorem Request.alike_exactly {R : (exactly c).On α} (hR : ∀ a, R.rel a a) (r : Request ν α) :
    Request.Alike R r r := by
  have hvalue : ∀ v w : Value ν, Value.Alike (exactly c) v w → v = w :=
    fun _ _ => Value.Alike.eq trivial
  induction r with
  | done a => exact .done (hR a)
  | fail e => exact .fail rfl
  | crash e => exact .crash
  | lookup name next ih =>
    refine .lookup fun v w hvw => ?_
    obtain ⟨rfl, rfl⟩ | ⟨a, b, rfl, rfl, hab⟩ := option_rel_cases hvw
    · exact ih none
    · cases hvalue a b hab
      exact ih (some a)
  | assign name v next ih => exact .assign v.alike_exactly ih
  | define name v next ih => exact .define v.alike_exactly ih
  | depth next ih => exact .depth ih
  | trigger event next ih =>
    refine .trigger trivial fun r q hrq => ?_
    cases hrq.eq (fun _ _ => id) fun _ _ => id
    exact ih r
  | call name args next ih =>
    refine .call (exactly_finds name none) rfl (Value.alikeAll_exactly args) fun r q hrq => ?_
    cases hrq.eq (fun _ _ => id) hvalue
    exact ih r
  | emit o next ih => exact .emit o.alike_exactly ih
  | keyDown key next ih => exact .keyDown ih
  | keyPressed key next ih => exact .keyPressed ih

theorem Natives.alike_exactly (natives : Natives ν) : natives.Alike (exactly c) := by
  intro key name args args' hargs
  cases forall₂_eq (fun _ _ => Value.Alike.eq trivial) hargs
  exact Request.alike_exactly Value.alike_exactly _

theorem State.outside_exactly {s t : State ν} (hglobals : s.scopes.globals = t.scopes.globals)
    (hevents : s.events = t.events) (hkeyboard : s.keyboard = t.keyboard) :
    State.Outside (exactly c) s t := by
  refine ⟨?_, fun _ => False.elim, ?_, hkeyboard⟩
  · rw [hglobals]
    exact List.forall₂_same.mpr fun x _ => ⟨rfl, x.2.alike_exactly⟩
  · intro event _
    rw [hevents]
    cases t.events.get? event with
    | none => exact .none
    | some p => exact .some (Stmt.alikeAll_exactly p)

namespace Run

/-- Two runs, from `s` and from `t`, end in the same way and with the same globals, and put out the
same. -/
structure SameEffect (s t : State ν) (x y : Except Failure α × State ν) : Prop where
  ends : x.1 = y.1
  globals : x.2.scopes.globals = y.2.scopes.globals
  outputs : ∃ os, x.2.outputs.toList = s.outputs.toList ++ os ∧
    y.2.outputs.toList = t.outputs.toList ++ os

theorem Meets.sameEffect {R : (exactly c).On α} (hR : ∀ a b, R.rel a b → a = b) {s t : State ν}
    {x y : Except Failure α × State ν} (h : Meets R s t x y) : SameEffect s t x y := by
  obtain ⟨os, os', hs, ht, hos⟩ := h.onward.outputs
  cases forall₂_eq (fun _ _ => Output.Alike.eq trivial) hos
  exact ⟨h.ends.eq (fun _ _ => Failure.Alike.eq fun _ _ => id) hR,
    h.outside.globals.eq fun _ _ => Value.Alike.eq trivial, os, hs, ht⟩

/-- Something is refused on the way because there is no room for it. -/
def Refuses (x : Run ν α) (s : State ν) : Prop :=
  (x.run { s with overflowed := false }).2.overflowed = true

/-- `x` leaves the local scopes as they are, whatever calls are going on; and unless something is
refused on the way, it does what `y` does in any other place with the same globals and events. -/
structure Isolated (x y : Run ν α) : Prop where
  locals : ∀ s, (x.run s).2.scopes.locals = s.scopes.locals
  waiting : ∀ s, (x.run s).2.scopes.waiting = s.scopes.waiting
  sameEffect : ∀ s t : State ν, s.scopes.globals = t.scopes.globals → s.events = t.events →
    s.keyboard = t.keyboard → ¬ Refuses x s → SameEffect s t (x.run s) (y.run t)

theorem isolated_of_apart {R : (exactly False).On α} {Q : (exactly True).On α} {x y : Run ν α}
    (hQ : ∀ a b, Q.rel a b → a = b) (hself : Apart R x x) (hcut : Apart Q x x)
    (hdeeper : Apart Q x y) : Isolated x y := by
  have hkept : ∀ s, (x.run s).2.scopes.locals = s.scopes.locals ∧
      (x.run s).2.scopes.waiting = s.scopes.waiting := by
    intro s
    obtain hlost | ⟨hmeets, hlocals, -⟩ := hself.alike s s (State.outside_exactly rfl rfl rfl)
    · exact absurd hlost.1 id
    · exact ⟨hlocals, hmeets.onward.waiting.1⟩
  refine ⟨fun s => (hkept s).1, fun s => (hkept s).2, ?_⟩
  intro s t hglobals hevents hkeyboard hfits
  -- Whether something was refused before is never asked, so the run may start as if nothing was.
  have hsame : ∀ {z : Run ν α}, Apart Q x z → ∀ u : State ν, s.scopes.globals = u.scopes.globals →
      s.events = u.events → s.keyboard = u.keyboard →
      SameEffect s u (x.run { s with overflowed := false }) (z.run u) := by
    intro z hz u hglobals hevents hkeyboard
    obtain hlost | ⟨hmeets, -⟩ :=
      hz.alike { s with overflowed := false } u (State.outside_exactly hglobals hevents hkeyboard)
    · exact absurd hlost.2 hfits
    · obtain ⟨hends, hg, ho⟩ := hmeets.sameEffect hQ
      exact ⟨hends, hg, ho⟩
  have hfrom := hsame hcut s rfl rfl rfl
  have hto := hsame hdeeper t hglobals hevents hkeyboard
  obtain ⟨os, hos, hos'⟩ := hfrom.outputs
  obtain ⟨us, hus, hus'⟩ := hto.outputs
  cases List.append_cancel_left (hos.symm.trans hus)
  exact ⟨hfrom.ends.symm.trans hto.ends, hfrom.globals.symm.trans hto.globals, os, hos', hus'⟩

/-- The ways in that a native function has which is called while `depth` further calls may nest. -/
def nativeEntry (natives : Natives ν) (room : Nat) : Nat → Entry ν
  | 0 => .closed
  | depth + 1 => entry (invoke natives room depth) room

theorem invoke_native (natives : Natives ν) (room depth : Nat) (name : String) (key : ν)
    (args : List (Value ν)) :
    invoke natives room depth (.native name key) args =
      perform (nativeEntry natives room depth) (natives key name args) := by
  cases depth with
  | zero => rfl
  | succ depth => rfl

theorem isolated_of_refuse (y : Run ν α) : Isolated refuse y :=
  ⟨fun _ => rfl, fun _ => rfl, fun _ _ _ _ _ hfits => absurd rfl hfits⟩

theorem invoke_exactly (natives : Natives ν) {room room' d D : Nat}
    (hroom : (exactly c).Fits room room') (hd : (exactly c).Fits d D) :
    Invoke.Alike (exactly c) (invoke natives room d) (invoke natives room' D) :=
  invoke_alike natives.alike_exactly (fun _ => rfl) hroom hd

theorem trigger_isolated (natives : Natives ν) (room : Nat) {d D : Nat} (hd : d ≤ D)
    (event : String) :
    Isolated (trigger (invoke natives room d) room event)
      (trigger (invoke natives room D) room event) := by
  have htrigger : ∀ {c : Prop} {D : Nat}, (exactly c).Fits d D →
      Apart ((exactly c).same Unit).ends (trigger (invoke natives room d) room event)
        (trigger (invoke natives room D) room event) := fun hd =>
    trigger_apart (invoke_exactly natives (.refl _ room) hd) (.refl _ room) trivial
  exact isolated_of_apart (fun _ _ => EndsAlike.eq (fun _ _ => id) fun _ _ => id)
    (htrigger (.refl _ d)) (htrigger (.refl _ d)) (htrigger (.inr ⟨trivial, hd⟩))

theorem call_isolated (natives : Natives ν) (room : Nat) {d D : Nat} (hd : d ≤ D) (name : String)
    (args : List (Value ν)) :
    Isolated (call (invoke natives room d) name args) (call (invoke natives room D) name args) := by
  have hcall : ∀ {c : Prop} {D : Nat}, (exactly c).Fits d D →
      Apart (exactly c).value.ends (call (invoke natives room d) name args)
        (call (invoke natives room D) name args) := fun hd =>
    call_apart (invoke_exactly natives (.refl _ room) hd) (exactly_finds name none) rfl
      (Value.alikeAll_exactly args)
  exact isolated_of_apart
    (fun _ _ => EndsAlike.eq (fun _ _ => id) fun _ _ => Value.Alike.eq trivial)
    (hcall (.refl _ d)) (hcall (.refl _ d)) (hcall (.inr ⟨trivial, hd⟩))

/-- What a native function runs or calls from within any calls leaves the scopes of all of them as
they are. Unless something is refused for want of room, it ends as it does when a host asks for it
from outside every call with the same globals and events, with the same globals and putting out the
same. -/
theorem nativeEntry_isolated (natives : Natives ν) (room : Nat) {d D : Nat} (hd : d ≤ D) :
    (∀ name key args, invoke natives room d (.native name key) args =
      perform (nativeEntry natives room d) (natives key name args)) ∧
    (∀ event, Isolated ((nativeEntry natives room d).trigger event)
      (Machine.trigger ⟨natives, D, room⟩ event)) ∧
    ∀ name args, Isolated ((nativeEntry natives room d).call name args)
      (Machine.call ⟨natives, D, room⟩ name args) := by
  refine ⟨invoke_native natives room d, ?_⟩
  cases d with
  | zero => exact ⟨fun _ => isolated_of_refuse _, fun _ _ => isolated_of_refuse _⟩
  | succ d =>
    have hd' : d ≤ D := Nat.le_of_succ_le hd
    exact ⟨trigger_isolated natives room hd', call_isolated natives room hd'⟩

/-- An event that rebinds a global which a call in progress has a variable of the same name for. -/
theorem nativeEntry_isolated_shadowed :
    let p : Pos := ⟨1, 1⟩
    let s : State Bench := { State.empty with
      scopes := ⟨[⟨[("hits", .nil)]⟩], ⟨[("hits", .nil)]⟩, []⟩
      events := ⟨[("inner", [.assign p "hits" (.bool p true)])]⟩ }
    let t : State Bench := { s with scopes := .ofGlobals s.scopes.globals }
    let x := (nativeEntry Bench.natives 0 1).trigger "inner"
    let y := Machine.trigger ⟨Bench.natives, 1000, 0⟩ "inner"
    ¬ Refuses x s ∧ SameEffect s t (x.run s) (y.run t) ∧
      (x.run s).2.scopes.locals = s.scopes.locals ∧
      (x.run s).2.scopes.globals = ⟨[("hits", .bool true)]⟩ := by
  intro p s t x y
  have hx : Isolated x y := (nativeEntry_isolated Bench.natives 0 (by decide)).2.1 "inner"
  have hfits : ¬ Refuses x s := by
    unfold Refuses
    decide +kernel
  exact ⟨hfits, hx.sameEffect s t rfl rfl rfl hfits, hx.locals s, rfl⟩

end Run

end SceneScript
