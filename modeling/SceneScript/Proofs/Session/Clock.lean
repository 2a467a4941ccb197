import Mathlib.Data.List.Induction
import SceneScript.Clock
import SceneScript.Native.Probe
import SceneScript.Proofs.Number.Naturals
import SceneScript.Session

/-! The clock among everything else that a host does. Scripts see the clock only through the globals
that it binds, so they can neither stop nor turn it, and what they make of those globals lasts until
it tells the next frame. -/

namespace SceneScript

variable {ν : Type}

namespace Clock

/-- What a host does with a clock and with the script that the clock is for. -/
inductive Step (ν : Type) where
  | init
  | tick (dt : Number) (viewport : Option Viewport)
  | run (p : Program)
  | trigger (event : String)
  | call (name : String) (args : List (Value ν))
  | register (event : String) (program : Program)
  | setGlobal (name : String) (v : Value ν)

namespace Step

/-- Does one thing. Whether a script failed on the way makes no difference to what comes next. -/
def apply (m : Machine ν) (x : Clock × State ν) : Step ν → Clock × State ν
  | .init => x.1.init x.2
  | .tick dt viewport => x.1.tick dt viewport x.2
  | .run p => (x.1, ((m.run p).run x.2).2)
  | .trigger event => (x.1, ((m.trigger event).run x.2).2)
  | .call name args => (x.1, ((m.call name args).run x.2).2)
  | .register event program => (x.1, x.2.register event program)
  | .setGlobal name v => (x.1, x.2.setGlobal name v)

/-- Does one thing after another. -/
def applyAll (m : Machine ν) (x : Clock × State ν) (steps : List (Step ν)) : Clock × State ν :=
  steps.foldl (apply m) x

def isInit : Step ν → Bool
  | .init => true
  | _ => false

def isTick : Step ν → Bool
  | .tick .. => true
  | _ => false

/-- The viewport that a tick is given. -/
def viewport? : Step ν → Option Viewport
  | .tick _ viewport => viewport
  | _ => none

/-- The time that is told as that since the frame before, where the clock tells a frame. -/
def told? : Step ν → Option Number
  | .init => some (.ofNat 0)
  | .tick dt _ => some dt
  | _ => none

/-- How many ticks there were since the clock was last set back, or ever if it never was. -/
def ticks (steps : List (Step ν)) : Nat :=
  (steps.reverse.takeWhile (!·.isInit)).countP (·.isTick)

/-- The viewport that was given last, be it the first one. -/
def lastViewport (first : Viewport) (steps : List (Step ν)) : Viewport :=
  (steps.reverse.findSome? viewport?).getD first

theorem applyAll_snoc (m : Machine ν) (x : Clock × State ν) (steps : List (Step ν))
    (step : Step ν) : applyAll m x (steps ++ [step]) = apply m (applyAll m x steps) step := by
  rw [applyAll, List.foldl_append]
  rfl

theorem ticks_snoc (steps : List (Step ν)) (step : Step ν) :
    ticks (steps ++ [step]) =
      if step.isInit then 0 else if step.isTick then ticks steps + 1 else ticks steps := by
  unfold ticks
  rw [List.reverse_append, List.reverse_singleton, List.singleton_append, List.takeWhile_cons]
  cases step <;> simp [isInit, isTick]

theorem lastViewport_snoc (first : Viewport) (steps : List (Step ν)) (step : Step ν) :
    lastViewport first (steps ++ [step]) = step.viewport?.getD (lastViewport first steps) := by
  unfold lastViewport
  rw [List.reverse_append, List.reverse_singleton, List.singleton_append, List.findSome?_cons]
  cases step.viewport? with
  | none => rfl
  | some viewport => rfl

/-- The clock holds what its own history says, whatever scripts and hosts have done besides. -/
theorem clock_applyAll (m : Machine ν) (viewport : Viewport) (s : State ν)
    (steps : List (Step ν)) :
    (applyAll m (new viewport, s) steps).1 = ⟨ticks steps, lastViewport viewport steps⟩ := by
  induction steps using List.reverseRecOn with
  | nil => rfl
  | append_singleton steps step ih =>
    rw [applyAll_snoc, ticks_snoc, lastViewport_snoc]
    cases step with
    | init =>
      show Clock.mk 0 (applyAll m (new viewport, s) steps).1.viewport = _
      rw [ih]
      rfl
    | tick dt v =>
      show Clock.mk ((applyAll m (new viewport, s) steps).1.frame + 1)
        (v.getD (applyAll m (new viewport, s) steps).1.viewport) = _
      rw [ih]
      rfl
    | _ => exact ih

end Step

/-- The globals of `t` tell of a frame, and are those of `s` otherwise. -/
structure Tells (frame : Nat) (viewport : Viewport) (dt : Number) (s t : State ν) : Prop where
  dt : t.global? "dt" = some (.float dt)
  frame : t.global? "frame" = some (.int (.ofNat frame))
  screenWidth : t.global? "screenWidth" = some (.int viewport.width.truncate)
  screenHeight : t.global? "screenHeight" = some (.int viewport.height.truncate)
  others : ∀ name, name ∉ ["dt", "frame", "screenWidth", "screenHeight"] →
    t.global? name = s.global? name

theorem publish_tells (c : Clock) (dt : Number) (s : State ν) :
    Tells c.frame c.viewport dt s (c.publish dt s) := by
  have hframe : (Value.whole (.ofNat c.frame) : Value ν) = .int (.ofNat c.frame) :=
    congrArg Value.int (Number.truncate_ofNat c.frame)
  constructor
  · simp [publish, State.setGlobal, State.global?]
  · simp [publish, State.setGlobal, State.global?, hframe]
  · simp [publish, State.setGlobal, State.global?, Value.whole]
  · simp [publish, State.setGlobal, State.global?, Value.whole]
  · intro name hname
    simp only [List.mem_cons, List.not_mem_nil, not_or] at hname
    simp [publish, State.setGlobal, State.global?, hname]

/-- Scripts cannot disturb the clock. After whatever a host has done with it and with scripts, run
to their end or not, it has counted the ticks since it was last set back; and where it tells a
frame, the globals hold the time it was given, the count and the viewport given last, while all
other globals stay as they were. -/
theorem counts_and_tells (m : Machine ν) (viewport : Viewport) (s : State ν)
    (steps : List (Step ν)) :
    let after := Step.applyAll m (new viewport, s)
    (after steps).1.frame = Step.ticks steps ∧
      ∀ step dt, step.told? = some dt →
        Tells (Step.ticks (steps ++ [step])) (Step.lastViewport viewport (steps ++ [step])) dt
          (after steps).2 (after (steps ++ [step])).2 := by
  intro after
  have hclock : ∀ steps, (after steps).1 = ⟨Step.ticks steps, Step.lastViewport viewport steps⟩ :=
    Step.clock_applyAll m viewport s
  refine ⟨congrArg Clock.frame (hclock steps), fun step dt hdt => ?_⟩
  have hpublish : (after (steps ++ [step])).2 =
      (after (steps ++ [step])).1.publish dt (after steps).2 := by
    have hsnoc : after (steps ++ [step]) = step.apply m (after steps) :=
      Step.applyAll_snoc m _ steps step
    rw [hsnoc]
    cases step with
    | init | tick =>
      cases hdt
      rfl
    | _ => cases hdt
  rw [hpublish, hclock]
  exact publish_tells ⟨_, _⟩ dt (after steps).2

/-- A script that declares the globals of the clock as other things and then fails, between two
ticks of which only the first is given a viewport. -/
theorem counts_and_tells_disturbed :
    let p : Pos := ⟨1, 1⟩
    let half : Number := .ofRatio false 1 2
    let narrow : Viewport := ⟨.ofNat 320, .ofRatio false 481 2⟩
    let script : Program := [.proc p "frame" [] [], .var p "screenWidth" (.str p "wide"),
      .expr p (.ident p "missing")]
    let steps : List (Step Bench) := [.init, .tick half (some narrow), .run script,
      .setGlobal "dt" .nil]
    let after := Step.applyAll ⟨Bench.natives, 1, 0⟩ (new ⟨.ofNat 800, .ofNat 600⟩, .empty)
    (after steps).2.global? "screenWidth" = some (.str "wide") ∧
      (after steps).2.global? "dt" = some .nil ∧ (after steps).1.frame = 1 ∧
      Tells 2 narrow half (after steps).2 (after (steps ++ [.tick half none])).2 := by
  intro p half narrow script steps after
  have hcounts := counts_and_tells ⟨Bench.natives, 1, 0⟩ ⟨.ofNat 800, .ofNat 600⟩ .empty steps
  exact ⟨rfl, rfl, hcounts.1, hcounts.2 (.tick half none) half rfl⟩

end Clock

end SceneScript
