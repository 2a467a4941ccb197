import SceneScript.Run.State

/-! The frame clock. It counts frames and publishes the count, the time since the frame before and
the size of the viewport as globals that scripts read. -/

namespace SceneScript

/-- The size of what is drawn on. -/
structure Viewport where
  width : Number
  height : Number
deriving DecidableEq, Repr, Inhabited

/-- The number of the current frame and the viewport it is drawn on. Frames are counted exactly, as
a count in numbers of scripts is up to 2 ^ 53 of them. -/
structure Clock where
  frame : Nat
  viewport : Viewport
deriving DecidableEq, Repr, Inhabited

namespace Clock

variable {ν : Type}

/-- A clock before its first frame. -/
def new (viewport : Viewport) : Clock := ⟨0, viewport⟩

/-- Binds the globals that tell of the frame. -/
def publish (c : Clock) (dt : Number) (s : State ν) : State ν :=
  (((s.setGlobal "dt" (.float dt)).setGlobal "frame" (.whole (.ofNat c.frame))).setGlobal
    "screenWidth" (.whole c.viewport.width)).setGlobal "screenHeight" (.whole c.viewport.height)

/-- Sets the clock back to before the first frame and keeps its viewport. -/
def init (c : Clock) (s : State ν) : Clock × State ν :=
  let c := { c with frame := 0 }
  (c, c.publish (.ofNat 0) s)

/-- Goes on to the next frame, on a new viewport if one is given. -/
def tick (c : Clock) (dt : Number) (viewport : Option Viewport) (s : State ν) : Clock × State ν :=
  let c : Clock := ⟨c.frame + 1, viewport.getD c.viewport⟩
  (c, c.publish dt s)

end Clock

end SceneScript
