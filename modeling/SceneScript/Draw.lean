import SceneScript.Number.Written
import SceneScript.Text.Letters
import SceneScript.Text.Quoted

/-! Colours, keys and drawing commands. -/

namespace SceneScript

/-- A colour with its name and its red, green, blue and opacity. -/
structure Color where
  name : String
  r : Nat
  g : Nat
  b : Nat
  a : Nat
deriving DecidableEq, Repr, Inhabited

namespace Color

/-- A colour that lets nothing through. -/
def solid (name : String) (r g b : Nat) : Color := ⟨name, r, g, b, 255⟩

/-- The colours that scripts can name. -/
def all : List Color :=
  [solid "white" 255 255 255, solid "black" 0 0 0, solid "red" 230 41 55, solid "green" 0 228 48,
    solid "blue" 0 121 241, solid "yellow" 253 249 0, solid "orange" 255 161 0,
    solid "purple" 200 122 255, solid "pink" 255 109 194, solid "lightgray" 200 200 200,
    solid "gray" 130 130 130, solid "darkgray" 80 80 80, solid "raywhite" 245 245 245,
    solid "lightblue" 173 216 230, solid "skyblue" 102 191 255, solid "lime" 0 158 47]

/-- The colour of a name in any case of letters. -/
def named? (name : String) : Option Color := all.find? (·.name == Text.lower name)

end Color

/-- The keys that scripts can name, with their codes. -/
def Key.all : List (String × Nat) :=
  [("space", 32), ("escape", 256), ("enter", 257), ("tab", 258), ("right", 262), ("left", 263),
    ("down", 264), ("up", 265)]

/-- The code of the key of a name in any case of letters. -/
def Key.code? (name : String) : Option Number :=
  (Key.all.lookup (Text.lower name)).map Number.ofNat

/-- A drawing command. -/
inductive Draw where
  | text (text : String) (x y size : Number) (color : Color)
  | rect (x y w h : Number) (color : Color)
  | rectLines (x y w h : Number) (color : Color)
  | circle (x y radius : Number) (color : Color)
  | clear (color : Color)
deriving DecidableEq, Repr

/-- Words with a space between them. -/
def words (ws : List String) : String := " ".intercalate ws

/-- The line that tells of a drawing command. -/
def Draw.line : Draw → String
  | .text s x y size color =>
    words ["drawText", Text.Quoted.encode s, x.written, y.written, size.written, color.name]
  | .rect x y w h color =>
    words ["drawRect", x.written, y.written, w.written, h.written, color.name]
  | .rectLines x y w h color =>
    words ["drawRectLines", x.written, y.written, w.written, h.written, color.name]
  | .circle x y radius color =>
    words ["drawCircle", x.written, y.written, radius.written, color.name]
  | .clear color => words ["clear", color.name]

end SceneScript
