/-! Places in a source text. -/

namespace SceneScript

/-- A line and a column, both counted from one. Columns count sixteen-bit units. A host that builds
its own tokens or trees may number its places as it likes, so both are integers. -/
structure Pos where
  line : Int
  col : Int
deriving DecidableEq, Repr, Inhabited

/-- A place as messages show it. -/
def Pos.text (p : Pos) : String := toString p.line ++ ":" ++ toString p.col

end SceneScript
