/-! Text measured in sixteen-bit units. A character of the basic plane is one unit and any other
character is two, so a column, a sort order or a character cut in half can be told from units
alone. -/

namespace SceneScript.Text

/-- How many units a character takes. -/
def unitCount (c : Char) : Nat := if c.val < 0x10000 then 1 else 2

/-- How many units a run of characters takes. -/
def width : List Char → Nat
  | [] => 0
  | c :: cs => unitCount c + width cs

@[simp] theorem width_nil : width [] = 0 := rfl

@[simp] theorem width_cons (c : Char) (cs : List Char) :
    width (c :: cs) = unitCount c + width cs := rfl

@[simp] theorem width_append (as bs : List Char) : width (as ++ bs) = width as + width bs := by
  induction as with
  | nil => simp
  | cons a as ih => simp [ih, Nat.add_assoc]

theorem unitCount_pos (c : Char) : 0 < unitCount c := by
  unfold unitCount; split <;> decide

/-- The units of a character: itself, or a high half and a low half. -/
def units (c : Char) : List Nat :=
  let n := c.toNat
  if n < 0x10000 then [n]
  else [0xD800 + (n - 0x10000) / 0x400, 0xDC00 + (n - 0x10000) % 0x400]

/-- The order of texts by their units, the shorter first when one begins the other. -/
def unitsLe (a b : String) : Bool :=
  decide (List.le (a.toList.flatMap units) (b.toList.flatMap units))

/-- The first unit of a character as a character. Half of a pair is no character, and the
replacement character stands for it. -/
def firstUnit (c : Char) : Char := if unitCount c = 1 then c else '\ufffd'

end SceneScript.Text
