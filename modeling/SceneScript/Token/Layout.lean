import SceneScript.Token

/-! Layout: blocks are told by how far their lines are set in. A line set in further than the one
before opens a block; a line set in less closes every block that began further right, and has to
begin where one of the others did. Lines without code have no part in it. -/

namespace SceneScript.Layout

/-- The beginning of a line: the number of spaces and tabs it is set in by, the number of columns
skipped with them, and the text behind. A carriage return right after the spaces is skipped but is
not counted in the width. -/
structure Margin where
  width : Nat
  skipped : Nat
  code : List Char
deriving DecidableEq, Repr

/-- Spaces and tabs set a line in. -/
def isSpace (c : Char) : Bool := c == ' ' || c == '\t'

/-- The beginning of a line. -/
def margin (cs : List Char) : Margin :=
  let width := (cs.takeWhile isSpace).length
  match cs.dropWhile isSpace with
  | '\r' :: rest => ⟨width, width + 1, rest⟩
  | rest => ⟨width, width, rest⟩

/-- Whether nothing but a comment stands behind the beginning of a line. -/
def Margin.isEmpty (m : Margin) : Bool :=
  match m.code with
  | [] => true
  | c :: _ => c == '#'

/-- The widths of the open blocks, innermost first. The program itself is set in by nothing and is
not listed. -/
abbrev Blocks := List Nat

/-- The width of the innermost open block. -/
def Blocks.width (blocks : Blocks) : Nat := blocks.headD 0

/-- What a line does to the open blocks. -/
inductive Change where
  | opens
  | closes (count : Nat)
deriving DecidableEq, Repr

/-- The open blocks after a line set in by `width` and what the line does to them, or nothing when
it begins where no open block did. -/
def Blocks.enter? (blocks : Blocks) (width : Nat) : Option (Blocks × Change) :=
  if blocks.width < width then some (width :: blocks, .opens)
  else
    let left : Blocks := blocks.dropWhile (width < ·)
    if left.width = width then some (left, .closes (blocks.takeWhile (width < ·)).length)
    else none

/-- The tokens that tell of a change. -/
def Change.tokens (pos : Pos) : Change → List Token
  | .opens => [.indent pos]
  | .closes count => List.replicate count (.dedent pos)

end SceneScript.Layout
