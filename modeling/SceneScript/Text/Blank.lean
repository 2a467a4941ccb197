/-! Blank characters: those that separate words in any script and leave no mark. Text is trimmed
of them at one end or both. -/

namespace SceneScript.Text

/-- The blank characters: the ASCII controls from tab to carriage return, the space, every Unicode
space separator, the line and paragraph separators, and the byte order mark. -/
def isBlank (c : Char) : Bool :=
  let n := c.toNat
  (0x09 ≤ n && n ≤ 0x0D) || n == 0x20 || n == 0xA0 || n == 0x1680 ||
    (0x2000 ≤ n && n ≤ 0x200A) || n == 0x2028 || n == 0x2029 || n == 0x202F || n == 0x205F ||
    n == 0x3000 || n == 0xFEFF

/-- The text without the blanks at its end. -/
def trimEnd (cs : List Char) : List Char := (cs.reverse.dropWhile isBlank).reverse

/-- The text without the blanks at either end. -/
def trim (cs : List Char) : List Char := trimEnd (cs.dropWhile isBlank)

/-- Whether nothing but blanks stands in the text. -/
def allBlank (s : String) : Bool := s.toList.all isBlank

end SceneScript.Text
