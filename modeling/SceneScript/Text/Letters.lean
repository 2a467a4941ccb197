/-! Letters that differ in case only. A name written in plain small letters is found under any
spelling whose small form it is. -/

namespace SceneScript.Text

/-- The small form of a letter. Besides the plain capitals only the Kelvin sign has a plain small
letter; the small form of any other character is outside the plain letters, so a name of plain
letters never meets it and it stays as it is. -/
def small (c : Char) : Char := if c = '\u212a' then 'k' else c.toLower

/-- The text in small letters. -/
def lower (s : String) : String := String.ofList (s.toList.map small)

end SceneScript.Text
