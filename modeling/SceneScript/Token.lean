import SceneScript.Position

/-! Tokens: the words of a script with their places. Besides the words that stand in the text there
are layout tokens, which tell where a line ends and where a block opens and closes. -/

namespace SceneScript

/-- What a token is. -/
inductive TokenKind where
  | int
  | float
  | string
  | identifier
  | op
  | lparen
  | rparen
  | comma
  | colon
  | newline
  | indent
  | dedent
  | eof
deriving DecidableEq, Repr, Inhabited

/-- A token: its kind, the text it carries and the place where it begins. -/
structure Token where
  kind : TokenKind
  lexeme : String
  pos : Pos
deriving DecidableEq, Repr, Inhabited

namespace Token

/-- The end of a line. -/
def newline (pos : Pos) : Token := ⟨.newline, "\\n", pos⟩

/-- The opening of a block. -/
def indent (pos : Pos) : Token := ⟨.indent, "", pos⟩

/-- The closing of a block. -/
def dedent (pos : Pos) : Token := ⟨.dedent, "", pos⟩

/-- The end of the text. -/
def eof (pos : Pos) : Token := ⟨.eof, "", pos⟩

/-- A token as messages show it: layout tokens by name, all others by what they carry. -/
def shown (t : Token) : String :=
  match t.kind with
  | .newline => "newline"
  | .indent => "indent"
  | .dedent => "dedent"
  | .eof => "end of input"
  | _ => "'" ++ t.lexeme ++ "'"

/-- Whether a token is the given word. -/
def isWord (w : String) (t : Token) : Bool := t.kind == .identifier && t.lexeme == w

/-- Whether a token is the given operator. -/
def isOp (w : String) (t : Token) : Bool := t.kind == .op && t.lexeme == w

/-- The operators of two characters. One of them is preferred to the operator it begins with. -/
def longOps : List String := ["==", "!=", "<=", ">="]

/-- The operators of one character. -/
def shortOps : List String := ["=", "<", ">", "+", "-", "*", "/", "%"]

/-- Characters that begin a name. -/
def isNameStart (c : Char) : Bool := c.isAlpha || c == '_'

/-- Characters that go on with a name. -/
def isNamePart (c : Char) : Bool := c.isAlphanum || c == '_'

/-- The kind of a punctuation mark. -/
def punctuation? : Char → Option TokenKind
  | '(' => some .lparen
  | ')' => some .rparen
  | ',' => some .comma
  | ':' => some .colon
  | _ => none

end Token

end SceneScript
