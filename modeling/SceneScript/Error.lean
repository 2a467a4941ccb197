import SceneScript.Text.Units
import SceneScript.Token

/-! Errors by their causes. A script can fail while its text is cut into tokens, while its tokens
are put together to a tree, or while it runs; each failure is a cause with a place, and its wording
is a function of both. -/

namespace SceneScript

/-- Why a text cannot be cut into tokens. -/
inductive LexCause where
  /-- The character begins no token. -/
  | unexpected (c : Char)
  /-- The line ends before the quote is closed. -/
  | unterminated
  /-- The line begins further left than the block it stands in, but not where any block began. -/
  | inconsistent (width : Nat)
deriving DecidableEq, Repr

def LexCause.reason : LexCause → String
  | .unexpected c => "Unexpected character '" ++ (Text.firstUnit c).toString ++ "'"
  | .unterminated => "Unterminated string"
  | .inconsistent w =>
    "Inconsistent indentation (width " ++ toString w ++ " matches no enclosing block)"

/-- A failure to cut a text into tokens. -/
structure LexError where
  cause : LexCause
  pos : Pos
deriving DecidableEq, Repr

/-- What the next token has to be. -/
inductive Wanted where
  | variableName
  | assignSign
  | loopVariable
  | inWord
  | rangeWord
  | rangeOpen
  | rangeComma
  | rangeClose
  | procName
  | openParen
  | parameterName
  | parameterColon
  | parameterType
  | closeParen
  | colon
  | lineAfterColon
  | block
  | blockEnd
  | lineEnd
  | expression
deriving DecidableEq, Repr

def Wanted.text : Wanted → String
  | .variableName => "variable name"
  | .assignSign => "'='"
  | .loopVariable => "loop variable name"
  | .inWord => "'in'"
  | .rangeWord => "'range'"
  | .rangeOpen => "'(' after 'range'"
  | .rangeComma => "',' in range(start, end)"
  | .rangeClose => "')' after range arguments"
  | .procName => "proc name"
  | .openParen => "'('"
  | .parameterName => "parameter name"
  | .parameterColon => "':' after parameter name"
  | .parameterType => "parameter type"
  | .closeParen => "')'"
  | .colon => "':'"
  | .lineAfterColon => "newline after ':'"
  | .block => "indented block"
  | .blockEnd => "end of block"
  | .lineEnd => "end of line"
  | .expression => "expression"

/-- Why tokens form no program. -/
inductive ParseCause where
  | expected (what : Wanted)
  /-- The digits stand for no integer that a number holds exactly. -/
  | integerRange
deriving DecidableEq, Repr

def ParseCause.reason : ParseCause → String
  | .expected what => "Expected " ++ what.text
  | .integerRange => "Integer literal out of range"

/-- A failure to put tokens together, with the token at which it shows. -/
structure ParseError where
  cause : ParseCause
  token : Token
deriving DecidableEq, Repr

/-- The kinds of values that messages tell apart. -/
inductive ValueKind where
  | nil
  | int
  | float
  | bool
  | str
  | function
deriving DecidableEq, Repr

def ValueKind.text : ValueKind → String
  | .nil => "Nil"
  | .int => "Int"
  | .float => "Float"
  | .bool => "Bool"
  | .str => "Str"
  | .function => "Fun"

/-- What a native function can ask of an argument. -/
inductive ArgumentKind where
  | integer
  | number
  | string
  | bool
  | color
  | key
deriving DecidableEq, Repr

/-- The word for an argument that is not there. -/
def ArgumentKind.missingText : ArgumentKind → String
  | .integer => "integer"
  | .number => "number"
  | .string => "string"
  | .bool => "bool"
  | .color => "color"
  | .key => "key"

/-- The words for what an argument of another kind should have been. -/
def ArgumentKind.wantedText : ArgumentKind → String
  | .color => "color name"
  | .key => "key name or key code"
  | kind => kind.missingText

/-- Why a run stops. -/
inductive RuntimeCause where
  | undefined (name : String)
  | notCallable (name : String)
  | notNumeric (kind : ValueKind)
  | stackOverflow (name : String)
  | missingArgument (native : String) (what : ArgumentKind) (index : Int)
  | wrongArgument (native : String) (what : ArgumentKind) (index : Int) (kind : ValueKind)
  | unknownColor (native name : String)
  | unknownKey (native name : String)
  | tooFewArguments (native : String) (count : Nat) (signature : String)
  /-- A native function's own complaint. -/
  | raised (text : String)
deriving DecidableEq, Repr

def RuntimeCause.reason : RuntimeCause → String
  | .undefined name => "Undefined variable '" ++ name ++ "'"
  | .notCallable name => "'" ++ name ++ "' is not callable"
  | .notNumeric kind => "Expected numeric value, got " ++ kind.text
  | .stackOverflow name => "Stack overflow in '" ++ name ++ "'"
  | .missingArgument native what index =>
    native ++ ": missing " ++ what.missingText ++ " argument at index " ++ toString index
  | .wrongArgument native what index kind =>
    native ++ ": expected " ++ what.wantedText ++ " at index " ++ toString index ++ ", got " ++
      kind.text
  | .unknownColor native name => native ++ ": unknown color '" ++ name ++ "'"
  | .unknownKey native name => native ++ ": unknown key name '" ++ name ++ "'"
  | .tooFewArguments native count signature =>
    native ++ " expects " ++ toString count ++ " arguments: " ++ signature
  | .raised text => text

/-- A failure of a run. Failures inside native functions have no place in the script. -/
structure RuntimeError where
  cause : RuntimeCause
  pos : Option Pos
deriving DecidableEq, Repr

/-- A failure of a script at any stage. -/
inductive ScriptError where
  | lex (e : LexError)
  | parse (e : ParseError)
  | runtime (e : RuntimeError)
deriving DecidableEq, Repr

/-- What is told about a failure: its stage, its reason in words and its place. -/
inductive Report where
  | lex (reason : String) (pos : Pos)
  | parse (reason near : String) (pos : Pos)
  | runtime (reason : String) (pos : Option Pos)
deriving DecidableEq, Repr

namespace Report

/-- The line that is printed for a failure. -/
def message : Report → String
  | .lex reason pos => "[LEX] " ++ reason ++ " at " ++ pos.text
  | .parse reason near pos => "[PARSE] " ++ reason ++ " at token " ++ near ++ " " ++ pos.text
  | .runtime reason (some pos) => "[RUNTIME] " ++ reason ++ " at " ++ pos.text
  | .runtime reason none => "[RUNTIME] " ++ reason

def reason : Report → String
  | .lex reason _ => reason
  | .parse reason _ _ => reason
  | .runtime reason _ => reason

def pos? : Report → Option Pos
  | .lex _ pos => some pos
  | .parse _ _ pos => some pos
  | .runtime _ pos => pos

end Report

/-- What is told about a failure of a script. -/
def ScriptError.report : ScriptError → Report
  | .lex e => .lex e.cause.reason e.pos
  | .parse e => .parse e.cause.reason e.token.shown e.token.pos
  | .runtime e => .runtime e.cause.reason e.pos

/-- The line that is printed for a failure of a script. -/
def ScriptError.message (e : ScriptError) : String := e.report.message

end SceneScript
