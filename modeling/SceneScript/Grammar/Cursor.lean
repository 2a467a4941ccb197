import SceneScript.Error

/-! Reading from a list of tokens. Every reader returns what is left with a bound on its length, so
that the readers that call each other can be seen to end. -/

namespace SceneScript.Grammar

/-- The result of a reader: its value and the tokens left, fewer than `bound` of them. -/
structure Read (bound : Nat) (α : Type) where
  value : α
  rest : List Token
  short : rest.length < bound

/-- Reading succeeds or fails at a token. -/
abbrev Reading := Except ParseError

/-- The next token. A list without an end token is taken to end here. -/
def peek : List Token → Token
  | [] => .eof ⟨0, 0⟩
  | t :: _ => t

/-- Whether the next token has the given kind. -/
def at? (kind : TokenKind) (ts : List Token) : Bool := (peek ts).kind == kind

/-- The failure to find `what` as the next token. -/
def missing (what : Wanted) (ts : List Token) : ParseError := ⟨.expected what, peek ts⟩

/-- The tokens behind the next one, when that passes a test. -/
def after? (test : Token → Bool) (ts : List Token) :
    Option { rest : List Token // rest.length < ts.length } :=
  match ts with
  | [] => none
  | t :: rest => if test t then some ⟨rest, Nat.lt_succ_self _⟩ else none

/-- The tokens behind the next one, when that has the given kind. -/
def afterKind? (kind : TokenKind) (ts : List Token) :
    Option { rest : List Token // rest.length < ts.length } :=
  after? (·.kind == kind) ts

/-- Takes a token that passes a test. -/
def takeIf (test : Token → Bool) (what : Wanted) (ts : List Token) :
    Reading (Read ts.length Token) :=
  match after? test ts with
  | some ⟨rest, h⟩ => .ok ⟨peek ts, rest, h⟩
  | none => .error (missing what ts)

/-- Takes a token of the given kind. -/
def take (kind : TokenKind) (what : Wanted) (ts : List Token) : Reading (Read ts.length Token) :=
  takeIf (·.kind == kind) what ts

/-- Takes the given word. -/
def takeWord (word : String) (what : Wanted) (ts : List Token) : Reading (Read ts.length Token) :=
  takeIf (·.isWord word) what ts

/-- Takes the sign of an assignment. -/
def takeAssign (ts : List Token) : Reading (Read ts.length Token) :=
  takeIf (·.isOp "=") .assignSign ts

end SceneScript.Grammar
