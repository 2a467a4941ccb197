import SceneScript.Program

/-! Reading with a cursor. The readers of this module keep the whole list of tokens and an index
into it: they look at tokens by index, move the index over what they take and go round in loops. The
tokens do not bound the loops and the recursion. How deep the calls and the rounds of loops may be
nested is a number given to the readers, and a run that needs more has no outcome. -/

namespace SceneScript.Grammar

/-- A run with a cursor, which ends with a result or fails at a token, or does not end. It keeps the
cursors it has been at, the last one first. -/
abbrev Walk := ExceptT ParseError (StateT (List Nat) Option)

namespace Walk

/-- The cursors on the way from the first token to that of an index, the last one first. -/
def trail : Nat → List Nat
  | 0 => [0]
  | i + 1 => (i + 1) :: trail i

/-- How a run ends that begins at a cursor, and the cursors it has been at by then. -/
def outcome {α : Type} (x : Walk α) (i : Nat) : Option (Reading α × List Nat) :=
  x.run.run (trail i)

def unfinished {α : Type} : Walk α := ExceptT.mk fun _ => none

def cursor : Walk Nat := do return (← get).headD 0

def move : Walk Unit := modify fun path => (path.headD 0 + 1) :: path

section

variable (ts : List Token)

/-- The token `ahead` of the cursor, or the last one if there are not so many. -/
def peekAt (ahead : Nat) : Walk Token := do
  return ts.getD (min ((← cursor) + ahead) (ts.length - 1)) (.eof ⟨0, 0⟩)

def peek : Walk Token := peekAt ts 0

/-- The token before the cursor. -/
def previous : Walk Token := do return ts.getD ((← cursor) - 1) (.eof ⟨0, 0⟩)

/-- Takes the next token, whatever it is. An end token is not passed. -/
def advance : Walk Token := do
  let t ← peek ts
  if t.kind ≠ .eof then move
  return t

/-- Takes the next token if it passes a test, and tells whether it does. -/
def tryIf (test : Token → Bool) : Walk Bool := do
  if test (← peek ts) then
    move
    return true
  else return false

def fail {α : Type} (what : Wanted) : Walk α := do throw ⟨.expected what, ← peek ts⟩

/-- Takes a token that passes a test. -/
def expectIf (test : Token → Bool) (what : Wanted) : Walk Token := do
  let t ← peek ts
  if ← tryIf ts test then return t else fail ts what

/-- Takes a token of the given kind. -/
def expect (kind : TokenKind) (what : Wanted) : Walk Token := do
  if (← peek ts).kind == kind then advance ts else fail ts what

mutual

def expr : Nat → Nat → Walk Expr
  | 0, _ => unfinished
  | n + 1, level => do
    let left ← operand n
    operators n level left
termination_by structural n => n

def operators : Nat → Nat → Expr → Walk Expr
  | 0, _, _ => unfinished
  | n + 1, level, left => do
    match ← operatorRound n level left with
    | some left => operators n level left
    | none => return left
termination_by structural n => n

/-- One round of the loop over the operators behind an expression. -/
def operatorRound : Nat → Nat → Expr → Walk (Option Expr)
  | 0, _, _ => unfinished
  | n + 1, level, left => do
    match binaryOp? (← peek ts) with
    | some op =>
      if op.precedence ≤ level then return none
      else
        let t ← advance ts
        let right ← expr n op.precedence
        return some (.binary t.pos op left right)
    | none => return none
termination_by structural n => n

def operand : Nat → Walk Expr
  | 0 => unfinished
  | n + 1 => do
    let t ← advance ts
    match lead t with
    | .literal e => return e
    | .outOfRange => throw ⟨.integerRange, t⟩
    | .none => throw ⟨.expected .expression, t⟩
    | .unary op =>
      -- A level above that of every operator.
      let e ← expr n 100
      return .unary t.pos op e
    | .paren =>
      let e ← expr n 0
      let _ ← expect ts .rparen .closeParen
      return e
    | .name =>
      if ← tryIf ts (·.kind == .lparen) then
        let args ← arguments n
        return .call t.pos t.lexeme args
      else return .ident t.pos t.lexeme
termination_by structural n => n

def arguments : Nat → Walk (List Expr)
  | 0 => unfinished
  | n + 1 => do
    if (← peek ts).kind == .rparen then
      let _ ← expect ts .rparen .closeParen
      return []
    else argumentList n
termination_by structural n => n

def argumentList : Nat → Walk (List Expr)
  | 0 => unfinished
  | n + 1 => do
    let (e, more) ← argumentRound n
    if more then
      let es ← argumentList n
      return e :: es
    else
      let _ ← expect ts .rparen .closeParen
      return [e]
termination_by structural n => n

/-- One round of the loop over the arguments of a call: an argument, and whether a comma is taken
behind it. -/
def argumentRound : Nat → Walk (Expr × Bool)
  | 0 => unfinished
  | n + 1 => do
    let e ← expr n 0
    let more ← tryIf ts (·.kind == .comma)
    return (e, more)
termination_by structural n => n

end

def binding (n : Nat) : Walk (String × Expr) := do
  let name ← expect ts .identifier .variableName
  let _ ← expectIf ts (·.isOp "=") .assignSign
  let init ← expr ts n 0
  return (name.lexeme, init)

/-- One round of the loop over the parameters of a procedure. -/
def parameterRound : Walk (Param × Bool) := do
  let name ← expect ts .identifier .parameterName
  let _ ← expect ts .colon .parameterColon
  let type ← expect ts .identifier .parameterType
  let more ← tryIf ts (·.kind == .comma)
  return (⟨name.lexeme, type.lexeme⟩, more)

def parameterList : Nat → Walk (List Param)
  | 0 => unfinished
  | n + 1 => do
    let (p, more) ← parameterRound ts
    if more then
      let ps ← parameterList n
      return p :: ps
    else return [p]

def parameters (n : Nat) : Walk (List Param) := do
  let _ ← expect ts .lparen .openParen
  if (← peek ts).kind == .rparen then
    let _ ← expect ts .rparen .closeParen
    return []
  else
    let ps ← parameterList ts n
    let _ ← expect ts .rparen .closeParen
    return ps

def range (n : Nat) : Walk (String × Expr × Expr) := do
  let name ← expect ts .identifier .loopVariable
  let _ ← expectIf ts (·.isWord "in") .inWord
  let _ ← expectIf ts (·.isWord "range") .rangeWord
  let _ ← expect ts .lparen .rangeOpen
  let start ← expr ts n 0
  let _ ← expect ts .comma .rangeComma
  let stop ← expr ts n 0
  let _ ← expect ts .rparen .rangeClose
  return (name.lexeme, start, stop)

def blockStart : Walk Unit := do
  let _ ← expect ts .colon .colon
  let _ ← expect ts .newline .lineAfterColon
  let _ ← expect ts .indent .block

/-- The end of a statement. The close of a block directly before it ends it too. -/
def statementEnd : Walk Unit := do
  if ← tryIf ts (·.kind == .newline) then return ()
  else
    let before ← previous ts
    let next ← peek ts
    if before.kind == .dedent || next.kind == .dedent || next.kind == .eof then return ()
    else fail ts .lineEnd

/-- An assignment or an expression. -/
def simple (n : Nat) : Walk Stmt := do
  let t ← peek ts
  let sign ← peekAt ts 1
  if t.kind = .identifier ∧ sign.isOp "=" then
    let _ ← advance ts
    let _ ← expectIf ts (·.isOp "=") .assignSign
    let value ← expr ts n 0
    return .assign t.pos t.lexeme value
  else
    let e ← expr ts n 0
    return .expr t.pos e

mutual

def statement : Nat → Walk Stmt
  | 0 => unfinished
  | n + 1 => do
    let t ← peek ts
    match keyword? t with
    | some .var =>
      let _ ← advance ts
      let (name, init) ← binding ts n
      return .var t.pos name init
    | some .let =>
      let _ ← advance ts
      let (name, init) ← binding ts n
      return .let t.pos name init
    | some .cond =>
      let _ ← advance ts
      let test ← expr ts n 0
      let body ← block n
      let rest ← alternatives n
      return .cond t.pos test body rest
    | some .loop =>
      let _ ← advance ts
      let (name, start, stop) ← range ts n
      let body ← block n
      return .loop t.pos name start stop body
    | some .proc =>
      let _ ← advance ts
      let name ← expect ts .identifier .procName
      let params ← parameters ts n
      let body ← block n
      return .proc t.pos name.lexeme params body
    | some .ret =>
      let _ ← advance ts
      let value ← expr ts n 0
      return .ret t.pos value
    | none => simple ts n
termination_by structural n => n

def alternatives : Nat → Walk Alternative
  | 0 => unfinished
  | n + 1 => do
    match ← elifRound n with
    | some (test, body) =>
      let rest ← alternatives n
      return .elif test body rest
    | none =>
      if ← tryIf ts (·.isWord "else") then
        let body ← block n
        return .otherwise body
      else return .none
termination_by structural n => n

/-- One round of the loop over the further branches of a conditional. -/
def elifRound : Nat → Walk (Option (Expr × List Stmt))
  | 0 => unfinished
  | n + 1 => do
    if ← tryIf ts (·.isWord "elif") then
      let test ← expr ts n 0
      let body ← block n
      return some (test, body)
    else return none
termination_by structural n => n

def block : Nat → Walk (List Stmt)
  | 0 => unfinished
  | n + 1 => do
    blockStart ts
    let body ← blockBody n
    let _ ← expect ts .dedent .blockEnd
    return body
termination_by structural n => n

def blockBody : Nat → Walk (List Stmt)
  | 0 => unfinished
  | n + 1 => do
    match ← blockRound n with
    | some (some s) =>
      let body ← blockBody n
      return s :: body
    | some none => blockBody n
    | none => return []
termination_by structural n => n

/-- One round of the loop over the lines of a block, which may be one without a statement. -/
def blockRound : Nat → Walk (Option (Option Stmt))
  | 0 => unfinished
  | n + 1 => do
    let t ← peek ts
    if t.kind == .dedent || t.kind == .eof then return none
    else if ← tryIf ts (·.kind == .newline) then return some none
    else
      let s ← statement n
      statementEnd ts
      return some (some s)
termination_by structural n => n

end

def skipLines : Nat → Walk Unit
  | 0 => unfinished
  | n + 1 => do
    if ← tryIf ts (·.kind == .newline) then skipLines n else return ()

/-- One round of the loop over the statements of a program. -/
def programRound (n : Nat) : Walk (Option Stmt) := do
  skipLines ts n
  if (← peek ts).kind == .eof then return none
  else
    let s ← statement ts n
    statementEnd ts
    return some s

def program : Nat → Walk Program
  | 0 => unfinished
  | n + 1 => do
    match ← programRound ts n with
    | some s =>
      let body ← program n
      return s :: body
    | none => return []

end

end Walk

end SceneScript.Grammar
