import SceneScript.Grammar.Expression

/-! Reading statements and programs. The first word of a statement tells its form; a name before
the sign of an assignment makes it an assignment, and anything else is an expression. -/

namespace SceneScript.Grammar

/-- The forms of statements that a word announces. -/
inductive Keyword where
  | var
  | let
  | cond
  | loop
  | proc
  | ret
deriving DecidableEq, Repr

/-- The form of statement that a token announces. -/
def keyword? (t : Token) : Option Keyword :=
  if t.kind = .identifier then
    match t.lexeme with
    | "var" => some .var
    | "let" => some .let
    | "if" => some .cond
    | "for" => some .loop
    | "proc" => some .proc
    | "return" => some .ret
    | _ => none
  else none

/-- A name and the value behind the sign of an assignment, after `var` or `let`. -/
def binding (ts : List Token) : Reading (Read ts.length (String × Expr)) := do
  let ⟨name, rest, h⟩ ← take .identifier .variableName ts
  let ⟨_, rest, h'⟩ ← takeAssign rest
  let ⟨init, rest, h''⟩ ← expr 0 rest
  return ⟨(name.lexeme, init), rest, Nat.lt_trans h'' (Nat.lt_trans h' h)⟩

/-- One parameter or more with commas between them. -/
def parameterList (ts : List Token) : Reading (Read ts.length (List Param)) := do
  let ⟨name, rest, h⟩ ← take .identifier .parameterName ts
  let ⟨_, rest, h'⟩ ← take .colon .parameterColon rest
  let ⟨type, rest, h''⟩ ← take .identifier .parameterType rest
  match afterKind? .comma rest with
  | some ⟨rest, h₃⟩ => do
    let ⟨params, rest, h₄⟩ ← parameterList rest
    return ⟨⟨name.lexeme, type.lexeme⟩ :: params, rest,
      Nat.lt_trans (Nat.lt_trans h₄ h₃) (Nat.lt_trans h'' (Nat.lt_trans h' h))⟩
  | none =>
    return ⟨[⟨name.lexeme, type.lexeme⟩], rest, Nat.lt_trans h'' (Nat.lt_trans h' h)⟩
termination_by ts.length

/-- The parameters of a procedure between parentheses. -/
def parameters (ts : List Token) : Reading (Read ts.length (List Param)) := do
  let ⟨_, rest, h⟩ ← take .lparen .openParen ts
  match afterKind? .rparen rest with
  | some ⟨rest, h'⟩ => return ⟨[], rest, Nat.le_trans h' (Nat.le_of_lt h)⟩
  | none => do
    let ⟨params, rest, h'⟩ ← parameterList rest
    let ⟨_, rest, h''⟩ ← take .rparen .closeParen rest
    return ⟨params, rest, by omega⟩

/-- The variable and the bounds of a loop, from behind the word that announces it. -/
def range (ts : List Token) : Reading (Read ts.length (String × Expr × Expr)) := do
  let ⟨name, rest, h⟩ ← take .identifier .loopVariable ts
  let ⟨_, rest, h⟩ ← takeWord "in" .inWord rest
  let ⟨_, rest, h⟩ ← takeWord "range" .rangeWord rest
  let ⟨_, rest, h⟩ ← take .lparen .rangeOpen rest
  let ⟨start, rest, h⟩ ← expr 0 rest
  let ⟨_, rest, h⟩ ← take .comma .rangeComma rest
  let ⟨stop, rest, h⟩ ← expr 0 rest
  let ⟨_, rest, h⟩ ← take .rparen .rangeClose rest
  return ⟨(name.lexeme, start, stop), rest, by omega⟩

/-- The beginning of a block: a colon, the end of the line and a deeper indent. -/
def blockStart (ts : List Token) : Reading (Read ts.length Unit) := do
  let ⟨_, rest, h⟩ ← take .colon .colon ts
  let ⟨_, rest, h'⟩ ← take .newline .lineAfterColon rest
  let ⟨_, rest, h''⟩ ← take .indent .block rest
  return ⟨(), rest, by omega⟩

/-- The end of a statement: the end of its line, of its block or of the text. The close of a block
at the end of a statement ends it too. -/
def statementEnd (s : Stmt) (ts : List Token) : Reading (Read (ts.length + 1) Unit) :=
  match afterKind? .newline ts with
  | some ⟨rest, h⟩ => return ⟨(), rest, Nat.lt_succ_of_lt h⟩
  | none =>
    if s.endsInBlock || at? .dedent ts || at? .eof ts then return ⟨(), ts, Nat.lt_add_one _⟩
    else .error (missing .lineEnd ts)

/-- A statement other than those that a word announces: an assignment or an expression. -/
def simple (ts : List Token) : Reading (Read ts.length Stmt) :=
  match ts with
  | t :: sign :: rest =>
    if t.kind = .identifier ∧ sign.isOp "=" then do
      let ⟨value, rest, h⟩ ← expr 0 rest
      return ⟨.assign t.pos t.lexeme value, rest, by simp only [List.length_cons]; omega⟩
    else do
      let ⟨e, rest, h⟩ ← expr 0 (t :: sign :: rest)
      return ⟨.expr t.pos e, rest, h⟩
  | ts => do
    let ⟨e, rest, h⟩ ← expr 0 ts
    return ⟨.expr (peek ts).pos e, rest, h⟩

mutual

/-- A statement, without what ends it. -/
def statement (ts : List Token) : Reading (Read ts.length Stmt) :=
  match ts with
  | [] => simple []
  | t :: rest =>
    match keyword? t with
    | none => simple (t :: rest)
    | some .var => do
      let ⟨(name, init), rest, h⟩ ← binding rest
      return ⟨.var t.pos name init, rest, by simp only [List.length_cons]; omega⟩
    | some .let => do
      let ⟨(name, init), rest, h⟩ ← binding rest
      return ⟨.let t.pos name init, rest, by simp only [List.length_cons]; omega⟩
    | some .cond => do
      let ⟨test, rest, h⟩ ← expr 0 rest
      let ⟨body, rest, h'⟩ ← block rest
      let ⟨alternative, rest, h''⟩ ← alternatives rest
      return ⟨.cond t.pos test body alternative, rest, by simp only [List.length_cons]; omega⟩
    | some .loop => do
      let ⟨(name, start, stop), rest, h⟩ ← range rest
      let ⟨body, rest, h'⟩ ← block rest
      return ⟨.loop t.pos name start stop body, rest, by simp only [List.length_cons]; omega⟩
    | some .proc => do
      let ⟨name, rest, h⟩ ← take .identifier .procName rest
      let ⟨params, rest, h'⟩ ← parameters rest
      let ⟨body, rest, h''⟩ ← block rest
      return ⟨.proc t.pos name.lexeme params body, rest, by simp only [List.length_cons]; omega⟩
    | some .ret => do
      let ⟨value, rest, h⟩ ← expr 0 rest
      return ⟨.ret t.pos value, rest, by simp only [List.length_cons]; omega⟩
termination_by 2 * ts.length

/-- The branches that follow the first one of a conditional. -/
def alternatives (ts : List Token) : Reading (Read (ts.length + 1) Alternative) :=
  match after? (·.isWord "elif") ts with
  | some ⟨rest, h⟩ => do
    let ⟨test, rest, h'⟩ ← expr 0 rest
    let ⟨body, rest, h''⟩ ← block rest
    let ⟨alternative, rest, h'''⟩ ← alternatives rest
    return ⟨.elif test body alternative, rest, by omega⟩
  | none =>
    match after? (·.isWord "else") ts with
    | some ⟨rest, h⟩ => do
      let ⟨body, rest, h'⟩ ← block rest
      return ⟨.otherwise body, rest, by omega⟩
    | none => return ⟨.none, ts, by omega⟩
termination_by 2 * ts.length

/-- A block with the statements in it. -/
def block (ts : List Token) : Reading (Read ts.length (List Stmt)) := do
  let ⟨_, rest, h⟩ ← blockStart ts
  let ⟨body, rest, h'⟩ ← blockBody rest
  let ⟨_, rest, h''⟩ ← take .dedent .blockEnd rest
  return ⟨body, rest, by omega⟩
termination_by 2 * ts.length

/-- The statements up to the end of a block or of the text. Further ends of lines between them are
passed over. -/
def blockBody (ts : List Token) : Reading (Read (ts.length + 1) (List Stmt)) :=
  match afterKind? .newline ts with
  | some ⟨rest, h⟩ => do
    let ⟨body, rest, h'⟩ ← blockBody rest
    return ⟨body, rest, by omega⟩
  | none =>
    if at? .dedent ts || at? .eof ts then return ⟨[], ts, by omega⟩
    else do
      let ⟨s, rest, h⟩ ← statement ts
      let ⟨_, rest, h'⟩ ← statementEnd s rest
      let ⟨body, rest, h''⟩ ← blockBody rest
      return ⟨s :: body, rest, by omega⟩
termination_by 2 * ts.length + 1

end

/-- The statements up to the end of the text. -/
def statements (ts : List Token) : Reading (List Stmt) :=
  match afterKind? .newline ts with
  | some ⟨rest, _⟩ => statements rest
  | none =>
    if at? .eof ts then return []
    else do
      let ⟨s, rest, _⟩ ← statement ts
      let ⟨_, rest, _⟩ ← statementEnd s rest
      let body ← statements rest
      return s :: body
termination_by ts.length

end SceneScript.Grammar
