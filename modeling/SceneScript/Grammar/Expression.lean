import SceneScript.Grammar.Cursor
import SceneScript.Number.Numeral
import SceneScript.Number.Whole
import SceneScript.Tree

/-! Reading expressions. An expression is an operand followed by operators that bind more tightly
than a given level, each with an expression of its own level to its right; so tighter operators
group first and equal ones from the left. -/

namespace SceneScript.Grammar

/-- The operator a token stands for between two operands. One that is a word may come as a name. -/
def binaryOp? (t : Token) : Option BinaryOp :=
  BinaryOp.all.find? fun op =>
    if t.kind = .op ∨ t.kind = .identifier ∧ op.isWord then t.lexeme == op.symbol else false

/-- The literal, name or operand sign that a token stands for when it begins an operand. -/
inductive Lead where
  | literal (e : Expr)
  | paren
  | unary (op : UnaryOp)
  | name
  | none
  | outOfRange

/-- What a token begins an operand with. -/
def lead (t : Token) : Lead :=
  match t.kind with
  | .int =>
    let v := Number.read t.lexeme
    if Number.isSafeInteger v then .literal (.int t.pos v) else .outOfRange
  | .float => .literal (.float t.pos (Number.read t.lexeme))
  | .string => .literal (.str t.pos t.lexeme)
  | .lparen => .paren
  | .op => if t.lexeme = "-" then .unary .neg else .none
  | .identifier =>
    if t.lexeme = "true" then .literal (.bool t.pos true)
    else if t.lexeme = "false" then .literal (.bool t.pos false)
    else if t.lexeme = "not" then .unary .not
    else .name
  | _ => .none

mutual

/-- An expression whose operators all bind more tightly than `level`. -/
def expr (level : Nat) (ts : List Token) : Reading (Read ts.length Expr) := do
  let ⟨left, rest, h⟩ ← operand ts
  let ⟨e, rest, h'⟩ ← operators level left rest
  return ⟨e, rest, by omega⟩
termination_by 4 * ts.length + 1

/-- The operators that bind more tightly than `level` and follow the expression `left`. -/
def operators (level : Nat) (left : Expr) (ts : List Token) : Reading (Read (ts.length + 1) Expr) :=
  match ts with
  | [] => return ⟨left, [], Nat.lt_succ_self _⟩
  | t :: rest =>
    match binaryOp? t with
    | some op =>
      if level < op.precedence then do
        let ⟨right, rest', h⟩ ← expr op.precedence rest
        let ⟨e, rest'', h'⟩ ← operators level (.binary t.pos op left right) rest'
        return ⟨e, rest'', Nat.lt_succ_of_lt (Nat.lt_succ_of_lt (Nat.lt_of_lt_of_le h' h))⟩
      else return ⟨left, t :: rest, Nat.lt_succ_self _⟩
    | none => return ⟨left, t :: rest, Nat.lt_succ_self _⟩
termination_by 4 * ts.length

/-- An operand: a literal, a name, a call, an expression in parentheses, or a sign before another
operand. -/
def operand (ts : List Token) : Reading (Read ts.length Expr) :=
  match ts with
  | [] => .error (missing .expression [])
  | t :: rest =>
    match lead t with
    | .literal e => return ⟨e, rest, by simp⟩
    | .outOfRange => .error ⟨.integerRange, t⟩
    | .none => .error (missing .expression (t :: rest))
    | .unary op => do
      let ⟨e, rest', h⟩ ← operand rest
      return ⟨.unary t.pos op e, rest', by simp only [List.length_cons]; omega⟩
    | .paren => do
      let ⟨e, rest', h⟩ ← expr 0 rest
      let ⟨_, rest'', h'⟩ ← take .rparen .closeParen rest'
      return ⟨e, rest'', by simp only [List.length_cons]; omega⟩
    | .name =>
      match afterKind? .lparen rest with
      | some ⟨rest', h⟩ => do
        let ⟨args, rest'', h'⟩ ← arguments rest'
        return ⟨.call t.pos t.lexeme args, rest'', by simp only [List.length_cons]; omega⟩
      | none => return ⟨.ident t.pos t.lexeme, rest, by simp⟩
termination_by 4 * ts.length

/-- The arguments of a call, whose opening parenthesis has been taken. -/
def arguments (ts : List Token) : Reading (Read ts.length (List Expr)) :=
  match afterKind? .rparen ts with
  | some ⟨rest, h⟩ => return ⟨[], rest, h⟩
  | none => argumentList ts
termination_by 4 * ts.length + 3

/-- One argument or more with commas between them, up to the closing parenthesis. -/
def argumentList (ts : List Token) : Reading (Read ts.length (List Expr)) := do
  let ⟨e, rest, h⟩ ← expr 0 ts
  match afterKind? .comma rest with
  | some ⟨rest', h'⟩ => do
    have h := Nat.lt_trans h' h
    let ⟨es, rest'', h''⟩ ← argumentList rest'
    return ⟨e :: es, rest'', Nat.lt_trans h'' h⟩
  | none => do
    let ⟨_, rest', h'⟩ ← take .rparen .closeParen rest
    return ⟨[e], rest', Nat.lt_trans h' h⟩
termination_by 4 * ts.length + 2

end

end SceneScript.Grammar
