import SceneScript.Grammar.Statement

/-! The readers without their bounds. Each reader is described by one equation on the pairs of what
it reads and what it leaves, from which the bounds have gone. -/

namespace SceneScript.Grammar

variable {n m : Nat} {α β : Type}

/-- A result without the bound on its rest. -/
def plain (r : Reading (Read n α)) : Reading (α × List Token) :=
  match r with
  | .ok x => .ok (x.value, x.rest)
  | .error e => .error e

@[simp] theorem plain_ok (x : Read n α) : plain (.ok x) = .ok (x.value, x.rest) := rfl

@[simp] theorem plain_pure (x : Read n α) :
    plain (pure x : Reading (Read n α)) = .ok (x.value, x.rest) := rfl

@[simp] theorem plain_error (e : ParseError) :
    plain (.error e : Reading (Read n α)) = .error e := rfl

/-- Reading in steps, seen step by step. -/
theorem plain_bind {r : Reading (Read n α)} {f : Read n α → Reading (Read m β)}
    {g : α × List Token → Reading (β × List Token)}
    (h : ∀ x, plain (f x) = g (x.value, x.rest)) : plain (r >>= f) = plain r >>= g := by
  cases r with
  | error e => rfl
  | ok x => exact h x

/-- What is left behind the next token, when that passes a test. -/
def next? (test : Token → Bool) : List Token → Option (List Token)
  | [] => none
  | t :: rest => if test t then some rest else none

theorem after?_map (test : Token → Bool) (ts : List Token) :
    (after? test ts).map Subtype.val = next? test ts := by
  cases ts with
  | nil => rfl
  | cons t rest =>
    unfold after? next?
    dsimp only
    split <;> rfl

theorem plain_takeIf (test : Token → Bool) (what : Wanted) (ts : List Token) :
    plain (takeIf test what ts) = match next? test ts with
      | some rest => .ok (peek ts, rest)
      | none => .error (missing what ts) := by
  rw [← after?_map]
  unfold takeIf
  cases after? test ts <;> rfl

theorem plain_expr (level : Nat) (ts : List Token) :
    plain (expr level ts) = (do
      let (left, rest) ← plain (operand ts)
      plain (operators level left rest)) := by
  rw [expr]
  apply plain_bind
  rintro ⟨left, rest, h⟩
  dsimp only
  cases operators level left rest <;> rfl

@[simp] theorem plain_operators_nil (level : Nat) (left : Expr) :
    plain (operators level left []) = .ok (left, []) := by
  rw [operators]; rfl

theorem plain_operators_cons (level : Nat) (left : Expr) (t : Token) (rest : List Token) :
    plain (operators level left (t :: rest)) =
      match binaryOp? t with
      | some op =>
        if level < op.precedence then do
          let (right, rest') ← plain (expr op.precedence rest)
          plain (operators level (.binary t.pos op left right) rest')
        else .ok (left, t :: rest)
      | none => .ok (left, t :: rest) := by
  rw [operators]
  cases binaryOp? t with
  | none => rfl
  | some op =>
    dsimp only
    split
    · apply plain_bind
      rintro ⟨right, rest', h⟩
      dsimp only
      cases operators level (.binary t.pos op left right) rest' <;> rfl
    · rfl

@[simp] theorem plain_operand_nil : plain (operand []) = .error (missing .expression []) := by
  rw [operand]; rfl

theorem plain_operand_cons (t : Token) (rest : List Token) :
    plain (operand (t :: rest)) =
      match lead t with
      | .literal e => .ok (e, rest)
      | .outOfRange => .error ⟨.integerRange, t⟩
      | .none => .error (missing .expression (t :: rest))
      | .unary op => do
        let (e, rest') ← plain (operand rest)
        .ok (.unary t.pos op e, rest')
      | .paren => do
        let (e, rest') ← plain (expr 0 rest)
        let (_, rest'') ← plain (take .rparen .closeParen rest')
        .ok (e, rest'')
      | .name =>
        match next? (·.kind == .lparen) rest with
        | some rest' => do
          let (args, rest'') ← plain (arguments rest')
          .ok (.call t.pos t.lexeme args, rest'')
        | none => .ok (.ident t.pos t.lexeme, rest) := by
  rw [operand]
  cases lead t with
  | literal e => rfl
  | outOfRange => rfl
  | none => rfl
  | unary op => exact plain_bind fun _ => rfl
  | paren =>
    apply plain_bind
    rintro ⟨e, rest', h⟩
    exact plain_bind fun _ => rfl
  | name =>
    rw [← after?_map]
    unfold afterKind?
    dsimp only
    cases after? (·.kind == .lparen) rest with
    | none => rfl
    | some r => exact plain_bind fun _ => rfl

theorem plain_arguments (ts : List Token) :
    plain (arguments ts) = match next? (·.kind == .rparen) ts with
      | some rest => .ok ([], rest)
      | none => plain (argumentList ts) := by
  rw [arguments, ← after?_map]
  unfold afterKind?
  cases after? (·.kind == .rparen) ts <;> rfl

theorem plain_argumentList (ts : List Token) :
    plain (argumentList ts) = (do
      let (e, rest) ← plain (expr 0 ts)
      match next? (·.kind == .comma) rest with
      | some rest' => do
        let (es, rest'') ← plain (argumentList rest')
        .ok (e :: es, rest'')
      | none => do
        let (_, rest') ← plain (take .rparen .closeParen rest)
        .ok ([e], rest')) := by
  rw [argumentList]
  apply plain_bind
  rintro ⟨e, rest, h⟩
  dsimp only
  rw [← after?_map]
  unfold afterKind?
  cases after? (·.kind == .comma) rest with
  | none => exact plain_bind fun _ => rfl
  | some r => exact plain_bind fun _ => rfl

theorem plain_binding (ts : List Token) :
    plain (binding ts) = (do
      let (name, rest) ← plain (take .identifier .variableName ts)
      let (_, rest) ← plain (takeAssign rest)
      let (init, rest) ← plain (expr 0 rest)
      .ok ((name.lexeme, init), rest)) :=
  plain_bind fun _ => plain_bind fun _ => plain_bind fun _ => rfl

theorem plain_parameterList (ts : List Token) :
    plain (parameterList ts) = (do
      let (name, rest) ← plain (take .identifier .parameterName ts)
      let (_, rest) ← plain (take .colon .parameterColon rest)
      let (type, rest) ← plain (take .identifier .parameterType rest)
      match next? (·.kind == .comma) rest with
      | some rest => do
        let (params, rest) ← plain (parameterList rest)
        .ok (⟨name.lexeme, type.lexeme⟩ :: params, rest)
      | none => .ok ([⟨name.lexeme, type.lexeme⟩], rest)) := by
  rw [parameterList]
  refine plain_bind fun _ => plain_bind fun _ => plain_bind fun x => ?_
  dsimp only
  rw [← after?_map]
  unfold afterKind?
  cases after? (·.kind == .comma) x.rest with
  | none => rfl
  | some r => exact plain_bind fun _ => rfl

theorem plain_parameters (ts : List Token) :
    plain (parameters ts) = (do
      let (_, rest) ← plain (take .lparen .openParen ts)
      match next? (·.kind == .rparen) rest with
      | some rest => .ok ([], rest)
      | none => do
        let (params, rest) ← plain (parameterList rest)
        let (_, rest) ← plain (take .rparen .closeParen rest)
        .ok (params, rest)) := by
  refine plain_bind fun x => ?_
  dsimp only
  rw [← after?_map]
  unfold afterKind?
  cases after? (·.kind == .rparen) x.rest with
  | none => exact plain_bind fun _ => plain_bind fun _ => rfl
  | some r => rfl

theorem plain_range (ts : List Token) :
    plain (range ts) = (do
      let (name, rest) ← plain (take .identifier .loopVariable ts)
      let (_, rest) ← plain (takeWord "in" .inWord rest)
      let (_, rest) ← plain (takeWord "range" .rangeWord rest)
      let (_, rest) ← plain (take .lparen .rangeOpen rest)
      let (start, rest) ← plain (expr 0 rest)
      let (_, rest) ← plain (take .comma .rangeComma rest)
      let (stop, rest) ← plain (expr 0 rest)
      let (_, rest) ← plain (take .rparen .rangeClose rest)
      .ok ((name.lexeme, start, stop), rest)) :=
  plain_bind fun _ => plain_bind fun _ => plain_bind fun _ => plain_bind fun _ =>
    plain_bind fun _ => plain_bind fun _ => plain_bind fun _ => plain_bind fun _ => rfl

theorem plain_blockStart (ts : List Token) :
    plain (blockStart ts) = (do
      let (_, rest) ← plain (take .colon .colon ts)
      let (_, rest) ← plain (take .newline .lineAfterColon rest)
      let (_, rest) ← plain (take .indent .block rest)
      .ok ((), rest)) :=
  plain_bind fun _ => plain_bind fun _ => plain_bind fun _ => rfl

theorem plain_statementEnd (s : Stmt) (ts : List Token) :
    plain (statementEnd s ts) = match next? (·.kind == .newline) ts with
      | some rest => .ok ((), rest)
      | none =>
        if s.endsInBlock || at? .dedent ts || at? .eof ts then .ok ((), ts)
        else .error (missing .lineEnd ts) := by
  rw [← after?_map]
  unfold statementEnd afterKind?
  cases after? (·.kind == .newline) ts with
  | some r => rfl
  | none =>
    dsimp only [Option.map_none]
    split <;> rfl

theorem plain_simple (ts : List Token) :
    plain (simple ts) =
      match ts with
      | t :: sign :: rest =>
        if t.kind = .identifier ∧ sign.isOp "=" then do
          let (value, rest) ← plain (expr 0 rest)
          .ok (.assign t.pos t.lexeme value, rest)
        else do
          let (e, rest) ← plain (expr 0 (t :: sign :: rest))
          .ok (.expr t.pos e, rest)
      | ts => (do
        let (e, rest) ← plain (expr 0 ts)
        .ok (.expr (peek ts).pos e, rest)) := by
  match ts with
  | [] => exact plain_bind fun _ => rfl
  | [t] => exact plain_bind fun _ => rfl
  | t :: sign :: rest =>
    unfold simple
    dsimp only
    split
    · exact plain_bind fun _ => rfl
    · exact plain_bind fun _ => rfl

@[simp] theorem plain_statement_nil : plain (statement []) = plain (simple []) := by
  rw [statement]

theorem plain_statement_cons (t : Token) (rest : List Token) :
    plain (statement (t :: rest)) =
      match keyword? t with
      | none => plain (simple (t :: rest))
      | some .var => do
        let ((name, init), rest) ← plain (binding rest)
        .ok (.var t.pos name init, rest)
      | some .let => do
        let ((name, init), rest) ← plain (binding rest)
        .ok (.let t.pos name init, rest)
      | some .cond => do
        let (test, rest) ← plain (expr 0 rest)
        let (body, rest) ← plain (block rest)
        let (alternative, rest) ← plain (alternatives rest)
        .ok (.cond t.pos test body alternative, rest)
      | some .loop => do
        let ((name, start, stop), rest) ← plain (range rest)
        let (body, rest) ← plain (block rest)
        .ok (.loop t.pos name start stop body, rest)
      | some .proc => do
        let (name, rest) ← plain (take .identifier .procName rest)
        let (params, rest) ← plain (parameters rest)
        let (body, rest) ← plain (block rest)
        .ok (.proc t.pos name.lexeme params body, rest)
      | some .ret => (do
        let (value, rest) ← plain (expr 0 rest)
        .ok (.ret t.pos value, rest)) := by
  rw [statement]
  cases keyword? t with
  | none => rfl
  | some k =>
    cases k with
    | var => exact plain_bind fun _ => rfl
    | «let» => exact plain_bind fun _ => rfl
    | cond => exact plain_bind fun _ => plain_bind fun _ => plain_bind fun _ => rfl
    | loop => exact plain_bind fun _ => plain_bind fun _ => rfl
    | proc => exact plain_bind fun _ => plain_bind fun _ => plain_bind fun _ => rfl
    | ret => exact plain_bind fun _ => rfl

theorem plain_alternatives (ts : List Token) :
    plain (alternatives ts) =
      match next? (·.isWord "elif") ts with
      | some rest => do
        let (test, rest) ← plain (expr 0 rest)
        let (body, rest) ← plain (block rest)
        let (alternative, rest) ← plain (alternatives rest)
        .ok (.elif test body alternative, rest)
      | none =>
        match next? (·.isWord "else") ts with
        | some rest => do
          let (body, rest) ← plain (block rest)
          .ok (.otherwise body, rest)
        | none => .ok (.none, ts) := by
  rw [alternatives, ← after?_map, ← after?_map]
  cases after? (·.isWord "elif") ts with
  | some r => exact plain_bind fun _ => plain_bind fun _ => plain_bind fun _ => rfl
  | none =>
    cases after? (·.isWord "else") ts with
    | some r => exact plain_bind fun _ => rfl
    | none => rfl

theorem plain_block (ts : List Token) :
    plain (block ts) = (do
      let (_, rest) ← plain (blockStart ts)
      let (body, rest) ← plain (blockBody rest)
      let (_, rest) ← plain (take .dedent .blockEnd rest)
      .ok (body, rest)) := by
  rw [block]
  exact plain_bind fun _ => plain_bind fun _ => plain_bind fun _ => rfl

theorem plain_blockBody (ts : List Token) :
    plain (blockBody ts) =
      match next? (·.kind == .newline) ts with
      | some rest => plain (blockBody rest)
      | none =>
        if at? .dedent ts || at? .eof ts then .ok ([], ts)
        else (do
          let (s, rest) ← plain (statement ts)
          let (_, rest) ← plain (statementEnd s rest)
          let (body, rest) ← plain (blockBody rest)
          .ok (s :: body, rest)) := by
  rw [blockBody, ← after?_map]
  unfold afterKind?
  cases after? (·.kind == .newline) ts with
  | some r =>
    dsimp only [Option.map_some]
    cases blockBody r.val <;> rfl
  | none =>
    dsimp only [Option.map_none]
    split
    · rfl
    · exact plain_bind fun _ => plain_bind fun _ => plain_bind fun _ => rfl

theorem statements_eq (ts : List Token) :
    statements ts =
      match next? (·.kind == .newline) ts with
      | some rest => statements rest
      | none =>
        if at? .eof ts then .ok []
        else (do
          let (s, rest) ← plain (statement ts)
          let (_, rest) ← plain (statementEnd s rest)
          let body ← statements rest
          .ok (s :: body)) := by
  rw [statements, ← after?_map]
  unfold afterKind?
  cases after? (·.kind == .newline) ts with
  | some r => rfl
  | none =>
    dsimp only [Option.map_none]
    split
    · rfl
    · cases statement ts with
      | error e => rfl
      | ok x =>
        obtain ⟨s, rest, h⟩ := x
        show (statementEnd s rest >>= _) = (plain (statementEnd s rest) >>= _)
        cases statementEnd s rest <;> rfl

end SceneScript.Grammar
