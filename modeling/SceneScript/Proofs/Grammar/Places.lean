import SceneScript.Program
import SceneScript.Proofs.Grammar.Segment
import SceneScript.Proofs.Tree.Places

/-! Readers on tokens that are rendered anew. Places are carried along and never looked at: when
the places of all tokens are moved, every reader succeeds or fails as before, and a tree that it
returns is the tree from before with its places moved. Of a literal out of range nothing is looked
at but that it is one: when others stand in its place, a reader that fails at it goes on, and all
that it did before it does again. -/

namespace SceneScript.Grammar

/-- What a token begins an operand with, at another place. -/
def Lead.mapPos (move : Pos → Pos) : Lead → Lead
  | .literal e => .literal (e.mapPos move)
  | l => l

theorem lead_mapPos (move : Pos → Pos) (t : Token) :
    lead (t.mapPos move) = (lead t).mapPos move := by
  unfold lead
  rw [Token.mapPos_kind, Token.mapPos_lexeme, Token.mapPos_pos]
  cases t.kind with
  | int | op =>
    dsimp only
    split <;> rfl
  | identifier =>
    dsimp only
    repeat' split
    all_goals rfl
  | _ => rfl

/-- Rendering tokens moves their places and changes nothing else, except, when it is lax, the text
of literals that are out of range. -/
structure Renders (lax : Prop) (move : Pos → Pos) (g : Token → Token) : Prop where
  kind : ∀ t, (g t).kind = t.kind
  pos : ∀ t, (g t).pos = move t.pos
  same : ∀ t, g t = t.mapPos move ∨ lax ∧ lead t = .outOfRange

theorem Renders.mapPos (move : Pos → Pos) : Renders False move (Token.mapPos move) :=
  ⟨fun _ => rfl, fun _ => rfl, fun _ => .inl rfl⟩

/-- A failure that blames a literal for its range blames one that is out of range. -/
def Founded (e : ParseError) : Prop := e.cause = .integerRange → lead e.token = .outOfRange

theorem founded_missing (what : Wanted) (ts : List Token) : Founded (missing what ts) := by
  rintro ⟨⟩

/-- Both readings succeed, the second with the image of what the first returns, or both fail for
the same cause. Where it is lax, only the first may fail if that is at a literal out of range. -/
inductive Agree {α β : Type} (lax : Prop) (image : α → β) : Reading α → Reading β → Prop
  | ok (a : α) : Agree lax image (.ok a) (.ok (image a))
  | error {e e' : ParseError} : Founded e → e'.cause = e.cause →
      Agree lax image (.error e) (.error e')
  | range {t : Token} {y : Reading β} : lax → lead t = .outOfRange →
      Agree lax image (.error ⟨.integerRange, t⟩) y

theorem Agree.bind {α β γ δ : Type} {lax : Prop} {image : α → β} {image' : γ → δ} {x : Reading α}
    {y : Reading β} {f : α → Reading γ} {g : β → Reading δ} (h : Agree lax image x y)
    (hf : ∀ a, x = .ok a → Agree lax image' (f a) (g (image a))) :
    Agree lax image' (x >>= f) (y >>= g) := by
  cases h with
  | ok a => exact hf a rfl
  | error he hcause => exact .error he hcause
  | range hlax ht => exact .range hlax ht

theorem Agree.eq_ok_iff {α β : Type} {image : α → β} {x : Reading α} {y : Reading β}
    (h : Agree False image x y) {b : β} : y = .ok b ↔ ∃ a, x = .ok a ∧ image a = b := by
  cases h with
  | ok a => simp
  | error _ hcause => simp
  | range hlax => exact hlax.elim

theorem Agree.founded {α β : Type} {lax : Prop} {image : α → β} {x : Reading α} {y : Reading β}
    (h : Agree lax image x y) {e : ParseError} (he : x = .error e) : Founded e := by
  cases h with
  | ok a => cases he
  | error hfounded =>
    cases he
    exact hfounded
  | range _ ht =>
    cases he
    exact fun _ => ht

section

variable {lax : Prop} {move : Pos → Pos} {g : Token → Token}

/-- What a reader returns and leaves, rendered anew. -/
def rendered {α : Type} (g : Token → Token) (tree : α → α) (x : α × List Token) :
    α × List Token := (tree x.1, x.2.map g)

theorem next?_map {test : Token → Bool} (htest : ∀ t, test (g t) = test t) (ts : List Token) :
    next? test (ts.map g) = (next? test ts).map (List.map g) := by
  cases ts with
  | nil => rfl
  | cons t ts =>
    rw [List.map_cons, next?, next?, htest t]
    split <;> rfl

theorem agree_takeIf {test : Token → Bool} (htest : ∀ t, test (g t) = test t)
    (what : Wanted) (ts : List Token) :
    Agree lax (rendered g g) (plain (takeIf test what ts))
      (plain (takeIf test what (ts.map g))) := by
  rw [plain_takeIf, plain_takeIf, next?_map htest]
  cases hnext : next? test ts with
  | none => exact .error (founded_missing what ts) rfl
  | some rest =>
    obtain ⟨t, rfl, -⟩ := next?_eq_some.mp hnext
    exact .ok _

section

variable (h : Renders lax move g)
include h

theorem Renders.eq {t : Token} (ht : lead t ≠ .outOfRange) : g t = t.mapPos move :=
  (h.same t).resolve_right fun hlax => ht hlax.2

theorem Renders.lexeme {t : Token} (ht : t.kind ≠ .int) : (g t).lexeme = t.lexeme := by
  rw [h.eq (lead_ne_outOfRange ht), Token.mapPos_lexeme]

theorem Renders.isWord (w : String) (t : Token) : (g t).isWord w = t.isWord w := by
  unfold Token.isWord
  rw [h.kind]
  by_cases ht : t.kind = .int
  · rw [ht]
    rfl
  · rw [h.lexeme ht]

theorem Renders.isOp (w : String) (t : Token) : (g t).isOp w = t.isOp w := by
  unfold Token.isOp
  rw [h.kind]
  by_cases ht : t.kind = .int
  · rw [ht]
    rfl
  · rw [h.lexeme ht]

theorem Renders.kind_beq (kind : TokenKind) (t : Token) :
    ((g t).kind == kind) = (t.kind == kind) := by
  rw [h.kind]

theorem Renders.binaryOp? (t : Token) : Grammar.binaryOp? (g t) = Grammar.binaryOp? t := by
  by_cases ht : t.kind = .int
  · rw [binaryOp?_eq_none (by simp [h.kind, ht]) (by simp [h.kind, ht]),
      binaryOp?_eq_none (by simp [ht]) (by simp [ht])]
  · rw [h.eq (lead_ne_outOfRange ht)]
    rfl

theorem Renders.keyword? (t : Token) : Grammar.keyword? (g t) = Grammar.keyword? t := by
  unfold Grammar.keyword?
  rw [h.kind]
  by_cases ht : t.kind = .identifier
  · rw [h.lexeme (by simp [ht])]
  · rw [if_neg ht, if_neg ht]

theorem agree_take (kind : TokenKind) (what : Wanted) (ts : List Token) :
    Agree lax (rendered g g) (plain (take kind what ts)) (plain (take kind what (ts.map g))) :=
  agree_takeIf (h.kind_beq kind) what ts

theorem Renders.lexeme_of_take {what : Wanted} {ts rest : List Token} {t : Token}
    (ht : plain (take .identifier what ts) = .ok (t, rest)) : (g t).lexeme = t.lexeme :=
  h.lexeme (by simp [(plain_take_eq_ok.mp ht).2])

end

mutual

theorem agree_expr (h : Renders lax move g) (level : Nat) (ts : List Token) :
    Agree lax (rendered g (Expr.mapPos move)) (plain (expr level ts))
      (plain (expr level (ts.map g))) := by
  rw [plain_expr, plain_expr]
  refine (agree_operand h ts).bind ?_
  rintro ⟨left, rest⟩ hleft
  have hrest := length_lt_of_plain hleft
  exact agree_operators h level left rest
termination_by (ts.length, 1)

theorem agree_operators (h : Renders lax move g) (level : Nat) (left : Expr) (ts : List Token) :
    Agree lax (rendered g (Expr.mapPos move)) (plain (operators level left ts))
      (plain (operators level (left.mapPos move) (ts.map g))) := by
  cases ts with
  | nil =>
    rw [plain_operators_nil, List.map_nil, plain_operators_nil]
    exact .ok (left, [])
  | cons t ts =>
    rw [plain_operators_cons, List.map_cons, plain_operators_cons, h.binaryOp?]
    cases binaryOp? t with
    | none => exact .ok (left, t :: ts)
    | some op =>
      dsimp only
      split
      · rw [h.pos]
        refine (agree_expr h op.precedence ts).bind ?_
        rintro ⟨right, rest⟩ hright
        have hrest : rest.length < (t :: ts).length :=
          Nat.lt_succ_of_lt (length_lt_of_plain hright)
        exact agree_operators h level (.binary t.pos op left right) rest
      · exact .ok (left, t :: ts)
termination_by (ts.length, 0)

theorem agree_operand (h : Renders lax move g) (ts : List Token) :
    Agree lax (rendered g (Expr.mapPos move)) (plain (operand ts))
      (plain (operand (ts.map g))) := by
  cases ts with
  | nil =>
    rw [List.map_nil, plain_operand_nil]
    exact .error (founded_missing .expression []) rfl
  | cons t ts =>
    rw [plain_operand_cons, List.map_cons, plain_operand_cons]
    by_cases hrange : lead t = .outOfRange
    · rw [hrange]
      rcases h.same t with heq | ⟨hlax, -⟩
      · rw [heq, lead_mapPos, hrange]
        exact .error (fun _ => hrange) rfl
      · exact .range hlax hrange
    rw [h.eq hrange, lead_mapPos]
    cases hlead : lead t with
    | literal e => exact .ok (e, ts)
    | outOfRange => exact absurd hlead hrange
    | none => exact .error (founded_missing .expression (t :: ts)) rfl
    | unary op =>
      refine (agree_operand h ts).bind ?_
      rintro ⟨e, rest⟩ -
      exact .ok (Expr.unary t.pos op e, rest)
    | paren =>
      refine (agree_expr h 0 ts).bind ?_
      rintro ⟨e, rest⟩ -
      refine (agree_take h .rparen .closeParen rest).bind ?_
      rintro ⟨close, rest'⟩ -
      exact .ok (e, rest')
    | name =>
      dsimp only [Lead.mapPos]
      rw [next?_map (h.kind_beq _)]
      cases hnext : next? (·.kind == .lparen) ts with
      | none => exact .ok (Expr.ident t.pos t.lexeme, ts)
      | some rest =>
        obtain ⟨opening, rfl, -⟩ := next?_eq_some.mp hnext
        refine (agree_arguments h rest).bind ?_
        rintro ⟨es, rest'⟩ -
        exact .ok (Expr.call t.pos t.lexeme es, rest')
termination_by (ts.length, 0)

theorem agree_arguments (h : Renders lax move g) (ts : List Token) :
    Agree lax (rendered g (Expr.mapPosAll move)) (plain (arguments ts))
      (plain (arguments (ts.map g))) := by
  rw [plain_arguments, plain_arguments, next?_map (h.kind_beq _)]
  cases next? (·.kind == .rparen) ts with
  | some rest => exact .ok ([], rest)
  | none => exact agree_argumentList h ts
termination_by (ts.length, 3)

theorem agree_argumentList (h : Renders lax move g) (ts : List Token) :
    Agree lax (rendered g (Expr.mapPosAll move)) (plain (argumentList ts))
      (plain (argumentList (ts.map g))) := by
  rw [plain_argumentList, plain_argumentList]
  refine (agree_expr h 0 ts).bind ?_
  rintro ⟨e, rest⟩ he
  have hrest := length_lt_of_plain he
  dsimp only [rendered]
  rw [next?_map (h.kind_beq _)]
  cases hnext : next? (·.kind == .comma) rest with
  | some rest' =>
    obtain ⟨comma, rfl, -⟩ := next?_eq_some.mp hnext
    have hrest' : rest'.length < ts.length := Nat.lt_of_succ_lt hrest
    refine (agree_argumentList h rest').bind ?_
    rintro ⟨es, rest''⟩ -
    exact .ok (e :: es, rest'')
  | none =>
    refine (agree_take h .rparen .closeParen rest).bind ?_
    rintro ⟨close, rest'⟩ -
    exact .ok ([e], rest')
termination_by (ts.length, 2)

end

section

variable (h : Renders lax move g)
include h

theorem agree_binding (ts : List Token) :
    Agree lax (rendered g (Prod.map id (Expr.mapPos move))) (plain (binding ts))
      (plain (binding (ts.map g))) := by
  rw [plain_binding, plain_binding]
  refine (agree_take h .identifier .variableName ts).bind ?_
  rintro ⟨name, rest⟩ hname
  dsimp only [rendered]
  rw [h.lexeme_of_take hname]
  refine (agree_takeIf (h.isOp _) .assignSign rest).bind ?_
  rintro ⟨_, rest⟩ -
  refine (agree_expr h 0 rest).bind ?_
  rintro ⟨init, rest⟩ -
  exact .ok ((name.lexeme, init), rest)

theorem agree_parameterList (ts : List Token) :
    Agree lax (rendered g id) (plain (parameterList ts))
      (plain (parameterList (ts.map g))) := by
  rw [plain_parameterList, plain_parameterList]
  refine (agree_take h .identifier .parameterName ts).bind ?_
  rintro ⟨name, afterName⟩ hname
  have := length_lt_of_plain hname
  refine (agree_take h .colon .parameterColon afterName).bind ?_
  rintro ⟨_, afterColon⟩ hcolon
  have := length_lt_of_plain hcolon
  refine (agree_take h .identifier .parameterType afterColon).bind ?_
  rintro ⟨type, rest⟩ htype
  have := length_lt_of_plain htype
  dsimp only [rendered]
  rw [h.lexeme_of_take hname, h.lexeme_of_take htype, next?_map (h.kind_beq _)]
  cases hnext : next? (·.kind == .comma) rest with
  | none => exact .ok ([(⟨name.lexeme, type.lexeme⟩ : Param)], rest)
  | some more =>
    obtain ⟨comma, rfl, -⟩ := next?_eq_some.mp hnext
    have hmore : more.length < ts.length := by
      simp only [List.length_cons] at *
      omega
    refine (agree_parameterList more).bind ?_
    rintro ⟨params, rest⟩ -
    exact .ok ((⟨name.lexeme, type.lexeme⟩ : Param) :: params, rest)
termination_by ts.length

theorem agree_parameters (ts : List Token) :
    Agree lax (rendered g id) (plain (parameters ts))
      (plain (parameters (ts.map g))) := by
  rw [plain_parameters, plain_parameters]
  refine (agree_take h .lparen .openParen ts).bind ?_
  rintro ⟨_, rest⟩ -
  dsimp only [rendered]
  rw [next?_map (h.kind_beq _)]
  cases next? (·.kind == .rparen) rest with
  | some rest => exact .ok ([], rest)
  | none =>
    refine (agree_parameterList h rest).bind ?_
    rintro ⟨params, rest⟩ -
    refine (agree_take h .rparen .closeParen rest).bind ?_
    rintro ⟨_, rest⟩ -
    exact .ok (params, rest)

theorem agree_range (ts : List Token) :
    Agree lax (rendered g (Prod.map id (Prod.map (Expr.mapPos move) (Expr.mapPos move))))
      (plain (range ts)) (plain (range (ts.map g))) := by
  rw [plain_range, plain_range]
  refine (agree_take h .identifier .loopVariable ts).bind ?_
  rintro ⟨name, rest⟩ hname
  dsimp only [rendered]
  rw [h.lexeme_of_take hname]
  refine (agree_takeIf (h.isWord _) .inWord rest).bind ?_
  rintro ⟨_, rest⟩ -
  refine (agree_takeIf (h.isWord _) .rangeWord rest).bind ?_
  rintro ⟨_, rest⟩ -
  refine (agree_take h .lparen .rangeOpen rest).bind ?_
  rintro ⟨_, rest⟩ -
  refine (agree_expr h 0 rest).bind ?_
  rintro ⟨start, rest⟩ -
  refine (agree_take h .comma .rangeComma rest).bind ?_
  rintro ⟨_, rest⟩ -
  refine (agree_expr h 0 rest).bind ?_
  rintro ⟨stop, rest⟩ -
  refine (agree_take h .rparen .rangeClose rest).bind ?_
  rintro ⟨_, rest⟩ -
  exact .ok ((name.lexeme, start, stop), rest)

theorem agree_blockStart (ts : List Token) :
    Agree lax (rendered g id) (plain (blockStart ts))
      (plain (blockStart (ts.map g))) := by
  rw [plain_blockStart, plain_blockStart]
  refine (agree_take h .colon .colon ts).bind ?_
  rintro ⟨_, rest⟩ -
  refine (agree_take h .newline .lineAfterColon rest).bind ?_
  rintro ⟨_, rest⟩ -
  refine (agree_take h .indent .block rest).bind ?_
  rintro ⟨_, rest⟩ -
  exact .ok ((), rest)

theorem at?_map (kind : TokenKind) (ts : List Token) :
    at? kind (ts.map g) = at? kind ts := by
  cases ts with
  | nil => rfl
  | cons t ts => exact h.kind_beq kind t

theorem agree_statementEnd (s : Stmt) (ts : List Token) :
    Agree lax (rendered g id) (plain (statementEnd s ts))
      (plain (statementEnd (s.mapPos move) (ts.map g))) := by
  rw [plain_statementEnd, plain_statementEnd, next?_map (h.kind_beq _), at?_map h, at?_map h,
    Stmt.mapPos_endsInBlock]
  cases next? (·.kind == .newline) ts with
  | some rest => exact .ok ((), rest)
  | none =>
    dsimp only [Option.map_none]
    split
    · exact .ok ((), ts)
    · exact .error (founded_missing .lineEnd ts) rfl

theorem agree_simple (ts : List Token) :
    Agree lax (rendered g (Stmt.mapPos move)) (plain (simple ts))
      (plain (simple (ts.map g))) := by
  rw [plain_simple, plain_simple]
  match ts with
  | [] =>
    refine (agree_expr h 0 []).bind ?_
    rintro ⟨e, rest⟩ he
    rw [plain_expr, plain_operand_nil] at he
    cases he
  | [t] =>
    refine (agree_expr h 0 [t]).bind ?_
    rintro ⟨e, rest⟩ -
    dsimp only [List.map_cons, peek, rendered]
    rw [h.pos]
    exact .ok (Stmt.expr t.pos e, rest)
  | t :: sign :: ts =>
    rw [List.map_cons, List.map_cons]
    dsimp only
    rw [h.kind, h.isOp, h.pos]
    by_cases hassign : t.kind = .identifier ∧ sign.isOp "=" = true
    · rw [if_pos hassign, if_pos hassign, h.lexeme (by simp [hassign.1])]
      refine (agree_expr h 0 ts).bind ?_
      rintro ⟨value, rest⟩ -
      exact .ok (Stmt.assign t.pos t.lexeme value, rest)
    · rw [if_neg hassign, if_neg hassign]
      refine (agree_expr h 0 (t :: sign :: ts)).bind ?_
      rintro ⟨e, rest⟩ -
      exact .ok (Stmt.expr t.pos e, rest)

mutual

theorem agree_statement (ts : List Token) :
    Agree lax (rendered g (Stmt.mapPos move)) (plain (statement ts))
      (plain (statement (ts.map g))) := by
  cases ts with
  | nil =>
    rw [List.map_nil, plain_statement_nil]
    exact agree_simple h []
  | cons t ts =>
    rw [plain_statement_cons, List.map_cons, plain_statement_cons, h.keyword?, h.pos]
    cases keyword? t with
    | none => exact agree_simple h (t :: ts)
    | some k =>
      cases k with
      | var =>
        refine (agree_binding h ts).bind ?_
        rintro ⟨⟨name, init⟩, rest⟩ -
        exact .ok (Stmt.var t.pos name init, rest)
      | «let» =>
        refine (agree_binding h ts).bind ?_
        rintro ⟨⟨name, init⟩, rest⟩ -
        exact .ok (Stmt.let t.pos name init, rest)
      | cond =>
        refine (agree_expr h 0 ts).bind ?_
        rintro ⟨test, afterTest⟩ htest
        have := length_lt_of_plain htest
        refine (agree_block afterTest).bind ?_
        rintro ⟨body, afterBody⟩ hbody
        have := length_lt_of_plain hbody
        refine (agree_alternatives afterBody).bind ?_
        rintro ⟨alternative, rest⟩ -
        exact .ok (Stmt.cond t.pos test body alternative, rest)
      | loop =>
        refine (agree_range h ts).bind ?_
        rintro ⟨⟨name, start, stop⟩, afterRange⟩ hrange
        have := length_lt_of_plain hrange
        refine (agree_block afterRange).bind ?_
        rintro ⟨body, rest⟩ -
        exact .ok (Stmt.loop t.pos name start stop body, rest)
      | proc =>
        refine (agree_take h .identifier .procName ts).bind ?_
        rintro ⟨name, afterName⟩ hname
        have := length_lt_of_plain hname
        dsimp only [rendered]
        rw [h.lexeme_of_take hname]
        refine (agree_parameters h afterName).bind ?_
        rintro ⟨params, afterParams⟩ hparams
        have := length_lt_of_plain hparams
        refine (agree_block afterParams).bind ?_
        rintro ⟨body, rest⟩ -
        exact .ok (Stmt.proc t.pos name.lexeme params body, rest)
      | ret =>
        refine (agree_expr h 0 ts).bind ?_
        rintro ⟨value, rest⟩ -
        exact .ok (Stmt.ret t.pos value, rest)
termination_by (ts.length, 0)
decreasing_by all_goals (simp only [List.length_cons]; apply Prod.Lex.left; omega)

theorem agree_alternatives (ts : List Token) :
    Agree lax (rendered g (Alternative.mapPos move)) (plain (alternatives ts))
      (plain (alternatives (ts.map g))) := by
  rw [plain_alternatives, plain_alternatives, next?_map (h.isWord _), next?_map (h.isWord _)]
  cases helif : next? (·.isWord "elif") ts with
  | some afterWord =>
    obtain ⟨word, rfl, -⟩ := next?_eq_some.mp helif
    refine (agree_expr h 0 afterWord).bind ?_
    rintro ⟨test, afterTest⟩ htest
    have := length_lt_of_plain htest
    refine (agree_block afterTest).bind ?_
    rintro ⟨body, afterBody⟩ hbody
    have := length_lt_of_plain hbody
    refine (agree_alternatives afterBody).bind ?_
    rintro ⟨alternative, rest⟩ -
    exact .ok (Alternative.elif test body alternative, rest)
  | none =>
    cases helse : next? (·.isWord "else") ts with
    | some afterWord =>
      obtain ⟨word, rfl, -⟩ := next?_eq_some.mp helse
      refine (agree_block afterWord).bind ?_
      rintro ⟨body, rest⟩ -
      exact .ok (Alternative.otherwise body, rest)
    | none => exact .ok (Alternative.none, ts)
termination_by (ts.length, 0)
decreasing_by all_goals (apply Prod.Lex.left; grind)

theorem agree_block (ts : List Token) :
    Agree lax (rendered g (Stmt.mapPosAll move)) (plain (block ts))
      (plain (block (ts.map g))) := by
  rw [plain_block, plain_block]
  refine (agree_blockStart h ts).bind ?_
  rintro ⟨_, inside⟩ hstart
  have := length_lt_of_plain hstart
  refine (agree_blockBody inside).bind ?_
  rintro ⟨body, rest⟩ -
  refine (agree_take h .dedent .blockEnd rest).bind ?_
  rintro ⟨_, rest⟩ -
  exact .ok (body, rest)
termination_by (ts.length, 0)

theorem agree_blockBody (ts : List Token) :
    Agree lax (rendered g (Stmt.mapPosAll move)) (plain (blockBody ts))
      (plain (blockBody (ts.map g))) := by
  rw [plain_blockBody, plain_blockBody, next?_map (h.kind_beq _), at?_map h, at?_map h]
  cases hnext : next? (·.kind == .newline) ts with
  | some rest =>
    obtain ⟨line, rfl, -⟩ := next?_eq_some.mp hnext
    exact agree_blockBody rest
  | none =>
    dsimp only [Option.map_none]
    split
    · exact .ok ([], ts)
    · refine (agree_statement ts).bind ?_
      rintro ⟨s, afterStatement⟩ hs
      have := length_lt_of_plain hs
      refine (agree_statementEnd h s afterStatement).bind ?_
      rintro ⟨_, afterEnd⟩ hend
      have := length_lt_of_plain hend
      have hshort : afterEnd.length < ts.length := by omega
      refine (agree_blockBody afterEnd).bind ?_
      rintro ⟨body, rest⟩ -
      exact .ok (s :: body, rest)
termination_by (ts.length, 1)

end

theorem agree_statements (ts : List Token) :
    Agree lax (Program.mapPos move) (statements ts) (statements (ts.map g)) := by
  rw [statements_eq, statements_eq, next?_map (h.kind_beq _), at?_map h]
  cases hnext : next? (·.kind == .newline) ts with
  | some rest =>
    obtain ⟨line, rfl, -⟩ := next?_eq_some.mp hnext
    exact agree_statements rest
  | none =>
    dsimp only [Option.map_none]
    split
    · exact .ok []
    · refine (agree_statement h ts).bind ?_
      rintro ⟨s, afterStatement⟩ hs
      have := length_lt_of_plain hs
      refine (agree_statementEnd h s afterStatement).bind ?_
      rintro ⟨_, afterEnd⟩ hend
      have := length_lt_of_plain hend
      have hshort : afterEnd.length < ts.length := by omega
      refine (agree_statements afterEnd).bind ?_
      rintro body -
      exact .ok (s :: body)
termination_by ts.length

end

end

end SceneScript.Grammar

namespace SceneScript

/-- Tokens at other places form the same program, at other places. -/
theorem Program.ofTokens_map_eq_ok {move : Pos → Pos} {ts : List Token} {p : Program} :
    Program.ofTokens (ts.map (Token.mapPos move)) = .ok p ↔
      ∃ q, Program.ofTokens ts = .ok q ∧ Program.mapPos move q = p :=
  (Grammar.agree_statements (.mapPos move) ts).eq_ok_iff

end SceneScript
