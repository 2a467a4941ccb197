import SceneScript.Proofs.Grammar.Segment

/-! Expressions in layers. A reader with one loop for each layer of operators, every loop taking its
operands from the next tighter layer and grouping them from the left, is compared with the reader
that climbs: one loop with a level that rises on the way to the right. Both read the same tree and
leave the same tokens, or fail with the same error.

The climb at one level is the climb at the next tighter level followed by the loop of one layer
(`plain_operators_layer`). What makes the two loops meet is that a climb stops only before operators
that do not bind more tightly than its level (`operators_stop`). -/

namespace SceneScript

theorem BinaryOp.mem_all (op : BinaryOp) : op ∈ BinaryOp.all := by
  rcases op with op | op | op <;> cases op <;> decide

namespace Grammar

/-- Two ways to go on are the same when they are from every result there is. -/
theorem bind_congr_ok {ε α β : Type} {x : Except ε α} {f g : α → Except ε β}
    (h : ∀ a, x = .ok a → f a = g a) : (x >>= f) = (x >>= g) := by
  cases x with
  | error e => rfl
  | ok a => exact h a rfl

namespace Layered

/-- The operators in layers, the loosest layer first. -/
def layers : List (List BinaryOp) :=
  [[.logic .or],
    [.logic .and],
    [.compare .eq, .compare .ne, .compare .lt, .compare .le, .compare .gt, .compare .ge],
    [.arith .add, .arith .sub],
    [.arith .mul, .arith .div, .arith .mod]]

/-- Whether a token spells an operator: it is a sign, or a name where the operator is a word. -/
def spells (t : Token) (op : BinaryOp) : Bool :=
  t.lexeme == op.symbol && (t.kind == .op || t.kind == .identifier && op.isWord)

mutual

/-- An expression of the given layers. Without layers it is a single operand. -/
def expression (ls : List (List BinaryOp)) (ts : List Token) : Reading (Read ts.length Expr) :=
  match ls with
  | [] => operand ts
  | layer :: tighter => do
    let ⟨left, rest, h⟩ ← expression tighter ts
    let ⟨e, rest, h'⟩ ← chain layer tighter left rest
    return ⟨e, rest, Nat.lt_of_lt_of_le h' h⟩
termination_by (ts.length, ls.length + 1)

/-- The operators of one layer that follow `left`, each with an operand of the tighter layers. -/
def chain (layer : List BinaryOp) (tighter : List (List BinaryOp)) (left : Expr)
    (ts : List Token) : Reading (Read (ts.length + 1) Expr) :=
  match ts with
  | [] => return ⟨left, [], Nat.lt_succ_self _⟩
  | t :: rest =>
    match layer.find? (spells t) with
    | some op => do
      let ⟨right, rest', h⟩ ← expression tighter rest
      let ⟨e, rest'', h'⟩ ← chain layer tighter (.binary t.pos op left right) rest'
      return ⟨e, rest'', Nat.lt_succ_of_lt (Nat.lt_succ_of_lt (Nat.lt_of_lt_of_le h' h))⟩
    | none => return ⟨left, t :: rest, Nat.lt_succ_self _⟩
termination_by (ts.length, 0)

/-- An operand. Parentheses and arguments begin again at the loosest layer. -/
def operand (ts : List Token) : Reading (Read ts.length Expr) :=
  match ts with
  | [] => .error (missing .expression [])
  | t :: rest =>
    match lead t with
    | .literal e => return ⟨e, rest, Nat.lt_succ_self _⟩
    | .outOfRange => .error ⟨.integerRange, t⟩
    | .none => .error (missing .expression (t :: rest))
    | .unary op => do
      let ⟨e, rest', h⟩ ← operand rest
      return ⟨.unary t.pos op e, rest', Nat.lt_succ_of_lt h⟩
    | .paren => do
      let ⟨e, rest', h⟩ ← expression layers rest
      let ⟨_, rest'', h'⟩ ← take .rparen .closeParen rest'
      return ⟨e, rest'', Nat.lt_succ_of_lt (Nat.lt_trans h' h)⟩
    | .name =>
      match afterKind? .lparen rest with
      | some ⟨rest', h⟩ => do
        let ⟨args, rest'', h'⟩ ← arguments rest'
        return ⟨.call t.pos t.lexeme args, rest'', Nat.lt_succ_of_lt (Nat.lt_trans h' h)⟩
      | none => return ⟨.ident t.pos t.lexeme, rest, Nat.lt_succ_self _⟩
termination_by (ts.length, 0)

/-- The arguments of a call, whose opening parenthesis has been taken. -/
def arguments (ts : List Token) : Reading (Read ts.length (List Expr)) :=
  match afterKind? .rparen ts with
  | some ⟨rest, h⟩ => return ⟨[], rest, h⟩
  | none => argumentList ts
termination_by (ts.length, layers.length + 3)

/-- One argument or more with commas between them, up to the closing parenthesis. -/
def argumentList (ts : List Token) : Reading (Read ts.length (List Expr)) := do
  let ⟨e, rest, h⟩ ← expression layers ts
  match afterKind? .comma rest with
  | some ⟨rest', h'⟩ => do
    have h := Nat.lt_trans h' h
    let ⟨es, rest'', h''⟩ ← argumentList rest'
    return ⟨e :: es, rest'', Nat.lt_trans h'' h⟩
  | none => do
    let ⟨_, rest', h'⟩ ← take .rparen .closeParen rest
    return ⟨[e], rest', Nat.lt_trans h' h⟩
termination_by (ts.length, layers.length + 2)

end

/-! The readers without their bounds. -/

@[simp] theorem plain_expression_nil (ts : List Token) :
    plain (expression [] ts) = plain (operand ts) := by
  rw [expression]

theorem plain_expression_cons (layer : List BinaryOp) (tighter : List (List BinaryOp))
    (ts : List Token) :
    plain (expression (layer :: tighter) ts) = (do
      let (left, rest) ← plain (expression tighter ts)
      plain (chain layer tighter left rest)) := by
  rw [expression]
  apply plain_bind
  rintro ⟨left, rest, h⟩
  dsimp only
  cases chain layer tighter left rest <;> rfl

@[simp] theorem plain_chain_nil (layer : List BinaryOp) (tighter : List (List BinaryOp))
    (left : Expr) : plain (chain layer tighter left []) = .ok (left, []) := by
  rw [chain]; rfl

theorem plain_chain_cons (layer : List BinaryOp) (tighter : List (List BinaryOp)) (left : Expr)
    (t : Token) (rest : List Token) :
    plain (chain layer tighter left (t :: rest)) =
      match layer.find? (spells t) with
      | some op => do
        let (right, rest') ← plain (expression tighter rest)
        plain (chain layer tighter (.binary t.pos op left right) rest')
      | none => .ok (left, t :: rest) := by
  rw [chain]
  cases layer.find? (spells t) with
  | none => rfl
  | some op =>
    apply plain_bind
    rintro ⟨right, rest', h⟩
    dsimp only
    cases chain layer tighter (.binary t.pos op left right) rest' <;> rfl

@[simp] theorem plain_operand_nil : plain (operand []) = .error (missing .expression []) := by
  rw [operand]; rfl

theorem plain_operand_cons (t : Token) (rest : List Token) :
    plain (operand (t :: rest)) =
      match lead t with
      | .literal e => .ok (e, rest)
      | .outOfRange => .error ⟨.integerRange, t⟩
      | .none => .error (missing .expression (t :: rest))
      | .unary op => do
        let (e, rest') ← plain (operand rest)
        .ok (.unary t.pos op e, rest')
      | .paren => do
        let (e, rest') ← plain (expression layers rest)
        let (_, rest'') ← plain (take .rparen .closeParen rest')
        .ok (e, rest'')
      | .name =>
        match next? (·.kind == .lparen) rest with
        | some rest' => do
          let (args, rest'') ← plain (arguments rest')
          .ok (.call t.pos t.lexeme args, rest'')
        | none => .ok (.ident t.pos t.lexeme, rest) := by
  rw [operand]
  cases lead t with
  | literal e => rfl
  | outOfRange => rfl
  | none => rfl
  | unary op => exact plain_bind fun _ => rfl
  | paren =>
    apply plain_bind
    rintro ⟨e, rest', h⟩
    exact plain_bind fun _ => rfl
  | name =>
    rw [← after?_map]
    unfold afterKind?
    dsimp only
    cases after? (·.kind == .lparen) rest with
    | none => rfl
    | some r => exact plain_bind fun _ => rfl

theorem plain_arguments (ts : List Token) :
    plain (arguments ts) = match next? (·.kind == .rparen) ts with
      | some rest => .ok ([], rest)
      | none => plain (argumentList ts) := by
  rw [arguments, ← after?_map]
  unfold afterKind?
  cases after? (·.kind == .rparen) ts <;> rfl

theorem plain_argumentList (ts : List Token) :
    plain (argumentList ts) = (do
      let (e, rest) ← plain (expression layers ts)
      match next? (·.kind == .comma) rest with
      | some rest' => do
        let (es, rest'') ← plain (argumentList rest')
        .ok (e :: es, rest'')
      | none => do
        let (_, rest') ← plain (take .rparen .closeParen rest)
        .ok ([e], rest')) := by
  rw [argumentList]
  apply plain_bind
  rintro ⟨e, rest, h⟩
  dsimp only
  rw [← after?_map]
  unfold afterKind?
  cases after? (·.kind == .comma) rest with
  | none => exact plain_bind fun _ => rfl
  | some r => exact plain_bind fun _ => rfl

/-! The layers and the levels. -/

theorem eq_of_spells {t : Token} {a b : BinaryOp} (ha : spells t a = true)
    (hb : spells t b = true) : a = b := by
  have hunique : ∀ a ∈ BinaryOp.all, ∀ b ∈ BinaryOp.all, a.symbol = b.symbol → a = b := by decide
  unfold spells at ha hb
  rw [Bool.and_eq_true, beq_iff_eq] at ha hb
  exact hunique a a.mem_all b b.mem_all (ha.1.symm.trans hb.1)

theorem find?_spells {layer : List BinaryOp} {t : Token} {op : BinaryOp} :
    layer.find? (spells t) = some op ↔ op ∈ layer ∧ spells t op = true := by
  constructor
  · intro h
    exact ⟨List.mem_of_find?_eq_some h, List.find?_some h⟩
  · rintro ⟨hmem, hop⟩
    cases hfind : layer.find? (spells t) with
    | none => exact absurd hop (List.find?_eq_none.mp hfind op hmem)
    | some op' => rw [eq_of_spells (List.find?_some hfind) hop]

theorem binaryOp?_eq_some {t : Token} {op : BinaryOp} :
    binaryOp? t = some op ↔ spells t op = true := by
  have hfind : binaryOp? t = BinaryOp.all.find? (spells t) := by
    unfold binaryOp? spells
    congr 1
    funext op
    cases t.kind <;> cases op.isWord <;> simp
  rw [hfind, find?_spells]
  exact and_iff_right op.mem_all

/-- The layer behind a level holds the operators that bind one step more tightly. -/
theorem exists_layer {level : Nat} (h : level < layers.length) :
    ∃ layer, layers.drop level = layer :: layers.drop (level + 1) ∧
      ∀ op, op ∈ layer ↔ op.precedence = level + 1 := by
  have htable : ∀ i : Fin layers.length, ∀ op ∈ BinaryOp.all,
      op ∈ layers.get i ↔ op.precedence = i + 1 := by decide
  exact ⟨layers[level], List.drop_eq_getElem_cons h,
    fun op => htable ⟨level, h⟩ op op.mem_all⟩

theorem precedence_le (op : BinaryOp) : op.precedence ≤ layers.length := by
  have htable : ∀ op ∈ BinaryOp.all, op.precedence ≤ layers.length := by decide
  exact htable op op.mem_all

/-! Where the loops stop. -/

theorem plain_chain_stop {layer : List BinaryOp} {ts : List Token}
    (h : ∀ op, binaryOp? (peek ts) = some op → op ∉ layer) (tighter : List (List BinaryOp))
    (left : Expr) : plain (chain layer tighter left ts) = .ok (left, ts) := by
  cases ts with
  | nil => exact plain_chain_nil layer tighter left
  | cons t rest =>
    have hfind : layer.find? (spells t) = none := by
      rw [List.find?_eq_none]
      intro op hmem hop
      exact h op (binaryOp?_eq_some.mpr hop) hmem
    rw [plain_chain_cons, hfind]

end Layered

theorem plain_operators_stop {level : Nat} {ts : List Token}
    (h : ∀ op, binaryOp? (peek ts) = some op → op.precedence ≤ level) (left : Expr) :
    plain (operators level left ts) = .ok (left, ts) :=
  (Reads.stop h).read

/-- A climb does not stop before an operator that binds more tightly than its level. -/
theorem operators_stop {level : Nat} {left e : Expr} {ts rest : List Token}
    (h : plain (operators level left ts) = .ok (e, rest)) {op : BinaryOp}
    (hop : binaryOp? (peek rest) = some op) : op.precedence ≤ level := by
  have hreads := reads_of_operators h
  clear h
  generalize hgoal : Goal.operators level left e = goal at hreads
  induction hreads generalizing left with
  | stop hstop =>
    cases hgoal
    exact hstop op hop
  | step _ _ _ _ _ ih =>
    cases hgoal
    exact ih hop rfl
  | _ => cases hgoal

theorem expr_stop {level : Nat} {e : Expr} {ts rest : List Token}
    (h : plain (expr level ts) = .ok (e, rest)) {op : BinaryOp}
    (hop : binaryOp? (peek rest) = some op) : op.precedence ≤ level := by
  rw [plain_expr] at h
  obtain ⟨⟨left, mid⟩, -, hoperators⟩ := bind_eq_ok.mp h
  exact operators_stop hoperators hop

namespace Layered

/-- The climb at a level is the climb at the next one, followed by the loop of the layer between
them. Where the loop of the layer takes its operand, the climb at the next level has come to its
end, so that nothing is left for it to do before the loop goes on. -/
theorem plain_operators_layer {level : Nat} {layer : List BinaryOp}
    {tighter : List (List BinaryOp)} (hlayer : ∀ op, op ∈ layer ↔ op.precedence = level + 1)
    (left : Expr) (ts : List Token)
    (ih : ∀ rest, rest.length < ts.length →
      plain (expr (level + 1) rest) = plain (expression tighter rest)) :
    plain (operators level left ts) = (do
      let (e, rest) ← plain (operators (level + 1) left ts)
      plain (chain layer tighter e rest)) := by
  by_cases hstop : ∀ op, binaryOp? (peek ts) = some op → op.precedence ≤ level
  · have houtside : ∀ op, binaryOp? (peek ts) = some op → op ∉ layer := by
      intro op hop hmem
      have := hstop op hop
      have := (hlayer op).mp hmem
      omega
    have hstop' : ∀ op, binaryOp? (peek ts) = some op → op.precedence ≤ level + 1 :=
      fun op hop => Nat.le_succ_of_le (hstop op hop)
    rw [plain_operators_stop hstop, plain_operators_stop hstop']
    exact (plain_chain_stop houtside tighter left).symm
  · obtain ⟨op, hop, hlevel⟩ : ∃ op, binaryOp? (peek ts) = some op ∧ level < op.precedence := by
      simpa using hstop
    cases ts with
    | nil => cases hop
    | cons t ts =>
      rw [peek] at hop
      rw [plain_operators_cons, hop]
      dsimp only
      rw [if_pos hlevel]
      have hgoesOn : ∀ {right : Expr} {rest : List Token},
          plain (expr op.precedence ts) = .ok (right, rest) → ∀ e,
            plain (operators level e rest) = (do
              let (e, rest) ← plain (operators (level + 1) e rest)
              plain (chain layer tighter e rest)) := by
        intro right rest hright e
        have hshort : rest.length < (t :: ts).length :=
          Nat.lt_succ_of_lt (length_lt_of_plain hright)
        exact plain_operators_layer hlayer e rest fun _ h => ih _ (Nat.lt_trans h hshort)
      by_cases htighter : level + 1 < op.precedence
      · rw [plain_operators_cons, hop]
        dsimp only
        rw [if_pos htighter, bind_assoc]
        exact bind_congr_ok fun ⟨right, rest⟩ hright => hgoesOn hright _
      · have hprecedence : op.precedence = level + 1 :=
          Nat.le_antisymm (Nat.not_lt.mp htighter) hlevel
        have hfind : layer.find? (spells t) = some op :=
          find?_spells.mpr ⟨(hlayer op).mpr hprecedence, binaryOp?_eq_some.mp hop⟩
        have hnext : plain (operators (level + 1) left (t :: ts)) = .ok (left, t :: ts) := by
          rw [plain_operators_cons, hop]
          exact if_neg htighter
        rw [hnext]
        show _ = plain (chain layer tighter left (t :: ts))
        rw [hprecedence] at hgoesOn ⊢
        rw [plain_chain_cons, hfind, ← ih ts (Nat.lt_succ_self _)]
        refine bind_congr_ok fun ⟨right, rest⟩ hright => ?_
        dsimp only
        rw [hgoesOn hright, plain_operators_stop fun op' hop' => expr_stop hright hop']
        rfl
termination_by ts.length

mutual

/-- Climbing from a level and reading in the layers behind it come to the same. -/
theorem plain_expr_layers (level : Nat) (ts : List Token) :
    plain (expr level ts) = plain (expression (layers.drop level) ts) := by
  by_cases hlevel : level < layers.length
  · obtain ⟨layer, hdrop, hlayer⟩ := exists_layer hlevel
    rw [hdrop, plain_expression_cons, ← plain_expr_layers (level + 1) ts, plain_expr, plain_expr,
      bind_assoc]
    refine bind_congr_ok fun ⟨left, rest⟩ hleft => ?_
    have hshort : rest.length < ts.length := length_lt_of_plain hleft
    exact plain_operators_layer hlayer left rest fun rest' h =>
      plain_expr_layers (level + 1) rest'
  · rw [List.drop_eq_nil_of_le (Nat.not_lt.mp hlevel), plain_expression_nil,
      ← plain_operand_layers ts, plain_expr]
    have hnone : ∀ (left : Expr) (rest : List Token),
        plain (operators level left rest) = .ok (left, rest) := fun left rest =>
      plain_operators_stop (fun op _ => Nat.le_trans (precedence_le op) (Nat.not_lt.mp hlevel)) left
    simp only [hnone]
    cases plain (Grammar.operand ts) <;> rfl
termination_by (ts.length, layers.length - level + 1)

theorem plain_operand_layers (ts : List Token) :
    plain (Grammar.operand ts) = plain (operand ts) := by
  cases ts with
  | nil => rw [Grammar.plain_operand_nil, plain_operand_nil]
  | cons t ts =>
    rw [Grammar.plain_operand_cons, plain_operand_cons]
    cases lead t with
    | literal e => rfl
    | outOfRange => rfl
    | none => rfl
    | unary op =>
      dsimp only
      rw [plain_operand_layers ts]
    | paren =>
      dsimp only
      rw [plain_expr_layers 0 ts, List.drop_zero]
    | name =>
      dsimp only
      cases hnext : next? (·.kind == .lparen) ts with
      | none => rfl
      | some rest =>
        obtain ⟨opening, rfl, -⟩ := next?_eq_some.mp hnext
        dsimp only
        rw [plain_arguments_layers rest]
termination_by (ts.length, 0)

theorem plain_arguments_layers (ts : List Token) :
    plain (Grammar.arguments ts) = plain (arguments ts) := by
  rw [Grammar.plain_arguments, plain_arguments]
  cases next? (·.kind == .rparen) ts with
  | none => exact plain_argumentList_layers ts
  | some rest => rfl
termination_by (ts.length, layers.length + 3)

theorem plain_argumentList_layers (ts : List Token) :
    plain (Grammar.argumentList ts) = plain (argumentList ts) := by
  rw [Grammar.plain_argumentList, plain_argumentList, plain_expr_layers 0 ts, List.drop_zero]
  refine bind_congr_ok fun ⟨e, rest⟩ he => ?_
  have hshort : rest.length < ts.length := length_lt_of_plain he
  dsimp only
  cases hnext : next? (·.kind == .comma) rest with
  | none => rfl
  | some rest' =>
    obtain ⟨comma, rfl, -⟩ := next?_eq_some.mp hnext
    have hshort' : rest'.length < ts.length := Nat.lt_of_succ_lt hshort
    dsimp only
    rw [plain_argumentList_layers rest']
termination_by (ts.length, layers.length + 2)

end

end Layered

theorem eq_of_plain_eq {n : Nat} {α : Type} {r r' : Reading (Read n α)} (h : plain r = plain r') :
    r = r' := by
  cases r with
  | error e =>
    cases r' with
    | error e' =>
      cases h
      rfl
    | ok x' => cases h
  | ok x =>
    cases r' with
    | error e' => cases h
    | ok x' =>
      obtain ⟨a, rest, hrest⟩ := x
      obtain ⟨a', rest', hrest'⟩ := x'
      cases h
      rfl

/-- Wherever an expression is read, climbing and reading in layers return the same tree and leave
the same tokens, or fail with the same error. -/
theorem expr_eq_layered (ts : List Token) : expr 0 ts = Layered.expression Layered.layers ts :=
  eq_of_plain_eq (Layered.plain_expr_layers 0 ts)

end Grammar

end SceneScript
