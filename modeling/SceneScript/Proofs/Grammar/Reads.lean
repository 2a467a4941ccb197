import SceneScript.Grammar.View

/-! What the readers of expressions accept, as a relation between the tokens before and after an
expression. One rule stands for each way a reader can succeed, so that facts about all of them are
proved by one induction over the rules. -/

namespace SceneScript

theorem bind_eq_ok {ε α β : Type} {x : Except ε α} {f : α → Except ε β} {b : β} :
    (x >>= f) = .ok b ↔ ∃ a, x = .ok a ∧ f a = .ok b := by
  cases x with
  | error e =>
    constructor
    · intro h
      cases h
    · rintro ⟨a, h, -⟩
      cases h
  | ok a =>
    constructor
    · intro h
      exact ⟨a, rfl, h⟩
    · rintro ⟨a', h, hf⟩
      cases h
      exact hf

theorem bind_eq_error {ε α β : Type} {x : Except ε α} {f : α → Except ε β} {e : ε} :
    (x >>= f) = .error e ↔ x = .error e ∨ ∃ a, x = .ok a ∧ f a = .error e := by
  cases x with
  | error e' =>
    constructor
    · intro h
      cases h
      exact .inl rfl
    · rintro (h | ⟨a, h, -⟩)
      · cases h
        rfl
      · cases h
  | ok a =>
    constructor
    · intro h
      exact .inr ⟨a, rfl, h⟩
    · rintro (h | ⟨a', h, hf⟩)
      · cases h
      · cases h
        exact hf

end SceneScript

namespace SceneScript.Grammar

/-- A reader leaves fewer tokens than its bound. -/
theorem length_lt_of_plain {n : Nat} {α : Type} {r : Reading (Read n α)} {a : α}
    {rest : List Token} (h : plain r = .ok (a, rest)) : rest.length < n := by
  cases r with
  | error e => cases h
  | ok x =>
    cases h
    exact x.short

theorem next?_eq_some {test : Token → Bool} {ts rest : List Token} :
    next? test ts = some rest ↔ ∃ t, ts = t :: rest ∧ test t = true := by
  cases ts with
  | nil => simp [next?]
  | cons t ts =>
    rw [next?]
    constructor
    · intro h
      by_cases ht : test t = true
      · rw [if_pos ht] at h
        cases h
        exact ⟨t, rfl, ht⟩
      · rw [if_neg ht] at h
        cases h
    · rintro ⟨t', h, ht⟩
      cases h
      rw [if_pos ht]

/-- No token is taken when the next one fails the test, an end token standing for no tokens. -/
theorem next?_eq_none {test : Token → Bool} {ts : List Token} (stop : ∀ p, test (.eof p) = false) :
    next? test ts = none ↔ test (peek ts) = false := by
  cases ts with
  | nil => simp [next?, peek, stop]
  | cons t ts => cases h : test t <;> simp [next?, peek, h]

theorem plain_takeIf_eq_ok {test : Token → Bool} {what : Wanted} {ts rest : List Token}
    {t : Token} :
    plain (takeIf test what ts) = .ok (t, rest) ↔ ts = t :: rest ∧ test t = true := by
  rw [plain_takeIf]
  constructor
  · intro h
    split at h
    · rename_i hnext
      obtain ⟨t', rfl, ht⟩ := next?_eq_some.mp hnext
      cases h
      exact ⟨rfl, ht⟩
    · cases h
  · rintro ⟨rfl, ht⟩
    simp [next?, ht, peek]

theorem plain_take_eq_ok {kind : TokenKind} {what : Wanted} {ts rest : List Token} {t : Token} :
    plain (take kind what ts) = .ok (t, rest) ↔ ts = t :: rest ∧ t.kind = kind := by
  unfold take
  rw [plain_takeIf_eq_ok, beq_iff_eq]

/-- What is to be read: which reader is at work and the tree it has to return. -/
inductive Goal where
  | expr (level : Nat) (e : Expr)
  | operators (level : Nat) (left e : Expr)
  | operand (e : Expr)
  | arguments (es : List Expr)
  | argumentList (es : List Expr)

/-- The reader of the goal returns its tree on `ts` and leaves `rest`. -/
def Goal.Read (ts rest : List Token) : Goal → Prop
  | .expr level e => plain (Grammar.expr level ts) = .ok (e, rest)
  | .operators level left e => plain (Grammar.operators level left ts) = .ok (e, rest)
  | .operand e => plain (Grammar.operand ts) = .ok (e, rest)
  | .arguments es => plain (Grammar.arguments ts) = .ok (es, rest)
  | .argumentList es => plain (Grammar.argumentList ts) = .ok (es, rest)

/-- The ways to read expressions. `Reads g ts rest` says that the tokens of `ts` before `rest` are
what the goal `g` asks for. -/
inductive Reads : Goal → List Token → List Token → Prop
  | expr {level : Nat} {left e : Expr} {ts mid rest : List Token} :
      Reads (.operand left) ts mid → Reads (.operators level left e) mid rest →
      Reads (.expr level e) ts rest
  | stop {level : Nat} {left : Expr} {ts : List Token} :
      (∀ op, binaryOp? (peek ts) = some op → op.precedence ≤ level) →
      Reads (.operators level left left) ts ts
  | step {level : Nat} {left right e : Expr} {op : BinaryOp} {t : Token}
      {ts mid rest : List Token} :
      binaryOp? t = some op → level < op.precedence → Reads (.expr op.precedence right) ts mid →
      Reads (.operators level (.binary t.pos op left right) e) mid rest →
      Reads (.operators level left e) (t :: ts) rest
  | literal {e : Expr} {t : Token} {ts : List Token} :
      lead t = .literal e → Reads (.operand e) (t :: ts) ts
  | sign {e : Expr} {op : UnaryOp} {t : Token} {ts rest : List Token} :
      lead t = .unary op → Reads (.operand e) ts rest →
      Reads (.operand (.unary t.pos op e)) (t :: ts) rest
  | paren {e : Expr} {t close : Token} {ts rest : List Token} :
      lead t = .paren → Reads (.expr 0 e) ts (close :: rest) → close.kind = .rparen →
      Reads (.operand e) (t :: ts) rest
  | name {t : Token} {ts : List Token} :
      lead t = .name → (peek ts).kind ≠ .lparen →
      Reads (.operand (.ident t.pos t.lexeme)) (t :: ts) ts
  | call {es : List Expr} {t opening : Token} {ts rest : List Token} :
      lead t = .name → opening.kind = .lparen → Reads (.arguments es) ts rest →
      Reads (.operand (.call t.pos t.lexeme es)) (t :: opening :: ts) rest
  | noArguments {close : Token} {rest : List Token} :
      close.kind = .rparen → Reads (.arguments []) (close :: rest) rest
  | someArguments {es : List Expr} {ts rest : List Token} :
      Reads (.argumentList es) ts rest → Reads (.arguments es) ts rest
  | lastArgument {e : Expr} {close : Token} {ts rest : List Token} :
      Reads (.expr 0 e) ts (close :: rest) → close.kind = .rparen →
      Reads (.argumentList [e]) ts rest
  | argument {e : Expr} {es : List Expr} {comma : Token} {ts mid rest : List Token} :
      Reads (.expr 0 e) ts (comma :: mid) → comma.kind = .comma →
      Reads (.argumentList es) mid rest → Reads (.argumentList (e :: es)) ts rest

/-- No argument begins with the parenthesis that closes the list. -/
theorem not_argumentList_rparen {t : Token} {ts rest : List Token} {es : List Expr}
    (ht : t.kind = .rparen) : ¬ plain (argumentList (t :: ts)) = .ok (es, rest) := by
  intro h
  have hlead : lead t = .none := by
    unfold lead
    rw [ht]
  rw [plain_argumentList, plain_expr, plain_operand_cons, hlead] at h
  cases h

/-- The rules describe what the readers do. -/
theorem Reads.read {g : Goal} {ts rest : List Token} (h : Reads g ts rest) : g.Read ts rest := by
  induction h with
  | @expr level left e ts mid rest _ _ ihOperand ihOperators =>
    show plain (Grammar.expr level ts) = .ok (e, rest)
    rw [plain_expr, bind_eq_ok]
    exact ⟨(left, mid), ihOperand, ihOperators⟩
  | @stop level left ts hstop =>
    show plain (Grammar.operators level left ts) = .ok (left, ts)
    cases ts with
    | nil => exact plain_operators_nil level left
    | cons t ts =>
      rw [plain_operators_cons]
      cases hop : binaryOp? t with
      | none => rfl
      | some op => exact if_neg (Nat.not_lt.mpr (hstop op hop))
  | @step level left right e op t ts mid rest hop hlevel _ _ ihExpr ihOperators =>
    show plain (Grammar.operators level left (t :: ts)) = .ok (e, rest)
    rw [plain_operators_cons, hop]
    dsimp only
    rw [if_pos hlevel, bind_eq_ok]
    exact ⟨(right, mid), ihExpr, ihOperators⟩
  | @literal e t ts hlead =>
    show plain (Grammar.operand (t :: ts)) = .ok (e, ts)
    rw [plain_operand_cons, hlead]
  | @sign e op t ts rest hlead _ ih =>
    show plain (Grammar.operand (t :: ts)) = .ok (.unary t.pos op e, rest)
    rw [plain_operand_cons, hlead]
    exact bind_eq_ok.mpr ⟨(e, rest), ih, rfl⟩
  | @paren e t close ts rest hlead _ hclose ih =>
    show plain (Grammar.operand (t :: ts)) = .ok (e, rest)
    rw [plain_operand_cons, hlead]
    refine bind_eq_ok.mpr ⟨(e, close :: rest), ih, ?_⟩
    exact bind_eq_ok.mpr ⟨(close, rest), plain_take_eq_ok.mpr ⟨rfl, hclose⟩, rfl⟩
  | @name t ts hlead hpeek =>
    show plain (Grammar.operand (t :: ts)) = .ok (.ident t.pos t.lexeme, ts)
    have hnext : next? (·.kind == .lparen) ts = none :=
      (next?_eq_none fun _ => rfl).mpr (beq_eq_false_iff_ne.mpr hpeek)
    rw [plain_operand_cons, hlead]
    dsimp only
    rw [hnext]
  | @call es t opening ts rest hlead hopening _ ih =>
    show plain (Grammar.operand (t :: opening :: ts)) = .ok (.call t.pos t.lexeme es, rest)
    have hnext : next? (·.kind == .lparen) (opening :: ts) = some ts :=
      next?_eq_some.mpr ⟨opening, rfl, beq_iff_eq.mpr hopening⟩
    rw [plain_operand_cons, hlead]
    dsimp only
    rw [hnext]
    exact bind_eq_ok.mpr ⟨(es, rest), ih, rfl⟩
  | @noArguments close rest hclose =>
    show plain (Grammar.arguments (close :: rest)) = .ok ([], rest)
    have hnext : next? (·.kind == .rparen) (close :: rest) = some rest :=
      next?_eq_some.mpr ⟨close, rfl, beq_iff_eq.mpr hclose⟩
    rw [plain_arguments, hnext]
  | @someArguments es ts rest _ ih =>
    show plain (Grammar.arguments ts) = .ok (es, rest)
    rw [plain_arguments]
    split
    · rename_i rest' hnext
      obtain ⟨t, rfl, ht⟩ := next?_eq_some.mp hnext
      exact absurd ih (not_argumentList_rparen (beq_iff_eq.mp ht))
    · exact ih
  | @lastArgument e close ts rest _ hclose ih =>
    show plain (Grammar.argumentList ts) = .ok ([e], rest)
    rw [plain_argumentList]
    refine bind_eq_ok.mpr ⟨(e, close :: rest), ih, ?_⟩
    have hnext : next? (·.kind == .comma) (close :: rest) = none := by
      simp [next?, hclose]
    dsimp only
    rw [hnext]
    exact bind_eq_ok.mpr ⟨(close, rest), plain_take_eq_ok.mpr ⟨rfl, hclose⟩, rfl⟩
  | @argument e es comma ts mid rest _ hcomma _ ih ihList =>
    show plain (Grammar.argumentList ts) = .ok (e :: es, rest)
    rw [plain_argumentList]
    refine bind_eq_ok.mpr ⟨(e, comma :: mid), ih, ?_⟩
    have hnext : next? (·.kind == .comma) (comma :: mid) = some mid :=
      next?_eq_some.mpr ⟨comma, rfl, beq_iff_eq.mpr hcomma⟩
    dsimp only
    rw [hnext]
    exact bind_eq_ok.mpr ⟨(es, rest), ihList, rfl⟩

mutual

theorem reads_of_expr {level : Nat} {ts rest : List Token} {e : Expr}
    (h : plain (expr level ts) = .ok (e, rest)) : Reads (.expr level e) ts rest := by
  rw [plain_expr] at h
  obtain ⟨⟨left, mid⟩, hleft, hrest⟩ := bind_eq_ok.mp h
  have hmid := length_lt_of_plain hleft
  exact .expr (reads_of_operand hleft) (reads_of_operators hrest)
termination_by (ts.length, 1)

theorem reads_of_operators {level : Nat} {left e : Expr} {ts rest : List Token}
    (h : plain (operators level left ts) = .ok (e, rest)) :
    Reads (.operators level left e) ts rest := by
  cases ts with
  | nil =>
    rw [plain_operators_nil] at h
    cases h
    exact .stop fun op hop => by cases hop
  | cons t ts =>
    rw [plain_operators_cons] at h
    cases hop : binaryOp? t with
    | none =>
      rw [hop] at h
      cases h
      exact .stop fun op hop' => by rw [peek, hop] at hop'; cases hop'
    | some op =>
      rw [hop] at h
      dsimp only at h
      by_cases hlevel : level < op.precedence
      · rw [if_pos hlevel] at h
        obtain ⟨⟨right, mid⟩, hright, hrest⟩ := bind_eq_ok.mp h
        have hmid : mid.length < (t :: ts).length := Nat.lt_succ_of_lt (length_lt_of_plain hright)
        exact .step hop hlevel (reads_of_expr hright) (reads_of_operators hrest)
      · rw [if_neg hlevel] at h
        cases h
        refine .stop fun op' hop' => ?_
        rw [peek, hop] at hop'
        cases hop'
        exact Nat.not_lt.mp hlevel
termination_by (ts.length, 0)

theorem reads_of_operand {ts rest : List Token} {e : Expr}
    (h : plain (operand ts) = .ok (e, rest)) : Reads (.operand e) ts rest := by
  cases ts with
  | nil =>
    rw [plain_operand_nil] at h
    cases h
  | cons t ts =>
    rw [plain_operand_cons] at h
    cases hlead : lead t with
    | literal e' =>
      rw [hlead] at h
      cases h
      exact .literal hlead
    | outOfRange =>
      rw [hlead] at h
      cases h
    | none =>
      rw [hlead] at h
      cases h
    | unary op =>
      rw [hlead] at h
      obtain ⟨⟨e', rest'⟩, he, hrest⟩ := bind_eq_ok.mp h
      cases hrest
      exact .sign hlead (reads_of_operand he)
    | paren =>
      rw [hlead] at h
      obtain ⟨⟨e', mid⟩, he, hmid⟩ := bind_eq_ok.mp h
      obtain ⟨⟨close, rest'⟩, hclose, hrest⟩ := bind_eq_ok.mp hmid
      cases hrest
      obtain ⟨rfl, hkind⟩ := plain_take_eq_ok.mp hclose
      exact .paren hlead (reads_of_expr he) hkind
    | name =>
      rw [hlead] at h
      dsimp only at h
      split at h
      · rename_i mid hnext
        obtain ⟨opening, rfl, hopening⟩ := next?_eq_some.mp hnext
        obtain ⟨⟨es, rest'⟩, hes, hrest⟩ := bind_eq_ok.mp h
        cases hrest
        exact .call hlead (beq_iff_eq.mp hopening) (reads_of_arguments hes)
      · rename_i hnext
        cases h
        exact .name hlead (beq_eq_false_iff_ne.mp ((next?_eq_none fun _ => rfl).mp hnext))
termination_by (ts.length, 0)

theorem reads_of_arguments {ts rest : List Token} {es : List Expr}
    (h : plain (arguments ts) = .ok (es, rest)) : Reads (.arguments es) ts rest := by
  rw [plain_arguments] at h
  split at h
  · rename_i rest' hnext
    obtain ⟨close, rfl, hclose⟩ := next?_eq_some.mp hnext
    cases h
    exact .noArguments (beq_iff_eq.mp hclose)
  · exact .someArguments (reads_of_argumentList h)
termination_by (ts.length, 3)

theorem reads_of_argumentList {ts rest : List Token} {es : List Expr}
    (h : plain (argumentList ts) = .ok (es, rest)) : Reads (.argumentList es) ts rest := by
  rw [plain_argumentList] at h
  obtain ⟨⟨e, mid⟩, he, hmid⟩ := bind_eq_ok.mp h
  have hlength := length_lt_of_plain he
  dsimp only at hmid
  split at hmid
  · rename_i mid' hnext
    obtain ⟨comma, rfl, hcomma⟩ := next?_eq_some.mp hnext
    obtain ⟨⟨es', rest'⟩, hes, hrest⟩ := bind_eq_ok.mp hmid
    cases hrest
    have hshort : mid'.length < ts.length := Nat.lt_of_succ_lt hlength
    exact .argument (reads_of_expr he) (beq_iff_eq.mp hcomma) (reads_of_argumentList hes)
  · obtain ⟨⟨close, rest'⟩, hclose, hrest⟩ := bind_eq_ok.mp hmid
    cases hrest
    obtain ⟨rfl, hkind⟩ := plain_take_eq_ok.mp hclose
    exact .lastArgument (reads_of_expr he) hkind
termination_by (ts.length, 2)

end

/-- An expression is read exactly when the rules allow it. -/
theorem reads_expr_iff {level : Nat} {ts rest : List Token} {e : Expr} :
    Reads (.expr level e) ts rest ↔ plain (expr level ts) = .ok (e, rest) :=
  ⟨Reads.read, reads_of_expr⟩

end SceneScript.Grammar
