import SceneScript.Proofs.Grammar.Viable

/-! Where a list of tokens stops being the beginning of a program. The readers of statements are
viable, so the token at which a program is refused is the first that no program could have there:
the tokens before it begin some program, and the tokens behind it do not matter. -/

namespace SceneScript

namespace Grammar

variable {n : Nat}

/-- The token closes a block or ends the text. -/
def Over (t : Token) : Prop := t.kind = .dedent ∨ t.kind = .eof

theorem Over.calm {t : Token} (h : Over t) : Calm t :=
  h.elim (fun h => calm_of_kind h (by decide)) fun h => calm_of_kind h (by decide)

theorem Over.kind_ne {t : Token} (h : Over t) {kind : TokenKind} (hkind : kind.isLayout = false) :
    t.kind ≠ kind :=
  h.elim (fun h => h ▸ kind_ne_of_isLayout rfl hkind) fun h => h ▸ kind_ne_of_isLayout rfl hkind

theorem Over.isWord {t : Token} (h : Over t) (w : String) : t.isWord w = false :=
  Bool.eq_false_iff.mpr fun hw => h.kind_ne rfl (kind_of_isWord hw)

theorem Over.not_newline {t : Token} (h : Over t) : (t.kind == .newline) = false :=
  beq_eq_false_iff_ne.mpr (h.elim (fun h => by simp [h]) fun h => by simp [h])

theorem ne_eof_of_isWord {w : String} (t : Token) (h : t.isWord w = true) : t.kind ≠ .eof :=
  (kind_of_isWord h).symm ▸ by decide

theorem viable_takeWord (w : String) (what : Wanted) :
    Viable (·.isWord w = true) (fun _ => True) n fun us => plain (takeWord w what us) :=
  .takeIf (·.isWord w) what (t := ⟨.identifier, w, ⟨1, 1⟩⟩) (by simp [Token.isWord])
    ne_eof_of_isWord

theorem viable_takeAssign :
    Viable (·.isOp "=" = true) (fun _ => True) n fun us => plain (takeAssign us) :=
  .takeIf (·.isOp "=") .assignSign (t := ⟨.op, "=", ⟨1, 1⟩⟩) rfl
    fun _ ht => (kind_of_isOp ht).symm ▸ by decide

theorem viable_binding : Viable (·.kind = .identifier) Calm n fun us => plain (binding us) := by
  apply Viable.congr plain_binding
  apply (Viable.take (by decide) _).andThen
  intro name
  apply viable_takeAssign.andThen
  intro _
  exact ((exprViable n).expr 0).returns (fun _ => id) fun _ _ => rfl

theorem viable_range : Viable (·.kind = .identifier) Calm n fun us => plain (range us) := by
  have hexpr := (exprViable n).expr 0
  have hcomma (t : Token) (ht : t.kind = .comma) : Calm t := calm_of_kind ht (by decide)
  apply Viable.congr plain_range
  apply (Viable.take (by decide) _).andThen
  intro name
  apply (viable_takeWord "in" _).andThen
  intro _
  apply (viable_takeWord "range" _).andThen
  intro _
  apply (Viable.take (by decide) _).andThen
  intro _
  apply hexpr.bind _ hcomma fun _ => id
  intro start
  apply (Viable.take (by decide) _).andThen
  intro _
  apply hexpr.bind _ (fun _ => calm_rparen) fun _ => id
  intro stop
  exact (Viable.take (by decide) _).returns (fun _ _ => trivial) fun _ _ => rfl

theorem viable_blockStart :
    Viable (·.kind = .colon) (fun _ => True) n fun us => plain (blockStart us) := by
  apply Viable.congr plain_blockStart
  apply (Viable.take (by decide) _).andThen
  intro _
  apply (Viable.take (by decide) _).andThen
  intro _
  exact (Viable.take (by decide) _).returns (fun _ _ => trivial) fun _ _ => rfl

theorem plain_parameterList_elim (us : List Token) :
    plain (parameterList us) = (do
      let (name, rest) ← plain (take .identifier .parameterName us)
      let (_, rest) ← plain (take .colon .parameterColon rest)
      let (type, rest) ← plain (take .identifier .parameterType rest)
      (next? (·.kind == .comma) rest).elim (.ok ([⟨name.lexeme, type.lexeme⟩], rest))
        fun rest => do
          let (params, rest) ← plain (parameterList rest)
          .ok (⟨name.lexeme, type.lexeme⟩ :: params, rest)) := by
  rw [plain_parameterList]
  congr 1
  funext ⟨name, rest⟩
  dsimp only
  congr 1
  funext ⟨_, rest⟩
  dsimp only
  congr 1
  funext ⟨type, rest⟩
  dsimp only
  cases next? (·.kind == .comma) rest <;> rfl

/-- What may follow a list of parameters. -/
abbrev NoComma (t : Token) : Prop := t.kind ≠ .comma

theorem fills_parameterList :
    Fills (·.kind = .identifier) NoComma fun us => plain (parameterList us) := by
  let name : Token := ⟨.identifier, "", ⟨1, 1⟩⟩
  refine ⟨[name, ⟨.colon, "", ⟨1, 1⟩⟩, name], [⟨"", ""⟩], by simp [Unended, name],
    fun rest hrest => ⟨rfl, ?_⟩⟩
  have hnone := (next?_kind_eq_none (by decide)).mpr hrest
  refine (plain_parameterList_elim _).trans ?_
  refine bind_eq_ok.mpr ⟨(name, _), plain_take_eq_ok.mpr ⟨rfl, rfl⟩, ?_⟩
  refine bind_eq_ok.mpr ⟨(_, _), plain_take_eq_ok.mpr ⟨rfl, rfl⟩, ?_⟩
  refine bind_eq_ok.mpr ⟨(name, _), plain_take_eq_ok.mpr ⟨rfl, rfl⟩, ?_⟩
  show (next? _ rest).elim _ _ = _
  rw [hnone]
  rfl

theorem viable_parameterList (n : Nat) :
    Viable (·.kind = .identifier) NoComma n fun us => plain (parameterList us) := by
  induction n with
  | zero => exact .zero fills_parameterList
  | succ n ih =>
    have hcomma : ∀ t, NoComma t → (t.kind == .comma) = false :=
      fun t ht => beq_eq_false_iff_ne.mpr ht
    apply Viable.congr plain_parameterList_elim
    apply (Viable.take (by decide) _).andThen
    intro name
    apply (Viable.take (by decide) _).andThen
    intro _
    apply (Viable.take (by decide) _).andThen
    intro type
    exact .option (ne_eof_of_kind (by decide)) (Nat.le_refl _)
      (ih.returns (fun _ => id) fun _ _ => rfl) (.pure fun _ => id) hcomma (.inr hcomma)

theorem plain_parameters_elim (us : List Token) :
    plain (parameters us) = (do
      let (_, rest) ← plain (take .lparen .openParen us)
      (next? (·.kind == .rparen) rest).elim
        (do
          let (params, rest) ← plain (parameterList rest)
          let (_, rest) ← plain (take .rparen .closeParen rest)
          .ok (params, rest))
        fun rest => .ok ([], rest)) := by
  rw [plain_parameters]
  congr 1
  funext ⟨_, rest⟩
  dsimp only
  cases next? (·.kind == .rparen) rest <;> rfl

theorem viable_parameters :
    Viable (·.kind = .lparen) NoComma n fun us => plain (parameters us) := by
  apply Viable.congr plain_parameters_elim
  apply (Viable.take (by decide) _).andThen
  intro _
  refine .option (ne_eof_of_kind (by decide)) (Nat.le_succ n) (.pure fun _ => id)
    ((viable_parameterList n).bind
      (fun _ => (Viable.take (by decide) _).returns (fun _ _ => trivial) fun _ _ => rfl)
      (fun _ h => by simp [h]) fun _ => id) (fun t ht => ?_) (.inl ?_)
  · exact beq_eq_false_iff_ne.mpr (by simp [ht])
  · intro params us h
    obtain ⟨⟨_, mid⟩, hlist, h⟩ := bind_eq_ok.mp h
    obtain ⟨⟨_, rest⟩, hclose, hok⟩ := bind_eq_ok.mp h
    cases hok
    have := length_lt_of_plain hlist
    have := length_lt_of_plain hclose
    omega

theorem plain_statementEnd_elim (s : Stmt) (us : List Token) :
    plain (statementEnd s us) = (next? (·.kind == .newline) us).elim
      (if s.endsInBlock || at? .dedent us || at? .eof us then .ok ((), us)
        else .error (missing .lineEnd us)) fun rest => .ok ((), rest) := by
  rw [plain_statementEnd]
  cases next? (·.kind == .newline) us <;> rfl

theorem viable_statementEnd (s : Stmt) :
    Viable Over Over n fun us => plain (statementEnd s us) := by
  refine .congr (plain_statementEnd_elim s) (.option (ne_eof_of_kind (by decide)) (Nat.le_succ n)
    (.pure fun _ => id) ?_ (fun _ => Over.not_newline) (.inr fun _ => Over.not_newline))
  refine .stop (fun t => s.endsInBlock || t.kind == .dedent || t.kind == .eof) ?_ ?_ ?_
  · intro t ht
    obtain ht | ht := ht <;> simp [ht]
  · refine fun ts _ _ => .fail (e := missing .lineEnd ts) rfl fun us hus => ?_
    rw [missing, missing, hus]
  · intro _ ts h
    cases h

theorem plain_simple_assign {t sign : Token} (ht : t.kind = .identifier)
    (hsign : sign.isOp "=" = true) (us : List Token) :
    plain (simple (t :: sign :: us)) = (do
      let (value, rest) ← plain (expr 0 us)
      .ok (.assign t.pos t.lexeme value, rest)) := by
  rw [plain_simple]
  exact if_pos ⟨ht, hsign⟩

theorem plain_simple_expr {us : List Token}
    (h : (peek us).kind = .identifier → (peek us.tail).isOp "=" = false) :
    plain (simple us) = (do
      let (e, rest) ← plain (expr 0 us)
      .ok (.expr (peek us).pos e, rest)) := by
  rw [plain_simple]
  match us with
  | [] => rfl
  | [t] => rfl
  | t :: sign :: rest =>
    exact if_neg fun ⟨ht, hsign⟩ => Bool.false_ne_true ((h ht).symm.trans hsign)

/-- An expression as a statement at a place. -/
theorem viable_expression (pos : Pos) : Viable (·.kind = .string) Calm n fun us => (do
    let (e, rest) ← plain (expr 0 us)
    .ok (Stmt.expr pos e, rest)) :=
  ((exprViable n).expr 0).returns (fun _ => id) fun _ _ => rfl

theorem expression_short {pos : Pos} {us rest : List Token} {s : Stmt} (h : (do
    let (e, rest) ← plain (expr 0 us)
    .ok (Stmt.expr pos e, rest)) = Except.ok (s, rest)) : rest.length < us.length := by
  obtain ⟨⟨e, _⟩, he, hok⟩ := bind_eq_ok.mp h
  cases hok
  exact length_lt_of_plain he

/-- Every name begins some expression. -/
theorem exists_expr_of_identifier {t : Token} (ht : t.kind = .identifier) :
    ∃ us e, plain (expr 0 (t :: us)) = .ok (e, []) := by
  have hstop : ∀ {left : Expr}, Reads (.operators 0 left left) [] [] := .stop nofun
  have hlead : lead t ≠ .none ∧ lead t ≠ .outOfRange ∧ lead t ≠ .paren := by
    unfold lead
    rw [ht]
    dsimp only
    repeat' split
    all_goals simp
  cases h : lead t with
  | none => exact absurd h hlead.1
  | outOfRange => exact absurd h hlead.2.1
  | paren => exact absurd h hlead.2.2
  | literal e => exact ⟨[], _, (Reads.expr (.literal h) hstop).read⟩
  | name => exact ⟨[], _, (Reads.expr (.name h (by decide)) hstop).read⟩
  | unary op =>
    let u : Token := ⟨.string, "", ⟨1, 1⟩⟩
    exact ⟨[u], _, (Reads.expr (.sign h (.literal (t := u) rfl)) hstop).read⟩

/-- Behind a name that begins a statement, the sign of an assignment decides. -/
theorem viable_behind_name {t : Token} (ht : t.kind = .identifier) :
    Viable (·.isOp "=" = true) Calm n fun us => plain (simple (t :: us)) := by
  have hend : t.kind ≠ .eof := ht ▸ by decide
  let sign : Token := ⟨.op, "=", ⟨1, 1⟩⟩
  refine ⟨?_, fun us hus => ?_⟩
  · obtain ⟨more, e, hmore, hread⟩ := fills_expr 0
    refine ⟨sign :: more, .assign t.pos t.lexeme e, by simpa [Unended, sign] using hmore,
      fun rest hrest => ⟨rfl, ?_⟩⟩
    have hassign := plain_simple_assign ht (rfl : sign.isOp "=" = true) (more ++ rest)
    exact hassign.trans (bind_eq_ok.mpr ⟨_, (hread rest hrest).2, rfl⟩)
  · cases hsign : (peek us).isOp "=" with
    | true =>
      cases us with
      | nil => cases hsign
      | cons sign us =>
        exact .cons ((kind_of_isOp hsign).symm ▸ by decide) (plain_simple_assign ht hsign)
          (((exprViable n).expr 0).returns (fun _ => id) fun _ _ => rfl)
          (Nat.lt_of_succ_lt hus)
    | false =>
      -- An expression, and not refused at its name: some expression begins with that.
      obtain ⟨vs, e, hvs⟩ := exists_expr_of_identifier ht
      have hbehind := ((viable_expression t.pos).viable (t :: us) (Nat.lt_succ_self _)).uncons hend
        (fun s h => Nat.lt_irrefl _ (expression_short h)) (bind_eq_ok.mpr ⟨_, hvs, rfl⟩)
      refine hbehind.of_head (fun vs hvs => ?_) (.inr fun vs hvs => ?_)
      · exact plain_simple_expr fun _ => hvs ▸ hsign
      · exact plain_simple_expr fun _ => Bool.eq_false_iff.mpr fun h => hvs.1 (kind_of_isOp h)

theorem viable_simple : Viable (·.kind = .string) Calm n fun us => plain (simple us) := by
  refine ⟨?_, fun ts hts => ?_⟩
  · let u : Token := ⟨.string, "", ⟨1, 1⟩⟩
    refine ⟨[u], .expr u.pos (.str u.pos ""), by simp [Unended, u], fun rest hrest => ⟨rfl, ?_⟩⟩
    have hsimple := plain_simple_expr (fun h : (peek (u :: rest)).kind = _ => by cases h)
    refine hsimple.trans (bind_eq_ok.mpr ⟨(.str u.pos "", rest), ?_, rfl⟩)
    rw [plain_expr]
    exact bind_eq_ok.mpr ⟨_, (Reads.literal (t := u) rfl).read, operators_calm 0 _ hrest⟩
  · by_cases hname : (peek ts).kind = .identifier
    · cases ts with
      | nil => cases hname
      | cons t ts =>
        exact .cons ((show t.kind = .identifier from hname) ▸ by decide) (fun _ => rfl)
          (viable_behind_name hname) (Nat.lt_of_succ_lt hts)
    · refine ((viable_expression (peek ts).pos).viable ts hts).of_head (fun us hus => ?_)
        (.inl fun s h => Nat.lt_irrefl _ (expression_short h))
      rw [← hus]
      exact plain_simple_expr fun h => absurd (hus ▸ h) hname

/-- The readers of statements on lists of fewer than `n` tokens. -/
structure StmtViable (n : Nat) : Prop where
  statement : Viable (·.kind = .string) Over n fun us => plain (statement us)
  alternatives : Viable Over Over n fun us => plain (alternatives us)
  block : Viable (·.kind = .colon) Over n fun us => plain (block us)
  blockBody : Viable Over Over n fun us => plain (blockBody us)

theorem plain_statement_simple {us : List Token} (h : keyword? (peek us) = none) :
    plain (statement us) = plain (simple us) := by
  cases us with
  | nil => exact plain_statement_nil
  | cons t us =>
    rw [plain_statement_cons, show keyword? t = none from h]

theorem fills_statement : Fills (·.kind = .string) Over fun us => plain (statement us) := by
  obtain ⟨more, s, hmore, hread⟩ := (viable_simple (n := 0)).fills
  refine ⟨more, s, hmore, fun rest hrest => ?_⟩
  obtain ⟨hfirst, hread⟩ := hread rest hrest.calm
  refine ⟨hfirst, (plain_statement_simple ?_).trans hread⟩
  exact if_neg (by simp [hfirst])

theorem calm_colon {t : Token} (h : t.kind = .colon) : Calm t := calm_of_kind h (by decide)

theorem viableAt_statement (ih : StmtViable n) {ts : List Token} (hts : ts.length < n + 1) :
    ViableAt Over (fun us => plain (statement us)) ts := by
  have hexpr := (exprViable n).expr 0
  cases hkeyword : keyword? (peek ts) with
  | none =>
    have hsimple := (viable_simple.viable ts hts).mono fun _ => Over.calm
    refine hsimple.of_head (fun us hus => plain_statement_simple (hus ▸ hkeyword)) (.inl ?_)
    exact fun s h => Nat.lt_irrefl _ (length_lt_of_plain h)
  | some k =>
    cases ts with
    | nil => cases hkeyword
    | cons t ts =>
      have ht : t.kind ≠ .eof := ne_eof_of_isWord t (keyword?_eq_some.mp hkeyword)
      have hlt : ts.length < n := Nat.lt_of_succ_lt_succ hts
      have hcons := plain_statement_cons t
      rw [show keyword? t = some k from hkeyword] at hcons
      cases k with
      | var | «let» =>
        exact .cons ht hcons (viable_binding.returns (fun _ => Over.calm) fun _ _ => rfl) hlt
      | cond =>
        refine .cons ht hcons (?_ : Viable (·.kind = .string) Over n _) hlt
        apply hexpr.bind _ (fun _ => calm_colon) fun _ => Over.calm
        intro test
        apply ih.block.bind _ (fun _ => id) fun _ => id
        intro body
        exact ih.alternatives.returns (fun _ => id) fun _ _ => rfl
      | loop =>
        refine .cons ht hcons (?_ : Viable (·.kind = .identifier) Over n _) hlt
        apply viable_range.bind _ (fun _ => calm_colon) fun _ => Over.calm
        intro bounds
        exact ih.block.returns (fun _ => id) fun _ _ => rfl
      | proc =>
        have hcolon (t : Token) (ht : t.kind = .colon) : NoComma t := by simp [ht]
        refine .cons ht hcons (?_ : Viable (·.kind = .identifier) Over n _) hlt
        apply (Viable.take (by decide) _).andThen
        intro name
        apply viable_parameters.bind _ hcolon fun _ h => h.kind_ne rfl
        intro params
        exact ih.block.returns (fun _ => id) fun _ _ => rfl
      | ret =>
        exact .cons ht hcons (hexpr.returns (fun _ => Over.calm) fun _ _ => rfl) hlt

theorem plain_alternatives_elim (us : List Token) :
    plain (alternatives us) = (next? (·.isWord "elif") us).elim
      ((next? (·.isWord "else") us).elim (.ok (.none, us)) fun rest => (do
        let (body, rest) ← plain (block rest)
        .ok (.otherwise body, rest)))
      fun rest => (do
        let (test, rest) ← plain (expr 0 rest)
        let (body, rest) ← plain (block rest)
        let (alternative, rest) ← plain (alternatives rest)
        .ok (.elif test body alternative, rest)) := by
  rw [plain_alternatives]
  cases next? (·.isWord "elif") us with
  | some rest => rfl
  | none => cases next? (·.isWord "else") us <;> rfl

theorem fills_alternatives : Fills Over Over fun us => plain (alternatives us) := by
  refine ⟨[], .none, List.forall_mem_nil _, fun rest hrest => ⟨hrest, ?_⟩⟩
  refine (plain_alternatives_elim rest).trans ?_
  rw [next?_word_eq_none.mpr (hrest.isWord _), next?_word_eq_none.mpr (hrest.isWord _)]
  rfl

theorem viable_alternatives {m : Nat} (hm : n ≤ m + 1)
    (hblock : Viable (·.kind = .colon) Over m fun us => plain (block us))
    (halternatives : Viable Over Over m fun us => plain (alternatives us)) :
    Viable Over Over n fun us => plain (alternatives us) := by
  refine .congr plain_alternatives_elim (.option ne_eof_of_isWord hm
    (((exprViable m).expr 0).bind (fun _ => hblock.bind
      (fun _ => halternatives.returns (fun _ => id) fun _ _ => rfl)
      (fun _ => id) fun _ => id) (fun _ => calm_colon) fun _ => Over.calm)
    ?_ (fun _ h => h.isWord _) (.inr fun _ h => h.isWord _))
  exact .option ne_eof_of_isWord hm
    (hblock.returns (fun _ => id) fun _ _ => rfl) (.pure fun _ => id)
    (fun _ h => h.isWord _) (.inr fun _ h => h.isWord _)

theorem viable_block {m : Nat} (hm : n ≤ m + 1)
    (hbody : Viable Over Over m fun us => plain (blockBody us)) :
    Viable (·.kind = .colon) Over n fun us => plain (block us) := by
  apply Viable.congr plain_block
  refine viable_blockStart.bind_short hm (fun _ => (?_ : Viable Over Over m _))
    (fun _ _ => trivial) (fun _ _ => trivial) fun _ _ _ => length_lt_of_plain
  apply hbody.bind _ (fun _ => .inl) fun _ => id
  intro body
  exact (Viable.take (by decide) _).returns (fun _ _ => trivial) fun _ _ => rfl

theorem plain_blockBody_elim (us : List Token) :
    plain (blockBody us) = (next? (·.kind == .newline) us).elim
      (if at? .dedent us || at? .eof us then .ok ([], us)
        else (do
          let (s, rest) ← plain (statement us)
          let (_, rest) ← plain (statementEnd s rest)
          let (body, rest) ← plain (blockBody rest)
          .ok (s :: body, rest)))
      fun rest => plain (blockBody rest) := by
  rw [plain_blockBody]
  cases next? (·.kind == .newline) us <;> rfl

theorem fills_blockBody : Fills Over Over fun us => plain (blockBody us) := by
  refine ⟨[], [], List.forall_mem_nil _, fun rest hrest => ⟨hrest, ?_⟩⟩
  have hnewline : next? (·.kind == .newline) rest = none :=
    (next?_kind_eq_none (by decide)).mpr (beq_eq_false_iff_ne.mp hrest.not_newline)
  refine (plain_blockBody_elim rest).trans ?_
  rw [hnewline, Option.elim_none]
  exact if_pos (by rw [Bool.or_eq_true, at?_iff, at?_iff]; exact hrest)

theorem viable_blockBody {m : Nat} (hm : n ≤ m + 1)
    (hstatement : Viable (·.kind = .string) Over n fun us => plain (statement us))
    (hbody : Viable Over Over m fun us => plain (blockBody us)) :
    Viable Over Over n fun us => plain (blockBody us) := by
  refine .congr plain_blockBody_elim (.option (ne_eof_of_kind (by decide)) hm hbody
    (.stop (fun t => t.kind == .dedent || t.kind == .eof) (fun t ht => ?_) (fun ts hts _ => ?_) ?_)
    (fun _ => Over.not_newline) (.inr fun _ => Over.not_newline))
  · obtain ht | ht := ht <;> simp [ht]
  · refine Viable.viable (?_ : Viable (·.kind = .string) Over n _) ts hts
    exact hstatement.bind_short hm
      (fun s => (viable_statementEnd s).bind
        (fun _ => hbody.returns (fun _ => id) fun _ _ => rfl)
        (fun _ => id) fun _ => id)
      (fun _ => id) (fun _ => id) fun _ _ _ => length_lt_of_plain
  · intro _ ts h
    obtain ⟨⟨s, mid⟩, hs, h⟩ := bind_eq_ok.mp h
    obtain ⟨⟨_, behind⟩, hend, h⟩ := bind_eq_ok.mp h
    obtain ⟨⟨_, rest⟩, hrest, hok⟩ := bind_eq_ok.mp h
    cases hok
    have := length_lt_of_plain hs
    have := length_lt_of_plain hend
    have := length_lt_of_plain hrest
    omega

theorem stmtViable (n : Nat) : StmtViable n := by
  induction n with
  | zero =>
    exact ⟨.zero fills_statement, .zero fills_alternatives,
      viable_block (Nat.zero_le _) (.zero fills_blockBody), .zero fills_blockBody⟩
  | succ n ih =>
    have hstatement : Viable (·.kind = .string) Over (n + 1) fun us => plain (statement us) :=
      ⟨fills_statement, fun _ => viableAt_statement ih⟩
    exact ⟨hstatement, viable_alternatives (Nat.le_refl _) ih.block ih.alternatives,
      viable_block (Nat.le_refl _) ih.blockBody,
      viable_blockBody (Nat.le_refl _) hstatement ih.blockBody⟩

/-! Programs. -/

/-- A statement with what ends it. -/
def item : Reader Stmt := fun us => do
  let (s, rest) ← plain (statement us)
  let (_, rest) ← plain (statementEnd s rest)
  .ok (s, rest)

theorem viable_item : Viable (·.kind = .string) Over n item :=
  (stmtViable n).statement.bind
    (fun s => (viable_statementEnd s).returns (fun _ => id) fun _ _ => rfl)
    (fun _ => id) fun _ => id

theorem item_short {us rest : List Token} {s : Stmt} (h : item us = .ok (s, rest)) :
    rest.length < us.length := by
  obtain ⟨⟨_, mid⟩, hs, h⟩ := bind_eq_ok.mp h
  obtain ⟨⟨_, _⟩, hend, hok⟩ := bind_eq_ok.mp h
  cases hok
  have := length_lt_of_plain hs
  have := length_lt_of_plain hend
  omega

theorem statements_eof {t : Token} (ht : t.kind = .eof) (us : List Token) :
    statements (t :: us) = .ok [] := by
  have hline : (peek (t :: us)).kind ≠ .newline := by simp [peek, ht]
  rw [statements_eq, (next?_kind_eq_none (by decide)).mpr hline]
  exact if_pos (beq_iff_eq.mpr ht)

theorem statements_item {us : List Token} (hline : (peek us).kind ≠ .newline)
    (hend : (peek us).kind ≠ .eof) :
    statements us = item us >>= fun x => statements x.2 >>= fun body => .ok (x.1 :: body) := by
  rw [statements_eq, (next?_kind_eq_none (by decide)).mpr hline]
  dsimp only
  rw [if_neg fun h => hend (at?_iff.mp h), item]
  cases plain (statement us) with
  | error e => rfl
  | ok x =>
    obtain ⟨s, rest⟩ := x
    show (plain (statementEnd s rest) >>= _) = ((plain (statementEnd s rest) >>= _) >>= _)
    cases plain (statementEnd s rest) <;> rfl

/-- The tokens are refused as a program at a token behind which no token matters. If there are some
before it, those begin a program. -/
def Refuses (ts : List Token) (e : ParseError) : Prop :=
  ∃ before rest, ts = before ++ e.token :: rest ∧
    (∀ rest', statements (before ++ e.token :: rest') = .error e) ∧
    (before ≠ [] → ∃ more p, Unended more ∧
      ∀ stop : Token, stop.kind = .eof → statements (before ++ (more ++ [stop])) = .ok p)

namespace Refuses

variable {t : Token} {us : List Token} {e : ParseError}

theorem newline (ht : t.kind = .newline) (h : Refuses us e) : Refuses (t :: us) e := by
  obtain ⟨before, rest, rfl, hfail, hcompletes⟩ := h
  refine ⟨t :: before, rest, rfl, fun rest' => (statements_newline ht _).trans (hfail rest'), ?_⟩
  intro _
  by_cases hne : before = []
  · subst hne
    exact ⟨[], [], List.forall_mem_nil _, fun stop hstop =>
      (statements_newline ht _).trans (statements_eof hstop [])⟩
  · obtain ⟨more, p, hmore, hread⟩ := hcompletes hne
    exact ⟨more, p, hmore, fun stop hstop => (statements_newline ht _).trans (hread stop hstop)⟩

variable (hline : (peek us).kind ≠ .newline) (hend : (peek us).kind ≠ .eof)
include hline hend

theorem of_item (hus : Token.Ended us) (h : item us = .error e) : Refuses us e := by
  obtain ⟨before, rest, rfl, hfail, hcompletes⟩ :=
    (viable_item.viable us (Nat.lt_succ_self _)).error e hus h
  refine ⟨before, rest, rfl, fun rest' => ?_, fun hne => ?_⟩
  · have hpeek := peek_append_cons before e.token rest' rest
    rw [statements_item (hpeek ▸ hline) (hpeek ▸ hend), hfail]
    rfl
  · obtain ⟨more, s, hmore, hread⟩ := hcompletes hne
    refine ⟨more, [s], hmore, fun stop hstop => ?_⟩
    have hpeek := peek_append hne (more ++ [stop]) (e.token :: rest)
    rw [statements_item (hpeek ▸ hline) (hpeek ▸ hend), hread [stop] (.inr hstop)]
    show (statements [stop] >>= fun body => Except.ok (s :: body)) = .ok [s]
    rw [statements_eof hstop]
    rfl

theorem behind_item {s : Stmt} {mid : List Token} (hs : item us = .ok (s, mid))
    (h : Refuses mid e) : Refuses us e := by
  obtain ⟨seg, rfl, hseg, hread⟩ := (viable_item.viable us (Nat.lt_succ_self _)).ok s mid hs
  have hne : seg ≠ [] := by
    rintro rfl
    exact Nat.lt_irrefl _ (item_short hs)
  have hitem : ∀ vs, peek vs = peek mid ∨ Over (peek vs) →
      statements (seg ++ vs) = statements vs >>= fun body => .ok (s :: body) := by
    intro vs hvs
    have hpeek := peek_append hne vs mid
    rw [statements_item (hpeek ▸ hline) (hpeek ▸ hend), hread vs hvs]
    rfl
  obtain ⟨before, rest, rfl, hfail, hcompletes⟩ := h
  refine ⟨seg ++ before, rest, by simp, fun rest' => ?_, fun _ => ?_⟩
  · rw [List.append_assoc, hitem _ (.inl (peek_append_cons before _ _ _)), hfail]
    rfl
  · by_cases hbefore : before = []
    · subst hbefore
      refine ⟨[], [s], List.forall_mem_nil _, fun stop hstop => ?_⟩
      rw [List.append_nil, List.nil_append, hitem [stop] (.inr (.inr hstop)), statements_eof hstop]
      rfl
    · obtain ⟨more, p, hmore, hread⟩ := hcompletes hbefore
      refine ⟨more, s :: p, hmore, fun stop hstop => ?_⟩
      rw [List.append_assoc, hitem _ (.inl (peek_append hbefore _ _)), hread stop hstop]
      rfl

end Refuses

theorem refuses_of_statements {ts : List Token} (hts : Token.Ended ts) {e : ParseError}
    (h : statements ts = .error e) : Refuses ts e := by
  match ts with
  | [] => exact hts.elim
  | t :: ts =>
    by_cases hline : t.kind = .newline
    · have hrest : Token.Ended ts := (Passes.cons hline (by decide) (.refl ts)).ended hts
      rw [statements_newline hline] at h
      exact .newline hline (refuses_of_statements hrest h)
    · by_cases hend : t.kind = .eof
      · rw [statements_eof hend] at h
        cases h
      · rw [statements_item (show (peek (t :: ts)).kind ≠ .newline from hline) hend] at h
        obtain hitem | ⟨⟨s, mid⟩, hs, hmid⟩ := bind_eq_error.mp h
        · exact .of_item hline hend hts hitem
        · have hshort := item_short hs
          obtain hmid | ⟨_, _, hok⟩ := bind_eq_error.mp hmid
          · obtain ⟨seg, heq, hseg, -⟩ :=
              (viable_item.viable (t :: ts) (Nat.lt_succ_self _)).ok s mid hs
            have hrest : Token.Ended mid := (heq ▸ hts).of_append hseg
            exact .behind_item hline hend hs (refuses_of_statements hrest hmid)
          · cases hok
termination_by ts.length
decreasing_by
  · exact Nat.lt_succ_self _
  · exact hshort

end Grammar

open Grammar

theorem Token.Ended.unended {before rest : List Token} {t : Token}
    (h : Token.Ended (before ++ t :: rest)) : Unended before := by
  induction before with
  | nil => exact List.forall_mem_nil _
  | cons u before ih =>
    cases hrest : before ++ t :: rest with
    | nil => simp at hrest
    | cons v vs =>
      rw [List.cons_append, hrest] at h
      exact List.forall_mem_cons.mpr ⟨h.1, ih (hrest ▸ h.2)⟩

/-- Tokens that are no program are refused at the first of them that no program could have there:
whatever follows it, the failure is the same, and the tokens before it begin a program. The failure
is told with the words and the place of that token. -/
theorem Program.ofTokens_refused {ts : List Token} (hts : Token.Ended ts) {e : ParseError}
    (h : Program.ofTokens ts = .error e) :
    ∃ k t, ts[k]? = some t ∧
      (ScriptError.parse e).report = .parse e.cause.reason t.shown t.pos ∧
      (∀ us, us.take (k + 1) = ts.take (k + 1) → Program.ofTokens us = .error e) ∧
      ∃ more p, Token.Ended (ts.take k ++ more) ∧ Program.ofTokens (ts.take k ++ more) = .ok p := by
  obtain ⟨before, rest, rfl, hfail, hcompletes⟩ := refuses_of_statements hts h
  refine ⟨before.length, e.token, by simp, rfl, fun us hus => ?_, ?_⟩
  · have hsplit := List.take_append_drop (before.length + 1) us
    rw [hus, List.take_length_add_append, List.append_assoc] at hsplit
    rw [← hsplit]
    exact hfail _
  · have hstop : Token.Ended [Token.eof ⟨1, 1⟩] := rfl
    rw [List.take_left]
    by_cases hne : before = []
    · subst hne
      exact ⟨[.eof ⟨1, 1⟩], [], hstop, statements_eof rfl []⟩
    · obtain ⟨more, p, hmore, hread⟩ := hcompletes hne
      refine ⟨more ++ [.eof ⟨1, 1⟩], p, ?_, hread _ rfl⟩
      rw [← List.append_assoc]
      exact Token.Ended.append (hts.unended.append hmore) hstop

/-- A call in a block that is not closed before its line ends. -/
theorem Program.ofTokens_refused_unclosed :
    let ts : List Token := [⟨.identifier, "if", ⟨1, 1⟩⟩, ⟨.identifier, "a", ⟨1, 4⟩⟩,
      ⟨.colon, ":", ⟨1, 5⟩⟩, .newline ⟨1, 6⟩, .indent ⟨2, 3⟩, ⟨.identifier, "b", ⟨2, 3⟩⟩,
      ⟨.op, "=", ⟨2, 5⟩⟩, ⟨.identifier, "f", ⟨2, 7⟩⟩, ⟨.lparen, "(", ⟨2, 8⟩⟩,
      ⟨.string, "x", ⟨2, 9⟩⟩, .newline ⟨2, 12⟩, .dedent ⟨3, 1⟩, .eof ⟨3, 1⟩]
    let e : ParseError := ⟨.expected .closeParen, .newline ⟨2, 12⟩⟩
    Token.Ended ts ∧ Program.ofTokens ts = .error e ∧
      ∃ k t, ts[k]? = some t ∧
        (ScriptError.parse e).report = .parse e.cause.reason t.shown t.pos ∧
        (∀ us, us.take (k + 1) = ts.take (k + 1) → Program.ofTokens us = .error e) ∧
        ∃ more p, Token.Ended (ts.take k ++ more) ∧
          Program.ofTokens (ts.take k ++ more) = .ok p := by
  intro ts e
  have hts : Token.Ended ts := by decide
  have he : Program.ofTokens ts = .error e := by cbv
  exact ⟨hts, he, Program.ofTokens_refused hts he⟩

end SceneScript
