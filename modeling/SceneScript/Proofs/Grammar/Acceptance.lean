import SceneScript.Proofs.Grammar.Derivation

/-! The readers of statements accept exactly what the grammar derives. Each reader is met by the
rules of the phrase it reads, in both directions, and a derivation takes no end token, so the end
of the text stays where it was. -/

namespace SceneScript.Grammar

theorem keyword?_eq_some {t : Token} {k : Keyword} :
    keyword? t = some k ↔ t.isWord k.word = true := by
  unfold keyword? Token.isWord
  rw [Bool.and_eq_true, beq_iff_eq, beq_iff_eq]
  by_cases hkind : t.kind = .identifier
  · rw [if_pos hkind]
    constructor
    · intro h
      refine ⟨hkind, ?_⟩
      split at h <;> cases h <;> assumption
    · rintro ⟨-, h⟩
      rw [h]
      cases k <;> rfl
  · rw [if_neg hkind]
    constructor
    · intro h
      cases h
    · rintro ⟨h, -⟩
      exact absurd h hkind

theorem keyword?_of_isWord (k : Keyword) {t : Token} (h : t.isWord k.word = true) :
    keyword? t = some k := keyword?_eq_some.mpr h

theorem keyword?_eq_none {t : Token} :
    keyword? t = none ↔ ∀ k : Keyword, t.isWord k.word = false := by
  constructor
  · intro h k
    cases hk : t.isWord k.word with
    | false => rfl
    | true =>
      rw [keyword?_eq_some.mpr hk] at h
      cases h
  · intro h
    cases hk : keyword? t with
    | none => rfl
    | some k =>
      rw [keyword?_eq_some, h k] at hk
      cases hk

theorem kind_of_isWord {t : Token} {w : String} (h : t.isWord w = true) :
    t.kind = .identifier := by
  unfold Token.isWord at h
  rw [Bool.and_eq_true, beq_iff_eq] at h
  exact h.1

theorem kind_of_isOp {t : Token} {w : String} (h : t.isOp w = true) : t.kind = .op := by
  unfold Token.isOp at h
  rw [Bool.and_eq_true, beq_iff_eq] at h
  exact h.1

theorem plain_takeWord_eq_ok {word : String} {what : Wanted} {ts rest : List Token} {t : Token} :
    plain (takeWord word what ts) = .ok (t, rest) ↔ ts = t :: rest ∧ t.isWord word = true :=
  plain_takeIf_eq_ok

theorem plain_takeAssign_eq_ok {ts rest : List Token} {t : Token} :
    plain (takeAssign ts) = .ok (t, rest) ↔ ts = t :: rest ∧ t.isOp "=" = true :=
  plain_takeIf_eq_ok

/-! What each reader accepts, step by step. -/

theorem plain_binding_eq_ok {ts rest : List Token} {name : String} {init : Expr} :
    plain (binding ts) = .ok ((name, init), rest) ↔
      ∃ t sign ts', ts = t :: sign :: ts' ∧ t.kind = .identifier ∧ sign.isOp "=" = true ∧
        t.lexeme = name ∧ IsExpr init ts' rest := by
  rw [plain_binding]
  constructor
  · intro h
    obtain ⟨⟨t, afterName⟩, hname, h⟩ := bind_eq_ok.mp h
    obtain ⟨⟨sign, afterSign⟩, hsign, h⟩ := bind_eq_ok.mp h
    obtain ⟨⟨e, rest'⟩, hinit, h⟩ := bind_eq_ok.mp h
    cases h
    obtain ⟨rfl, hkind⟩ := plain_take_eq_ok.mp hname
    obtain ⟨rfl, hop⟩ := plain_takeAssign_eq_ok.mp hsign
    exact ⟨t, sign, afterSign, rfl, hkind, hop, rfl, hinit⟩
  · rintro ⟨t, sign, ts', rfl, hkind, hop, rfl, hinit⟩
    refine bind_eq_ok.mpr ⟨(t, sign :: ts'), plain_take_eq_ok.mpr ⟨rfl, hkind⟩, ?_⟩
    refine bind_eq_ok.mpr ⟨(sign, ts'), plain_takeAssign_eq_ok.mpr ⟨rfl, hop⟩, ?_⟩
    exact bind_eq_ok.mpr ⟨(init, rest), hinit, rfl⟩

/-- What is declared is read as a binding, whichever statement `f` is made of it. -/
theorem declaration_eq_ok (f : String → Expr → Stmt) {ts rest : List Token} {s : Stmt} :
    (plain (binding ts) >>= fun r => .ok (f r.1.1 r.1.2, r.2)) = .ok (s, rest) ↔
      ∃ name sign init ts', ts = name :: sign :: ts' ∧ name.kind = .identifier ∧
        sign.isOp "=" = true ∧ IsExpr init ts' rest ∧ s = f name.lexeme init := by
  constructor
  · intro h
    obtain ⟨⟨⟨_, init⟩, _⟩, hbinding, h⟩ := bind_eq_ok.mp h
    cases h
    obtain ⟨name, sign, ts', rfl, hname, hsign, rfl, hinit⟩ := plain_binding_eq_ok.mp hbinding
    exact ⟨name, sign, init, ts', rfl, hname, hsign, hinit, rfl⟩
  · rintro ⟨name, sign, init, ts', rfl, hname, hsign, hinit, rfl⟩
    exact bind_eq_ok.mpr ⟨((name.lexeme, init), rest),
      plain_binding_eq_ok.mpr ⟨name, sign, ts', rfl, hname, hsign, rfl, hinit⟩, rfl⟩

theorem plain_range_eq_ok {ts rest : List Token} {name : String} {start stop : Expr} :
    plain (range ts) = .ok ((name, start, stop), rest) ↔
      ∃ t inWord rangeWord opening comma close ts' afterComma,
        ts = t :: inWord :: rangeWord :: opening :: ts' ∧ t.kind = .identifier ∧ t.lexeme = name ∧
        inWord.isWord "in" = true ∧ rangeWord.isWord "range" = true ∧ opening.kind = .lparen ∧
        IsExpr start ts' (comma :: afterComma) ∧ comma.kind = .comma ∧
        IsExpr stop afterComma (close :: rest) ∧ close.kind = .rparen := by
  rw [plain_range]
  constructor
  · intro h
    obtain ⟨⟨t, _⟩, nameTaken, h⟩ := bind_eq_ok.mp h
    obtain ⟨⟨inWord, _⟩, inTaken, h⟩ := bind_eq_ok.mp h
    obtain ⟨⟨rangeWord, _⟩, rangeTaken, h⟩ := bind_eq_ok.mp h
    obtain ⟨⟨opening, ts'⟩, openingTaken, h⟩ := bind_eq_ok.mp h
    obtain ⟨⟨start', _⟩, hstart, h⟩ := bind_eq_ok.mp h
    obtain ⟨⟨comma, afterComma⟩, commaTaken, h⟩ := bind_eq_ok.mp h
    obtain ⟨⟨stop', _⟩, hstop, h⟩ := bind_eq_ok.mp h
    obtain ⟨⟨close, rest'⟩, closeTaken, h⟩ := bind_eq_ok.mp h
    cases h
    obtain ⟨rfl, hname⟩ := plain_take_eq_ok.mp nameTaken
    obtain ⟨rfl, hin⟩ := plain_takeWord_eq_ok.mp inTaken
    obtain ⟨rfl, hrange⟩ := plain_takeWord_eq_ok.mp rangeTaken
    obtain ⟨rfl, hopening⟩ := plain_take_eq_ok.mp openingTaken
    obtain ⟨rfl, hcomma⟩ := plain_take_eq_ok.mp commaTaken
    obtain ⟨rfl, hclose⟩ := plain_take_eq_ok.mp closeTaken
    exact ⟨t, inWord, rangeWord, opening, comma, close, ts', afterComma, rfl, hname, rfl, hin,
      hrange, hopening, hstart, hcomma, hstop, hclose⟩
  · rintro ⟨t, inWord, rangeWord, opening, comma, close, ts', afterComma, rfl, hname, rfl, hin,
      hrange, hopening, hstart, hcomma, hstop, hclose⟩
    refine bind_eq_ok.mpr ⟨(t, _), plain_take_eq_ok.mpr ⟨rfl, hname⟩, ?_⟩
    refine bind_eq_ok.mpr ⟨(inWord, _), plain_takeWord_eq_ok.mpr ⟨rfl, hin⟩, ?_⟩
    refine bind_eq_ok.mpr ⟨(rangeWord, _), plain_takeWord_eq_ok.mpr ⟨rfl, hrange⟩, ?_⟩
    refine bind_eq_ok.mpr ⟨(opening, ts'), plain_take_eq_ok.mpr ⟨rfl, hopening⟩, ?_⟩
    refine bind_eq_ok.mpr ⟨(start, _), hstart, ?_⟩
    refine bind_eq_ok.mpr ⟨(comma, afterComma), plain_take_eq_ok.mpr ⟨rfl, hcomma⟩, ?_⟩
    refine bind_eq_ok.mpr ⟨(stop, _), hstop, ?_⟩
    exact bind_eq_ok.mpr ⟨(close, rest), plain_take_eq_ok.mpr ⟨rfl, hclose⟩, rfl⟩

theorem plain_blockStart_eq_ok {ts rest : List Token} :
    plain (blockStart ts) = .ok ((), rest) ↔
      ∃ colon line opening, ts = colon :: line :: opening :: rest ∧ colon.kind = .colon ∧
        line.kind = .newline ∧ opening.kind = .indent := by
  rw [plain_blockStart]
  constructor
  · intro h
    obtain ⟨⟨colon, _⟩, colonTaken, h⟩ := bind_eq_ok.mp h
    obtain ⟨⟨line, _⟩, lineTaken, h⟩ := bind_eq_ok.mp h
    obtain ⟨⟨opening, _⟩, openingTaken, h⟩ := bind_eq_ok.mp h
    cases h
    obtain ⟨rfl, hcolon⟩ := plain_take_eq_ok.mp colonTaken
    obtain ⟨rfl, hline⟩ := plain_take_eq_ok.mp lineTaken
    obtain ⟨rfl, hopening⟩ := plain_take_eq_ok.mp openingTaken
    exact ⟨colon, line, opening, rfl, hcolon, hline, hopening⟩
  · rintro ⟨colon, line, opening, rfl, hcolon, hline, hopening⟩
    refine bind_eq_ok.mpr ⟨(colon, _), plain_take_eq_ok.mpr ⟨rfl, hcolon⟩, ?_⟩
    refine bind_eq_ok.mpr ⟨(line, _), plain_take_eq_ok.mpr ⟨rfl, hline⟩, ?_⟩
    exact bind_eq_ok.mpr ⟨(opening, rest), plain_take_eq_ok.mpr ⟨rfl, hopening⟩, rfl⟩

theorem next?_kind_eq_none {kind : TokenKind} {ts : List Token} (h : kind ≠ .eof) :
    next? (·.kind == kind) ts = none ↔ (peek ts).kind ≠ kind := by
  refine (next?_eq_none fun p => ?_).trans beq_eq_false_iff_ne
  exact beq_eq_false_iff_ne.mpr h.symm

theorem next?_word_eq_none {w : String} {ts : List Token} :
    next? (·.isWord w) ts = none ↔ (peek ts).isWord w = false :=
  next?_eq_none fun _ => rfl

theorem at?_iff {kind : TokenKind} {ts : List Token} :
    at? kind ts = true ↔ (peek ts).kind = kind := beq_iff_eq

theorem ends_of_statementEnd {s : Stmt} {ts rest : List Token} (hne : ts ≠ [])
    (h : plain (statementEnd s ts) = .ok ((), rest)) : Ends s ts rest := by
  rw [plain_statementEnd] at h
  split at h
  · rename_i rest' hnext
    obtain ⟨t, rfl, ht⟩ := next?_eq_some.mp hnext
    cases h
    exact .newline (beq_iff_eq.mp ht)
  · split at h
    · rename_i hstop
      cases h
      rw [Bool.or_eq_true, Bool.or_eq_true, at?_iff, at?_iff, or_assoc] at hstop
      rcases hstop with hblock | hstop
      · exact .closed hblock
      · cases ts with
        | nil => exact absurd rfl hne
        | cons t ts => exact .before hstop
    · cases h

/-- A statement that ends is seen to end. Only the close of its own block may leave the end of a
line that the reader takes too. -/
theorem Ends.statementEnd {s : Stmt} {ts rest : List Token} (h : Ends s ts rest) :
    ∃ rest', plain (statementEnd s ts) = .ok ((), rest') ∧
      (rest = rest' ∨ ∃ t, t.kind = .newline ∧ rest = t :: rest') := by
  rw [plain_statementEnd]
  cases h with
  | @newline t rest ht =>
    have hnext : next? (·.kind == .newline) (t :: rest) = some rest :=
      next?_eq_some.mpr ⟨t, rfl, beq_iff_eq.mpr ht⟩
    rw [hnext]
    exact ⟨rest, rfl, .inl rfl⟩
  | @before t rest ht =>
    have hline : (peek (t :: rest)).kind ≠ .newline := by
      rw [peek]
      rcases ht with ht | ht <;> rw [ht] <;> nofun
    have hnext : next? (·.kind == .newline) (t :: rest) = none :=
      (next?_kind_eq_none (by nofun)).mpr hline
    have hstop : (s.endsInBlock || at? .dedent (t :: rest) || at? .eof (t :: rest)) = true := by
      rw [Bool.or_eq_true, Bool.or_eq_true, at?_iff, at?_iff, or_assoc]
      exact .inr ht
    rw [hnext]
    dsimp only
    rw [if_pos hstop]
    exact ⟨t :: rest, rfl, .inl rfl⟩
  | @closed ts hblock =>
    cases hnext : next? (·.kind == .newline) ts with
    | some rest' =>
      obtain ⟨t, rfl, ht⟩ := next?_eq_some.mp hnext
      exact ⟨rest', rfl, .inr ⟨t, beq_iff_eq.mp ht, rfl⟩⟩
    | none =>
      rw [hblock]
      exact ⟨ts, rfl, .inl rfl⟩

/-! From the readers to the rules. -/

theorem derives_of_parameterList {ts rest : List Token} {ps : List Param} {close : Token}
    (hclose : close.kind = .rparen) (h : plain (parameterList ts) = .ok (ps, close :: rest)) :
    Derives (.parameterList ps) ts rest := by
  rw [plain_parameterList] at h
  obtain ⟨⟨name, _⟩, nameTaken, afterName⟩ := bind_eq_ok.mp h
  obtain ⟨⟨colon, _⟩, colonTaken, afterColon⟩ := bind_eq_ok.mp afterName
  obtain ⟨⟨type, _⟩, typeTaken, afterType⟩ := bind_eq_ok.mp afterColon
  obtain ⟨rfl, hname⟩ := plain_take_eq_ok.mp nameTaken
  obtain ⟨rfl, hcolon⟩ := plain_take_eq_ok.mp colonTaken
  obtain ⟨rfl, htype⟩ := plain_take_eq_ok.mp typeTaken
  dsimp only at afterType
  split at afterType
  · rename_i afterComma hnext
    obtain ⟨comma, rfl, hcomma⟩ := next?_eq_some.mp hnext
    obtain ⟨⟨ps', rest'⟩, hps, hrest⟩ := bind_eq_ok.mp afterType
    cases hrest
    exact .parameter hname hcolon htype (beq_iff_eq.mp hcomma)
      (derives_of_parameterList hclose hps)
  · cases afterType
    exact .lastParameter hname hcolon htype hclose
termination_by ts.length

theorem derives_of_parameters {ts rest : List Token} {ps : List Param}
    (h : plain (parameters ts) = .ok (ps, rest)) : Derives (.parameters ps) ts rest := by
  rw [plain_parameters] at h
  obtain ⟨⟨opening, _⟩, openingTaken, afterOpening⟩ := bind_eq_ok.mp h
  obtain ⟨rfl, hopening⟩ := plain_take_eq_ok.mp openingTaken
  dsimp only at afterOpening
  split at afterOpening
  · rename_i rest' hnext
    obtain ⟨close, rfl, hclose⟩ := next?_eq_some.mp hnext
    cases afterOpening
    exact .noParameters hopening (beq_iff_eq.mp hclose)
  · obtain ⟨⟨ps', _⟩, hps, afterList⟩ := bind_eq_ok.mp afterOpening
    obtain ⟨⟨close, rest'⟩, closeTaken, hrest⟩ := bind_eq_ok.mp afterList
    cases hrest
    obtain ⟨rfl, hclose⟩ := plain_take_eq_ok.mp closeTaken
    exact .someParameters hopening (derives_of_parameterList hclose hps)

theorem derives_of_simple {t : Token} {ts rest : List Token} {s : Stmt}
    (ht : keyword? t = none) (h : plain (simple (t :: ts)) = .ok (s, rest)) :
    Derives (.statement s) (t :: ts) rest := by
  have hplain := keyword?_eq_none.mp ht
  rw [plain_simple] at h
  cases ts with
  | nil =>
    obtain ⟨⟨e, rest'⟩, he, h⟩ := bind_eq_ok.mp h
    cases h
    exact .expr hplain (by rintro ⟨-, hop⟩; cases hop) he
  | cons sign ts =>
    dsimp only at h
    split at h
    · rename_i hassign
      obtain ⟨⟨value, rest'⟩, hvalue, h⟩ := bind_eq_ok.mp h
      cases h
      exact .assign hplain hassign.1 hassign.2 hvalue
    · rename_i hassign
      obtain ⟨⟨e, rest'⟩, he, h⟩ := bind_eq_ok.mp h
      cases h
      exact .expr hplain hassign he

mutual

theorem derives_of_statement {ts rest : List Token} {s : Stmt}
    (h : plain (statement ts) = .ok (s, rest)) : Derives (.statement s) ts rest := by
  cases ts with
  | nil =>
    rw [plain_statement_nil, plain_simple] at h
    dsimp only at h
    rw [plain_expr, plain_operand_nil] at h
    cases h
  | cons t ts =>
    rw [plain_statement_cons] at h
    cases hkeyword : keyword? t with
    | none =>
      rw [hkeyword] at h
      exact derives_of_simple hkeyword h
    | some k =>
      rw [hkeyword] at h
      have hword := keyword?_eq_some.mp hkeyword
      cases k with
      | var =>
        obtain ⟨_, _, _, _, rfl, hname, hsign, hinit, rfl⟩ := (declaration_eq_ok (.var t.pos)).mp h
        exact .var hword hname hsign hinit
      | «let» =>
        obtain ⟨_, _, _, _, rfl, hname, hsign, hinit, rfl⟩ := (declaration_eq_ok (.let t.pos)).mp h
        exact .let hword hname hsign hinit
      | cond =>
        obtain ⟨⟨test, afterTest⟩, htest, h⟩ := bind_eq_ok.mp h
        obtain ⟨⟨body, afterBody⟩, hbody, h⟩ := bind_eq_ok.mp h
        obtain ⟨⟨a, rest'⟩, ha, h⟩ := bind_eq_ok.mp h
        cases h
        have := length_lt_of_plain htest
        have := length_lt_of_plain hbody
        exact .cond hword htest (derives_of_block hbody) (derives_of_alternatives ha)
      | loop =>
        obtain ⟨⟨⟨name, start, stop⟩, afterRange⟩, hrange, h⟩ := bind_eq_ok.mp h
        obtain ⟨⟨body, rest'⟩, hbody, h⟩ := bind_eq_ok.mp h
        cases h
        have := length_lt_of_plain hrange
        obtain ⟨n, inWord, rangeWord, opening, comma, close, ts', afterComma, rfl, hname, rfl, hin,
          hword', hopening, hstart, hcomma, hstop, hclose⟩ := plain_range_eq_ok.mp hrange
        exact .loop hword hname hin hword' hopening hstart hcomma hstop hclose
          (derives_of_block hbody)
      | proc =>
        obtain ⟨⟨name, afterName⟩, nameTaken, h⟩ := bind_eq_ok.mp h
        obtain ⟨⟨params, afterParams⟩, hparams, h⟩ := bind_eq_ok.mp h
        obtain ⟨⟨body, rest'⟩, hbody, h⟩ := bind_eq_ok.mp h
        cases h
        have := length_lt_of_plain nameTaken
        have := length_lt_of_plain hparams
        obtain ⟨rfl, hname⟩ := plain_take_eq_ok.mp nameTaken
        exact .proc hword hname (derives_of_parameters hparams) (derives_of_block hbody)
      | ret =>
        obtain ⟨⟨value, rest'⟩, hvalue, h⟩ := bind_eq_ok.mp h
        cases h
        exact .ret hword hvalue
termination_by (ts.length, 0)
decreasing_by all_goals (apply Prod.Lex.left; grind)

theorem derives_of_alternatives {ts rest : List Token} {a : Alternative}
    (h : plain (alternatives ts) = .ok (a, rest)) : Derives (.alternatives a) ts rest := by
  rw [plain_alternatives] at h
  split at h
  · rename_i afterWord hnext
    obtain ⟨word, rfl, hword⟩ := next?_eq_some.mp hnext
    obtain ⟨⟨test, afterTest⟩, htest, h⟩ := bind_eq_ok.mp h
    obtain ⟨⟨body, afterBody⟩, hbody, h⟩ := bind_eq_ok.mp h
    obtain ⟨⟨a', rest'⟩, ha, h⟩ := bind_eq_ok.mp h
    cases h
    have := length_lt_of_plain htest
    have := length_lt_of_plain hbody
    exact .elif hword htest (derives_of_block hbody) (derives_of_alternatives ha)
  · rename_i helif
    split at h
    · rename_i afterWord hnext
      obtain ⟨word, rfl, hword⟩ := next?_eq_some.mp hnext
      obtain ⟨⟨body, rest'⟩, hbody, h⟩ := bind_eq_ok.mp h
      cases h
      exact .otherwise hword (derives_of_block hbody)
    · rename_i helse
      cases h
      exact .noAlternative (next?_word_eq_none.mp helif) (next?_word_eq_none.mp helse)
termination_by (ts.length, 0)
decreasing_by all_goals (apply Prod.Lex.left; grind)

theorem derives_of_block {ts rest : List Token} {body : List Stmt}
    (h : plain (block ts) = .ok (body, rest)) : Derives (.block body) ts rest := by
  rw [plain_block] at h
  obtain ⟨⟨_, inside⟩, hstart, h⟩ := bind_eq_ok.mp h
  obtain ⟨⟨body', _⟩, hbody, h⟩ := bind_eq_ok.mp h
  obtain ⟨⟨close, rest'⟩, closeTaken, h⟩ := bind_eq_ok.mp h
  cases h
  have := length_lt_of_plain hstart
  obtain ⟨rfl, hclose⟩ := plain_take_eq_ok.mp closeTaken
  obtain ⟨colon, line, opening, rfl, hcolon, hline, hopening⟩ := plain_blockStart_eq_ok.mp hstart
  exact .block hcolon hline hopening (derives_of_blockBody hclose hbody)
termination_by (ts.length, 0)
decreasing_by all_goals (apply Prod.Lex.left; grind)

theorem derives_of_blockBody {ts rest : List Token} {body : List Stmt} {close : Token}
    (hclose : close.kind = .dedent) (h : plain (blockBody ts) = .ok (body, close :: rest)) :
    Derives (.lines body) ts rest := by
  rw [plain_blockBody] at h
  split at h
  · rename_i rest' hnext
    obtain ⟨line, rfl, hline⟩ := next?_eq_some.mp hnext
    exact .blank (beq_iff_eq.mp hline) (derives_of_blockBody hclose h)
  · split at h
    · cases h
      exact .close hclose
    · obtain ⟨⟨s, afterStatement⟩, hs, h⟩ := bind_eq_ok.mp h
      obtain ⟨⟨_, afterEnd⟩, hend, h⟩ := bind_eq_ok.mp h
      obtain ⟨⟨body', rest'⟩, hbody, h⟩ := bind_eq_ok.mp h
      cases h
      have := length_lt_of_plain hs
      have := length_lt_of_plain hend
      have hne : afterStatement ≠ [] := by
        rintro rfl
        have hnil : afterEnd = [] := List.length_eq_zero_iff.mp (Nat.lt_one_iff.mp ‹_›)
        rw [hnil, plain_blockBody] at hbody
        cases hbody
      exact .line (derives_of_statement hs) (ends_of_statementEnd hne hend)
        (derives_of_blockBody hclose hbody)
termination_by (ts.length, 1)
decreasing_by all_goals grind

end

/-! From the rules to the readers. -/

/-- No expression begins with a token of layout. -/
theorem IsExpr.not_isLayout {e : Expr} {t : Token} {ts rest : List Token}
    (h : IsExpr e (t :: ts) rest) : t.kind.isLayout = false := by
  refine not_isLayout_of_lead fun hlead => ?_
  unfold IsExpr at h
  rw [plain_expr, plain_operand_cons, hlead] at h
  cases h

theorem not_isLayout_of_isWord {t : Token} {w : String} (h : t.isWord w = true) :
    t.kind.isLayout = false := by
  rw [kind_of_isWord h]
  rfl

/-- No statement begins with a token of layout. -/
theorem Derives.statement_head {s : Stmt} {ts rest : List Token}
    (h : Derives (.statement s) ts rest) : (peek ts).kind.isLayout = false := by
  cases h with
  | var hword | «let» hword | cond hword | loop hword | proc hword | ret hword =>
    exact not_isLayout_of_isWord hword
  | assign _ hname => rw [peek, hname]; rfl
  | expr _ _ he => exact he.not_isLayout

/-- The reader of the phrase returns its tree on `ts` and leaves `rest`. The lists that a closing
token ends are read up to that token. -/
def Phrase.Read (ts rest : List Token) : Phrase → Prop
  | .statement s => plain (Grammar.statement ts) = .ok (s, rest)
  | .alternatives a => plain (Grammar.alternatives ts) = .ok (a, rest)
  | .parameters ps => plain (Grammar.parameters ts) = .ok (ps, rest)
  | .parameterList ps => ∃ close : Token, close.kind = .rparen ∧
      plain (Grammar.parameterList ts) = .ok (ps, close :: rest)
  | .block body => plain (Grammar.block ts) = .ok (body, rest)
  | .lines body => ∃ close : Token, close.kind = .dedent ∧
      plain (Grammar.blockBody ts) = .ok (body, close :: rest)

theorem next?_kind_cons {kind : TokenKind} {t : Token} (h : t.kind = kind) (ts : List Token) :
    next? (·.kind == kind) (t :: ts) = some ts :=
  next?_eq_some.mpr ⟨t, rfl, beq_iff_eq.mpr h⟩

theorem plain_blockBody_newline {t : Token} (h : t.kind = .newline) (ts : List Token) :
    plain (blockBody (t :: ts)) = plain (blockBody ts) := by
  rw [plain_blockBody, next?_kind_cons h]

/-- A statement in a block is read, and the lines behind its end after it. -/
theorem blockBody_of_line {s : Stmt} {body : List Stmt} {close : Token}
    {ts afterStatement afterEnd rest : List Token}
    (hhead : (peek ts).kind.isLayout = false)
    (hs : plain (statement ts) = .ok (s, afterStatement)) (hend : Ends s afterStatement afterEnd)
    (hbody : plain (blockBody afterEnd) = .ok (body, close :: rest)) :
    plain (blockBody ts) = .ok (s :: body, close :: rest) := by
  have hnot : ∀ {kind : TokenKind}, kind.isLayout = true → (peek ts).kind ≠ kind :=
    fun hkind => (kind_ne_of_isLayout hkind hhead).symm
  have hstop : (at? .dedent ts || at? .eof ts) = false := by
    rw [Bool.or_eq_false_iff]
    exact ⟨beq_eq_false_iff_ne.mpr (hnot rfl), beq_eq_false_iff_ne.mpr (hnot rfl)⟩
  rw [plain_blockBody, (next?_kind_eq_none (by nofun)).mpr (hnot rfl)]
  dsimp only
  rw [hstop]
  refine bind_eq_ok.mpr ⟨(s, afterStatement), hs, ?_⟩
  obtain ⟨after, hend, hafter⟩ := hend.statementEnd
  refine bind_eq_ok.mpr ⟨((), after), hend, ?_⟩
  have hbody' : plain (blockBody after) = .ok (body, close :: rest) := by
    rcases hafter with rfl | ⟨t, ht, rfl⟩
    · exact hbody
    · rw [plain_blockBody_newline ht] at hbody
      exact hbody
  exact bind_eq_ok.mpr ⟨(body, close :: rest), hbody', rfl⟩

theorem isWord_of_ne {t : Token} {w w' : String} (h : t.isWord w = true) (hne : w ≠ w') :
    t.isWord w' = false := by
  unfold Token.isWord at h ⊢
  rw [Bool.and_eq_true, beq_iff_eq, beq_iff_eq] at h
  rw [h.2, beq_eq_false_iff_ne.mpr hne]
  exact Bool.and_false _

/-- Parameters begin with a name. -/
theorem peek_ne_rparen {ts rest : List Token} {ps : List Param}
    (h : plain (parameterList ts) = .ok (ps, rest)) : (peek ts).kind ≠ .rparen := by
  rw [plain_parameterList] at h
  obtain ⟨⟨name, _⟩, htaken, -⟩ := bind_eq_ok.mp h
  obtain ⟨rfl, hname⟩ := plain_take_eq_ok.mp htaken
  rw [peek, hname]
  nofun

/-- The readers do what the rules allow. -/
theorem Derives.read {phrase : Phrase} {ts rest : List Token} (h : Derives phrase ts rest) :
    phrase.Read ts rest := by
  -- The readers of lists stop before the token that closes them, which their callers take; so the
  -- hypotheses about lists give that token along with what is read before it.
  induction h with
  | var hword hname hsign hinit =>
    show plain (Grammar.statement _) = _
    rw [plain_statement_cons, keyword?_of_isWord .var hword]
    exact (declaration_eq_ok (.var _)).mpr ⟨_, _, _, _, rfl, hname, hsign, hinit, rfl⟩
  | «let» hword hname hsign hinit =>
    show plain (Grammar.statement _) = _
    rw [plain_statement_cons, keyword?_of_isWord .let hword]
    exact (declaration_eq_ok (.let _)).mpr ⟨_, _, _, _, rfl, hname, hsign, hinit, rfl⟩
  | cond hword htest _ _ ihBody ihRest =>
    show plain (Grammar.statement _) = _
    rw [plain_statement_cons, keyword?_of_isWord .cond hword]
    refine bind_eq_ok.mpr ⟨_, htest, ?_⟩
    refine bind_eq_ok.mpr ⟨_, ihBody, ?_⟩
    exact bind_eq_ok.mpr ⟨_, ihRest, rfl⟩
  | loop hword hname hin hrange hopening hstart hcomma hstop hclose _ ih =>
    show plain (Grammar.statement _) = _
    rw [plain_statement_cons, keyword?_of_isWord .loop hword]
    refine bind_eq_ok.mpr ⟨_, plain_range_eq_ok.mpr ⟨_, _, _, _, _, _, _, _, rfl, hname, rfl, hin,
      hrange, hopening, hstart, hcomma, hstop, hclose⟩, ?_⟩
    exact bind_eq_ok.mpr ⟨_, ih, rfl⟩
  | proc hword hname _ _ ihParams ihBody =>
    show plain (Grammar.statement _) = _
    rw [plain_statement_cons, keyword?_of_isWord .proc hword]
    refine bind_eq_ok.mpr ⟨_, plain_take_eq_ok.mpr ⟨rfl, hname⟩, ?_⟩
    refine bind_eq_ok.mpr ⟨_, ihParams, ?_⟩
    exact bind_eq_ok.mpr ⟨_, ihBody, rfl⟩
  | ret hword hvalue =>
    show plain (Grammar.statement _) = _
    rw [plain_statement_cons, keyword?_of_isWord .ret hword]
    exact bind_eq_ok.mpr ⟨_, hvalue, rfl⟩
  | assign hplain hname hsign hvalue =>
    show plain (Grammar.statement _) = _
    rw [plain_statement_cons, keyword?_eq_none.mpr hplain]
    dsimp only
    rw [plain_simple]
    dsimp only
    rw [if_pos ⟨hname, hsign⟩]
    exact bind_eq_ok.mpr ⟨_, hvalue, rfl⟩
  | @expr t e ts rest hplain hassign he =>
    show plain (Grammar.statement _) = _
    rw [plain_statement_cons, keyword?_eq_none.mpr hplain]
    dsimp only
    rw [plain_simple]
    cases ts with
    | nil => exact bind_eq_ok.mpr ⟨_, he, rfl⟩
    | cons sign ts =>
      have hassign' : ¬ (t.kind = .identifier ∧ sign.isOp "=" = true) := hassign
      dsimp only
      rw [if_neg hassign']
      exact bind_eq_ok.mpr ⟨_, he, rfl⟩
  | noParameters hopening hclose =>
    show plain (Grammar.parameters _) = _
    rw [plain_parameters]
    refine bind_eq_ok.mpr ⟨_, plain_take_eq_ok.mpr ⟨rfl, hopening⟩, ?_⟩
    dsimp only
    rw [next?_kind_cons hclose]
  | @someParameters opening ps ts rest hopening _ ih =>
    obtain ⟨close, hclose, hps⟩ := ih
    show plain (Grammar.parameters _) = _
    rw [plain_parameters]
    refine bind_eq_ok.mpr ⟨_, plain_take_eq_ok.mpr ⟨rfl, hopening⟩, ?_⟩
    dsimp only
    rw [(next?_kind_eq_none (by nofun)).mpr (peek_ne_rparen hps)]
    refine bind_eq_ok.mpr ⟨_, hps, ?_⟩
    exact bind_eq_ok.mpr ⟨_, plain_take_eq_ok.mpr ⟨rfl, hclose⟩, rfl⟩
  | @lastParameter name colon type close rest hname hcolon htype hclose =>
    refine ⟨close, hclose, ?_⟩
    rw [plain_parameterList]
    refine bind_eq_ok.mpr ⟨_, plain_take_eq_ok.mpr ⟨rfl, hname⟩, ?_⟩
    refine bind_eq_ok.mpr ⟨_, plain_take_eq_ok.mpr ⟨rfl, hcolon⟩, ?_⟩
    refine bind_eq_ok.mpr ⟨_, plain_take_eq_ok.mpr ⟨rfl, htype⟩, ?_⟩
    have hcomma : (peek (close :: rest)).kind ≠ .comma := by rw [peek, hclose]; nofun
    dsimp only
    rw [(next?_kind_eq_none (by nofun)).mpr hcomma]
  | parameter hname hcolon htype hcomma _ ih =>
    obtain ⟨close, hclose, hps⟩ := ih
    refine ⟨close, hclose, ?_⟩
    rw [plain_parameterList]
    refine bind_eq_ok.mpr ⟨_, plain_take_eq_ok.mpr ⟨rfl, hname⟩, ?_⟩
    refine bind_eq_ok.mpr ⟨_, plain_take_eq_ok.mpr ⟨rfl, hcolon⟩, ?_⟩
    refine bind_eq_ok.mpr ⟨_, plain_take_eq_ok.mpr ⟨rfl, htype⟩, ?_⟩
    dsimp only
    rw [next?_kind_cons hcomma]
    exact bind_eq_ok.mpr ⟨_, hps, rfl⟩
  | noAlternative helif helse =>
    show plain (Grammar.alternatives _) = _
    rw [plain_alternatives, next?_word_eq_none.mpr helif, next?_word_eq_none.mpr helse]
  | @otherwise word body ts rest hword _ ih =>
    show plain (Grammar.alternatives _) = _
    have helif : (peek (word :: ts)).isWord "elif" = false := isWord_of_ne hword (by decide)
    rw [plain_alternatives, next?_word_eq_none.mpr helif, next?_eq_some.mpr ⟨word, rfl, hword⟩]
    exact bind_eq_ok.mpr ⟨_, ih, rfl⟩
  | @elif word test body a ts afterTest afterBody rest hword htest _ _ ihBody ihRest =>
    show plain (Grammar.alternatives _) = _
    rw [plain_alternatives, next?_eq_some.mpr ⟨word, rfl, hword⟩]
    refine bind_eq_ok.mpr ⟨_, htest, ?_⟩
    refine bind_eq_ok.mpr ⟨_, ihBody, ?_⟩
    exact bind_eq_ok.mpr ⟨_, ihRest, rfl⟩
  | block hcolon hline hopening _ ih =>
    obtain ⟨close, hclose, hbody⟩ := ih
    show plain (Grammar.block _) = _
    rw [plain_block]
    refine bind_eq_ok.mpr
      ⟨_, plain_blockStart_eq_ok.mpr ⟨_, _, _, rfl, hcolon, hline, hopening⟩, ?_⟩
    refine bind_eq_ok.mpr ⟨_, hbody, ?_⟩
    exact bind_eq_ok.mpr ⟨_, plain_take_eq_ok.mpr ⟨rfl, hclose⟩, rfl⟩
  | @close close rest hclose =>
    refine ⟨close, hclose, ?_⟩
    have hline : (peek (close :: rest)).kind ≠ .newline := by rw [peek, hclose]; nofun
    have hat : at? .dedent (close :: rest) = true := beq_iff_eq.mpr hclose
    rw [plain_blockBody, (next?_kind_eq_none (by nofun)).mpr hline]
    dsimp only
    rw [hat]
    rfl
  | blank hline _ ih =>
    obtain ⟨close, hclose, hbody⟩ := ih
    exact ⟨close, hclose, (plain_blockBody_newline hline _).trans hbody⟩
  | line hs hend _ ihStatement ihBody =>
    obtain ⟨close, hclose, hbody⟩ := ihBody
    exact ⟨close, hclose, blockBody_of_line hs.statement_head ihStatement hend hbody⟩

/-! The end of the text. -/

/-- The tokens of `ts` before `rest` hold no end token and no literal out of range. -/
def Passes (ts rest : List Token) : Prop :=
  ∃ seg, ts = seg ++ rest ∧ ∀ t ∈ seg, t.kind ≠ .eof ∧ lead t ≠ .outOfRange

theorem Passes.refl (ts : List Token) : Passes ts ts := ⟨[], rfl, by simp⟩

theorem Passes.trans {ts mid rest : List Token} (h : Passes ts mid) (h' : Passes mid rest) :
    Passes ts rest := by
  obtain ⟨seg, rfl, hseg⟩ := h
  obtain ⟨seg', rfl, hseg'⟩ := h'
  exact ⟨seg ++ seg', (List.append_assoc ..).symm, List.forall_mem_append.mpr ⟨hseg, hseg'⟩⟩

theorem Passes.cons {t : Token} {kind : TokenKind} (ht : t.kind = kind) (hkind : kind ≠ .eof)
    {ts rest : List Token} (h : Passes ts rest) (hint : kind ≠ .int := by decide) :
    Passes (t :: ts) rest := by
  obtain ⟨seg, rfl, hseg⟩ := h
  have hpassed : t.kind ≠ .eof ∧ lead t ≠ .outOfRange :=
    ⟨ht ▸ hkind, lead_ne_outOfRange (ht ▸ hint)⟩
  exact ⟨t :: seg, rfl, List.forall_mem_cons.mpr ⟨hpassed, hseg⟩⟩

theorem Passes.word {t : Token} {w : String} (ht : t.isWord w = true) {ts rest : List Token}
    (h : Passes ts rest) : Passes (t :: ts) rest :=
  .cons (kind_of_isWord ht) (by nofun) h

theorem Passes.ended {ts rest : List Token} (h : Passes ts rest) (hts : Token.Ended ts) :
    Token.Ended rest := by
  obtain ⟨seg, rfl, hseg⟩ := h
  exact hts.of_append fun t ht => (hseg t ht).1

theorem IsExpr.passes {e : Expr} {ts rest : List Token} (h : IsExpr e ts rest) :
    Passes ts rest := by
  obtain ⟨seg, rfl, hseg⟩ := (reads_expr_iff.mpr h).segment
  refine ⟨seg, rfl, fun t ht => ⟨?_, (hseg.legible t ht).2⟩⟩
  exact (kind_ne_of_isLayout rfl (hseg.legible t ht).1).symm

theorem Ends.passes {s : Stmt} {ts rest : List Token} (h : Ends s ts rest) : Passes ts rest := by
  cases h with
  | newline ht => exact .cons ht (by nofun) (.refl _)
  | before | closed => exact .refl _

theorem Newlines.passes {ts rest : List Token} (h : Newlines ts rest) : Passes ts rest := by
  obtain ⟨lines, rfl, hlines⟩ := h
  refine ⟨lines, rfl, fun t ht => ⟨?_, lead_ne_outOfRange ?_⟩⟩
  · rw [hlines t ht]
    decide
  · rw [hlines t ht]
    decide

/-- A derivation takes no end token. -/
theorem Derives.passes {phrase : Phrase} {ts rest : List Token} (h : Derives phrase ts rest) :
    Passes ts rest := by
  induction h with
  | var hword hname hsign hinit | «let» hword hname hsign hinit =>
    exact .word hword (.cons hname (by nofun) (.cons (kind_of_isOp hsign) (by nofun) hinit.passes))
  | cond hword htest _ _ ihBody ihRest | elif hword htest _ _ ihBody ihRest =>
    exact .word hword ((htest.passes.trans ihBody).trans ihRest)
  | loop hword hname hin hrange hopening hstart hcomma hstop hclose _ ih =>
    have hbounds := (hstart.passes.trans (.cons hcomma (by nofun) hstop.passes)).trans
      (.cons hclose (by nofun) ih)
    exact .word hword (.cons hname (by nofun) (.word hin (.word hrange
      (.cons hopening (by nofun) hbounds))))
  | proc hword hname _ _ ihParams ihBody =>
    exact .word hword (.cons hname (by nofun) (ihParams.trans ihBody))
  | ret hword hvalue => exact .word hword hvalue.passes
  | assign _ hname hsign hvalue =>
    exact .cons hname (by nofun) (.cons (kind_of_isOp hsign) (by nofun) hvalue.passes)
  | expr _ _ he => exact he.passes
  | noParameters hopening hclose =>
    exact .cons hopening (by nofun) (.cons hclose (by nofun) (.refl _))
  | someParameters hopening _ ih => exact .cons hopening (by nofun) ih
  | lastParameter hname hcolon htype hclose =>
    exact .cons hname (by nofun) (.cons hcolon (by nofun) (.cons htype (by nofun)
      (.cons hclose (by nofun) (.refl _))))
  | parameter hname hcolon htype hcomma _ ih =>
    exact .cons hname (by nofun) (.cons hcolon (by nofun) (.cons htype (by nofun)
      (.cons hcomma (by nofun) ih)))
  | noAlternative => exact .refl _
  | otherwise hword _ ih => exact .word hword ih
  | block hcolon hline hopening _ ih =>
    exact .cons hcolon (by nofun) (.cons hline (by nofun) (.cons hopening (by nofun) ih))
  | close hclose => exact .cons hclose (by nofun) (.refl _)
  | blank hline _ ih => exact .cons hline (by nofun) ih
  | line _ hend _ ihStatement ihBody => exact (ihStatement.trans hend.passes).trans ihBody

/-! Programs. -/

theorem statements_newline {t : Token} (h : t.kind = .newline) (ts : List Token) :
    statements (t :: ts) = statements ts := by
  rw [statements_eq, next?_kind_cons h]

theorem Newlines.statements {ts rest : List Token} (h : Newlines ts rest) :
    Grammar.statements ts = Grammar.statements rest := by
  obtain ⟨lines, rfl, hlines⟩ := h
  induction lines with
  | nil => rfl
  | cons t lines ih =>
    rw [List.cons_append, statements_newline (hlines t List.mem_cons_self)]
    exact ih fun u hu => hlines u (List.mem_cons_of_mem t hu)

/-- A statement at the head of a list is read, and what stands behind its end after it. -/
theorem statements_of_statement {s : Stmt} {p : Program} {ts afterStatement afterEnd : List Token}
    (hs : Derives (.statement s) ts afterStatement) (hend : Ends s afterStatement afterEnd)
    (hp : statements afterEnd = .ok p) : statements ts = .ok (s :: p) := by
  have hnot : ∀ {kind : TokenKind}, kind.isLayout = true → (peek ts).kind ≠ kind :=
    fun hkind => (kind_ne_of_isLayout hkind hs.statement_head).symm
  have hstop : at? .eof ts = false := beq_eq_false_iff_ne.mpr (hnot rfl)
  rw [statements_eq, (next?_kind_eq_none (by nofun)).mpr (hnot rfl)]
  dsimp only
  rw [hstop]
  refine bind_eq_ok.mpr ⟨(s, afterStatement), hs.read, ?_⟩
  obtain ⟨after, hend, hafter⟩ := hend.statementEnd
  refine bind_eq_ok.mpr ⟨((), after), hend, ?_⟩
  have hp' : statements after = .ok p := by
    rcases hafter with rfl | ⟨t, ht, rfl⟩
    · exact hp
    · rw [statements_newline ht] at hp
      exact hp
  exact bind_eq_ok.mpr ⟨p, hp', rfl⟩

theorem Items.statements {ts : List Token} {p : Program} (h : Items ts p) :
    Grammar.statements ts = .ok p := by
  induction h with
  | @stop t ht =>
    have hline : (peek [t]).kind ≠ .newline := by rw [peek, ht]; nofun
    have hat : at? .eof [t] = true := beq_iff_eq.mpr ht
    rw [statements_eq, (next?_kind_eq_none (by nofun)).mpr hline]
    dsimp only
    rw [if_pos hat]
  | item hs hend hlines _ ih =>
    exact statements_of_statement hs hend (hlines.statements.trans ih)

theorem Newlines.refl (ts : List Token) : Newlines ts ts := ⟨[], rfl, by simp⟩

theorem Newlines.cons {t : Token} (ht : t.kind = .newline) {ts rest : List Token}
    (h : Newlines ts rest) : Newlines (t :: ts) rest := by
  obtain ⟨lines, rfl, hlines⟩ := h
  exact ⟨t :: lines, rfl, List.forall_mem_cons.mpr ⟨ht, hlines⟩⟩

/-- Tokens that are read as a program are derived as one. -/
theorem derivable_of_statements {ts : List Token} {p : Program} (hts : Token.Ended ts)
    (h : statements ts = .ok p) : Derivable ts p := by
  rw [statements_eq] at h
  split at h
  · rename_i rest hnext
    obtain ⟨line, rfl, hline⟩ := next?_eq_some.mp hnext
    have hrest : Token.Ended rest :=
      (Passes.cons (beq_iff_eq.mp hline) (by nofun) (.refl rest)).ended hts
    obtain ⟨items, hlines, hitems⟩ := derivable_of_statements hrest h
    exact ⟨items, hlines.cons (beq_iff_eq.mp hline), hitems⟩
  · split at h
    · rename_i hat
      cases h
      cases ts with
      | nil => exact absurd hts id
      | cons t ts =>
        have ht : t.kind = .eof := beq_iff_eq.mp hat
        cases hts.eq_singleton ht
        exact ⟨[t], .refl [t], .stop ht⟩
    · obtain ⟨⟨s, afterStatement⟩, hs, h⟩ := bind_eq_ok.mp h
      obtain ⟨⟨_, afterEnd⟩, hend, h⟩ := bind_eq_ok.mp h
      obtain ⟨p', hp, h⟩ := bind_eq_ok.mp h
      cases h
      have := length_lt_of_plain hs
      have := length_lt_of_plain hend
      have hstatement := derives_of_statement hs
      have hafter := hstatement.passes.ended hts
      have hends := ends_of_statementEnd (by rintro rfl; exact hafter) hend
      obtain ⟨rest, hlines, hrest⟩ := derivable_of_statements (hends.passes.ended hafter) hp
      exact ⟨ts, .refl ts, .item hstatement hends hlines hrest⟩
termination_by ts.length
decreasing_by all_goals grind

theorem statements_eq_ok_iff {ts : List Token} {p : Program} (hts : Token.Ended ts) :
    statements ts = .ok p ↔ Derivable ts p := by
  constructor
  · exact derivable_of_statements hts
  · rintro ⟨rest, hlines, hrest⟩
    exact hlines.statements.trans hrest.statements

end SceneScript.Grammar

namespace SceneScript

/-- Tokens form a program exactly when the grammar derives one from them, and the program they
form is the only one it derives. -/
theorem Program.ofTokens_accepts_grammar {ts : List Token} (hts : Token.Ended ts) :
    ((∃ p, Program.ofTokens ts = .ok p) ↔ ∃ p, Grammar.Derivable ts p) ∧
      ∀ p, Program.ofTokens ts = .ok p →
        Grammar.Derivable ts p ∧ ∀ q, Grammar.Derivable ts q → q = p := by
  have haccepts : ∀ p, Program.ofTokens ts = .ok p ↔ Grammar.Derivable ts p :=
    fun p => Grammar.statements_eq_ok_iff hts
  refine ⟨exists_congr haccepts, fun p hp => ⟨(haccepts p).mp hp, fun q hq => ?_⟩⟩
  have heq := ((haccepts q).mpr hq).symm.trans hp
  cases heq
  rfl

/-- A conditional whose first block is closed before its line has ended, which no text gives. -/
def Grammar.closedEarly : List Token :=
  [⟨.identifier, "if", ⟨1, 1⟩⟩, ⟨.identifier, "x", ⟨1, 4⟩⟩, ⟨.colon, ":", ⟨1, 5⟩⟩, .newline ⟨1, 6⟩,
    .indent ⟨2, 3⟩, ⟨.identifier, "y", ⟨2, 3⟩⟩, .dedent ⟨2, 4⟩, ⟨.identifier, "else", ⟨2, 5⟩⟩,
    ⟨.colon, ":", ⟨2, 9⟩⟩, .newline ⟨2, 10⟩, .indent ⟨3, 3⟩, .newline ⟨3, 3⟩,
    ⟨.identifier, "z", ⟨4, 3⟩⟩, .newline ⟨4, 4⟩, .dedent ⟨5, 1⟩, .eof ⟨5, 1⟩]

theorem Program.ofTokens_accepts_grammar_closedEarly :
    Token.Ended Grammar.closedEarly ∧
      ∃ p, Grammar.Derivable Grammar.closedEarly p ∧
        ∀ q, Grammar.Derivable Grammar.closedEarly q → q = p :=
  ⟨by decide, [.cond ⟨1, 1⟩ (.ident ⟨1, 4⟩ "x") [.expr ⟨2, 3⟩ (.ident ⟨2, 3⟩ "y")]
      (.otherwise [.expr ⟨4, 3⟩ (.ident ⟨4, 3⟩ "z")])],
    (Program.ofTokens_accepts_grammar (by decide)).2 _ (by cbv)⟩

end SceneScript
