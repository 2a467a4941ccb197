import SceneScript.Proofs.Grammar.Completion
import SceneScript.Proofs.Number.Naturals
import SceneScript.Proofs.Program.Listing

/-! Whole numbers are read as they are written or not at all. The digits of a literal, however many,
are read as the number that they spell when that is at most the largest safe one, and otherwise the
literal is refused; and neither depends on what stands around it. -/

namespace SceneScript

/-- The token is a literal of a whole number: digits, at least one. -/
structure Token.IsNumeral (t : Token) : Prop where
  kind : t.kind = .int
  ne_nil : t.lexeme.toList ≠ []
  digits : ∀ c ∈ t.lexeme.toList, c.isDigit = true

/-- The number that the digits of a token spell. -/
def Token.value (t : Token) : Nat := Nat.ofDigitChars 10 t.lexeme.toList 0

/-- The place and the number of a node that is a whole number. -/
def Expr.int? : Expr → Option (Pos × Number)
  | .int pos v => some (pos, v)
  | _ => none

/-- The whole numbers of a program, with their places, in the order of the source. -/
def Program.integers (p : Program) : List (Pos × Number) := p.nodes.filterMap Expr.int?

/-! Literals in a text. -/

namespace Token

theorem cutNumber_kind_int {c : Char} {cs : List Char} (h : (cutNumber c cs).kind = .int) :
    (cutNumber c cs).lexeme = c :: cs.takeWhile Char.isDigit := by
  unfold cutNumber at h ⊢
  dsimp only at h ⊢
  split at h
  · split at h
    · cases h
    · rename_i hd
      rw [if_neg hd]
      rfl
  · rfl

theorem cut_kind_int {c : Char} {cs : List Char} {t : Cut} (h : cut c cs = .ok t)
    (hkind : t.kind = .int) : t.lexeme ≠ [] ∧ ∀ d ∈ t.lexeme, d.isDigit = true := by
  unfold cut at h
  split at h
  · rename_i kind hpunctuation
    cases h
    unfold punctuation? at hpunctuation
    split at hpunctuation <;> cases hpunctuation <;> cases hkind
  · split at h
    · unfold cutString at h
      dsimp only at h
      split at h <;> cases h
      cases hkind
    · split at h
      · rename_i hop
        cases h
        unfold cutOp? at hop
        dsimp only at hop
        repeat' split at hop
        all_goals cases hop <;> cases hkind
      · split at h
        · rename_i hdigit
          cases h
          rw [cutNumber_kind_int hkind]
          refine ⟨List.cons_ne_nil _ _, List.forall_mem_cons.mpr ⟨hdigit, fun d hd => ?_⟩⟩
          exact List.mem_takeWhile_imp hd
        · split at h <;> cases h
          cases hkind

theorem ofCode_isNumeral {pos : Pos} {cs : List Char} {ts : List Token}
    (h : ofCode pos cs = .ok ts) : ∀ t ∈ ts, t.kind = .int → t.IsNumeral := by
  fun_induction ofCode pos cs generalizing ts with
  | case1 =>
    cases h
    simp
  | case2 pos c cs hgap ih => exact ih h
  | case3 =>
    cases h
    simp
  | case4 => cases h
  | case5 pos c cs hgap hc t hcut ih =>
    obtain ⟨ts', hts, heq⟩ := bind_eq_ok.mp h
    cases heq
    refine List.forall_mem_cons.mpr ⟨fun hkind => ?_, ih hts⟩
    obtain ⟨hne, hdigits⟩ := cut_kind_int hcut hkind
    exact ⟨hkind, by simpa using hne, by simpa using hdigits⟩

theorem ofLines_isNumeral {blocks : Layout.Blocks} {line : Int} {ls : List (List Char)}
    {ts : List Token} (h : ofLines blocks line ls = .ok ts) :
    ∀ t ∈ ts, t.kind = .int → t.IsNumeral := by
  induction ls generalizing blocks line ts with
  | nil =>
    cases h
    simp
  | cons cs rest ih =>
    obtain ⟨left, tokens, later, hline, rfl, hlater⟩ := ofLines_cons_eq_ok h
    refine List.forall_mem_append.mpr ⟨fun t ht hkind => ?_, fun t ht hkind => ?_⟩
    · have hcode := Layout.ofLine_code_tokens (l := ⟨line, cs⟩) hline
      refine ofCode_isNumeral hcode t (List.mem_filter.mpr ⟨ht, ?_⟩) hkind
      simp [isCode, hkind, TokenKind.isLayout]
    · rcases hlater with ⟨-, rfl⟩ | ⟨-, hts⟩
      · simp only [List.mem_append, List.mem_replicate, List.mem_singleton] at ht
        rcases ht with ⟨-, rfl⟩ | rfl <;> cases hkind
      · exact ih hts t ht hkind

end Token

/-! Literals in operands. -/

theorem Token.IsNumeral.read_eq {t : Token} (h : t.IsNumeral) :
    Number.read t.lexeme = .ofNat t.value := by
  rw [Token.value, ← Number.read_of_digits_eq h.ne_nil h.digits, String.ofList_toList]

namespace Grammar

theorem lead_numeral {t : Token} (h : t.IsNumeral) :
    lead t = if t.value ≤ Number.safeLimit then .literal (.int t.pos (.ofNat t.value))
      else .outOfRange := by
  unfold lead
  rw [h.kind]
  dsimp only
  rw [h.read_eq]
  by_cases hvalue : t.value ≤ Number.safeLimit
  · rw [if_pos (Number.isSafeInteger_ofNat_iff.mpr hvalue), if_pos hvalue]
  · rw [if_neg (mt Number.isSafeInteger_ofNat_iff.mp hvalue), if_neg hvalue]

theorem lead_numeral_eq_outOfRange {t : Token} (h : t.IsNumeral) :
    lead t = .outOfRange ↔ Number.safeLimit < t.value := by
  rw [lead_numeral h]
  by_cases hvalue : t.value ≤ Number.safeLimit
  · simp [hvalue]
  · simpa [hvalue] using Nat.lt_of_not_le hvalue

theorem kind_of_outOfRange {t : Token} (h : lead t = .outOfRange) : t.kind = .int :=
  Decidable.byContradiction fun hkind => lead_ne_outOfRange hkind h

/-! Literals in programs. -/

theorem Items.lead_ne {ts : List Token} {p : Program} (h : Items ts p) :
    ∀ t ∈ ts, lead t ≠ .outOfRange := by
  induction h with
  | stop ht => exact List.forall_mem_singleton.mpr (lead_ne_outOfRange (by simp [ht]))
  | item hs hend hlines _ ih =>
    obtain ⟨seg, rfl, hseg⟩ := (hs.passes.trans hend.passes).trans hlines.passes
    exact List.forall_mem_append.mpr ⟨fun t ht => (hseg t ht).2, ih⟩

/-- A program holds no literal out of range. -/
theorem Derivable.lead_ne {ts : List Token} {p : Program} (h : Derivable ts p) :
    ∀ t ∈ ts, lead t ≠ .outOfRange := by
  obtain ⟨items, hlines, hitems⟩ := h
  obtain ⟨seg, rfl, hseg⟩ := hlines.passes
  exact List.forall_mem_append.mpr ⟨fun t ht => (hseg t ht).2, hitems.lead_ne⟩

theorem Derivable.lists {ts : List Token} {p : Program} (h : Derivable ts p) :
    List.Forall₂ (fun r t => Role.IsAt t r) (Stmt.rolesAll p)
      (ts.filter fun t => !t.punctuates) := by
  obtain ⟨items, hlines, hitems⟩ := h
  obtain ⟨seg, hseg, hroles⟩ := hlines.lists.append hitems.lists
  rw [List.append_nil] at hseg
  rwa [hseg]

theorem ended_replaced {before more : List Token} {t u : Token}
    (h : Token.Ended (before ++ u :: more)) (hu : u.kind ≠ .eof) (ht : t.kind ≠ .eof) :
    Token.Ended (before ++ t :: more) := by
  refine Token.Ended.append h.unended ?_
  have hbehind : Token.Ended (u :: more) := h.of_append h.unended
  cases more with
  | nil => exact absurd hbehind hu
  | cons v more => exact ⟨ht, hbehind.2⟩

/-- A literal out of range that stands where a literal can stand is refused for its range, whatever
follows it. -/
theorem statements_outOfRange {before more : List Token} {t : Token} {w : String} {p : Program}
    (ht : lead t = .outOfRange) (hended : Token.Ended (before ++ ⟨.int, w, t.pos⟩ :: more))
    (hp : statements (before ++ ⟨.int, w, t.pos⟩ :: more) = .ok p) (rest : List Token) :
    statements (before ++ t :: rest) = .error ⟨.integerRange, t⟩ := by
  have hkind := kind_of_outOfRange ht
  have hlead := (derivable_of_statements hended hp).lead_ne
  have hbefore : ∀ u ∈ before, lead u ≠ .outOfRange :=
    fun u hu => hlead u (List.mem_append_left _ hu)
  have hmore : ∀ u ∈ more, lead u ≠ .outOfRange :=
    fun u hu => hlead u (List.mem_append_right _ (List.mem_cons_of_mem _ hu))
  -- With the other literal in its place nothing fails, so at most the literal is in the way.
  let g : Token → Token := fun u => if u = t then ⟨.int, w, t.pos⟩ else u
  have hself : g t = ⟨.int, w, t.pos⟩ := if_pos rfl
  have hother : ∀ u, u ≠ t → g u = u := fun u hu => if_neg hu
  have hg : Renders True id g := by
    refine ⟨fun u => ?_, fun u => ?_, fun u => ?_⟩
    all_goals by_cases hu : u = t
    · rw [hu, hself, hkind]
    · rw [hother u hu]
    · rw [hu, hself]
      rfl
    · rw [hother u hu]
      rfl
    · exact .inr ⟨trivial, hu ▸ ht⟩
    · exact .inl (hother u hu)
  have hkeeps : ∀ us : List Token, (∀ u ∈ us, lead u ≠ .outOfRange) → us.map g = us := by
    intro us hus
    have hsame : us.map g = us.map id :=
      List.map_congr_left fun u hu => hother u fun h => hus u hu (h ▸ ht)
    rw [hsame, List.map_id]
  have hmap : (before ++ t :: more).map g = before ++ ⟨.int, w, t.pos⟩ :: more := by
    rw [List.map_append, List.map_cons, hself, hkeeps before hbefore, hkeeps more hmore]
  have hended' : Token.Ended (before ++ t :: more) :=
    ended_replaced hended (by simp) (by simp [hkind])
  have hagree := agree_statements hg (before ++ t :: more)
  rw [hmap, hp] at hagree
  cases hread : statements (before ++ t :: more) with
  | ok q =>
    have hderivable := derivable_of_statements hended' hread
    exact absurd ht (hderivable.lead_ne t (by simp))
  | error e =>
    rw [hread] at hagree
    cases hagree with
    | @range u _ _ hu =>
      obtain ⟨before', rest', heq, hfail, -⟩ := refuses_of_statements hended' hread
      obtain ⟨rfl, rfl, -⟩ := (List.append_cons_inj_of_notMem (fun h => hbefore u h hu)
        (fun h => hmore u h hu)).mp heq
      exact hfail rest

end Grammar

/-- Only a literal of a whole number is told as one. -/
theorem Role.IsAt.int?_eq {r : Role} {t : Token} (h : r.IsAt t) :
    r.node?.bind Expr.int? =
      if t.kind = .int then some (t.pos, Number.read t.lexeme) else none := by
  have hnone : ∀ {kind : TokenKind}, t.kind = kind → kind ≠ .int →
      none = if t.kind = .int then some (t.pos, Number.read t.lexeme) else none := by
    rintro kind rfl hkind
    rw [if_neg hkind]
  cases r with
  | keyword word => exact hnone (Grammar.kind_of_isWord h) (by decide)
  | name text => exact hnone h.1 (by decide)
  | node e =>
    obtain ⟨hpos, h⟩ := h
    cases e with
    | int pos v =>
      rw [if_pos h.1, ← h.2, ← hpos]
      rfl
    | float | str | bool | ident | call => exact hnone h.1 (by decide)
    | unary pos op e => cases op <;> exact hnone h.2 (by decide)
    | binary pos op l r =>
      obtain ⟨-, hop | ⟨hname, -⟩⟩ := h
      · exact hnone hop (by decide)
      · exact hnone hname (by decide)

theorem Program.integers_eq {p : Program} {ts : List Token}
    (h : List.Forall₂ (fun r t => Role.IsAt t r) (Stmt.rolesAll p)
      (ts.filter fun t => !t.punctuates)) :
    p.integers = (ts.filter (·.kind == .int)).map fun t => (t.pos, Number.read t.lexeme) := by
  have hroles : ∀ {roles us}, List.Forall₂ (fun r t => Role.IsAt t r) roles us →
      (roles.filterMap Role.node?).filterMap Expr.int? =
        (us.filter (·.kind == .int)).map fun t => (t.pos, Number.read t.lexeme) := by
    intro roles us h
    rw [List.filterMap_filterMap]
    induction h with
    | nil => rfl
    | @cons r t roles us hr _ ih =>
      rw [List.filterMap_cons, hr.int?_eq, ih]
      by_cases hkind : t.kind = .int
      · simp [hkind]
      · simp [hkind]
  have hints : (ts.filter fun t => !t.punctuates).filter (·.kind == .int) =
      ts.filter (·.kind == .int) := by
    rw [List.filter_filter]
    refine List.filter_congr fun t _ => ?_
    by_cases hkind : t.kind = .int
    · simp [hkind, Token.punctuates, Token.isOp, TokenKind.punctuates]
    · simp [hkind]
  rw [← hints]
  exact hroles h

/-- The whole numbers of a text with the given tokens are read as they are written, or refused. -/
structure Program.Exact (source : String) (ts : List Token) : Prop where
  /-- Their literals are digits, at least one of them. -/
  digits : ∀ t ∈ ts, t.kind = .int → t.IsNumeral
  /-- Where an operand is asked for, a literal is taken for the number that it spells. -/
  taken : ∀ t rest, t :: rest <:+ ts → t.kind = .int → t.value ≤ Number.safeLimit →
    ∃ x, Grammar.plain (Grammar.operand (t :: rest)) = .ok (.int t.pos x, rest) ∧
      x.integer? = some (t.value : Int)
  /-- Where an operand is asked for, a literal out of range is refused. -/
  refused : ∀ t rest, t :: rest <:+ ts → t.kind = .int → Number.safeLimit < t.value →
    Grammar.plain (Grammar.operand (t :: rest)) = .error ⟨.integerRange, t⟩
  /-- If the text holds a program, all literals are in range and are, one for one and in order, the
  whole numbers of the program. -/
  kept : ∀ p, Program.ofSource source = .ok p →
    (∀ t ∈ ts, t.kind = .int → t.value ≤ Number.safeLimit) ∧
      List.Forall₂ (fun x t => x.1 = t.pos ∧ x.2.integer? = some (t.value : Int)) p.integers
        (ts.filter (·.kind == .int))
  /-- Only a literal out of range is refused for its range. -/
  blamed : ∀ t, Program.ofSource source = .error (.parse ⟨.integerRange, t⟩) →
    t ∈ ts ∧ t.kind = .int ∧ Number.safeLimit < t.value
  /-- The text is refused for a literal out of range if in its place any other literal would go on
  with what stands before it. -/
  told : ∀ before t rest w more p, ts = before ++ t :: rest → t.kind = .int →
    Number.safeLimit < t.value → Token.Ended (before ++ ⟨.int, w, t.pos⟩ :: more) →
    Program.ofTokens (before ++ ⟨.int, w, t.pos⟩ :: more) = .ok p →
    ∃ e, Program.ofSource source = .error e ∧
      e.report = .parse "Integer literal out of range" t.shown t.pos

theorem Program.ofSource_eq_error {source : String} {ts : List Token} {e : ParseError}
    (hts : Token.ofSource source = .ok ts) :
    Program.ofSource source = .error (.parse e) ↔ Program.ofTokens ts = .error e := by
  unfold Program.ofSource
  rw [hts]
  cases h : Program.ofTokens ts <;> simp [h]

/-- No whole number of a text is rounded. -/
theorem Program.ofSource_exact {source : String} {ts : List Token}
    (hts : Token.ofSource source = .ok ts) : Program.Exact source ts := by
  have hnumeral := Token.ofLines_isNumeral hts
  have hended : Token.Ended ts := Token.ended_of_ofLines (Token.lines_ne_nil _) hts
  have hmem : ∀ {t rest}, t :: rest <:+ ts → t ∈ ts :=
    fun h => h.subset List.mem_cons_self
  constructor
  case digits => exact hnumeral
  case taken =>
    intro t rest hsuffix hkind hvalue
    refine ⟨.ofNat t.value, ?_, Number.integer?_ofNat hvalue⟩
    rw [Grammar.plain_operand_cons, Grammar.lead_numeral (hnumeral t (hmem hsuffix) hkind),
      if_pos hvalue]
  case refused =>
    intro t rest hsuffix hkind hvalue
    have hlead := (Grammar.lead_numeral_eq_outOfRange (hnumeral t (hmem hsuffix) hkind)).mpr hvalue
    rw [Grammar.plain_operand_cons, hlead]
  case kept =>
    intro p hp
    obtain ⟨ts', hts', hp⟩ := Program.ofSource_eq_ok.mp hp
    cases hts.symm.trans hts'
    have hderivable := Grammar.derivable_of_statements hended hp
    have hrange : ∀ t ∈ ts, t.kind = .int → t.value ≤ Number.safeLimit := by
      intro t ht hkind
      refine Nat.le_of_not_lt fun hvalue => hderivable.lead_ne t ht ?_
      exact (Grammar.lead_numeral_eq_outOfRange (hnumeral t ht hkind)).mpr hvalue
    refine ⟨hrange, ?_⟩
    rw [Program.integers_eq hderivable.lists, List.forall₂_map_left_iff, List.forall₂_same]
    intro t ht
    obtain ⟨ht, hkind⟩ := List.mem_filter.mp ht
    have hkind := beq_iff_eq.mp hkind
    refine ⟨rfl, ?_⟩
    rw [(hnumeral t ht hkind).read_eq]
    exact Number.integer?_ofNat (hrange t ht hkind)
  case blamed =>
    intro t ht
    rw [Program.ofSource_eq_error hts] at ht
    obtain ⟨before, rest, rfl, -⟩ := Grammar.refuses_of_statements hended ht
    have hagree := Grammar.agree_statements (.mapPos id) (before ++ t :: rest)
    have hlead : Grammar.lead t = .outOfRange := hagree.founded ht rfl
    have hkind := Grammar.kind_of_outOfRange hlead
    have hin : t ∈ before ++ t :: rest := by simp
    exact ⟨hin, hkind, (Grammar.lead_numeral_eq_outOfRange (hnumeral t hin hkind)).mp hlead⟩
  case told =>
    rintro before t rest w more p rfl hkind hvalue hended' hp
    have hlead := (Grammar.lead_numeral_eq_outOfRange (hnumeral t (by simp) hkind)).mpr hvalue
    refine ⟨.parse ⟨.integerRange, t⟩, (Program.ofSource_eq_error hts).mpr ?_, rfl⟩
    exact Grammar.statements_outOfRange hlead hended' hp rest

/-- The first number that would be rounded is refused, and leading zeros are not looked at. -/
theorem Program.ofSource_exact_limit :
    let source := "x = f(007, 9007199254740993"
    let ts : List Token := [⟨.identifier, "x", ⟨1, 1⟩⟩, ⟨.op, "=", ⟨1, 3⟩⟩,
      ⟨.identifier, "f", ⟨1, 5⟩⟩, ⟨.lparen, "(", ⟨1, 6⟩⟩, ⟨.int, "007", ⟨1, 7⟩⟩,
      ⟨.comma, ",", ⟨1, 10⟩⟩, ⟨.int, "9007199254740993", ⟨1, 12⟩⟩, .newline ⟨1, 28⟩,
      .eof ⟨1, 28⟩]
    Token.ofSource source = .ok ts ∧ Program.Exact source ts ∧
      ∃ e, Program.ofSource source = .error e ∧
        e.report = .parse "Integer literal out of range" "'9007199254740993'" ⟨1, 12⟩ := by
  intro source ts
  have hts : Token.ofSource source = .ok ts := by decide +kernel
  have h := Program.ofSource_exact hts
  refine ⟨hts, h, ?_⟩
  -- With a small number in its place and a parenthesis behind that, the text would be a program.
  have hp : Program.ofTokens (ts.take 6 ++ ⟨.int, "1", ⟨1, 12⟩⟩ ::
      [⟨.rparen, ")", ⟨1, 13⟩⟩, .eof ⟨1, 14⟩]) =
      .ok [.assign ⟨1, 1⟩ "x"
        (.call ⟨1, 5⟩ "f" [.int ⟨1, 7⟩ (.ofNat 7), .int ⟨1, 12⟩ (.ofNat 1)])] := by
    decide +kernel
  exact h.told _ ⟨.int, "9007199254740993", ⟨1, 12⟩⟩ (ts.drop 7) _ _ _ rfl rfl
    (by decide +kernel) (by decide) hp

end SceneScript
