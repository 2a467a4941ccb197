import SceneScript.Proofs.Grammar.Completion
import SceneScript.Proofs.Grammar.Walk

/-! Readers with a cursor do what the readers of lists do on the tokens from the cursor on, as long
as the cursor is not behind the first end token. They end as those do, and the cursor goes over what
those take. A loop is a reader of one round and the loop again, on lists as with a cursor. -/

namespace SceneScript.Grammar

/-! The last token of a statement. -/

/-- The last of the tokens of `ts` before `rest` is as `P` has it. -/
def LastIs (P : Token → Prop) (ts rest : List Token) : Prop := ∃ seg t, ts = seg ++ t :: rest ∧ P t

namespace LastIs

variable {P : Token → Prop} {ts mid rest : List Token}

theorem behind (hmid : Passes ts mid) (h : LastIs P mid rest) : LastIs P ts rest := by
  obtain ⟨before, rfl, -⟩ := hmid
  obtain ⟨seg, t, rfl, ht⟩ := h
  exact ⟨before ++ seg, t, by simp, ht⟩

theorem cons (t : Token) (h : LastIs P ts rest) : LastIs P (t :: ts) rest := by
  obtain ⟨seg, u, rfl, hu⟩ := h
  exact ⟨t :: seg, u, rfl, hu⟩

end LastIs

theorem IsExpr.last {e : Expr} {ts rest : List Token} (h : IsExpr e ts rest) :
    LastIs (·.kind ≠ .dedent) ts rest := by
  have hshort := length_lt_of_plain h
  obtain ⟨seg, rfl, hseg⟩ := (reads_expr_iff.mpr h).segment
  obtain rfl | ⟨before, t, rfl⟩ := List.eq_nil_or_concat seg
  · exact absurd hshort (Nat.lt_irrefl _)
  · have ht : t.kind.isLayout = false := (hseg.legible t (by simp)).1
    exact ⟨before, t, by simp, (kind_ne_of_isLayout rfl ht).symm⟩

/-- The last token of a phrase is the close of a block if the phrase ends in one. -/
def Phrase.Last (ts rest : List Token) : Phrase → Prop
  | .statement s => LastIs (fun t => t.kind = .dedent ↔ s.endsInBlock = true) ts rest
  | .alternatives _ => ts = rest ∨ LastIs (·.kind = .dedent) ts rest
  | .parameters _ | .parameterList _ => True
  | .block _ | .lines _ => LastIs (·.kind = .dedent) ts rest

theorem Derives.last {phrase : Phrase} {ts rest : List Token} (h : Derives phrase ts rest) :
    phrase.Last ts rest := by
  have hexpr : ∀ {s : Stmt} {ts rest : List Token}, s.endsInBlock = false →
      LastIs (·.kind ≠ .dedent) ts rest → (Phrase.statement s).Last ts rest := by
    rintro s ts rest hs ⟨seg, t, rfl, ht⟩
    exact ⟨seg, t, rfl, by simp [hs, ht]⟩
  have hblock : ∀ {s : Stmt} {ts rest : List Token}, s.endsInBlock = true →
      LastIs (·.kind = .dedent) ts rest → (Phrase.statement s).Last ts rest := by
    rintro s ts rest hs ⟨seg, t, rfl, ht⟩
    exact ⟨seg, t, rfl, by simp [hs, ht]⟩
  induction h with
  | var _ _ _ hinit | «let» _ _ _ hinit =>
    exact hexpr rfl (.cons _ (.cons _ (.cons _ hinit.last)))
  | ret _ hvalue => exact hexpr rfl (.cons _ hvalue.last)
  | assign _ _ _ hvalue => exact hexpr rfl (.cons _ (.cons _ hvalue.last))
  | expr _ _ he => exact hexpr rfl he.last
  | cond _ htest hbody _ ihBody ihRest =>
    refine hblock rfl (.cons _ (.behind htest.passes ?_))
    obtain rfl | hlast := ihRest
    · exact ihBody
    · exact .behind hbody.passes hlast
  | loop _ _ _ _ _ hstart hcomma hstop hclose _ ih =>
    have hpassed := hstart.passes.trans (.cons hcomma (by decide) hstop.passes)
    have hbody := LastIs.behind hpassed (.cons _ ih)
    exact hblock rfl (.cons _ (.cons _ (.cons _ (.cons _ (.cons _ hbody)))))
  | proc _ _ hparams _ _ ih =>
    exact hblock rfl (.cons _ (.cons _ (.behind hparams.passes ih)))
  | noParameters | someParameters | lastParameter | parameter => trivial
  | noAlternative => exact .inl rfl
  | otherwise _ _ ih => exact .inr (.cons _ ih)
  | elif _ htest hbody _ ihBody ihRest =>
    refine .inr (.cons _ (.behind htest.passes ?_))
    obtain rfl | hlast := ihRest
    · exact ihBody
    · exact .behind hbody.passes hlast
  | block _ _ _ _ ih => exact LastIs.cons _ (.cons _ (.cons _ ih))
  | close hclose => exact ⟨[], _, rfl, hclose⟩
  | blank _ _ ih => exact LastIs.cons _ ih
  | line hs hend _ _ ih => exact LastIs.behind (hs.passes.trans hend.passes) ih

namespace Walk

variable {α β : Type}

/-! Outcomes. -/

theorem headD_trail (i : Nat) : (trail i).headD 0 = i := by
  cases i <;> rfl

theorem outcome_bind_ok {x : Walk α} {i j : Nat} {a : α} (h : x.outcome i = some (.ok a, trail j))
    (f : α → Walk β) : (x >>= f).outcome i = (f a).outcome j := by
  show (x.outcome i).bind _ = _
  rw [h]
  rfl

theorem outcome_bind_error {x : Walk α} {i j : Nat} {e : ParseError}
    (h : x.outcome i = some (.error e, trail j)) (f : α → Walk β) :
    (x >>= f).outcome i = some (.error e, trail j) := by
  show (x.outcome i).bind _ = _
  rw [h]
  rfl

theorem outcome_cursor (i : Nat) : cursor.outcome i = some (.ok i, trail i) := by
  show some (Except.ok ((trail i).headD 0), trail i) = _
  rw [headD_trail]

theorem outcome_move (i : Nat) : move.outcome i = some (.ok (), trail (i + 1)) := by
  show some (Except.ok (), ((trail i).headD 0 + 1) :: trail i) = _
  rw [headD_trail]
  rfl

/-! Tokens up to the first end token. -/

theorem peek_of_eq_cons {t : Token} {us rest : List Token} (hus : us = t :: rest) :
    Grammar.peek us = t := by
  rw [hus, Grammar.peek]

/-- The first end token of the list is at the index `limit`. -/
structure EndsAt (ts : List Token) (limit : Nat) : Prop where
  stop : ∃ t, ts[limit]? = some t ∧ t.kind = .eof
  before : ∀ i t, ts[i]? = some t → t.kind = .eof → limit ≤ i

section

variable {ts : List Token} {limit : Nat} (h : EndsAt ts limit) {i : Nat}
include h

theorem EndsAt.lt_length : limit < ts.length := by
  obtain ⟨t, ht, -⟩ := h.stop
  exact (List.getElem?_eq_some_iff.mp ht).1

theorem EndsAt.exists_token (hi : i ≤ limit) :
    ∃ t, ts[i]? = some t ∧ ts.drop i = t :: ts.drop (i + 1) ∧ (t.kind ≠ .eof → i + 1 ≤ limit) := by
  have hlength := h.lt_length
  have hin : i < ts.length := by omega
  refine ⟨ts[i], List.getElem?_eq_getElem hin, List.drop_eq_getElem_cons hin, fun hkind => ?_⟩
  rcases Nat.lt_or_ge i limit with hlt | hge
  · exact hlt
  · obtain ⟨t, ht, heof⟩ := h.stop
    have heq : i = limit := Nat.le_antisymm hi hge
    subst heq
    rw [List.getElem?_eq_getElem hin] at ht
    cases ht
    exact absurd heof hkind

theorem EndsAt.eq_of_eof (hkind : (Grammar.peek (ts.drop i)).kind = .eof) (hi : i ≤ limit) :
    i = limit := by
  obtain ⟨t, ht, hdrop, -⟩ := h.exists_token hi
  rw [hdrop, Grammar.peek] at hkind
  exact Nat.le_antisymm hi (h.before i t ht hkind)

/-- What is taken from a cursor on, the cursor passes over. -/
theorem EndsAt.lt_of_short {j : Nat} (hshort : (ts.drop j).length < (ts.drop i).length)
    (hj : j ≤ limit) : i < j := by
  have hlength := h.lt_length
  rw [List.length_drop, List.length_drop] at hshort
  omega

theorem EndsAt.lt_of_plain {j : Nat} {r : Reading (Read (ts.drop i).length α)} {a : α}
    (hr : plain r = .ok (a, ts.drop j)) (hj : j ≤ limit) : i < j :=
  h.lt_of_short (length_lt_of_plain hr) hj

theorem outcome_peekAt {ahead : Nat} (hi : i + ahead ≤ limit) {t : Token}
    (ht : ts[i + ahead]? = some t) : (peekAt ts ahead).outcome i = some (.ok t, trail i) := by
  have hlength := h.lt_length
  refine (outcome_bind_ok (outcome_cursor i) _).trans ?_
  rw [Nat.min_eq_left (by omega), List.getD_eq_getElem?_getD, ht]
  rfl

variable {t : Token} (hi : i ≤ limit) (ht : ts[i]? = some t)
include hi ht

theorem outcome_peek : (peek ts).outcome i = some (.ok t, trail i) := outcome_peekAt h hi ht

theorem outcome_advance (hkind : t.kind ≠ .eof) :
    (advance ts).outcome i = some (.ok t, trail (i + 1)) := by
  refine (outcome_bind_ok (outcome_peek h hi ht) _).trans ?_
  rw [if_pos hkind]
  exact outcome_bind_ok (outcome_move i) _

theorem outcome_advance_eof (hkind : t.kind = .eof) :
    (advance ts).outcome i = some (.ok t, trail i) := by
  refine (outcome_bind_ok (outcome_peek h hi ht) _).trans ?_
  rw [if_neg (not_not_intro hkind)]
  rfl

theorem outcome_tryIf_true {test : Token → Bool} (htest : test t = true) :
    (tryIf ts test).outcome i = some (.ok true, trail (i + 1)) := by
  refine (outcome_bind_ok (outcome_peek h hi ht) _).trans ?_
  rw [if_pos htest]
  exact outcome_bind_ok (outcome_move i) _

theorem outcome_tryIf_false {test : Token → Bool} (htest : test t = false) :
    (tryIf ts test).outcome i = some (.ok false, trail i) := by
  refine (outcome_bind_ok (outcome_peek h hi ht) _).trans ?_
  rw [if_neg (by simp [htest])]
  rfl

theorem outcome_fail (what : Wanted) :
    (fail ts what : Walk α).outcome i = some (.error ⟨.expected what, t⟩, trail i) :=
  outcome_bind_ok (outcome_peek h hi ht) _

end

/-! Runs that do what readers of lists do. -/

/-- Started at the cursor `i`, the run ends as a reading of the tokens from there on does: with the
same result at the cursor of what that leaves, or with the same failure. Its cursor goes forward up
to `limit` at most, and so does the place of a failure. -/
inductive Mirrors (ts : List Token) (limit : Nat) (x : Walk α) (i : Nat) :
    Reading (α × List Token) → Prop
  | ok {a : α} {j : Nat} : i ≤ j → j ≤ limit → x.outcome i = some (.ok a, trail j) →
      Mirrors ts limit x i (.ok (a, ts.drop j))
  | error {e : ParseError} {j n : Nat} : i ≤ j → j ≤ limit → n ≤ limit → ts[n]? = some e.token →
      x.outcome i = some (.error e, trail j) → Mirrors ts limit x i (.error e)

namespace Mirrors

variable {ts : List Token} {limit i : Nat}

theorem pure (hi : i ≤ limit) (a : α) :
    Mirrors ts limit (Pure.pure a : Walk α) i (.ok (a, ts.drop i)) :=
  .ok (Nat.le_refl i) hi rfl

/-- A step that succeeds, before a run that does what a reading does. -/
theorem step {x : Walk α} {f : α → Walk β} {a : α} {j : Nat} {y : Reading (β × List Token)}
    (hx : x.outcome i = some (.ok a, trail j)) (hj : i ≤ j) (hf : Mirrors ts limit (f a) j y) :
    Mirrors ts limit (x >>= f) i y := by
  have hbind := outcome_bind_ok hx f
  cases hf with
  | ok hk hlimit hread => exact .ok (Nat.le_trans hj hk) hlimit (hbind.trans hread)
  | error hk hlimit hn hat hread =>
    exact .error (Nat.le_trans hj hk) hlimit hn hat (hbind.trans hread)

theorem bind {x : Walk α} {f : α → Walk β} {y : Reading (α × List Token)}
    {g : α × List Token → Reading (β × List Token)} (hx : Mirrors ts limit x i y)
    (hf : ∀ a j, y = .ok (a, ts.drop j) → i ≤ j → j ≤ limit →
      Mirrors ts limit (f a) j (g (a, ts.drop j))) : Mirrors ts limit (x >>= f) i (y >>= g) := by
  cases hx with
  | ok hj hlimit hread => exact .step hread hj (hf _ _ rfl hj hlimit)
  | error hj hlimit hn hat hread =>
    exact .error hj hlimit hn hat (outcome_bind_error hread f)

theorem outcome_eq {x : Walk α} {a : α} {j : Nat} (hx : Mirrors ts limit x i (.ok (a, ts.drop j)))
    (h : EndsAt ts limit) (hj : j ≤ limit) : x.outcome i = some (.ok a, trail j) := by
  generalize hread : Except.ok (a, ts.drop j) = y at hx
  cases hx with
  | @ok b k _ hk hout =>
    have hrest : ts.drop j = ts.drop k := congrArg Prod.snd (Except.ok.inj hread)
    have hlength := congrArg List.length hrest
    have hlimit := h.lt_length
    rw [List.length_drop, List.length_drop] at hlength
    obtain rfl : j = k := by omega
    cases hread
    exact hout
  | error _ _ _ _ _ => cases hread

/-- The result of a run given another form. -/
theorem map {x : Walk α} {y : Reading (α × List Token)} (hx : Mirrors ts limit x i y)
    (f : α → β) :
    Mirrors ts limit (x >>= fun a => Pure.pure (f a)) i (y >>= fun r => .ok (f r.1, r.2)) :=
  hx.bind fun a _ _ _ hlimit => .pure hlimit (f a)

end Mirrors

section

variable {ts : List Token} {limit : Nat} (h : EndsAt ts limit) {i : Nat} (hi : i ≤ limit)
include h hi

theorem mirrors_fail (what : Wanted) :
    Mirrors ts limit (fail ts what : Walk α) i (.error (missing what (ts.drop i))) := by
  obtain ⟨t, ht, hdrop, -⟩ := h.exists_token hi
  have hfail : (fail ts what : Walk α).outcome i = some (.error ⟨.expected what, t⟩, trail i) :=
    outcome_fail h hi ht what
  rw [hdrop]
  exact .error (Nat.le_refl i) hi hi ht hfail

/-- Taking a token on a test is finding it there or not. -/
theorem mirrors_tryIf {test : Token → Bool} (htest : ∀ t, test t = true → t.kind ≠ .eof)
    {f : Bool → Walk α} {y : Reading (α × List Token)}
    (hyes : next? test (ts.drop i) = some (ts.drop (i + 1)) → i + 1 ≤ limit →
      Mirrors ts limit (f true) (i + 1) y)
    (hno : next? test (ts.drop i) = none → Mirrors ts limit (f false) i y) :
    Mirrors ts limit (tryIf ts test >>= f) i y := by
  obtain ⟨t, ht, hdrop, hnext⟩ := h.exists_token hi
  cases hpasses : test t with
  | true =>
    refine .step (outcome_tryIf_true h hi ht hpasses) (Nat.le_succ i) (hyes ?_ ?_)
    · exact next?_eq_some.mpr ⟨t, hdrop, hpasses⟩
    · exact hnext (htest t hpasses)
  | false =>
    refine .step (outcome_tryIf_false h hi ht hpasses) (Nat.le_refl i) (hno ?_)
    rw [hdrop, next?, if_neg (by simp [hpasses])]

theorem mirrors_expectIf {test : Token → Bool} (htest : ∀ t, test t = true → t.kind ≠ .eof)
    (what : Wanted) :
    Mirrors ts limit (expectIf ts test what) i (plain (takeIf test what (ts.drop i))) := by
  obtain ⟨t, ht, hdrop, -⟩ := h.exists_token hi
  rw [plain_takeIf]
  refine .step (outcome_peek h hi ht) (Nat.le_refl i) ?_
  refine mirrors_tryIf h hi htest (fun hnext hlimit => ?_) (fun hnext => ?_)
  · rw [hnext, hdrop]
    exact .pure hlimit t
  · rw [hnext]
    exact mirrors_fail h hi what

theorem mirrors_expect {kind : TokenKind} (hkind : kind ≠ .eof) (what : Wanted) :
    Mirrors ts limit (expect ts kind what) i (plain (take kind what (ts.drop i))) := by
  obtain ⟨t, ht, hdrop, hnext⟩ := h.exists_token hi
  unfold take
  rw [plain_takeIf]
  refine .step (outcome_peek h hi ht) (Nat.le_refl i) ?_
  by_cases htkind : t.kind = kind
  · have hpasses : (t.kind == kind) = true := beq_iff_eq.mpr htkind
    rw [if_pos hpasses, hdrop, next?, if_pos hpasses]
    have hne : t.kind ≠ .eof := htkind ▸ hkind
    exact .ok (Nat.le_succ i) (hnext hne) (outcome_advance h hi ht hne)
  · have hfails : ¬ (t.kind == kind) = true := by simpa using htkind
    have hnone : next? (·.kind == kind) (ts.drop i) = none := by
      rw [hdrop, next?, if_neg hfails]
    rw [if_neg hfails, hnone]
    exact mirrors_fail h hi what

/-- A list in parentheses may be empty. -/
theorem mirrors_unlessClosed {x : Walk (List α)} {y : Reading (List α × List Token)}
    (hx : Mirrors ts limit x i y) :
    Mirrors ts limit
      (peek ts >>= fun t => if t.kind == .rparen
        then expect ts .rparen .closeParen >>= fun _ => Pure.pure [] else x) i
      ((next? (·.kind == .rparen) (ts.drop i)).elim y fun rest => .ok ([], rest)) := by
  obtain ⟨t, ht, hdrop, -⟩ := h.exists_token hi
  refine .step (outcome_peek h hi ht) (Nat.le_refl i) ?_
  rw [hdrop, next?]
  by_cases hkind : t.kind = .rparen
  · have hclose : plain (take .rparen .closeParen (ts.drop i)) = .ok (t, ts.drop (i + 1)) :=
      plain_take_eq_ok.mpr ⟨hdrop, hkind⟩
    have htaken := mirrors_expect h hi (show TokenKind.rparen ≠ .eof by decide) .closeParen
    rw [hclose] at htaken
    rw [if_pos (beq_iff_eq.mpr hkind), if_pos (beq_iff_eq.mpr hkind)]
    exact htaken.map fun _ => []
  · have hfails : ¬ (t.kind == .rparen) = true := by simpa using hkind
    rw [if_neg hfails, if_neg hfails]
    exact hx

end

/-- What taking a token on a test reads from a list. -/
def tryStep (test : Token → Bool) (us : List Token) : Reading (Bool × List Token) :=
  (next? test us).elim (.ok (false, us)) fun rest => .ok (true, rest)

theorem tryStep_short {test : Token → Bool} {us rest : List Token} {taken : Bool}
    (h : tryStep test us = .ok (taken, rest)) :
    rest.length ≤ us.length ∧ (taken = true → rest.length < us.length) := by
  unfold tryStep at h
  cases hnext : next? test us with
  | none =>
    rw [hnext] at h
    cases h
    exact ⟨Nat.le_refl _, fun h => absurd h Bool.false_ne_true⟩
  | some behind =>
    rw [hnext] at h
    cases h
    obtain ⟨t, rfl, -⟩ := next?_eq_some.mp hnext
    exact ⟨Nat.le_succ _, fun _ => Nat.lt_succ_self _⟩

theorem mirrors_tryStep {ts : List Token} {limit i : Nat} (h : EndsAt ts limit) (hi : i ≤ limit)
    {test : Token → Bool} (htest : ∀ t, test t = true → t.kind ≠ .eof) :
    Mirrors ts limit (tryIf ts test) i (tryStep test (ts.drop i)) := by
  rw [← bind_pure (tryIf ts test), tryStep]
  refine mirrors_tryIf h hi htest (fun hnext hlimit => ?_) (fun hnext => ?_)
  · rw [hnext]
    exact .pure hlimit true
  · rw [hnext]
    exact .pure hi false

/-! Expressions. At most six calls are nested before another token is taken, and how many a reader
needs of them is added to its bound. -/

/-- What a round over the operators behind an expression reads from a list. -/
def operatorStep (level : Nat) (left : Expr) (us : List Token) :
    Reading (Option Expr × List Token) :=
  (binaryOp? (Grammar.peek us)).elim (.ok (none, us)) fun op =>
    if op.precedence ≤ level then .ok (none, us)
    else plain (Grammar.expr op.precedence us.tail) >>= fun r =>
      .ok (some (.binary (Grammar.peek us).pos op left r.1), r.2)

/-- What a round over the arguments of a call reads from a list. -/
def argumentStep (us : List Token) : Reading ((Expr × Bool) × List Token) :=
  plain (Grammar.expr 0 us) >>= fun r =>
    tryStep (·.kind == .comma) r.2 >>= fun q => .ok ((r.1, q.1), q.2)

theorem plain_operators_eq (level : Nat) (left : Expr) (us : List Token) :
    plain (Grammar.operators level left us) = operatorStep level left us >>= fun r =>
      r.1.elim (.ok (left, r.2)) fun e => plain (Grammar.operators level e r.2) := by
  cases us with
  | nil => exact plain_operators_nil level left
  | cons t us =>
    rw [plain_operators_cons, operatorStep, Grammar.peek]
    cases binaryOp? t with
    | none => rfl
    | some op =>
      dsimp only [Option.elim_some]
      by_cases hlevel : op.precedence ≤ level
      · rw [if_pos hlevel, if_neg (Nat.not_lt.mpr hlevel)]
        rfl
      · rw [if_neg hlevel, if_pos (Nat.lt_of_not_le hlevel), List.tail_cons]
        cases plain (Grammar.expr op.precedence us) <;> rfl

theorem plain_argumentList_eq (us : List Token) :
    plain (Grammar.argumentList us) = argumentStep us >>= fun r =>
      if r.1.2 then plain (Grammar.argumentList r.2) >>= fun q => .ok (r.1.1 :: q.1, q.2)
      else plain (take .rparen .closeParen r.2) >>= fun q => .ok ([r.1.1], q.2) := by
  rw [plain_argumentList_elim, argumentStep]
  cases plain (Grammar.expr 0 us) with
  | error e => rfl
  | ok r =>
    dsimp only [bind, Except.bind]
    rw [tryStep]
    cases next? (·.kind == .comma) r.2 <;> rfl

theorem precedence_le_unary (op : BinaryOp) : op.precedence ≤ 100 := by
  rcases op with op | op | op <;> cases op <;> decide

/-- An expression above the level of every operator is an operand. -/
theorem plain_expr_unary (us : List Token) :
    plain (Grammar.expr 100 us) = plain (Grammar.operand us) := by
  rw [plain_expr]
  cases plain (Grammar.operand us) with
  | error e => rfl
  | ok r =>
    obtain ⟨left, rest⟩ := r
    have hstop : Reads (.operators 100 left left) rest rest :=
      .stop fun op _ => precedence_le_unary op
    exact hstop.read

theorem operatorStep_short {level : Nat} {left e : Expr} {us rest : List Token}
    (h : operatorStep level left us = .ok (some e, rest)) : rest.length < us.length := by
  unfold operatorStep at h
  cases hop : binaryOp? (Grammar.peek us) with
  | none =>
    rw [hop] at h
    cases h
  | some op =>
    rw [hop] at h
    dsimp only [Option.elim_some] at h
    split at h
    · cases h
    · obtain ⟨r, hright, hok⟩ := bind_eq_ok.mp h
      cases hok
      exact Nat.lt_of_lt_of_le (length_lt_of_plain hright) (by simp)

theorem argumentStep_short {us rest : List Token} {r : Expr × Bool}
    (h : argumentStep us = .ok (r, rest)) : rest.length < us.length := by
  obtain ⟨⟨e, mid⟩, he, h⟩ := bind_eq_ok.mp h
  obtain ⟨⟨more, behind⟩, hcomma, h⟩ := bind_eq_ok.mp h
  cases h
  exact Nat.lt_of_le_of_lt (tryStep_short hcomma).1 (length_lt_of_plain he)

mutual

theorem mirrors_expr {ts : List Token} {limit i n : Nat} (h : EndsAt ts limit)
    (hi : i ≤ limit) (hn : 6 * (limit - i) + 2 < n) (level : Nat) :
    Mirrors ts limit (expr ts n level) i (plain (Grammar.expr level (ts.drop i))) := by
  obtain _ | n := n
  · exact absurd hn (Nat.not_lt_zero _)
  rw [expr, plain_expr]
  refine (mirrors_operand h hi (by omega)).bind fun left j hleft _ hj => ?_
  have hlt := h.lt_of_plain hleft hj
  exact mirrors_operators h hj (by omega) level left
termination_by (limit - i, 2)

theorem mirrors_operators {ts : List Token} {limit i n : Nat} (h : EndsAt ts limit)
    (hi : i ≤ limit) (hn : 6 * (limit - i) + 1 < n) (level : Nat) (left : Expr) :
    Mirrors ts limit (operators ts n level left) i
      (plain (Grammar.operators level left (ts.drop i))) := by
  obtain _ | n := n
  · exact absurd hn (Nat.not_lt_zero _)
  rw [operators, plain_operators_eq]
  refine (mirrors_operatorRound h hi (by omega) level left).bind fun next j hnext _ hj => ?_
  cases next with
  | none => exact .pure hj left
  | some e =>
    have hlt := h.lt_of_short (operatorStep_short hnext) hj
    exact mirrors_operators h hj (by omega) level e
termination_by (limit - i, 1)

theorem mirrors_operatorRound {ts : List Token} {limit i n : Nat} (h : EndsAt ts limit)
    (hi : i ≤ limit) (hn : 6 * (limit - i) < n) (level : Nat) (left : Expr) :
    Mirrors ts limit (operatorRound ts n level left) i (operatorStep level left (ts.drop i)) := by
  obtain _ | n := n
  · exact absurd hn (Nat.not_lt_zero _)
  obtain ⟨t, ht, hdrop, hnext⟩ := h.exists_token hi
  have hpeek := peek_of_eq_cons hdrop
  have htail : (ts.drop i).tail = ts.drop (i + 1) := by rw [hdrop, List.tail_cons]
  rw [operatorRound, operatorStep, hpeek, htail]
  refine .step (outcome_peek h hi ht) (Nat.le_refl i) ?_
  cases hop : binaryOp? t with
  | none => exact .pure hi none
  | some op =>
    have hne : t.kind ≠ .eof := (kind_ne_of_isLayout rfl (not_isLayout_of_binaryOp? hop)).symm
    dsimp only [Option.elim_some]
    by_cases hlevel : op.precedence ≤ level
    · rw [if_pos hlevel, if_pos hlevel]
      exact .pure hi none
    · rw [if_neg hlevel, if_neg hlevel]
      refine .step (outcome_advance h hi ht hne) (Nat.le_succ i) ?_
      have hlimit := hnext hne
      exact (mirrors_expr h hlimit (by omega) op.precedence).map _
termination_by (limit - i, 0)

theorem mirrors_operand {ts : List Token} {limit i n : Nat} (h : EndsAt ts limit)
    (hi : i ≤ limit) (hn : 6 * (limit - i) + 1 < n) :
    Mirrors ts limit (operand ts n) i (plain (Grammar.operand (ts.drop i))) := by
  obtain _ | n := n
  · exact absurd hn (Nat.not_lt_zero _)
  obtain ⟨t, ht, hdrop, hnext⟩ := h.exists_token hi
  rw [operand, hdrop, plain_operand_cons]
  by_cases hkind : t.kind = .eof
  · refine .step (outcome_advance_eof h hi ht hkind) (Nat.le_refl i) ?_
    have hlead : lead t = .none := by
      unfold lead
      rw [hkind]
    rw [hlead]
    exact .error (Nat.le_refl i) hi hi ht rfl
  · have hlimit := hnext hkind
    refine .step (outcome_advance h hi ht hkind) (Nat.le_succ i) ?_
    cases lead t with
    | literal e => exact .pure hlimit e
    | outOfRange | none => exact .error (Nat.le_refl _) hlimit hi ht rfl
    | unary op =>
      have hoperand := mirrors_expr (n := n) h hlimit (by omega) 100
      rw [plain_expr_unary] at hoperand
      exact hoperand.map _
    | paren =>
      refine (mirrors_expr h hlimit (by omega) 0).bind fun e j _ _ hj => ?_
      exact (mirrors_expect h hj (by decide) .closeParen).map fun _ => e
    | name =>
      refine mirrors_tryIf h hlimit (ne_eof_of_kind (by decide)) (fun hopen hj => ?_)
        (fun hopen => ?_)
      · dsimp only
        rw [hopen]
        exact (mirrors_arguments h hj (by omega)).map _
      · dsimp only
        rw [hopen]
        exact .pure hlimit _
termination_by (limit - i, 1)

theorem mirrors_arguments {ts : List Token} {limit i n : Nat} (h : EndsAt ts limit)
    (hi : i ≤ limit) (hn : 6 * (limit - i) + 5 < n) :
    Mirrors ts limit (arguments ts n) i (plain (Grammar.arguments (ts.drop i))) := by
  obtain _ | n := n
  · exact absurd hn (Nat.not_lt_zero _)
  rw [arguments, plain_arguments_elim]
  exact mirrors_unlessClosed h hi (mirrors_argumentList h hi (by omega))
termination_by (limit - i, 5)

theorem mirrors_argumentList {ts : List Token} {limit i n : Nat} (h : EndsAt ts limit)
    (hi : i ≤ limit) (hn : 6 * (limit - i) + 4 < n) :
    Mirrors ts limit (argumentList ts n) i (plain (Grammar.argumentList (ts.drop i))) := by
  obtain _ | n := n
  · exact absurd hn (Nat.not_lt_zero _)
  rw [argumentList, plain_argumentList_eq]
  refine (mirrors_argumentRound h hi (by omega)).bind fun (e, more) j hround _ hj => ?_
  cases more with
  | false => exact (mirrors_expect h hj (by decide) .closeParen).map fun _ => [e]
  | true =>
    have hlt := h.lt_of_short (argumentStep_short hround) hj
    exact (mirrors_argumentList h hj (by omega)).map (e :: ·)
termination_by (limit - i, 4)

theorem mirrors_argumentRound {ts : List Token} {limit i n : Nat} (h : EndsAt ts limit)
    (hi : i ≤ limit) (hn : 6 * (limit - i) + 3 < n) :
    Mirrors ts limit (argumentRound ts n) i (argumentStep (ts.drop i)) := by
  obtain _ | n := n
  · exact absurd hn (Nat.not_lt_zero _)
  rw [argumentRound, argumentStep]
  refine (mirrors_expr h hi (by omega) 0).bind fun e j _ _ hj => ?_
  exact (mirrors_tryStep h hj (ne_eof_of_kind (by decide))).map fun more => (e, more)
termination_by (limit - i, 3)

end

/-! Parameters, loops and blocks. -/

section

variable {ts : List Token} {limit : Nat} (h : EndsAt ts limit) {i : Nat} (hi : i ≤ limit)
include h hi

theorem mirrors_expectOp (w : String) (what : Wanted) :
    Mirrors ts limit (expectIf ts (·.isOp w) what) i
      (plain (takeIf (·.isOp w) what (ts.drop i))) :=
  mirrors_expectIf h hi (fun t ht => by simp [kind_of_isOp ht]) what

theorem mirrors_expectWord (w : String) (what : Wanted) :
    Mirrors ts limit (expectIf ts (·.isWord w) what) i (plain (takeWord w what (ts.drop i))) :=
  mirrors_expectIf h hi ne_eof_of_isWord what

theorem mirrors_binding {n : Nat} (hn : 6 * (limit - i) + 2 < n) :
    Mirrors ts limit (binding ts n) i (plain (Grammar.binding (ts.drop i))) := by
  rw [plain_binding]
  refine (mirrors_expect h hi (by decide) .variableName).bind fun name j _ _ hj => ?_
  refine (mirrors_expectOp h hj "=" .assignSign).bind fun _ j _ _ hj => ?_
  exact (mirrors_expr h hj (by omega) 0).map fun init => (name.lexeme, init)

theorem mirrors_range {n : Nat} (hn : 6 * (limit - i) + 2 < n) :
    Mirrors ts limit (range ts n) i (plain (Grammar.range (ts.drop i))) := by
  rw [plain_range]
  refine (mirrors_expect h hi (by decide) .loopVariable).bind fun name j _ _ hj => ?_
  refine (mirrors_expectWord h hj "in" .inWord).bind fun _ j _ _ hj => ?_
  refine (mirrors_expectWord h hj "range" .rangeWord).bind fun _ j _ _ hj => ?_
  refine (mirrors_expect h hj (by decide) .rangeOpen).bind fun _ j _ _ hj => ?_
  refine (mirrors_expr h hj (by omega) 0).bind fun start j _ _ hj => ?_
  refine (mirrors_expect h hj (by decide) .rangeComma).bind fun _ j _ _ hj => ?_
  refine (mirrors_expr h hj (by omega) 0).bind fun stop j _ _ hj => ?_
  exact (mirrors_expect h hj (by decide) .rangeClose).map fun _ => (name.lexeme, start, stop)

theorem mirrors_blockStart :
    Mirrors ts limit (blockStart ts) i (plain (Grammar.blockStart (ts.drop i))) := by
  rw [plain_blockStart]
  refine (mirrors_expect h hi (by decide) .colon).bind fun _ j _ _ hj => ?_
  refine (mirrors_expect h hj (by decide) .lineAfterColon).bind fun _ j _ _ hj => ?_
  exact (mirrors_expect h hj (by decide) .block).map fun _ => ()

end

/-- What a round over the parameters of a procedure reads from a list. -/
def parameterStep (us : List Token) : Reading ((Param × Bool) × List Token) :=
  plain (take .identifier .parameterName us) >>= fun name =>
    plain (take .colon .parameterColon name.2) >>= fun colon =>
      plain (take .identifier .parameterType colon.2) >>= fun type =>
        tryStep (·.kind == .comma) type.2 >>= fun q =>
          .ok ((⟨name.1.lexeme, type.1.lexeme⟩, q.1), q.2)

theorem plain_parameterList_eq (us : List Token) :
    plain (Grammar.parameterList us) = parameterStep us >>= fun r =>
      if r.1.2 then plain (Grammar.parameterList r.2) >>= fun q => .ok (r.1.1 :: q.1, q.2)
      else .ok ([r.1.1], r.2) := by
  rw [plain_parameterList_elim, parameterStep]
  cases plain (take .identifier .parameterName us) with
  | error e => rfl
  | ok name =>
    dsimp only [bind, Except.bind]
    cases plain (take .colon .parameterColon name.2) with
    | error e => rfl
    | ok colon =>
      dsimp only
      cases plain (take .identifier .parameterType colon.2) with
      | error e => rfl
      | ok type =>
        dsimp only
        rw [tryStep]
        cases next? (·.kind == .comma) type.2 <;> rfl

theorem parameterStep_short {us rest : List Token} {r : Param × Bool}
    (h : parameterStep us = .ok (r, rest)) : rest.length < us.length := by
  obtain ⟨⟨name, afterName⟩, hname, h⟩ := bind_eq_ok.mp h
  obtain ⟨⟨colon, afterColon⟩, hcolon, h⟩ := bind_eq_ok.mp h
  obtain ⟨⟨type, mid⟩, htype, h⟩ := bind_eq_ok.mp h
  obtain ⟨⟨more, behind⟩, hcomma, h⟩ := bind_eq_ok.mp h
  cases h
  have := length_lt_of_plain hname
  have := length_lt_of_plain hcolon
  have := length_lt_of_plain htype
  have := (tryStep_short hcomma).1
  dsimp only at *
  omega

theorem mirrors_parameterRound {ts : List Token} {limit i : Nat} (h : EndsAt ts limit)
    (hi : i ≤ limit) : Mirrors ts limit (parameterRound ts) i (parameterStep (ts.drop i)) := by
  refine (mirrors_expect h hi (by decide) .parameterName).bind fun name j _ _ hj => ?_
  refine (mirrors_expect h hj (by decide) .parameterColon).bind fun _ j _ _ hj => ?_
  refine (mirrors_expect h hj (by decide) .parameterType).bind fun type j _ _ hj => ?_
  exact (mirrors_tryStep h hj (ne_eof_of_kind (by decide))).map fun more =>
    ((⟨name.lexeme, type.lexeme⟩ : Param), more)

theorem mirrors_parameterList {ts : List Token} {limit i n : Nat} (h : EndsAt ts limit)
    (hi : i ≤ limit) (hn : 6 * (limit - i) < n) :
    Mirrors ts limit (parameterList ts n) i (plain (Grammar.parameterList (ts.drop i))) := by
  obtain _ | n := n
  · exact absurd hn (Nat.not_lt_zero _)
  rw [parameterList, plain_parameterList_eq]
  refine (mirrors_parameterRound h hi).bind fun (p, more) j hround _ hj => ?_
  cases more with
  | false => exact .pure hj [p]
  | true =>
    have hlt := h.lt_of_short (parameterStep_short hround) hj
    exact (mirrors_parameterList h hj (by omega)).map (p :: ·)
termination_by limit - i

theorem mirrors_parameters {ts : List Token} {limit i n : Nat} (h : EndsAt ts limit)
    (hi : i ≤ limit) (hn : 6 * (limit - i) < n) :
    Mirrors ts limit (parameters ts n) i (plain (Grammar.parameters (ts.drop i))) := by
  rw [plain_parameters_elim]
  refine (mirrors_expect h hi (by decide) .openParen).bind fun _ j _ _ hj => ?_
  refine mirrors_unlessClosed h hj
    ((mirrors_parameterList h hj (by omega)).bind fun ps j _ _ hj => ?_)
  exact (mirrors_expect h hj (by decide) .closeParen).map fun _ => ps

/-! Statements. -/

section

variable {ts : List Token} {limit : Nat} (h : EndsAt ts limit)
include h

/-- Behind a statement, the token before the cursor is the last one of the statement. -/
theorem exists_previous {i j : Nat} {s : Stmt}
    (hs : plain (Grammar.statement (ts.drop i)) = .ok (s, ts.drop j)) (hj : j ≤ limit) :
    ∃ t, (previous ts).outcome j = some (.ok t, trail j) ∧
      (t.kind = .dedent ↔ s.endsInBlock = true) := by
  obtain ⟨seg, t, hseg, ht⟩ := (derives_of_statement hs).last
  have hlength := congrArg List.length hseg
  have hlimit := h.lt_length
  simp only [List.length_drop, List.length_append, List.length_cons] at hlength
  have hindex : j - 1 = i + seg.length := by omega
  have hat : ts[j - 1]? = some t := by
    rw [hindex, ← List.getElem?_drop, hseg]
    simp
  refine ⟨t, (outcome_bind_ok (outcome_cursor j) _).trans ?_, ht⟩
  rw [List.getD_eq_getElem?_getD, hat]
  rfl

theorem mirrors_statementEnd {i j : Nat} {s : Stmt}
    (hs : plain (Grammar.statement (ts.drop i)) = .ok (s, ts.drop j)) (hj : j ≤ limit) :
    Mirrors ts limit (statementEnd ts) j (plain (Grammar.statementEnd s (ts.drop j))) := by
  obtain ⟨before, hbefore, hends⟩ := exists_previous h hs hj
  obtain ⟨t, ht, hdrop, -⟩ := h.exists_token hj
  rw [plain_statementEnd_elim]
  refine mirrors_tryIf h hj (ne_eof_of_kind (by decide)) (fun hline hlimit => ?_) (fun hline => ?_)
  · rw [hline]
    exact .pure hlimit ()
  · have hpeek := peek_of_eq_cons hdrop
    have hdedent : (before.kind == .dedent) = s.endsInBlock := by
      rw [Bool.eq_iff_iff, beq_iff_eq, hends]
    rw [hline]
    refine .step hbefore (Nat.le_refl j) (.step (outcome_peek h hj ht) (Nat.le_refl j) ?_)
    dsimp only [Option.elim_none]
    rw [hdedent, at?, at?, hpeek]
    split
    · exact .pure hj ()
    · exact mirrors_fail h hj .lineEnd

/-- A statement with what ends it. -/
theorem mirrors_item {i n : Nat} {f : Stmt → α}
    (hs : Mirrors ts limit (statement ts n) i (plain (Grammar.statement (ts.drop i)))) :
    Mirrors ts limit (statement ts n >>= fun s => statementEnd ts >>= fun _ => Pure.pure (f s)) i
      (item (ts.drop i) >>= fun r => .ok (f r.1, r.2)) := by
  have hitem : (item (ts.drop i) >>= fun r => .ok (f r.1, r.2)) =
      plain (Grammar.statement (ts.drop i)) >>= fun r =>
        plain (Grammar.statementEnd r.1 r.2) >>= fun q => .ok (f r.1, q.2) := by
    unfold item
    cases plain (Grammar.statement (ts.drop i)) with
    | error e => rfl
    | ok r =>
      dsimp only [bind, Except.bind]
      cases plain (Grammar.statementEnd r.1 r.2) <;> rfl
  rw [hitem]
  refine hs.bind fun s j hread _ hj => ?_
  exact (mirrors_statementEnd h hread hj).map fun _ => f s

end

theorem mirrors_simple {ts : List Token} {limit i n : Nat} (h : EndsAt ts limit)
    (hi : i ≤ limit) (hn : 6 * (limit - i) + 2 < n) :
    Mirrors ts limit (simple ts n) i (plain (Grammar.simple (ts.drop i))) := by
  obtain ⟨t, ht, hdrop, hnext⟩ := h.exists_token hi
  -- Only behind a name does it matter which token is looked at.
  have hsign : ∃ sign, (peekAt ts 1).outcome i = some (.ok sign, trail i) ∧
      (t.kind = .identifier → ts.drop (i + 1) = sign :: ts.drop (i + 1 + 1) ∧ i + 1 ≤ limit) := by
    by_cases hname : t.kind = .identifier
    · have hlimit := hnext (by simp [hname])
      obtain ⟨sign, hat, hbehind, -⟩ := h.exists_token hlimit
      exact ⟨sign, outcome_peekAt h hlimit hat, fun _ => ⟨hbehind, hlimit⟩⟩
    · exact ⟨_, outcome_bind_ok (outcome_cursor i) _, fun hkind => absurd hkind hname⟩
  obtain ⟨sign, hsign, hbehind⟩ := hsign
  refine .step (outcome_peek h hi ht) (Nat.le_refl i) (.step hsign (Nat.le_refl i) ?_)
  by_cases hassign : t.kind = .identifier ∧ sign.isOp "=" = true
  · obtain ⟨hbehind, hlimit⟩ := hbehind hassign.1
    have htaken := mirrors_expectOp h hlimit "=" .assignSign
    rw [plain_takeIf_eq_ok.mpr ⟨hbehind, hassign.2⟩] at htaken
    rw [if_pos hassign, hdrop, hbehind, plain_simple_assign hassign.1 hassign.2]
    refine .step (outcome_advance h hi ht (by simp [hassign.1])) (Nat.le_succ i) ?_
    refine htaken.bind (g := fun r => plain (Grammar.expr 0 r.2) >>= fun q =>
      .ok (Stmt.assign t.pos t.lexeme q.1, q.2)) fun _ j _ _ hj => ?_
    exact (mirrors_expr h hj (by omega) 0).map fun value => Stmt.assign t.pos t.lexeme value
  · have hplain : (Grammar.peek (ts.drop i)).kind = .identifier →
        (Grammar.peek (ts.drop i).tail).isOp "=" = false := by
      rw [hdrop, Grammar.peek, List.tail_cons]
      intro hname
      rw [(hbehind hname).1, Grammar.peek]
      simpa [hname] using hassign
    rw [if_neg hassign, plain_simple_expr hplain]
    have hpeek := peek_of_eq_cons hdrop
    rw [hpeek]
    exact (mirrors_expr h hi (by omega) 0).map fun e => Stmt.expr t.pos e

/-- What a round over the further branches of a conditional reads from a list. -/
def elifStep (us : List Token) : Reading (Option (Expr × List Stmt) × List Token) :=
  (next? (·.isWord "elif") us).elim (.ok (none, us)) fun rest =>
    plain (Grammar.expr 0 rest) >>= fun test =>
      plain (Grammar.block test.2) >>= fun body => .ok (some (test.1, body.1), body.2)

/-- What a round over the lines of a block reads from a list. -/
def blockStep (us : List Token) : Reading (Option (Option Stmt) × List Token) :=
  (next? (·.kind == .newline) us).elim
    (if at? .dedent us || at? .eof us then .ok (none, us)
      else item us >>= fun r => .ok (some (some r.1), r.2))
    fun rest => .ok (some none, rest)

theorem plain_alternatives_eq (us : List Token) :
    plain (Grammar.alternatives us) = elifStep us >>= fun r =>
      r.1.elim
        ((next? (·.isWord "else") r.2).elim (.ok (.none, r.2)) fun rest =>
          plain (Grammar.block rest) >>= fun body => .ok (.otherwise body.1, body.2))
        fun branch => plain (Grammar.alternatives r.2) >>= fun q =>
          .ok (.elif branch.1 branch.2 q.1, q.2) := by
  rw [plain_alternatives_elim, elifStep]
  cases next? (·.isWord "elif") us with
  | none => rfl
  | some rest =>
    dsimp only [Option.elim_some, bind, Except.bind]
    cases plain (Grammar.expr 0 rest) with
    | error e => rfl
    | ok test =>
      dsimp only
      cases plain (Grammar.block test.2) <;> rfl

theorem plain_blockBody_eq (us : List Token) :
    plain (Grammar.blockBody us) = blockStep us >>= fun r =>
      r.1.elim (.ok ([], r.2)) fun line => line.elim (plain (Grammar.blockBody r.2)) fun s =>
        plain (Grammar.blockBody r.2) >>= fun q => .ok (s :: q.1, q.2) := by
  rw [plain_blockBody_elim, blockStep]
  cases next? (·.kind == .newline) us with
  | some rest => rfl
  | none =>
    dsimp only [Option.elim_none]
    split
    · rfl
    · unfold item
      cases plain (Grammar.statement us) with
      | error e => rfl
      | ok r =>
        dsimp only [bind, Except.bind]
        cases plain (Grammar.statementEnd r.1 r.2) <;> rfl

theorem elifStep_short {us rest : List Token} {branch : Expr × List Stmt}
    (h : elifStep us = .ok (some branch, rest)) : rest.length < us.length := by
  unfold elifStep at h
  cases hnext : next? (·.isWord "elif") us with
  | none =>
    rw [hnext] at h
    cases h
  | some behind =>
    rw [hnext] at h
    obtain ⟨word, rfl, -⟩ := next?_eq_some.mp hnext
    obtain ⟨⟨test, afterTest⟩, htest, h⟩ := bind_eq_ok.mp h
    obtain ⟨⟨body, afterBody⟩, hbody, h⟩ := bind_eq_ok.mp h
    cases h
    have := length_lt_of_plain htest
    have := length_lt_of_plain hbody
    simp only [List.length_cons] at *
    omega

theorem blockStep_short {us rest : List Token} {line : Option Stmt}
    (h : blockStep us = .ok (some line, rest)) : rest.length < us.length := by
  unfold blockStep at h
  cases hnext : next? (·.kind == .newline) us with
  | some behind =>
    rw [hnext] at h
    cases h
    obtain ⟨t, rfl, -⟩ := next?_eq_some.mp hnext
    exact Nat.lt_succ_self _
  | none =>
    rw [hnext] at h
    dsimp only [Option.elim_none] at h
    split at h
    · cases h
    · obtain ⟨⟨s, behind⟩, hs, h⟩ := bind_eq_ok.mp h
      cases h
      exact item_short hs

mutual

theorem mirrors_statement {ts : List Token} {limit i n : Nat} (h : EndsAt ts limit)
    (hi : i ≤ limit) (hn : 6 * (limit - i) + 3 < n) :
    Mirrors ts limit (statement ts n) i (plain (Grammar.statement (ts.drop i))) := by
  obtain _ | n := n
  · exact absurd hn (Nat.not_lt_zero _)
  obtain ⟨t, ht, hdrop, hnext⟩ := h.exists_token hi
  have hpeek := peek_of_eq_cons hdrop
  rw [statement]
  refine .step (outcome_peek h hi ht) (Nat.le_refl i) ?_
  cases hkeyword : keyword? t with
  | none =>
    rw [plain_statement_simple (hpeek ▸ hkeyword)]
    exact mirrors_simple h hi (by omega)
  | some k =>
    have hne : t.kind ≠ .eof := ne_eof_of_isWord t (keyword?_eq_some.mp hkeyword)
    have hlimit := hnext hne
    have htaken := outcome_advance h hi ht hne
    rw [hdrop, plain_statement_cons, hkeyword]
    cases k with
    | var =>
      refine .step htaken (Nat.le_succ i) ?_
      exact (mirrors_binding h hlimit (by omega)).map fun r => Stmt.var t.pos r.1 r.2
    | «let» =>
      refine .step htaken (Nat.le_succ i) ?_
      exact (mirrors_binding h hlimit (by omega)).map fun r => Stmt.let t.pos r.1 r.2
    | cond =>
      refine .step htaken (Nat.le_succ i) ?_
      refine (mirrors_expr h hlimit (by omega) 0).bind fun test j _ hle hj => ?_
      refine (mirrors_block h hj (by omega)).bind fun body k hbody hle' hk => ?_
      exact (mirrors_alternatives h hk (by omega)).map fun rest => Stmt.cond t.pos test body rest
    | loop =>
      refine .step htaken (Nat.le_succ i) ?_
      refine (mirrors_range h hlimit (by omega)).bind fun (name, start, stop) j _ hle hj => ?_
      exact (mirrors_block h hj (by omega)).map fun body => Stmt.loop t.pos name start stop body
    | proc =>
      refine .step htaken (Nat.le_succ i) ?_
      refine (mirrors_expect h hlimit (by decide) .procName).bind fun name j _ hle hj => ?_
      refine (mirrors_parameters h hj (by omega)).bind fun params k _ hle' hk => ?_
      exact (mirrors_block h hk (by omega)).map fun body => Stmt.proc t.pos name.lexeme params body
    | ret =>
      refine .step htaken (Nat.le_succ i) ?_
      exact (mirrors_expr h hlimit (by omega) 0).map fun value => Stmt.ret t.pos value
termination_by (limit - i, 0)

theorem mirrors_alternatives {ts : List Token} {limit i n : Nat} (h : EndsAt ts limit)
    (hi : i ≤ limit) (hn : 6 * (limit - i) + 1 < n) :
    Mirrors ts limit (alternatives ts n) i (plain (Grammar.alternatives (ts.drop i))) := by
  obtain _ | n := n
  · exact absurd hn (Nat.not_lt_zero _)
  rw [alternatives, plain_alternatives_eq]
  refine (mirrors_elifRound h hi (by omega)).bind fun next j hround hle hj => ?_
  cases next with
  | some branch =>
    have hlt := h.lt_of_short (elifStep_short hround) hj
    exact (mirrors_alternatives h hj (by omega)).map fun rest =>
      Alternative.elif branch.1 branch.2 rest
  | none =>
    refine mirrors_tryIf h hj ne_eof_of_isWord (fun hword hlimit => ?_) (fun hword => ?_)
    · dsimp only [Option.elim_none]
      rw [hword]
      exact (mirrors_block h hlimit (by omega)).map fun body => Alternative.otherwise body
    · dsimp only [Option.elim_none]
      rw [hword]
      exact .pure hj Alternative.none
termination_by (limit - i, 1)

theorem mirrors_elifRound {ts : List Token} {limit i n : Nat} (h : EndsAt ts limit)
    (hi : i ≤ limit) (hn : 6 * (limit - i) < n) :
    Mirrors ts limit (elifRound ts n) i (elifStep (ts.drop i)) := by
  obtain _ | n := n
  · exact absurd hn (Nat.not_lt_zero _)
  rw [elifRound, elifStep]
  refine mirrors_tryIf h hi ne_eof_of_isWord (fun hword hlimit => ?_) (fun hword => ?_)
  · rw [hword]
    refine (mirrors_expr h hlimit (by omega) 0).bind fun test j _ hle hj => ?_
    exact (mirrors_block h hj (by omega)).map fun body => some (test, body)
  · rw [hword]
    exact .pure hi none
termination_by (limit - i, 0)

theorem mirrors_block {ts : List Token} {limit i n : Nat} (h : EndsAt ts limit)
    (hi : i ≤ limit) (hn : 6 * (limit - i) < n) :
    Mirrors ts limit (block ts n) i (plain (Grammar.block (ts.drop i))) := by
  obtain _ | n := n
  · exact absurd hn (Nat.not_lt_zero _)
  rw [block, plain_block]
  refine (mirrors_blockStart h hi).bind fun _ j hstart _ hj => ?_
  have hlt := h.lt_of_plain hstart hj
  refine (mirrors_blockBody h hj (by omega)).bind fun body k _ _ hk => ?_
  exact (mirrors_expect h hk (by decide) .blockEnd).map fun _ => body
termination_by (limit - i, 0)

theorem mirrors_blockBody {ts : List Token} {limit i n : Nat} (h : EndsAt ts limit)
    (hi : i ≤ limit) (hn : 6 * (limit - i) + 5 < n) :
    Mirrors ts limit (blockBody ts n) i (plain (Grammar.blockBody (ts.drop i))) := by
  obtain _ | n := n
  · exact absurd hn (Nat.not_lt_zero _)
  rw [blockBody, plain_blockBody_eq]
  refine (mirrors_blockRound h hi (by omega)).bind fun next j hround _ hj => ?_
  cases next with
  | none => exact .pure hj []
  | some line =>
    have hlt := h.lt_of_short (blockStep_short hround) hj
    cases line with
    | none => exact mirrors_blockBody h hj (by omega)
    | some s => exact (mirrors_blockBody h hj (by omega)).map (s :: ·)
termination_by (limit - i, 2)

theorem mirrors_blockRound {ts : List Token} {limit i n : Nat} (h : EndsAt ts limit)
    (hi : i ≤ limit) (hn : 6 * (limit - i) + 4 < n) :
    Mirrors ts limit (blockRound ts n) i (blockStep (ts.drop i)) := by
  obtain _ | n := n
  · exact absurd hn (Nat.not_lt_zero _)
  obtain ⟨t, ht, hdrop, -⟩ := h.exists_token hi
  have hpeek := peek_of_eq_cons hdrop
  rw [blockRound, blockStep, at?, at?, hpeek]
  refine .step (outcome_peek h hi ht) (Nat.le_refl i) ?_
  by_cases hstop : (t.kind == .dedent || t.kind == .eof) = true
  · have hline : next? (·.kind == .newline) (ts.drop i) = none := by
      rw [hdrop, next?, if_neg]
      intro hkind
      rw [beq_iff_eq.mp hkind] at hstop
      cases hstop
    rw [if_pos hstop, if_pos hstop, hline]
    exact .pure hi none
  · rw [if_neg hstop, if_neg hstop]
    refine mirrors_tryIf h hi (ne_eof_of_kind (by decide)) (fun hline hlimit => ?_)
      (fun hline => ?_)
    · rw [hline]
      exact .pure hlimit (some none)
    · rw [hline]
      exact mirrors_item h (mirrors_statement h hi (by omega))
termination_by (limit - i, 1)

end

/-! Programs. -/

/-- A statement with what ends it, or the end of the text. -/
def itemOrEnd (us : List Token) : Reading (Option Stmt × List Token) :=
  if at? .eof us then .ok (none, us) else item us >>= fun r => .ok (some r.1, r.2)

/-- What a round over the statements of a program reads from a list. -/
def programStep (us : List Token) : Reading (Option Stmt × List Token) :=
  itemOrEnd (us.dropWhile (·.kind == .newline))

theorem statements_dropWhile (us : List Token) :
    statements (us.dropWhile (·.kind == .newline)) = statements us := by
  refine (Newlines.statements ⟨_, List.takeWhile_append_dropWhile.symm, fun t ht => ?_⟩).symm
  exact beq_iff_eq.mp (List.all_eq_true.mp List.all_takeWhile t ht)

theorem peek_dropWhile (us : List Token) :
    (Grammar.peek (us.dropWhile (·.kind == .newline))).kind ≠ .newline := by
  induction us with
  | nil => decide
  | cons t us ih =>
    by_cases ht : (t.kind == .newline) = true
    · rw [List.dropWhile_cons, if_pos ht]
      exact ih
    · rw [List.dropWhile_cons, if_neg ht, Grammar.peek]
      exact fun hkind => ht (beq_iff_eq.mpr hkind)

theorem statements_eq_step (us : List Token) :
    statements us = programStep us >>= fun r =>
      r.1.elim (.ok []) fun s => statements r.2 >>= fun body => .ok (s :: body) := by
  have hline := peek_dropWhile us
  rw [← statements_dropWhile us, programStep, itemOrEnd]
  generalize us.dropWhile (·.kind == .newline) = rest at hline
  by_cases hend : at? .eof rest = true
  · rw [if_pos hend, statements_eq, (next?_kind_eq_none (by decide)).mpr hline]
    exact if_pos hend
  · rw [if_neg hend, statements_item hline fun h => hend (at?_iff.mpr h)]
    cases item rest <;> rfl

theorem programStep_short {us rest : List Token} {s : Stmt}
    (h : programStep us = .ok (some s, rest)) : rest.length < us.length := by
  unfold programStep itemOrEnd at h
  split at h
  · cases h
  · obtain ⟨⟨s, behind⟩, hs, h⟩ := bind_eq_ok.mp h
    cases h
    have hle := (List.dropWhile_suffix (l := us) fun t : Token => t.kind == .newline).length_le
    exact Nat.lt_of_lt_of_le (item_short hs) hle

theorem programStep_none {us rest : List Token} (h : programStep us = .ok (none, rest)) :
    (Grammar.peek rest).kind = .eof := by
  unfold programStep itemOrEnd at h
  split at h
  · next hend =>
    cases h
    exact at?_iff.mp hend
  · obtain ⟨_, _, h⟩ := bind_eq_ok.mp h
    cases h

theorem mirrors_skipLines {ts : List Token} {limit i n : Nat} (h : EndsAt ts limit)
    (hi : i ≤ limit) (hn : 6 * (limit - i) < n) :
    Mirrors ts limit (skipLines ts n) i (.ok ((), (ts.drop i).dropWhile (·.kind == .newline))) := by
  obtain _ | n := n
  · exact absurd hn (Nat.not_lt_zero _)
  rw [skipLines]
  refine mirrors_tryIf h hi (ne_eof_of_kind (by decide)) (fun hline hlimit => ?_) (fun hline => ?_)
  · obtain ⟨t, hdrop, ht⟩ := next?_eq_some.mp hline
    rw [hdrop, List.dropWhile_cons, if_pos ht]
    exact mirrors_skipLines h hlimit (by omega)
  · obtain ⟨t, -, hdrop, -⟩ := h.exists_token hi
    have hkind := (next?_kind_eq_none (by decide)).mp hline
    rw [hdrop, Grammar.peek] at hkind
    have hstay : (ts.drop i).dropWhile (·.kind == .newline) = ts.drop i := by
      rw [hdrop, List.dropWhile_cons, if_neg fun ht => hkind (beq_iff_eq.mp ht)]
    rw [hstay]
    exact .pure hi ()
termination_by limit - i

theorem mirrors_programRound {ts : List Token} {limit i n : Nat} (h : EndsAt ts limit)
    (hi : i ≤ limit) (hn : 6 * (limit - i) + 3 < n) :
    Mirrors ts limit (programRound ts n) i (programStep (ts.drop i)) := by
  refine (mirrors_skipLines h hi (by omega)).bind (g := fun r => itemOrEnd r.2) fun _ j _ _ hj => ?_
  obtain ⟨t, ht, hdrop, -⟩ := h.exists_token hj
  have hpeek := peek_of_eq_cons hdrop
  refine .step (outcome_peek h hj ht) (Nat.le_refl j) ?_
  dsimp only
  rw [itemOrEnd, at?, hpeek]
  split
  · exact .pure hj none
  · exact mirrors_item h (mirrors_statement h hj (by omega))

/-- A program that is read is read up to the first end token. -/
theorem mirrors_program {ts : List Token} {limit i n : Nat} (h : EndsAt ts limit)
    (hi : i ≤ limit) (hn : 6 * (limit - i) + 4 < n) :
    Mirrors ts limit (program ts n) i
      (statements (ts.drop i) >>= fun p => .ok (p, ts.drop limit)) := by
  obtain _ | n := n
  · exact absurd hn (Nat.not_lt_zero _)
  rw [program, statements_eq_step, bind_assoc]
  refine (mirrors_programRound h hi (by omega)).bind fun next j hround _ hj => ?_
  cases next with
  | none =>
    obtain rfl : j = limit := h.eq_of_eof (programStep_none hround) hj
    exact .pure hj []
  | some s =>
    have hlt := h.lt_of_short (programStep_short hround) hj
    have hbody := (mirrors_program (n := n) h hj (by omega)).map (s :: ·)
    rw [bind_assoc] at hbody
    dsimp only [Option.elim_some]
    rw [bind_assoc]
    exact hbody
termination_by limit - i

end Walk

end SceneScript.Grammar
