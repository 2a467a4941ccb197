import SceneScript.Proofs.Grammar.Acceptance

/-! Programs one after another. Where the tokens of a program end, other tokens can be put in place
of the end: the blocks still open are closed by other tokens, with ends of lines about them, and a
second program follows. What was derived before the seam is still derived, so the statements of the
two programs stand one after another. -/

namespace SceneScript.Grammar

/-- The second list is the first with `tail` in place of its end. Blocks may be closed by other
tokens and after some ends of lines; the flag tells whether the lists stand at the beginning of a
line, where alone a block is closed and the first list ends. -/
inductive Joined (tail : List Token) : Bool → List Token → List Token → Prop
  | stop {t : Token} {us : List Token} :
      t.kind = .eof → Newlines us tail → Joined tail true [t] us
  | close {t u : Token} {ts us mid : List Token} :
      t.kind = .dedent → u.kind = .dedent → Newlines mid (u :: us) → Joined tail true ts us →
      Joined tail true (t :: ts) mid
  | line {fresh : Bool} {t : Token} {ts us : List Token} :
      t.kind = .newline → Joined tail true ts us → Joined tail fresh (t :: ts) (t :: us)
  | code {fresh : Bool} {t : Token} {ts us : List Token} :
      t.kind.isLayout = false ∨ t.kind = .indent → Joined tail false ts us →
      Joined tail fresh (t :: ts) (t :: us)

/-- Whether a phrase takes the last token of its line, or ends where its own last block does. -/
def Phrase.fresh : Phrase → Bool
  | .statement s => s.endsInBlock
  | .parameters _ | .parameterList _ => false
  | .alternatives _ | .block _ | .lines _ => true

theorem Newlines.trans {ts mid rest : List Token} (h : Newlines ts mid) (h' : Newlines mid rest) :
    Newlines ts rest := by
  obtain ⟨lines, rfl, hlines⟩ := h
  obtain ⟨lines', rfl, hlines'⟩ := h'
  exact ⟨lines ++ lines', by simp, List.forall_mem_append.mpr ⟨hlines, hlines'⟩⟩

theorem Newlines.append {ts rest : List Token} (h : Newlines ts rest) (more : List Token) :
    Newlines (ts ++ more) (rest ++ more) := by
  obtain ⟨lines, rfl, hlines⟩ := h
  exact ⟨lines, List.append_assoc .., hlines⟩

theorem Newlines.isWord {w : String} {ts rest : List Token} (h : Newlines ts rest)
    (hrest : (peek rest).isWord w = false) : (peek ts).isWord w = false := by
  obtain ⟨lines, rfl, hlines⟩ := h
  cases lines with
  | nil => exact hrest
  | cons t lines =>
    show t.isWord w = false
    simp [Token.isWord, hlines t List.mem_cons_self]

/-- Ends of lines stand anywhere between the lines of a block. -/
theorem Newlines.lines {body : List Stmt} {ts mid rest : List Token} (h : Newlines ts mid)
    (hlines : Derives (.lines body) mid rest) : Derives (.lines body) ts rest := by
  obtain ⟨newlines, rfl, hnewlines⟩ := h
  induction newlines with
  | nil => exact hlines
  | cons t newlines ih =>
    rw [List.forall_mem_cons] at hnewlines
    exact .blank hnewlines.1 (ih hnewlines.2)

namespace Joined

variable {tail ts us : List Token} {fresh : Bool} {t : Token}

theorem mono (h : Joined tail fresh ts us) : Joined tail true ts us := by
  cases h with
  | stop ht hlines => exact .stop ht hlines
  | close ht hu hlines h => exact .close ht hu hlines h
  | line ht h => exact .line ht h
  | code ht h => exact .code ht h

theorem code_inv (h : Joined tail fresh (t :: ts) us)
    (ht : t.kind.isLayout = false ∨ t.kind = .indent) :
    ∃ us', us = t :: us' ∧ Joined tail false ts us' := by
  cases h with
  | stop hkind | close hkind | line hkind =>
    rw [hkind] at ht
    rcases ht with ht | ht <;> cases ht
  | code _ h => exact ⟨_, rfl, h⟩

theorem line_inv (h : Joined tail fresh (t :: ts) us) (ht : t.kind = .newline) :
    ∃ us', us = t :: us' ∧ Joined tail true ts us' := by
  cases h with
  | stop hkind | close hkind =>
    rw [hkind] at ht
    cases ht
  | line _ h => exact ⟨_, rfl, h⟩
  | code hkind =>
    rw [ht] at hkind
    rcases hkind with hkind | hkind <;> cases hkind

theorem close_inv (h : Joined tail fresh (t :: ts) us) (ht : t.kind = .dedent) :
    ∃ u us', u.kind = .dedent ∧ Newlines us (u :: us') ∧ Joined tail true ts us' := by
  cases h with
  | stop hkind | line hkind =>
    rw [hkind] at ht
    cases ht
  | close _ hu hlines h => exact ⟨_, _, hu, hlines, h⟩
  | code hkind =>
    rw [ht] at hkind
    rcases hkind with hkind | hkind <;> cases hkind

theorem stop_inv (h : Joined tail fresh (t :: ts) us) (ht : t.kind = .eof) :
    Newlines us tail := by
  cases h with
  | stop _ hlines => exact hlines
  | close hkind | line hkind =>
    rw [hkind] at ht
    cases ht
  | code hkind =>
    rw [ht] at hkind
    rcases hkind with hkind | hkind <;> cases hkind

/-- Within a line both lists go on with the same token. -/
theorem peek_eq (h : Joined tail false ts us) : peek us = peek ts := by
  cases h with
  | line | code => rfl

theorem isWord {w : String} (h : Joined tail fresh ts us) (hts : (peek ts).isWord w = false)
    (htail : (peek tail).isWord w = false) : (peek us).isWord w = false := by
  cases h with
  | stop _ hlines => exact hlines.isWord htail
  | @close _ u _ _ _ _ hu hlines =>
    refine hlines.isWord ?_
    show u.isWord w = false
    simp [Token.isWord, hu]
  | line | code => exact hts

theorem of_append {seg : List Token} (hseg : ∀ t ∈ seg, t.kind.isLayout = false) (hne : seg ≠ [])
    (h : Joined tail fresh (seg ++ ts) us) : ∃ us', us = seg ++ us' ∧ Joined tail false ts us' := by
  induction seg generalizing fresh us with
  | nil => exact absurd rfl hne
  | cons t seg ih =>
    rw [List.forall_mem_cons] at hseg
    obtain ⟨us, rfl, hbehind⟩ := h.code_inv (.inl hseg.1)
    by_cases hempty : seg = []
    · subst hempty
      exact ⟨us, rfl, hbehind⟩
    · obtain ⟨us', rfl, hrest⟩ := ih hseg.2 hempty hbehind
      exact ⟨us', rfl, hrest⟩

end Joined

theorem IsExpr.joined {e : Expr} {tail ts us rest : List Token} {fresh : Bool}
    (h : IsExpr e ts rest) (hj : Joined tail fresh ts us) :
    ∃ rest', IsExpr e us rest' ∧ Joined tail false rest rest' := by
  have hlength := length_lt_of_plain h
  obtain ⟨seg, rfl, hseg⟩ := (reads_expr_iff.mpr h).segment
  have hne : seg ≠ [] := by
    rintro rfl
    exact Nat.lt_irrefl _ hlength
  obtain ⟨rest', rfl, hrest⟩ := hj.of_append (fun t ht => (hseg.legible t ht).1) hne
  have hfollows : Follows rest rest' := by
    constructor
    · rw [hrest.peek_eq]
      exact id
    · rw [hrest.peek_eq]
      exact fun op => id
  exact ⟨rest', reads_expr_iff.mp (hseg.reads rest' hfollows), hrest⟩

/-- What ended a statement still ends it. -/
theorem Ends.joined {s : Stmt} {tail ts us rest : List Token} (h : Ends s ts rest)
    (hj : Joined tail s.endsInBlock ts us) :
    ∃ rest', Ends s us rest' ∧ Joined tail true rest rest' := by
  cases h with
  | newline ht =>
    obtain ⟨us, rfl, hrest⟩ := hj.line_inv ht
    exact ⟨us, .newline ht, hrest⟩
  | @before t _ ht =>
    -- Only at the beginning of a line is a block or a text closed, so the statement ended a block.
    cases hends : s.endsInBlock with
    | true => exact ⟨us, .closed hends, hj.mono⟩
    | false =>
      rw [hends] at hj
      cases hj with
      | line hkind => rcases ht with ht | ht <;> rw [hkind] at ht <;> cases ht
      | code hkind =>
        rcases ht with ht | ht <;> rw [ht] at hkind <;> rcases hkind with hkind | hkind <;>
          cases hkind
  | closed hends => exact ⟨us, .closed hends, hj.mono⟩

theorem Joined.word_inv {tail ts us : List Token} {fresh : Bool} {t : Token} {w : String}
    (h : Joined tail fresh (t :: ts) us) (ht : t.isWord w = true) :
    ∃ us', us = t :: us' ∧ Joined tail false ts us' :=
  h.code_inv (.inl (not_isLayout_of_isWord ht))

theorem Joined.kind_inv {tail ts us : List Token} {fresh : Bool} {t : Token} {kind : TokenKind}
    (h : Joined tail fresh (t :: ts) us) (ht : t.kind = kind) (hkind : kind.isLayout = false) :
    ∃ us', us = t :: us' ∧ Joined tail false ts us' :=
  h.code_inv (.inl (ht ▸ hkind))

/-- What is declared behind a word before the seam is declared behind it after the seam. -/
theorem IsExpr.declared_joined {word name sign : Token} {w : String} {init : Expr}
    {tail ts us rest : List Token} {fresh : Bool} (hinit : IsExpr init ts rest)
    (hword : word.isWord w = true) (hname : name.kind = .identifier) (hsign : sign.isOp "=" = true)
    (hj : Joined tail fresh (word :: name :: sign :: ts) us) :
    ∃ us' rest', us = word :: name :: sign :: us' ∧ IsExpr init us' rest' ∧
      Joined tail false rest rest' := by
  obtain ⟨_, rfl, hj₁⟩ := hj.word_inv hword
  obtain ⟨_, rfl, hj₂⟩ := hj₁.kind_inv hname rfl
  obtain ⟨us', rfl, hj₃⟩ := hj₂.kind_inv (kind_of_isOp hsign) rfl
  obtain ⟨rest', hinit', hrest⟩ := hinit.joined hj₃
  exact ⟨us', rest', rfl, hinit', hrest⟩

/-- What is derived before the seam is derived after it. -/
theorem Derives.joined {phrase : Phrase} {tail ts us rest : List Token} {fresh : Bool}
    (h : Derives phrase ts rest) (helif : (peek tail).isWord "elif" = false)
    (helse : (peek tail).isWord "else" = false) (hj : Joined tail fresh ts us) :
    ∃ rest', Derives phrase us rest' ∧ Joined tail phrase.fresh rest rest' := by
  induction h generalizing fresh us with
  | var hword hname hsign hinit =>
    obtain ⟨_, rest', rfl, hinit', hrest⟩ := hinit.declared_joined hword hname hsign hj
    exact ⟨rest', .var hword hname hsign hinit', hrest⟩
  | «let» hword hname hsign hinit =>
    obtain ⟨_, rest', rfl, hinit', hrest⟩ := hinit.declared_joined hword hname hsign hj
    exact ⟨rest', .let hword hname hsign hinit', hrest⟩
  | cond hword htest _ _ ihBody ihRest =>
    obtain ⟨_, rfl, hj₁⟩ := hj.word_inv hword
    obtain ⟨_, htest', hj₂⟩ := htest.joined hj₁
    obtain ⟨_, hbody', hj₃⟩ := ihBody hj₂
    obtain ⟨rest', halternatives', hrest⟩ := ihRest hj₃
    exact ⟨rest', .cond hword htest' hbody' halternatives', hrest⟩
  | loop hword hname hin hrange hopening hstart hcomma hstop hclose _ ih =>
    obtain ⟨_, rfl, hj₁⟩ := hj.word_inv hword
    obtain ⟨_, rfl, hj₂⟩ := hj₁.kind_inv hname rfl
    obtain ⟨_, rfl, hj₃⟩ := hj₂.word_inv hin
    obtain ⟨_, rfl, hj₄⟩ := hj₃.word_inv hrange
    obtain ⟨_, rfl, hj₅⟩ := hj₄.kind_inv hopening rfl
    obtain ⟨_, hstart', hj₆⟩ := hstart.joined hj₅
    obtain ⟨_, rfl, hj₇⟩ := hj₆.kind_inv hcomma rfl
    obtain ⟨_, hstop', hj₈⟩ := hstop.joined hj₇
    obtain ⟨_, rfl, hj₉⟩ := hj₈.kind_inv hclose rfl
    obtain ⟨rest', hbody', hrest⟩ := ih hj₉
    exact ⟨rest', .loop hword hname hin hrange hopening hstart' hcomma hstop' hclose hbody', hrest⟩
  | proc hword hname _ _ ihParams ihBody =>
    obtain ⟨_, rfl, hj₁⟩ := hj.word_inv hword
    obtain ⟨_, rfl, hj₂⟩ := hj₁.kind_inv hname rfl
    obtain ⟨_, hparams', hj₃⟩ := ihParams hj₂
    obtain ⟨rest', hbody', hrest⟩ := ihBody hj₃
    exact ⟨rest', .proc hword hname hparams' hbody', hrest⟩
  | ret hword hvalue =>
    obtain ⟨_, rfl, hj₁⟩ := hj.word_inv hword
    obtain ⟨rest', hvalue', hrest⟩ := hvalue.joined hj₁
    exact ⟨rest', .ret hword hvalue', hrest⟩
  | assign hkeyword hname hsign hvalue =>
    obtain ⟨_, rfl, hj₁⟩ := hj.kind_inv hname rfl
    obtain ⟨_, rfl, hj₂⟩ := hj₁.kind_inv (kind_of_isOp hsign) rfl
    obtain ⟨rest', hvalue', hrest⟩ := hvalue.joined hj₂
    exact ⟨rest', .assign hkeyword hname hsign hvalue', hrest⟩
  | expr hkeyword hassign he =>
    obtain ⟨_, rfl, hj₁⟩ := hj.code_inv (.inl he.not_isLayout)
    obtain ⟨rest', he', hrest⟩ := he.joined hj
    exact ⟨rest', .expr hkeyword (hj₁.peek_eq ▸ hassign) he', hrest⟩
  | noParameters hopening hclose =>
    obtain ⟨_, rfl, hj₁⟩ := hj.kind_inv hopening rfl
    obtain ⟨rest', rfl, hrest⟩ := hj₁.kind_inv hclose rfl
    exact ⟨rest', .noParameters hopening hclose, hrest⟩
  | someParameters hopening _ ih =>
    obtain ⟨_, rfl, hj₁⟩ := hj.kind_inv hopening rfl
    obtain ⟨rest', hlist', hrest⟩ := ih hj₁
    exact ⟨rest', .someParameters hopening hlist', hrest⟩
  | lastParameter hname hcolon htype hclose =>
    obtain ⟨_, rfl, hj₁⟩ := hj.kind_inv hname rfl
    obtain ⟨_, rfl, hj₂⟩ := hj₁.kind_inv hcolon rfl
    obtain ⟨_, rfl, hj₃⟩ := hj₂.kind_inv htype rfl
    obtain ⟨rest', rfl, hrest⟩ := hj₃.kind_inv hclose rfl
    exact ⟨rest', .lastParameter hname hcolon htype hclose, hrest⟩
  | parameter hname hcolon htype hcomma _ ih =>
    obtain ⟨_, rfl, hj₁⟩ := hj.kind_inv hname rfl
    obtain ⟨_, rfl, hj₂⟩ := hj₁.kind_inv hcolon rfl
    obtain ⟨_, rfl, hj₃⟩ := hj₂.kind_inv htype rfl
    obtain ⟨_, rfl, hj₄⟩ := hj₃.kind_inv hcomma rfl
    obtain ⟨rest', hlist', hrest⟩ := ih hj₄
    exact ⟨rest', .parameter hname hcolon htype hcomma hlist', hrest⟩
  | noAlternative hnoElif hnoElse =>
    exact ⟨us, .noAlternative (hj.isWord hnoElif helif) (hj.isWord hnoElse helse), hj.mono⟩
  | otherwise hword _ ih =>
    obtain ⟨_, rfl, hj₁⟩ := hj.word_inv hword
    obtain ⟨rest', hbody', hrest⟩ := ih hj₁
    exact ⟨rest', .otherwise hword hbody', hrest⟩
  | elif hword htest _ _ ihBody ihRest =>
    obtain ⟨_, rfl, hj₁⟩ := hj.word_inv hword
    obtain ⟨_, htest', hj₂⟩ := htest.joined hj₁
    obtain ⟨_, hbody', hj₃⟩ := ihBody hj₂
    obtain ⟨rest', halternatives', hrest⟩ := ihRest hj₃
    exact ⟨rest', .elif hword htest' hbody' halternatives', hrest⟩
  | block hcolon hline hopening _ ih =>
    obtain ⟨_, rfl, hj₁⟩ := hj.kind_inv hcolon rfl
    obtain ⟨_, rfl, hj₂⟩ := hj₁.line_inv hline
    obtain ⟨_, rfl, hj₃⟩ := hj₂.code_inv (.inr hopening)
    obtain ⟨rest', hlines', hrest⟩ := ih hj₃
    exact ⟨rest', .block hcolon hline hopening hlines', hrest⟩
  | close hclose =>
    obtain ⟨u, rest', hu, hlines, hrest⟩ := hj.close_inv hclose
    exact ⟨rest', hlines.lines (.close hu), hrest⟩
  | blank hline _ ih =>
    obtain ⟨_, rfl, hj₁⟩ := hj.line_inv hline
    obtain ⟨rest', hlines', hrest⟩ := ih hj₁
    exact ⟨rest', .blank hline hlines', hrest⟩
  | line _ hend _ ihStatement ihBody =>
    obtain ⟨_, hs', hj₁⟩ := ihStatement hj
    obtain ⟨_, hend', hj₂⟩ := hend.joined hj₁
    obtain ⟨rest', hlines', hrest⟩ := ihBody hj₂
    exact ⟨rest', .line hs' hend' hlines', hrest⟩

theorem Newlines.joined {tail ts us rest : List Token} (h : Newlines ts rest)
    (hj : Joined tail true ts us) :
    ∃ rest', Newlines us rest' ∧ Joined tail true rest rest' := by
  obtain ⟨lines, rfl, hlines⟩ := h
  induction lines generalizing us with
  | nil => exact ⟨us, .refl us, hj⟩
  | cons t lines ih =>
    rw [List.forall_mem_cons] at hlines
    obtain ⟨us, rfl, hbehind⟩ := hj.line_inv hlines.1
    obtain ⟨rest', hnewlines, hrest⟩ := ih hlines.2 hbehind
    exact ⟨rest', hnewlines.cons hlines.1, hrest⟩

theorem Newlines.derivable {ts rest : List Token} {p : Program} (h : Newlines ts rest)
    (hrest : Derivable rest p) : Derivable ts p := by
  obtain ⟨items, hlines, hitems⟩ := hrest
  exact ⟨items, h.trans hlines, hitems⟩

theorem Items.joined {tail ts us : List Token} {p q : Program} (h : Items ts p)
    (helif : (peek tail).isWord "elif" = false) (helse : (peek tail).isWord "else" = false)
    (htail : Derivable tail q) (hj : Joined tail true ts us) : Derivable us (p ++ q) := by
  induction h generalizing us with
  | stop ht => exact (hj.stop_inv ht).derivable htail
  | item hs hend hlines _ ih =>
    obtain ⟨_, hs', hj₁⟩ := hs.joined helif helse hj
    obtain ⟨_, hend', hj₂⟩ := hend.joined hj₁
    obtain ⟨_, hlines', hj₃⟩ := hlines.joined hj₂
    obtain ⟨items, hbehind, hitems⟩ := ih hj₃
    exact ⟨us, .refl us, .item hs' hend' (hlines'.trans hbehind) hitems⟩

/-- A program does not begin with an opening of a block. -/
theorem Derivable.peek_ne_indent {ts : List Token} {p : Program} (h : Derivable ts p) :
    (peek ts).kind ≠ .indent := by
  obtain ⟨items, ⟨lines, rfl, hlines⟩, hitems⟩ := h
  cases lines with
  | nil =>
    cases hitems with
    | stop ht =>
      rw [List.nil_append, peek, ht]
      nofun
    | item hs =>
      intro heq
      have hhead := hs.statement_head
      rw [List.nil_append] at heq
      rw [heq] at hhead
      cases hhead
  | cons t lines =>
    rw [List.cons_append, peek, hlines t List.mem_cons_self]
    nofun

/-- The program before the seam is followed by the one behind it. -/
theorem Derivable.joined {tail ts us : List Token} {p q : Program} (h : Derivable ts p)
    (helif : (peek tail).isWord "elif" = false) (helse : (peek tail).isWord "else" = false)
    (htail : Derivable tail q) (hj : Joined tail true ts us) : Derivable us (p ++ q) := by
  obtain ⟨items, hlines, hitems⟩ := h
  obtain ⟨items', hlines', hj'⟩ := hlines.joined hj
  exact hlines'.derivable (hitems.joined helif helse htail hj')

end SceneScript.Grammar
