import SceneScript.Proofs.Grammar.Acceptance

/-! Readers that fail as soon as they can. A viable reader looks at no token behind the one that
decides: what it takes it takes before any rest that begins alike, and where it fails, the tokens
before could still have been completed. The readers of expressions are viable, and steps of viable
readers are. -/

namespace SceneScript.Grammar

variable {α β : Type}

/-- A reader without the bound on what it leaves. -/
abbrev Reader (α : Type) := List Token → Reading (α × List Token)

/-- No token of the list is the end of the text. -/
def Unended (ts : List Token) : Prop := ∀ t ∈ ts, t.kind ≠ .eof

theorem Unended.append {ts us : List Token} (ht : Unended ts) (hu : Unended us) :
    Unended (ts ++ us) := List.forall_mem_append.mpr ⟨ht, hu⟩

theorem peek_append {seg : List Token} (h : seg ≠ []) (us vs : List Token) :
    peek (seg ++ us) = peek (seg ++ vs) := by
  cases seg with
  | nil => exact absurd rfl h
  | cons t seg => rfl

theorem peek_append_cons (seg : List Token) (t : Token) (us vs : List Token) :
    peek (seg ++ t :: us) = peek (seg ++ t :: vs) := by
  cases seg <;> rfl

/-- The tokens `before` can be gone on with so that the reader takes all of them, whatever follows
as long as it begins as `S` has it. -/
def Completes (S : Token → Prop) (r : Reader α) (before : List Token) : Prop :=
  ∃ more a, Unended more ∧ ∀ rest, S (peek rest) → r (before ++ (more ++ rest)) = .ok (a, rest)

/-- There is something for the reader to take. It, or what follows if it is nothing, begins as
`first` has it. -/
def Fills (first S : Token → Prop) (r : Reader α) : Prop :=
  ∃ more a, Unended more ∧ ∀ rest, S (peek rest) →
    first (peek (more ++ rest)) ∧ r (more ++ rest) = .ok (a, rest)

/-- The reader decides on `ts` by the token where it stops: the same rest or any that begins as `S`
has it could follow what it takes, and if it fails at a token behind others, those could have been
completed. -/
structure ViableAt (S : Token → Prop) (r : Reader α) (ts : List Token) : Prop where
  ok : ∀ a rest, r ts = .ok (a, rest) → ∃ seg, ts = seg ++ rest ∧ Unended seg ∧
    ∀ rest', peek rest' = peek rest ∨ S (peek rest') → r (seg ++ rest') = .ok (a, rest')
  error : ∀ e, Token.Ended ts → r ts = .error e → ∃ before rest, ts = before ++ e.token :: rest ∧
    (∀ rest', r (before ++ e.token :: rest') = .error e) ∧ (before ≠ [] → Completes S r before)

/-- The reader can be filled and is viable on all lists of fewer than `n` tokens. -/
structure Viable (first S : Token → Prop) (n : Nat) (r : Reader α) : Prop where
  fills : Fills first S r
  viable : ∀ ts, ts.length < n → ViableAt S r ts

variable {first first' S S' : Token → Prop} {n : Nat} {r : Reader α} {ts : List Token}

namespace Fills

theorem mono (h : Fills first S r) (hfirst : ∀ t, first t → first' t) (hS : ∀ t, S' t → S t) :
    Fills first' S' r := by
  obtain ⟨more, a, hmore, hread⟩ := h
  exact ⟨more, a, hmore, fun rest hrest => (hread rest (hS _ hrest)).imp_left (hfirst _)⟩

theorem pure {a : α} (h : ∀ t, S t → first t) : Fills first S fun us => .ok (a, us) :=
  ⟨[], a, List.forall_mem_nil _, fun _ hrest => ⟨h _ hrest, rfl⟩⟩

theorem bind {f : α × List Token → Reading (β × List Token)} (hr : Fills first S r)
    (hf : ∀ a, Fills S S' fun us => f (a, us)) : Fills first S' fun us => r us >>= f := by
  obtain ⟨more, a, hmore, hread⟩ := hr
  obtain ⟨more', b, hmore', hread'⟩ := hf a
  refine ⟨more ++ more', b, hmore.append hmore', fun rest hrest => ?_⟩
  obtain ⟨hS, hb⟩ := hread' rest hrest
  obtain ⟨hfirst, ha⟩ := hread (more' ++ rest) hS
  rw [List.append_assoc]
  exact ⟨hfirst, bind_eq_ok.mpr ⟨_, ha, hb⟩⟩

end Fills

namespace ViableAt

theorem mono (h : ViableAt S r ts) (hS : ∀ t, S' t → S t) : ViableAt S' r ts where
  ok a rest hok := by
    obtain ⟨seg, hts, hseg, hread⟩ := h.ok a rest hok
    exact ⟨seg, hts, hseg, fun rest' hrest => hread rest' (hrest.imp_right (hS _))⟩
  error e hts herror := by
    obtain ⟨before, rest, heq, hfail, hcompletes⟩ := h.error e hts herror
    refine ⟨before, rest, heq, hfail, fun hne => ?_⟩
    obtain ⟨more, a, hmore, hread⟩ := hcompletes hne
    exact ⟨more, a, hmore, fun rest hrest => hread rest (hS _ hrest)⟩

/-- The reader takes nothing. -/
theorem skip {a : α} (h : ∀ us, peek us = peek ts ∨ S (peek us) → r us = .ok (a, us)) :
    ViableAt S r ts where
  ok b rest hok := by
    rw [h ts (.inl rfl)] at hok
    cases hok
    exact ⟨[], rfl, List.forall_mem_nil _, h⟩
  error e _ herror := by
    rw [h ts (.inl rfl)] at herror
    cases herror

/-- The reader fails at once. -/
theorem fail {e : ParseError} (he : e.token = peek ts)
    (h : ∀ us, peek us = peek ts → r us = .error e) : ViableAt S r ts where
  ok a rest hok := by
    rw [h ts rfl] at hok
    cases hok
  error e' hts herror := by
    rw [h ts rfl] at herror
    cases herror
    cases ts with
    | nil => exact hts.elim
    | cons t ts =>
      rw [he]
      exact ⟨[], ts, rfl, fun rest' => h _ rfl, fun hne => absurd rfl hne⟩

/-- The reader takes one token and goes on as another. -/
theorem cons {t : Token} {g : Reader α} (ht : t.kind ≠ .eof) (h : ∀ us, r (t :: us) = g us)
    (hg : Viable first S n g) (hlength : ts.length < n) : ViableAt S r (t :: ts) where
  ok a rest hok := by
    obtain ⟨seg, rfl, hseg, hread⟩ := (hg.viable ts hlength).ok a rest ((h ts).symm.trans hok)
    exact ⟨t :: seg, rfl, List.forall_mem_cons.mpr ⟨ht, hseg⟩,
      fun rest' hrest => (h _).trans (hread rest' hrest)⟩
  error e hts herror := by
    have htail : Token.Ended ts := @Token.Ended.of_append [t] ts hts (by simpa using ht)
    obtain ⟨before, rest, rfl, hfail, hcompletes⟩ :=
      (hg.viable ts hlength).error e htail ((h ts).symm.trans herror)
    refine ⟨t :: before, rest, rfl, fun rest' => (h _).trans (hfail rest'), fun _ => ?_⟩
    by_cases hbefore : before = []
    · subst hbefore
      obtain ⟨more, a, hmore, hread⟩ := hg.fills
      exact ⟨more, a, hmore, fun rest hrest => (h _).trans (hread rest hrest).2⟩
    · obtain ⟨more, a, hmore, hread⟩ := hcompletes hbefore
      exact ⟨more, a, hmore, fun rest hrest => (h _).trans (hread rest hrest)⟩

/-- The reader does what another does on lists that begin alike. If that takes nothing, both do the
same before everything that may follow. -/
theorem of_head {h : Reader α} (hh : ViableAt S h ts)
    (hhead : ∀ us, peek us = peek ts → r us = h us)
    (hskip : (∀ a, h ts ≠ .ok (a, ts)) ∨ ∀ us, S (peek us) → r us = h us) : ViableAt S r ts where
  ok a rest hok := by
    rw [hhead ts rfl] at hok
    obtain ⟨seg, rfl, hseg, hread⟩ := hh.ok a rest hok
    refine ⟨seg, rfl, hseg, fun rest' hrest => ?_⟩
    by_cases hne : seg = []
    · subst hne
      refine Eq.trans ?_ (hread rest' hrest)
      obtain hpeek | hS := hrest
      · exact hhead _ hpeek
      · exact (hskip.resolve_left fun htakes => htakes a hok) _ hS
    · rw [hhead _ (peek_append hne _ _)]
      exact hread rest' hrest
  error e hts herror := by
    rw [hhead ts rfl] at herror
    obtain ⟨before, rest, rfl, hfail, hcompletes⟩ := hh.error e hts herror
    refine ⟨before, rest, rfl, fun rest' => ?_, fun hne => ?_⟩
    · rw [hhead _ (peek_append_cons before _ _ _)]
      exact hfail rest'
    · obtain ⟨more, a, hmore, hread⟩ := hcompletes hne
      refine ⟨more, a, hmore, fun rest' hrest => ?_⟩
      rw [hhead _ (peek_append hne _ _)]
      exact hread rest' hrest

/-- The reader behind a token that it takes and that some list with it first is read from. -/
theorem uncons {t : Token} (ht : t.kind ≠ .eof) (h : ViableAt S r (t :: ts))
    (htakes : ∀ a, r (t :: ts) ≠ .ok (a, t :: ts)) {x : α × List Token} {us : List Token}
    (hus : r (t :: us) = .ok x) : ViableAt S (fun us => r (t :: us)) ts where
  ok a rest hok := by
    obtain ⟨seg, heq, hseg, hread⟩ := h.ok a rest hok
    cases seg with
    | nil =>
      cases heq
      exact absurd hok (htakes a)
    | cons u seg =>
      cases heq
      exact ⟨seg, rfl, (List.forall_mem_cons.mp hseg).2, hread⟩
  error e hts herror := by
    have hended : Token.Ended (t :: ts) := by
      cases ts with
      | nil => exact hts.elim
      | cons u ts => exact ⟨ht, hts⟩
    obtain ⟨before, rest, heq, hfail, hcompletes⟩ := h.error e hended herror
    cases before with
    | nil =>
      cases heq
      cases hus.symm.trans (hfail us)
    | cons u before =>
      cases heq
      exact ⟨before, rest, rfl, hfail, fun _ => hcompletes (List.cons_ne_nil _ _)⟩

theorem bind {f : α × List Token → Reading (β × List Token)} (hr : ViableAt S r ts)
    (hS : ∀ t, S' t → S t)
    (hf : ∀ a rest, r ts = .ok (a, rest) → ViableAt S' (fun us => f (a, us)) rest)
    (hfills : ∀ a, Fills S S' fun us => f (a, us)) : ViableAt S' (fun us => r us >>= f) ts where
  ok b rest hok := by
    obtain ⟨⟨a, mid⟩, ha, hb⟩ := bind_eq_ok.mp hok
    obtain ⟨seg, rfl, hseg, hread⟩ := hr.ok a mid ha
    obtain ⟨seg', rfl, hseg', hread'⟩ := (hf a mid ha).ok b rest hb
    refine ⟨seg ++ seg', by simp, hseg.append hseg', fun rest' hrest => ?_⟩
    rw [List.append_assoc]
    refine bind_eq_ok.mpr ⟨(a, seg' ++ rest'), hread _ ?_, hread' rest' hrest⟩
    -- What the first reader sees behind its tokens is the second's first, if that takes any.
    by_cases hne : seg' = []
    · subst hne
      exact hrest.imp_right (hS _)
    · exact .inl (peek_append hne _ _)
  error e hts herror := by
    obtain ha | ⟨⟨a, mid⟩, ha, hb⟩ := bind_eq_error.mp herror
    · obtain ⟨before, rest, heq, hfail, hcompletes⟩ := hr.error e hts ha
      refine ⟨before, rest, heq, fun rest' => bind_eq_error.mpr (.inl (hfail rest')), fun hne => ?_⟩
      obtain ⟨more, a, hmore, hread⟩ := hcompletes hne
      obtain ⟨more', b, hmore', hread'⟩ := hfills a
      refine ⟨more ++ more', b, hmore.append hmore', fun rest hrest => ?_⟩
      obtain ⟨hstop, hb⟩ := hread' rest hrest
      rw [List.append_assoc]
      exact bind_eq_ok.mpr ⟨_, hread _ hstop, hb⟩
    · obtain ⟨seg, rfl, hseg, hread⟩ := hr.ok a mid ha
      obtain ⟨before, rest, rfl, hfail, hcompletes⟩ :=
        (hf a mid ha).error e (hts.of_append hseg) hb
      refine ⟨seg ++ before, rest, by simp, fun rest' => ?_, fun hne => ?_⟩
      · rw [List.append_assoc]
        exact bind_eq_error.mpr (.inr ⟨_, hread _ (.inl (peek_append_cons before _ _ _)),
          hfail rest'⟩)
      · -- The second reader promises a completion only behind a token of its own.
        by_cases hbefore : before = []
        · subst hbefore
          obtain ⟨more, b, hmore, hread'⟩ := hfills a
          refine ⟨more, b, hmore, fun rest' hrest => ?_⟩
          obtain ⟨hstop, hb⟩ := hread' rest' hrest
          rw [List.append_nil]
          exact bind_eq_ok.mpr ⟨_, hread _ (.inr hstop), hb⟩
        · obtain ⟨more, b, hmore, hread'⟩ := hcompletes hbefore
          refine ⟨more, b, hmore, fun rest' hrest => ?_⟩
          rw [List.append_assoc]
          exact bind_eq_ok.mpr ⟨_, hread _ (.inl (peek_append hbefore _ _)), hread' rest' hrest⟩

end ViableAt

namespace Viable

theorem mono (h : Viable first S n r) (hfirst : ∀ t, first t → first' t) (hS : ∀ t, S' t → S t) :
    Viable first' S' n r :=
  ⟨h.fills.mono hfirst hS, fun ts hts => (h.viable ts hts).mono hS⟩

theorem zero (h : Fills first S r) : Viable first S 0 r :=
  ⟨h, fun _ hts => absurd hts (Nat.not_lt_zero _)⟩

theorem congr {r' : Reader α} (h : ∀ us, r us = r' us) (hr : Viable first S n r') :
    Viable first S n r := by
  rw [funext h]
  exact hr

theorem pure {a : α} (h : ∀ t, S t → first t) : Viable first S n fun us => .ok (a, us) :=
  ⟨.pure h, fun _ _ => .skip fun _ _ => rfl⟩

/-- Steps, the second of which is to work on what the first leaves of lists shorter than `n`. -/
theorem bind_of {m : Nat} {f : α × List Token → Reading (β × List Token)}
    (hr : Viable first S n r) (hf : ∀ a, Viable first' S' m fun us => f (a, us))
    (hfirst : ∀ t, first' t → S t) (hS : ∀ t, S' t → S t)
    (hm : ∀ us a rest, us.length < n → r us = .ok (a, rest) → rest.length < m) :
    Viable first S' n fun us => r us >>= f := by
  have hfills : ∀ a, Fills S S' fun us => f (a, us) := fun a => (hf a).fills.mono hfirst fun _ => id
  refine ⟨hr.fills.bind hfills, fun ts hts => (hr.viable ts hts).bind hS ?_ hfills⟩
  exact fun a rest hok => (hf a).viable rest (hm ts a rest hts hok)

theorem bind {f : α × List Token → Reading (β × List Token)} (hr : Viable first S n r)
    (hf : ∀ a, Viable first' S' n fun us => f (a, us)) (hfirst : ∀ t, first' t → S t)
    (hS : ∀ t, S' t → S t) : Viable first S' n fun us => r us >>= f := by
  refine hr.bind_of hf hfirst hS fun us a rest hus hok => ?_
  obtain ⟨seg, rfl, -, -⟩ := (hr.viable us hus).ok a rest hok
  rw [List.length_append] at hus
  omega

/-- A step whose result is made into another. -/
theorem returns {f : α × List Token → Reading (β × List Token)} {g : α → β}
    (hr : Viable first S n r) (hS : ∀ t, S' t → S t) (hf : ∀ a us, f (a, us) = .ok (g a, us)) :
    Viable first S' n fun us => r us >>= f :=
  hr.bind (fun a => .congr (hf a) (.pure fun _ => id)) hS hS

/-- Steps, the first of which leaves less than it was given. -/
theorem bind_short {m : Nat} (hm : n ≤ m + 1) {f : α × List Token → Reading (β × List Token)}
    (hr : Viable first S n r) (hf : ∀ a, Viable first' S' m fun us => f (a, us))
    (hfirst : ∀ t, first' t → S t) (hS : ∀ t, S' t → S t)
    (hshort : ∀ us a rest, r us = .ok (a, rest) → rest.length < us.length) :
    Viable first S' n fun us => r us >>= f := by
  refine hr.bind_of hf hfirst hS fun us a rest hus hok => ?_
  have := hshort us a rest hok
  omega

/-- Steps, the first of which takes a token whatever follows. -/
theorem andThen {f : α × List Token → Reading (β × List Token)}
    (hr : Viable first (fun _ => True) n r) (hf : ∀ a, Viable first' S n fun us => f (a, us)) :
    Viable first S n fun us => r us >>= f :=
  hr.bind hf (fun _ _ => trivial) fun _ _ => trivial

/-- A single token, of which `t` is an instance. -/
theorem takeIf (test : Token → Bool) (what : Wanted) {t : Token} (ht : test t = true)
    (hend : ∀ t, test t = true → t.kind ≠ .eof) :
    Viable (test · = true) (fun _ => True) n fun us => plain (takeIf test what us) := by
  have htake : ∀ t us, test t = true → plain (Grammar.takeIf test what (t :: us)) = .ok (t, us) :=
    fun t us ht => plain_takeIf_eq_ok.mpr ⟨rfl, ht⟩
  refine ⟨⟨[t], t, by simpa [Unended] using hend t ht, fun rest _ => ⟨ht, htake t rest ht⟩⟩, ?_⟩
  intro ts hts
  cases htest : test (peek ts) with
  | false =>
    refine .fail (e := missing what ts) rfl fun us hus => ?_
    have hnone : next? test us = none := by
      refine (next?_eq_none fun p => ?_).mpr (hus ▸ htest)
      exact Bool.eq_false_iff.mpr fun h => hend _ h rfl
    rw [plain_takeIf, hnone, missing, missing, hus]
  | true =>
    cases ts with
    | nil => exact absurd rfl (hend _ htest)
    | cons u us =>
      exact .cons (hend u htest) (fun us => htake u us htest) (.pure fun _ => id)
        (Nat.lt_of_succ_lt hts)

theorem take {kind : TokenKind} (hkind : kind ≠ .eof) (what : Wanted) :
    Viable (·.kind = kind) (fun _ => True) n fun us => plain (take kind what us) :=
  (takeIf (·.kind == kind) what (t := ⟨kind, "", ⟨1, 1⟩⟩) (beq_self_eq_true kind)
    fun _ ht => (beq_iff_eq.mp ht).symm ▸ hkind).mono (fun _ => beq_iff_eq.mp) fun _ => id

/-- The reader goes on as `g` behind a token that passes the test, and otherwise does what `h`
does. -/
theorem option {test : Token → Bool} (hend : ∀ t, test t = true → t.kind ≠ .eof) {m : Nat}
    (hm : n ≤ m + 1) {g h : Reader α} (hg : Viable first' S m g) (hh : Viable first S n h)
    (hfirst : ∀ t, first t → test t = false)
    (hskip : (∀ a us, h us ≠ .ok (a, us)) ∨ ∀ t, S t → test t = false) :
    Viable first S n fun us => (next? test us).elim (h us) g := by
  have hstop : ∀ p, test (.eof p) = false := fun p => Bool.eq_false_iff.mpr fun h => hend _ h rfl
  have hnone : ∀ us, test (peek us) = false → (next? test us).elim (h us) g = h us := by
    intro us hus
    rw [(next?_eq_none hstop).mpr hus, Option.elim_none]
  refine ⟨?_, fun ts hts => ?_⟩
  · obtain ⟨more, a, hmore, hread⟩ := hh.fills
    refine ⟨more, a, hmore, fun rest hrest => ?_⟩
    obtain ⟨hmark, hok⟩ := hread rest hrest
    exact ⟨hmark, (hnone _ (hfirst _ hmark)).trans hok⟩
  · cases htest : test (peek ts) with
    | false =>
      refine (hh.viable ts hts).of_head (fun us hus => hnone us (hus ▸ htest)) ?_
      exact hskip.imp (fun htakes a => htakes a ts) fun hS us hus => hnone us (hS _ hus)
    | true =>
      cases ts with
      | nil => exact absurd rfl (hend _ htest)
      | cons t ts =>
        have hsome : ∀ us, (next? test (t :: us)).elim (h (t :: us)) g = g us := by
          intro us
          rw [next?_eq_some.mpr ⟨t, rfl, htest⟩, Option.elim_some]
        rw [List.length_cons] at hts
        exact .cons (hend t htest) hsome hg (by omega)

/-- The reader is done before a token that passes the test, as everything that may follow does, and
otherwise does what `h` does. -/
theorem stop (test : Token → Bool) {a : α} {h : Reader α} (htest : ∀ t, S t → test t = true)
    (hh : ∀ ts, ts.length < n → test (peek ts) = false → ViableAt S h ts)
    (htakes : ∀ a ts, h ts ≠ .ok (a, ts)) :
    Viable S S n fun us => if test (peek us) then .ok (a, us) else h us := by
  refine ⟨⟨[], a, List.forall_mem_nil _, fun us hus => ⟨hus, if_pos (htest _ hus)⟩⟩, ?_⟩
  intro ts hts
  cases hpeek : test (peek ts) with
  | true =>
    refine .skip (a := a) fun us hus => if_pos ?_
    exact hus.elim (fun hus => hus ▸ hpeek) (htest _)
  | false =>
    refine (hh ts hts hpeek).of_head (fun us hus => if_neg ?_) (.inl fun a => htakes a ts)
    rw [hus, hpeek]
    decide

end Viable

/-! Expressions. -/

/-- The token invites no expression before it to go on. -/
def Calm (t : Token) : Prop := t.kind ≠ .op ∧ t.kind ≠ .identifier ∧ t.kind ≠ .lparen

theorem operators_calm (level : Nat) (left : Expr) {ts : List Token} (h : Calm (peek ts)) :
    plain (operators level left ts) = .ok (left, ts) := by
  refine (Reads.stop fun op hop => ?_).read
  rw [binaryOp?_eq_none h.1 h.2.1] at hop
  cases hop

theorem fills_operators (level : Nat) (left : Expr) :
    Fills Calm Calm fun us => plain (operators level left us) :=
  ⟨[], left, List.forall_mem_nil _, fun _ hrest => ⟨hrest, operators_calm level left hrest⟩⟩

theorem fills_operand : Fills (·.kind = .string) Calm fun us => plain (operand us) :=
  ⟨[⟨.string, "", ⟨1, 1⟩⟩], .str ⟨1, 1⟩ "", by simp [Unended],
    fun _ _ => ⟨rfl, (Reads.literal rfl).read⟩⟩

theorem fills_expr (level : Nat) :
    Fills (·.kind = .string) Calm fun us => plain (expr level us) := by
  simp only [plain_expr]
  exact fills_operand.bind fun left => fills_operators level left

theorem fills_argumentList : Fills (·.kind = .string) Calm fun us => plain (argumentList us) := by
  refine ⟨[⟨.string, "", ⟨1, 1⟩⟩, ⟨.rparen, "", ⟨1, 1⟩⟩], [.str ⟨1, 1⟩ ""], by simp [Unended],
    fun rest _ => ⟨rfl, (Reads.lastArgument (.expr (.literal rfl) (.stop ?_)) rfl).read⟩⟩
  rintro op hop
  cases hop

/-- The readers of expressions on lists of fewer than `n` tokens. -/
structure ExprViable (n : Nat) : Prop where
  expr : ∀ level, Viable (·.kind = .string) Calm n fun us => plain (expr level us)
  operators : ∀ level left, Viable Calm Calm n fun us => plain (operators level left us)
  operand : Viable (·.kind = .string) Calm n fun us => plain (operand us)
  arguments : Viable (·.kind = .string) Calm n fun us => plain (arguments us)
  argumentList : Viable (·.kind = .string) Calm n fun us => plain (argumentList us)

theorem calm_of_kind {t : Token} {kind : TokenKind} (h : t.kind = kind)
    (hkind : kind ≠ .op ∧ kind ≠ .identifier ∧ kind ≠ .lparen) : Calm t := by
  unfold Calm
  rw [h]
  exact hkind

/-- The closing parenthesis behind an expression. -/
theorem viable_close {a : α} : Viable (·.kind = .rparen) Calm n fun us => (do
    let (_, rest) ← plain (take .rparen .closeParen us)
    .ok (a, rest)) :=
  (Viable.take (by decide) _).returns (fun _ _ => trivial) fun _ _ => rfl

theorem calm_rparen {t : Token} (h : t.kind = .rparen) : Calm t := calm_of_kind h (by decide)

theorem viableAt_operators (ih : ExprViable n) (level : Nat) (left : Expr) {ts : List Token}
    (hts : ts.length < n + 1) : ViableAt Calm (fun us => plain (operators level left us)) ts := by
  by_cases hstop : ∀ op, binaryOp? (peek ts) = some op → op.precedence ≤ level
  · refine .skip (a := left) fun us hus => ?_
    obtain hus | hus := hus
    · exact (Reads.stop (hus ▸ hstop)).read
    · exact operators_calm level left hus
  · simp only [Classical.not_forall, Nat.not_le] at hstop
    obtain ⟨op, hop, hlevel⟩ := hstop
    cases ts with
    | nil => cases hop
    | cons t ts =>
      have ht : t.kind ≠ .eof := (kind_ne_of_isLayout rfl (not_isLayout_of_binaryOp? hop)).symm
      have hcons := plain_operators_cons level left t
      simp only [show binaryOp? t = some op from hop, if_pos hlevel] at hcons
      exact .cons ht hcons ((ih.expr op.precedence).bind
        (fun right => ih.operators level (.binary t.pos op left right)) (fun _ => id) fun _ => id)
        (Nat.lt_of_succ_lt_succ hts)

theorem ne_eof_of_kind {kind : TokenKind} (hkind : kind ≠ .eof) (t : Token)
    (h : (t.kind == kind) = true) : t.kind ≠ .eof := (beq_iff_eq.mp h).symm ▸ hkind

theorem plain_operand_name {t : Token} (ht : lead t = .name) (us : List Token) :
    plain (operand (t :: us)) =
      (next? (·.kind == .lparen) us).elim (.ok (.ident t.pos t.lexeme, us)) fun rest => (do
        let (args, rest) ← plain (arguments rest)
        .ok (.call t.pos t.lexeme args, rest)) := by
  rw [plain_operand_cons, ht]
  cases next? (·.kind == .lparen) us <;> rfl

theorem viableAt_operand (ih : ExprViable n) {ts : List Token} (hts : ts.length < n + 1) :
    ViableAt Calm (fun us => plain (operand us)) ts := by
  have hnone : lead (peek ts) = .none → ViableAt Calm (fun us => plain (operand us)) ts := by
    refine fun hlead => .fail (e := missing .expression ts) rfl fun us hus => ?_
    rw [← hus] at hlead
    cases us with
    | nil => rw [plain_operand_nil, missing, missing, hus]
    | cons u us => rw [plain_operand_cons, show lead u = .none from hlead, missing, missing, hus]
  cases ts with
  | nil => exact hnone rfl
  | cons t ts =>
    have hlt : ts.length < n := Nat.lt_of_succ_lt_succ hts
    have hcode : lead t ≠ .none → t.kind ≠ .eof := fun h =>
      (kind_ne_of_isLayout rfl (not_isLayout_of_lead h)).symm
    have hcons := plain_operand_cons t
    cases hlead : lead t with
    | none => exact hnone hlead
    | outOfRange =>
      refine .fail (e := ⟨.integerRange, t⟩) rfl fun us hus => ?_
      cases us with
      | nil =>
        rw [show t = .eof ⟨0, 0⟩ from hus.symm] at hlead
        cases hlead
      | cons u us =>
        cases hus
        rw [plain_operand_cons, hlead]
    | literal e =>
      rw [hlead] at hcode hcons
      exact .cons (hcode (by simp)) hcons (.pure fun _ => id) hlt
    | unary op =>
      rw [hlead] at hcode hcons
      exact .cons (hcode (by simp)) hcons
        (ih.operand.returns (fun _ => id) fun _ _ => rfl) hlt
    | paren =>
      rw [hlead] at hcode hcons
      exact .cons (hcode (by simp)) hcons
        ((ih.expr 0).bind (fun _ => viable_close) (fun _ => calm_rparen) fun _ => id) hlt
    | name =>
      rw [hlead] at hcode
      have hparen : ∀ t, Calm t → (t.kind == .lparen) = false :=
        fun t ht => beq_eq_false_iff_ne.mpr ht.2.2
      exact .cons (hcode (by simp)) (plain_operand_name hlead) (.option (ne_eof_of_kind (by decide))
        (Nat.le_succ n) (ih.arguments.returns (fun _ => id) fun _ _ => rfl)
        (.pure fun _ => id) hparen (.inr hparen)) hlt

theorem plain_argumentList_elim (us : List Token) :
    plain (argumentList us) = (do
      let (e, rest) ← plain (expr 0 us)
      (next? (·.kind == .comma) rest).elim
        (do
          let (_, rest) ← plain (take .rparen .closeParen rest)
          .ok ([e], rest))
        fun rest => do
          let (es, rest) ← plain (argumentList rest)
          .ok (e :: es, rest)) := by
  rw [plain_argumentList]
  congr 1
  funext x
  obtain ⟨e, rest⟩ := x
  dsimp only
  cases next? (·.kind == .comma) rest <;> rfl

theorem viable_argumentList {m : Nat} (hm : n ≤ m + 1)
    (hexpr : Viable (·.kind = .string) Calm n fun us => plain (expr 0 us))
    (hlist : Viable (·.kind = .string) Calm m fun us => plain (argumentList us)) :
    Viable (·.kind = .string) Calm n fun us => plain (argumentList us) := by
  apply Viable.congr plain_argumentList_elim
  apply hexpr.bind _ (fun _ => calm_rparen) fun _ => id
  intro e
  refine .option (ne_eof_of_kind (by decide)) hm
    (hlist.returns (fun _ => id) fun _ _ => rfl) viable_close ?_ (.inl ?_)
  · exact fun t ht => beq_eq_false_iff_ne.mpr (by simp [ht])
  · intro es us h
    obtain ⟨⟨t, rest⟩, ht, hok⟩ := bind_eq_ok.mp h
    cases hok
    exact Nat.lt_irrefl _ (length_lt_of_plain ht)

theorem plain_arguments_elim (us : List Token) :
    plain (arguments us) =
      (next? (·.kind == .rparen) us).elim (plain (argumentList us)) fun rest => .ok ([], rest) := by
  rw [plain_arguments]
  cases next? (·.kind == .rparen) us <;> rfl

theorem viable_arguments
    (hlist : Viable (·.kind = .string) Calm n fun us => plain (argumentList us)) :
    Viable (·.kind = .string) Calm n fun us => plain (arguments us) := by
  refine .congr plain_arguments_elim
    (.option (ne_eof_of_kind (by decide)) (Nat.le_succ n) (.pure fun _ => id) hlist ?_ (.inl ?_))
  · exact fun t ht => beq_eq_false_iff_ne.mpr (by simp [ht])
  · exact fun es us h => Nat.lt_irrefl _ (length_lt_of_plain h)

theorem exprViable (n : Nat) : ExprViable n := by
  induction n with
  | zero =>
    exact ⟨fun level => .zero (fills_expr level),
      fun level left => .zero (fills_operators level left), .zero fills_operand,
      viable_arguments (.zero fills_argumentList), .zero fills_argumentList⟩
  | succ n ih =>
    have hoperand : Viable (·.kind = .string) Calm (n + 1) fun us => plain (operand us) :=
      ⟨fills_operand, fun _ => viableAt_operand ih⟩
    have hoperators : ∀ level left,
        Viable Calm Calm (n + 1) fun us => plain (operators level left us) :=
      fun level left => ⟨fills_operators level left, fun _ => viableAt_operators ih level left⟩
    have hexpr : ∀ level, Viable (·.kind = .string) Calm (n + 1) fun us => plain (expr level us) :=
      fun level => .congr (plain_expr level)
        (hoperand.bind (hoperators level) (fun _ => id) fun _ => id)
    have hlist := viable_argumentList (Nat.le_refl _) (hexpr 0) ih.argumentList
    exact ⟨hexpr, hoperators, hoperand, viable_arguments hlist, hlist⟩

end SceneScript.Grammar
