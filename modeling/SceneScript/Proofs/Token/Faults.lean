import SceneScript.Proofs.Program.Listing
import SceneScript.Proofs.Token.Trailing

/-! Texts that cannot be read. The place that an error tells is the first at which reading must
fail: what stands before it reads without error, since no word depends on what follows its own
characters, and what stands there is what the error says. -/

namespace SceneScript

namespace Layout

/-- A line with this code begins with the spaces and tabs `gap` and what `ret` holds of a carriage
return behind them. -/
structure IsMargin (gap ret code : List Char) : Prop where
  spaces : ∀ c ∈ gap, c = ' ' ∨ c = '\t'
  ret : ret = ['\r'] ∨ ret = [] ∧ ∀ c ∈ code.head?, c ≠ ' ' ∧ c ≠ '\t' ∧ c ≠ '\r'

theorem IsMargin.margin_eq {gap ret code : List Char} (h : IsMargin gap ret code) :
    margin (gap ++ (ret ++ code)) = ⟨gap.length, gap.length + ret.length, code⟩ := by
  have hgap : ∀ c ∈ gap, isSpace c = true := fun c hc => by simpa [isSpace] using h.spaces c hc
  have hhead : ∀ c, (ret ++ code).head? = some c → isSpace c = false := by
    intro c hc
    rcases h.ret with rfl | ⟨rfl, hcode⟩
    · cases hc
      decide
    · have hne := hcode c hc
      simp [isSpace, hne.1, hne.2.1]
  obtain ⟨htake, hdrop⟩ := Print.takeWhile_append hgap hhead
  unfold margin
  rw [htake, hdrop]
  rcases h.ret with rfl | ⟨rfl, hcode⟩
  · rfl
  · split
    · rename_i heq
      rw [List.nil_append] at heq
      exact absurd rfl (hcode '\r' (by rw [heq]; rfl)).2.2
    · rfl

theorem exists_isMargin (cs : List Char) :
    ∃ gap ret code, cs = gap ++ (ret ++ code) ∧ IsMargin gap ret code := by
  have hsplit := List.takeWhile_append_dropWhile (p := isSpace) (l := cs)
  have hspaces : ∀ c ∈ cs.takeWhile isSpace, c = ' ' ∨ c = '\t' := fun c hc => by
    simpa [isSpace] using List.mem_takeWhile_imp hc
  have hhead := List.head?_dropWhile_not isSpace cs
  cases hdrop : cs.dropWhile isSpace with
  | nil =>
    rw [hdrop] at hsplit
    exact ⟨_, [], [], hsplit.symm, hspaces, .inr ⟨rfl, by simp⟩⟩
  | cons c code =>
    rw [hdrop] at hsplit hhead
    by_cases hc : c = '\r'
    · subst hc
      exact ⟨_, ['\r'], code, hsplit.symm, hspaces, .inl rfl⟩
    · simp only [List.head?_cons, isSpace] at hhead
      exact ⟨_, [], c :: code, hsplit.symm, hspaces, .inr ⟨rfl, by simpa [hc] using hhead⟩⟩

theorem IsMargin.shortened {gap ret mid tail : List Char} (h : IsMargin gap ret (mid ++ tail)) :
    IsMargin gap ret mid := by
  refine ⟨h.spaces, h.ret.imp_right fun ⟨hnil, hhead⟩ => ⟨hnil, fun c hc => hhead c ?_⟩⟩
  rw [List.head?_append, hc]
  rfl

theorem IsMargin.width_eq {gap ret code : List Char} (h : IsMargin gap ret code) :
    Text.width (gap ++ ret) = gap.length + ret.length := by
  rw [← List.length_append]
  refine Token.width_of_isGap (List.forall_mem_append.mpr ⟨fun c hc => ?_, fun c hc => ?_⟩)
  · rcases h.spaces c hc with rfl | rfl <;> rfl
  · rcases h.ret with rfl | ⟨rfl, -⟩
    · rw [List.mem_singleton.mp hc]
      rfl
    · cases hc

end Layout

namespace Token

/-- A character with such a text behind it begins no token and separates none. -/
structure StartsNothing (c : Char) (rest : List Char) : Prop where
  separates : c ∉ [' ', '\t', '\r', '\n']
  comment : c ≠ '#'
  quote : c ≠ '"' ∧ c ≠ '\''
  punctuation : c ∉ ['(', ')', ',', ':']
  digit : c.isDigit = false
  name : c.isAlpha = false ∧ c ≠ '_'
  op : String.singleton c ∉ shortOps
  unequal : ¬ (c = '!' ∧ rest.head? = some '=')

end Token

/-- What is found where an error is told, between the text before the place and the text behind. -/
def LexCause.FoundAt (before behind : List Char) : LexCause → Prop
  | .unexpected c => ∃ rest, behind = c :: rest ∧ Token.StartsNothing c rest
  | .unterminated =>
    ∃ q rest, behind = q :: rest ∧ (q = '"' ∨ q = '\'') ∧ q ∉ rest.takeWhile (· ≠ '\n')
  | .inconsistent w =>
    ∃ above gap ret, before = above ++ (gap ++ ret) ∧ (∀ c ∈ above.getLast?, c = '\n') ∧
      Layout.IsMargin gap ret behind ∧ gap.length = w

namespace Token

/-! Words. -/

/-- A cut with less behind it. -/
def Cut.upTo (rest : List Char) (t : Cut) : Cut := { t with rest }

/-- A run of characters ends where it did, also when less stands behind it. -/
theorem span_shortened {p : Char → Bool} {cs mid tail : List Char}
    (h : cs.dropWhile p = mid ++ tail) :
    (cs.takeWhile p ++ mid).takeWhile p = cs.takeWhile p ∧
      (cs.takeWhile p ++ mid).dropWhile p = mid := by
  refine Print.takeWhile_append (fun c hc => List.mem_takeWhile_imp hc) fun c hc => ?_
  have hhead := List.head?_dropWhile_not p cs
  obtain ⟨mid, rfl⟩ := List.head?_eq_some_iff.mp hc
  rw [h] at hhead
  simpa using hhead

theorem cutString_shortened {q : Char} {cs mid tail : List Char} {t : Cut}
    (h : cutString q cs = .ok t) (hrest : t.rest = mid ++ tail) :
    ∃ pre, q :: pre = t.spelling ++ mid ∧ cutString q pre = .ok (t.upTo mid) := by
  unfold cutString at h
  dsimp only at h
  split at h
  · cases h
  · rename_i d rest hdrop
    cases h
    cases hrest
    have hd : d = q := by
      have hhead := List.head?_dropWhile_not (· != q) cs
      rw [hdrop] at hhead
      simpa using hhead
    subst hd
    obtain ⟨htake, hdrop'⟩ := @span_shortened (· != d) cs (d :: mid) tail hdrop
    refine ⟨cs.takeWhile (· != d) ++ d :: mid, by simp, ?_⟩
    unfold cutString
    rw [htake, hdrop']
    rfl

theorem cutNumber_float {c d : Char} {cs more : List Char}
    (hdrop : cs.dropWhile Char.isDigit = '.' :: d :: more) (hd : d.isDigit = true) :
    cutNumber c cs = .plain .float
      (c :: cs.takeWhile Char.isDigit ++ '.' :: d :: more.takeWhile Char.isDigit)
      (more.dropWhile Char.isDigit) := by
  unfold cutNumber
  rw [hdrop]
  exact if_pos hd

theorem cutNumber_int {c : Char} {cs rest : List Char} (hdrop : cs.dropWhile Char.isDigit = rest)
    (hpoint : ∀ d more, rest = '.' :: d :: more → d.isDigit = false) :
    cutNumber c cs = .plain .int (c :: cs.takeWhile Char.isDigit) rest := by
  unfold cutNumber
  rw [hdrop]
  dsimp only
  split
  · rename_i d more
    exact if_neg (by simp [hpoint d more rfl])
  · rfl

theorem cutNumber_shortened {c : Char} {cs mid tail : List Char}
    (h : (cutNumber c cs).rest = mid ++ tail) :
    ∃ pre, c :: pre = (cutNumber c cs).spelling ++ mid ∧
      cutNumber c pre = (cutNumber c cs).upTo mid := by
  by_cases hpoint : ∃ d more, cs.dropWhile Char.isDigit = '.' :: d :: more ∧ d.isDigit = true
  · obtain ⟨d, more, hdrop, hd⟩ := hpoint
    rw [cutNumber_float hdrop hd] at h ⊢
    have hmore : more.dropWhile Char.isDigit = mid ++ tail := h
    have hbehind : cs.dropWhile Char.isDigit =
        '.' :: d :: (more.takeWhile Char.isDigit ++ mid) ++ tail := by
      rw [hdrop, List.cons_append, List.cons_append, List.append_assoc, ← hmore,
        List.takeWhile_append_dropWhile]
    obtain ⟨htake, hdrop'⟩ := span_shortened hbehind
    obtain ⟨htake', hdrop''⟩ := span_shortened hmore
    refine ⟨cs.takeWhile Char.isDigit ++ '.' :: d :: (more.takeWhile Char.isDigit ++ mid),
      by simp [Cut.plain], ?_⟩
    rw [cutNumber_float hdrop' hd, htake, htake', hdrop'']
    rfl
  · have hwhole : ∀ d more, cs.dropWhile Char.isDigit = '.' :: d :: more → d.isDigit = false :=
      fun d more hdrop => by simpa using fun hd => hpoint ⟨d, more, hdrop, hd⟩
    rw [cutNumber_int rfl hwhole] at h ⊢
    obtain ⟨htake, hdrop⟩ := span_shortened h
    refine ⟨cs.takeWhile Char.isDigit ++ mid, rfl, ?_⟩
    rw [cutNumber_int hdrop, htake]
    · rfl
    · rintro d more rfl
      exact hwhole d (more ++ tail) h

theorem cutName_shortened {c : Char} {cs mid tail : List Char}
    (h : (cutName c cs).rest = mid ++ tail) :
    ∃ pre, c :: pre = (cutName c cs).spelling ++ mid ∧
      cutName c pre = (cutName c cs).upTo mid := by
  obtain ⟨htake, hdrop⟩ := span_shortened h
  refine ⟨cs.takeWhile isNamePart ++ mid, rfl, ?_⟩
  unfold cutName
  rw [htake, hdrop]
  rfl

theorem cutOp?_shortened {c : Char} {cs mid tail : List Char} {t : Cut}
    (h : cutOp? c cs = some t) (hrest : t.rest = mid ++ tail) :
    ∃ pre, c :: pre = t.spelling ++ mid ∧ cutOp? c pre = some (t.upTo mid) := by
  unfold cutOp? at h ⊢
  dsimp only at h ⊢
  cases cs with
  | nil =>
    dsimp only at h
    split at h <;> cases h
    rename_i hshort
    obtain ⟨rfl, rfl⟩ := List.append_eq_nil_iff.mp hrest.symm
    exact ⟨[], rfl, if_pos hshort⟩
  | cons d rest =>
    dsimp only at h
    split at h
    · rename_i hlong
      cases h
      exact ⟨d :: mid, rfl, if_pos hlong⟩
    · rename_i hlong
      split at h <;> cases h
      rename_i hshort
      refine ⟨mid, rfl, ?_⟩
      cases mid with
      | nil => exact if_pos hshort
      | cons d mid =>
        cases hrest
        dsimp only
        rw [if_neg hlong, if_pos hshort]
        rfl

theorem cutOp?_eq_none_iff {c : Char} {cs : List Char} :
    cutOp? c cs = none ↔ String.singleton c ∉ shortOps ∧
      ∀ d, cs.head? = some d → String.ofList [c, d] ∉ longOps := by
  unfold cutOp?
  cases cs with
  | nil => simp
  | cons d rest =>
    dsimp only
    constructor
    · intro h
      split at h
      · cases h
      · rename_i hlong
        split at h
        · cases h
        · rename_i hshort
          exact ⟨hshort, fun d hd => by cases hd; exact hlong⟩
    · rintro ⟨hshort, hlong⟩
      rw [if_neg (hlong d rfl), if_neg hshort]

/-- A word is the same with less behind it: how far it goes is told by its own characters and does
not depend on what follows. -/
theorem cut_shortened {c : Char} {cs mid tail : List Char} {t : Cut} (h : cut c cs = .ok t)
    (hrest : t.rest = mid ++ tail) :
    ∃ pre, c :: pre = t.spelling ++ mid ∧ cut c pre = .ok (t.upTo mid) := by
  have hsplit : c :: cs = t.spelling ++ mid ++ tail := by
    rw [(cut_of h).split, hrest, List.append_assoc]
  unfold cut at h ⊢
  generalize punctuation? c = mark at h ⊢
  cases mark with
  | some kind =>
    cases h
    exact ⟨mid, rfl, rfl⟩
  | none =>
    dsimp only at h ⊢
    by_cases hquote : c = '"' ∨ c = '\''
    · rw [if_pos hquote] at h
      simp only [if_pos hquote]
      exact cutString_shortened h hrest
    · rw [if_neg hquote] at h
      simp only [if_neg hquote]
      cases hop : cutOp? c cs with
      | some op =>
        rw [hop] at h
        cases h
        obtain ⟨pre, hpre, hshort⟩ := cutOp?_shortened hop hrest
        exact ⟨pre, hpre, by rw [hshort]⟩
      | none =>
        rw [hop] at h
        dsimp only at h
        -- No operator begins with less behind the first character either.
        have hnone {pre : List Char} (hpre : c :: pre = t.spelling ++ mid) :
            cutOp? c pre = none := by
          rw [cutOp?_eq_none_iff] at hop ⊢
          refine ⟨hop.1, fun d hd => hop.2 d ?_⟩
          rw [← hpre, List.cons_append, List.cons.injEq] at hsplit
          rw [hsplit.2, List.head?_append, hd]
          rfl
        by_cases hdigit : c.isDigit = true
        · rw [if_pos hdigit] at h
          cases h
          obtain ⟨pre, hpre, hshort⟩ := cutNumber_shortened hrest
          exact ⟨pre, hpre, by rw [hnone hpre, hshort, if_pos hdigit]⟩
        · rw [if_neg hdigit] at h
          split at h <;> cases h
          rename_i hname
          obtain ⟨pre, hpre, hshort⟩ := cutName_shortened hrest
          exact ⟨pre, hpre, by rw [hnone hpre, hshort, if_neg hdigit, if_pos hname]⟩

/-- A text that begins with no word begins with a quote that is not closed or with a character that
begins nothing. -/
theorem cut_eq_error {c : Char} {cs : List Char} {cause : LexCause} (h : cut c cs = .error cause)
    (hgap : isGap c = false) (hcomment : c ≠ '#') (hline : c ≠ '\n') :
    cause = .unterminated ∧ (c = '"' ∨ c = '\'') ∧ c ∉ cs ∨
      cause = .unexpected c ∧ StartsNothing c cs := by
  unfold cut at h
  split at h
  · cases h
  · rename_i hmark
    split at h
    · rename_i hquote
      left
      unfold cutString at h
      dsimp only at h
      split at h <;> cases h
      rename_i hdrop
      refine ⟨rfl, hquote, fun hmem => ?_⟩
      have hne := List.dropWhile_eq_nil_iff.mp hdrop c hmem
      simp at hne
    · rename_i hquote
      right
      split at h
      · cases h
      · rename_i hop
        split at h
        · cases h
        · rename_i hdigit
          split at h <;> cases h
          rename_i hname
          obtain ⟨hshort, hlong⟩ := cutOp?_eq_none_iff.mp hop
          simp only [isGap, Bool.or_eq_false_iff, beq_eq_false_iff_ne] at hgap
          simp only [isNameStart, Bool.not_eq_true, Bool.or_eq_false_iff,
            beq_eq_false_iff_ne] at hname
          refine ⟨rfl, ?_, hcomment, not_or.mp hquote, ?_, by simpa using hdigit, hname, hshort, ?_⟩
          · simp [hgap, hline]
          · intro hmem
            simp only [List.mem_cons, List.not_mem_nil, or_false] at hmem
            rcases hmem with rfl | rfl | rfl | rfl <;> cases hmark
          · rintro ⟨rfl, hequal⟩
            exact hlong '=' hequal (by decide)

/-! The code of a line. -/

/-- Code that cannot be read fails at a character that begins no word, and the code before it can
be read. -/
theorem ofCode_fault {pos : Pos} {cs : List Char} {e : LexError} (h : ofCode pos cs = .error e) :
    ∃ done c rest, cs = done ++ c :: rest ∧
      e.pos = { pos with col := pos.col + Text.width done } ∧ isGap c = false ∧ c ≠ '#' ∧
      cut c rest = .error e.cause ∧ ∃ ts, ofCode pos done = .ok ts := by
  fun_induction ofCode pos cs with
  | case1 => cases h
  | case2 pos c cs hgap ih =>
    obtain ⟨done, d, rest, rfl, hpos, hd, hcomment, hcut, ts, hts⟩ := ih h
    refine ⟨c :: done, d, rest, rfl, ?_, hd, hcomment, hcut, ts, ?_⟩
    · rw [hpos, Text.width_cons, (separates_of_isGap hgap).2.1]
      simp [Int.add_assoc]
    · rw [ofCode_gap hgap, hts]
  | case3 => cases h
  | case4 pos c cs hgap hc cause hcut =>
    cases h
    exact ⟨[], c, cs, rfl, by simp, by simpa using hgap, hc, hcut, [], by rw [ofCode]⟩
  | case5 pos c cs hgap hc t hcut ih =>
    rcases bind_eq_error.mp h with hrest | ⟨ts, -, hts⟩
    · obtain ⟨done, d, rest, hsplit, hpos, hd, hcomment, hcause, ts, hts⟩ := ih hrest
      obtain ⟨pre, hpre, hshort⟩ := cut_shortened hcut hsplit
      refine ⟨c :: pre, d, rest, ?_, ?_, hd, hcomment, hcause,
        ⟨t.kind, String.ofList t.lexeme, pos⟩ :: ts, ?_⟩
      · rw [(cut_of hcut).split, hsplit, hpre, List.append_assoc]
      · rw [hpos, hpre, Text.width_append]
        simp [Int.add_assoc]
      · rw [ofCode_cut (by simpa using hgap) hc hshort]
        exact bind_eq_ok.mpr ⟨ts, hts, rfl⟩
    · cases hts

end Token

/-! Lines. -/

/-- What is found on a line is found in a text that holds the line. -/
theorem LexCause.FoundAt.within {cause : LexCause} {above done rest below : List Char}
    (h : cause.FoundAt done rest) (habove : ∀ c ∈ above.getLast?, c = '\n') (hrest : '\n' ∉ rest)
    (hbelow : ∀ c ∈ below.head?, c = '\n') : cause.FoundAt (above ++ done) (rest ++ below) := by
  cases cause with
  | unexpected c =>
    obtain ⟨rest, rfl, hc⟩ := h
    refine ⟨rest ++ below, rfl, { hc with unequal := ?_ }⟩
    rintro ⟨rfl, hequal⟩
    cases rest with
    | nil => exact absurd (hbelow '=' hequal) (by decide)
    | cons d rest => exact hc.unequal ⟨rfl, hequal⟩
  | unterminated =>
    obtain ⟨q, rest, rfl, hq, hopen⟩ := h
    rw [List.mem_cons, not_or] at hrest
    have hline : ∀ c ∈ rest, decide (c ≠ '\n') = true := by
      intro c hc
      rw [decide_eq_true_eq]
      rintro rfl
      exact hrest.2 hc
    have htake : (rest ++ below).takeWhile (· ≠ '\n') = rest :=
      (Print.takeWhile_append hline fun c hc => by simp [hbelow c hc]).1
    refine ⟨q, rest ++ below, rfl, hq, ?_⟩
    rw [htake]
    rwa [List.takeWhile_eq_self_iff.mpr hline] at hopen
  | inconsistent w =>
    obtain ⟨before, gap, ret, rfl, hbefore, hmargin, hwidth⟩ := h
    refine ⟨above ++ before, gap, ret, by simp, ?_, ⟨hmargin.spaces, ?_⟩, hwidth⟩
    · intro c hc
      rw [List.getLast?_append] at hc
      cases hlast : before.getLast? with
      | none => simp [hlast] at hc; exact habove c hc
      | some d => simp [hlast] at hc; exact hc ▸ hbefore d hlast
    · refine hmargin.ret.imp_right fun ⟨hnil, hhead⟩ => ⟨hnil, fun c hc => ?_⟩
      cases rest with
      | nil => rw [hbelow c hc]; decide
      | cons d rest => exact hhead c hc

namespace Token

theorem foundAt_of_cut {c : Char} {cs : List Char} {cause : LexCause}
    (h : cut c cs = .error cause) (hgap : isGap c = false) (hcomment : c ≠ '#') (hline : c ≠ '\n')
    (before : List Char) : cause.FoundAt before (c :: cs) := by
  rcases cut_eq_error h hgap hcomment hline with ⟨rfl, hquote, hopen⟩ | ⟨rfl, hnothing⟩
  · exact ⟨c, cs, rfl, hquote, fun hmem => hopen ((List.takeWhile_sublist _).subset hmem)⟩
  · exact ⟨cs, rfl, hnothing⟩

/-- A line that ends before its code can be read. -/
theorem ofLine_margin {gap ret code : List Char} (h : Layout.IsMargin gap ret code) (line : Int)
    (blocks : Layout.Blocks) : ofLine blocks line false (gap ++ ret) = .ok (blocks, []) := by
  have hshort : Layout.IsMargin gap ret [] := h.shortened
  have hempty := hshort.margin_eq
  rw [List.append_nil] at hempty
  refine Layout.ofLine_blank (l := ⟨line, gap ++ ret⟩) ?_ blocks false
  simp [Layout.Line.hasCode, Layout.Margin.isEmpty, hempty]

/-- A line that enters its block can be read up to where its code can. -/
theorem ofLine_shortened {l : Layout.Line} {gap ret done rest : List Char} {ts : List Token}
    {blocks : Layout.Blocks} {next : Layout.Blocks × Layout.Change}
    (hmargin : Layout.IsMargin gap ret (done ++ rest))
    (htext : l.text = gap ++ (ret ++ (done ++ rest))) (hcode : l.hasCode = true)
    (henter : blocks.enter? l.width = some next)
    (hread : ofCode l.start done = .ok ts) :
    ∃ r, ofLine blocks l.number false (gap ++ (ret ++ done)) = .ok r := by
  have hwhole := hmargin.margin_eq
  rw [← htext] at hwhole
  have hshort := hmargin.shortened.margin_eq
  cases done with
  | nil => exact ⟨_, by rw [List.append_nil]; exact ofLine_margin hmargin l.number blocks⟩
  | cons d done =>
    let shorter : Layout.Line := ⟨l.number, gap ++ (ret ++ d :: done)⟩
    have hcode' : shorter.hasCode = true := by
      simp only [Layout.Line.hasCode, Layout.Margin.isEmpty, hwhole] at hcode
      simpa [Layout.Line.hasCode, Layout.Margin.isEmpty, shorter, hshort] using hcode
    have hwidth : shorter.width = l.width := by
      simp [Layout.Line.width, shorter, hshort, hwhole]
    have hstart : shorter.start = l.start := by
      simp [Layout.Line.start, shorter, hshort, hwhole]
    refine ⟨_, (Layout.ofLine_eq_ok (l := shorter) hcode').mpr
      ⟨next.2, ts, hwidth ▸ henter, ?_, rfl⟩⟩
    rw [hstart, hshort]
    exact hread

/-- A line that cannot be read fails at a place up to which it can. -/
theorem ofLine_fault {l : Layout.Line} (hline : '\n' ∉ l.text) {blocks : Layout.Blocks}
    {ended : Bool} {e : LexError} (h : ofLine blocks l.number ended l.text = .error e) :
    ∃ done rest, l.text = done ++ rest ∧ e.pos = ⟨l.number, 1 + Text.width done⟩ ∧
      (∃ r, ofLine blocks l.number false done = .ok r) ∧ e.cause.FoundAt done rest := by
  obtain ⟨gap, ret, code, htext, hmargin⟩ := Layout.exists_isMargin l.text
  have hwhole := hmargin.margin_eq
  rw [← htext] at hwhole
  cases hcode : l.hasCode with
  | false =>
    rw [Layout.ofLine_blank hcode] at h
    cases h
  | true =>
    rw [Layout.ofLine_code hcode] at h
    cases henter : blocks.enter? l.width with
    | none =>
      rw [henter] at h
      cases h
      refine ⟨gap ++ ret, code, by rw [htext, List.append_assoc], ?_,
        ⟨_, ofLine_margin hmargin l.number blocks⟩, [], gap, ret, rfl, by simp, hmargin, ?_⟩
      · simp [Layout.Line.start, hwhole, hmargin.width_eq]
      · simp [Layout.Line.width, hwhole]
    | some next =>
      rw [henter] at h
      rcases bind_eq_error.mp h with hread | ⟨tokens, -, heq⟩
      · rw [hwhole] at hread
        obtain ⟨done, c, rest, rfl, hpos, hgap, hcomment, hcut, ts, hts⟩ := ofCode_fault hread
        have hnewline : c ≠ '\n' := by
          rintro rfl
          exact hline (by simp [htext])
        refine ⟨gap ++ (ret ++ done), c :: rest, by simp [htext], ?_,
          ofLine_shortened hmargin htext hcode henter hts,
          foundAt_of_cut hcut hgap hcomment hnewline _⟩
        rw [hpos, ← List.append_assoc, Text.width_append, hmargin.width_eq]
        simp [Layout.Line.start, hwhole, Int.add_assoc]
      · cases heq

/-! Texts. -/

/-- Lines that cannot be read fail on one of them, which the lines above leave their blocks to. -/
theorem ofLines_fault {blocks : Layout.Blocks} {line : Int} {ls : List (List Char)} {e : LexError}
    (h : ofLines blocks line ls = .error e) :
    ∃ above cs below left ts ended, ls = above ++ cs :: below ∧
      ofEnded blocks line above = .ok (left, ts) ∧
      ofLine left (line + above.length) ended cs = .error e := by
  induction ls generalizing blocks line with
  | nil => cases h
  | cons cs rest ih =>
    by_cases hrest : rest = []
    · subst hrest
      rcases bind_eq_error.mp h with hline | ⟨next, -, hnext⟩
      · exact ⟨[], cs, [], blocks, [], false, rfl, rfl, by simpa using hline⟩
      · cases hnext
    · rw [ofLines_cons _ _ _ hrest] at h
      rcases bind_eq_error.mp h with hline | ⟨⟨left, tokens⟩, hline, hnext⟩
      · exact ⟨[], cs, rest, blocks, [], true, rfl, rfl, by simpa using hline⟩
      · rcases bind_eq_error.mp hnext with hlater | ⟨ts, -, hts⟩
        · obtain ⟨above, cs', below, left', ts, ended, rfl, hended, hfault⟩ := ih hlater
          refine ⟨cs :: above, cs', below, left', tokens ++ ts, ended, rfl,
            bind_eq_ok.mpr ⟨_, hline, bind_eq_ok.mpr ⟨_, hended, rfl⟩⟩, ?_⟩
          rw [← hfault, List.length_cons]
          congr 1
          push_cast
          omega
        · cases hts

theorem unlines_concat (ls : List (List Char)) (l : List Char) :
    unlines (ls ++ [l]) = unlines ls ++ l ++ ['\n'] := by simp [unlines]

theorem getLast?_unlines (ls : List (List Char)) : ∀ c ∈ (unlines ls).getLast?, c = '\n' := by
  rcases List.eq_nil_or_concat' ls with rfl | ⟨ls, l, rfl⟩
  · simp [unlines]
  · simp [unlines_concat]

theorem behind_unlines {ls : List (List Char)} (h : ∀ l ∈ ls, '\n' ∉ l) :
    Pos.behind (unlines ls) = ⟨1 + ls.length, 1⟩ := by
  induction ls using List.reverseRecOn with
  | nil => rfl
  | append_singleton ls l ih =>
    rw [List.forall_mem_append, List.forall_mem_singleton] at h
    rw [unlines_concat, Pos.behind_newline, Pos.behind_append h.2, ih h.1, List.length_append]
    simp [Int.add_assoc]

/-- A line of a text stands behind the lines above it and is followed by the end of the text or a
newline. -/
theorem exists_text_of_lines {cs l : List Char} {above below : List (List Char)}
    (h : lines cs = above ++ l :: below) :
    ∃ tail, cs = unlines above ++ (l ++ tail) ∧ ∀ c ∈ tail.head?, c = '\n' := by
  obtain ⟨ls, last, rfl, hls, hlast⟩ := exists_unlines cs
  rw [lines_unlines_append hls, lines_eq_singleton hlast] at h
  rcases List.eq_nil_or_concat' below with rfl | ⟨below, last', rfl⟩
  · obtain ⟨rfl, rfl⟩ := List.append_singleton_inj.mp h
    exact ⟨[], by simp, by simp⟩
  · rw [← List.cons_append, ← List.append_assoc] at h
    obtain ⟨rfl, rfl⟩ := List.append_singleton_inj.mp h
    exact ⟨'\n' :: (unlines below ++ last), by simp [unlines], by simp⟩

/-- A text that cannot be read fails at a place up to which it can. -/
theorem ofSource_fault {source : String} {e : LexError} (h : ofSource source = .error e) :
    ∃ before behind : String, source = before ++ behind ∧ e.pos = Pos.behind before.toList ∧
      (∃ ts, ofSource before = .ok ts) ∧ e.cause.FoundAt before.toList behind.toList := by
  obtain ⟨above, cs, below, left, ts, ended, hlines, hended, hfault⟩ := ofLines_fault h
  have hnewline : ∀ l ∈ above ++ cs :: below, '\n' ∉ l := fun l hl =>
    newline_notMem_of_mem_lines (hlines ▸ hl)
  rw [List.forall_mem_append, List.forall_mem_cons] at hnewline
  obtain ⟨habove, hcs, -⟩ := hnewline
  obtain ⟨done, rest, rfl, hpos, ⟨r, hdone⟩, hfound⟩ :=
    ofLine_fault (l := ⟨1 + above.length, cs⟩) hcs hfault
  rw [List.mem_append, not_or] at hcs
  obtain ⟨tail, htext, htail⟩ := exists_text_of_lines hlines
  refine ⟨String.ofList (unlines above ++ done), String.ofList (rest ++ tail), ?_, ?_, ?_, ?_⟩
  · rw [← String.ofList_append, ← String.ofList_toList (s := source), htext]
    simp
  · rw [String.toList_ofList, Pos.behind_append hcs.1, behind_unlines habove, hpos]
  · have hshort : lines (unlines above ++ done) = above ++ [done] := by
      rw [lines_unlines_append habove, lines_eq_singleton hcs.1]
    unfold ofSource
    rw [String.toList_ofList, hshort, ofLines_append _ _ _ (List.cons_ne_nil _ _)]
    exact ⟨_, bind_eq_ok.mpr ⟨_, hended, bind_eq_ok.mpr ⟨_, bind_eq_ok.mpr ⟨_, hdone, rfl⟩, rfl⟩⟩⟩
  · rw [String.toList_ofList, String.toList_ofList]
    exact hfound.within (getLast?_unlines above) hcs.2 htail

end Token

/-- No two places before characters of a text are the same. -/
theorem Pos.behind_inj {before behind before' behind' : List Char}
    (htext : before ++ behind = before' ++ behind') (h : Pos.behind before = Pos.behind before') :
    before = before' := by
  have hnil {before word : List Char} (h : Pos.behind before = Pos.behind (before ++ word)) :
      word = [] := by
    by_contra hne
    have hbefore := Pos.behind_before before hne
    rw [← h] at hbefore
    simp [Pos.Before] at hbefore
  rcases List.append_eq_append_iff.mp htext with ⟨word, rfl, -⟩ | ⟨word, rfl, -⟩
  · simp [hnil h]
  · simp [hnil h.symm]

/-- An error of a text that cannot be read is the first there is and tells the truth. Its place is
that of one split of the text. What stands before reads without error. Behind stands what the
error says: a character that begins no token; a quote that its line does not close; or the code of a
line behind all its spaces and tabs, of which there are as many as told, and a carriage return. -/
theorem Token.ofSource_error_accurate {source : String} {e : LexError}
    (h : Token.ofSource source = .error e) :
    (∃ before behind : String, source = before ++ behind ∧ e.pos = Pos.behind before.toList) ∧
      ∀ before behind : String, source = before ++ behind → e.pos = Pos.behind before.toList →
        (∃ ts, Token.ofSource before = .ok ts) ∧
          e.cause.FoundAt before.toList behind.toList := by
  obtain ⟨before, behind, rfl, hpos, hread, hfound⟩ := Token.ofSource_fault h
  refine ⟨⟨before, behind, rfl, hpos⟩, fun before' behind' htext hpos' => ?_⟩
  have hlists := congrArg String.toList htext
  rw [String.toList_append, String.toList_append] at hlists
  have heq := Pos.behind_inj hlists (hpos.symm.trans hpos')
  rw [heq] at hlists hfound
  obtain rfl := String.toList_injective heq
  rw [List.append_cancel_left hlists] at hfound
  exact ⟨hread, hfound⟩

/-- A point that belongs to no number, a quote that only the next line has again, and a line with a
carriage return behind its tab where no block began. -/
theorem Token.ofSource_error_accurate_each :
    (Token.ofSource "x = 1.@" = .error ⟨.unexpected '.', ⟨1, 6⟩⟩ ∧
      (∃ ts, Token.ofSource "x = 1" = .ok ts) ∧ Token.StartsNothing '.' ['@']) ∧
    (Token.ofSource "'a' \"b\n\"" = .error ⟨.unterminated, ⟨1, 5⟩⟩ ∧
      (∃ ts, Token.ofSource "'a' " = .ok ts) ∧
        LexCause.unterminated.FoundAt "'a' ".toList "\"b\n\"".toList) ∧
    (Token.ofSource "a:\n  b\n\t\r@" = .error ⟨.inconsistent 1, ⟨3, 3⟩⟩ ∧
      (∃ ts, Token.ofSource "a:\n  b\n\t\r" = .ok ts) ∧
        (LexCause.inconsistent 1).FoundAt "a:\n  b\n\t\r".toList ['@']) := by
  have hpoint : Token.ofSource "x = 1.@" = .error ⟨.unexpected '.', ⟨1, 6⟩⟩ := by decide +kernel
  have hquote : Token.ofSource "'a' \"b\n\"" = .error ⟨.unterminated, ⟨1, 5⟩⟩ := by decide +kernel
  have hmargin : Token.ofSource "a:\n  b\n\t\r@" = .error ⟨.inconsistent 1, ⟨3, 3⟩⟩ := by
    decide +kernel
  refine ⟨⟨hpoint, ?_⟩, ⟨hquote, ?_⟩, hmargin, ?_⟩
  · obtain ⟨hread, rest, hrest, hnothing⟩ :=
      (Token.ofSource_error_accurate hpoint).2 "x = 1" ".@" (by decide) (by decide)
    cases hrest
    exact ⟨hread, hnothing⟩
  · exact (Token.ofSource_error_accurate hquote).2 "'a' " "\"b\n\"" (by decide) (by decide)
  · exact (Token.ofSource_error_accurate hmargin).2 "a:\n  b\n\t\r" "@" (by decide) (by decide)

end SceneScript
