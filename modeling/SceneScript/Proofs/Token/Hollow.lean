import SceneScript.Proofs.Token.Faults
import SceneScript.Proofs.Token.Ignored

/-! Lines that only look empty. A line of spaces, tabs, carriage returns and a comment has no code.
Layout passes over one carriage return at the beginning of a line and no more, so that a line with
something between its first carriage return and its comment counts as one with code: it opens and
closes blocks and has an end among the tokens, though no code stands before that end. Such hollow
lines are the only ones that do. -/

namespace SceneScript.Token

/-- Spaces, tabs and carriage returns, and behind them perhaps a comment. -/
def IsBare (cs : List Char) : Prop :=
  ∃ gap comment, cs = gap ++ comment ∧ (∀ c ∈ gap, isGap c = true) ∧
    (comment = [] ∨ ∃ text, comment = '#' :: text)

/-- A bare line with something between its first carriage return and its comment. -/
def IsHollow (cs : List Char) : Prop :=
  ∃ gap more, cs = gap ++ '\r' :: more ∧ (∀ c ∈ gap, c = ' ' ∨ c = '\t') ∧ IsBare more ∧
    ∃ c ∈ more.head?, isGap c = true

/-- A token may end a line only behind code. -/
def EndsCode (t u : Token) : Prop :=
  u.kind = .newline → t.kind ≠ .newline ∧ t.kind ≠ .indent ∧ t.kind ≠ .dedent
deriving Decidable

/-- The end of a line is never the first token and never follows another, or the opening or the
closing of a block. -/
structure LinesCarry (ts : List Token) : Prop where
  first : ∀ t ∈ ts.head?, t.kind ≠ .newline
  next : ts.IsChain EndsCode

/-- A line with these lines above and below it is the last and begins where the last line with code
did. -/
def EndsLevel (above : List (List Char)) (cs : List Char) (below : List (List Char)) : Prop :=
  below = [] ∧
    (Layout.margin cs).width = ((Layout.codeLines 1 above).map Layout.Line.width).getLastD 0
deriving Decidable

/-! Bare and hollow lines. -/

theorem isBare_gap {c : Char} (hc : isGap c = true) (cs : List Char) :
    IsBare (c :: cs) ↔ IsBare cs := by
  constructor
  · rintro ⟨gap, comment, heq, hgap, hcomment⟩
    cases gap with
    | nil =>
      rcases hcomment with rfl | ⟨text, rfl⟩ <;> cases heq
      cases hc
    | cons d gap =>
      cases heq
      exact ⟨gap, comment, rfl, fun c hc => hgap c (List.mem_cons_of_mem _ hc), hcomment⟩
  · rintro ⟨gap, comment, rfl, hgap, hcomment⟩
    exact ⟨c :: gap, comment, rfl, List.forall_mem_cons.mpr ⟨hc, hgap⟩, hcomment⟩

theorem isBare_char {c : Char} (hc : isGap c = false) (cs : List Char) :
    IsBare (c :: cs) ↔ c = '#' := by
  constructor
  · rintro ⟨gap, comment, heq, hgap, hcomment⟩
    cases gap with
    | nil =>
      rcases hcomment with rfl | ⟨text, rfl⟩ <;> cases heq
      rfl
    | cons d gap =>
      cases heq
      exact absurd (hgap c List.mem_cons_self) (by simp [hc])
  · rintro rfl
    exact ⟨[], '#' :: cs, rfl, by simp, .inr ⟨cs, rfl⟩⟩

theorem isBare_append {gap : List Char} (hgap : ∀ c ∈ gap, isGap c = true) (cs : List Char) :
    IsBare (gap ++ cs) ↔ IsBare cs := by
  induction gap with
  | nil => rfl
  | cons c gap ih =>
    rw [List.forall_mem_cons] at hgap
    exact (isBare_gap hgap.1 _).trans (ih hgap.2)

/-- Code gives no token when it is bare, and only then. -/
theorem ofCode_eq_nil_iff {pos : Pos} {cs : List Char} {code : List Token}
    (h : ofCode pos cs = .ok code) : code = [] ↔ IsBare cs := by
  induction cs generalizing pos with
  | nil =>
    rw [ofCode] at h
    cases h
    exact iff_of_true rfl ⟨[], [], rfl, by simp, .inl rfl⟩
  | cons c cs ih =>
    cases hgap : isGap c with
    | true =>
      rw [ofCode_gap hgap] at h
      rw [isBare_gap hgap]
      exact ih h
    | false =>
      rw [isBare_char hgap]
      by_cases hc : c = '#'
      · subst hc
        rw [ofCode_comment] at h
        cases h
        simp
      · exact iff_of_false (ofCode_ne_nil hgap hc h) hc

/-- What a line begins with before its code is no code. -/
theorem isBare_code (cs : List Char) : IsBare (Layout.margin cs).code ↔ IsBare cs := by
  obtain ⟨skipped, hcs, hgap, -⟩ := Layout.exists_skipped cs
  rw [← isBare_append hgap, ← hcs]

theorem isBlank_iff (cs : List Char) :
    IsBlank cs ↔ ∀ c ∈ (Layout.margin cs).code.head?, c = '#' := by
  unfold IsBlank Layout.Margin.isEmpty
  cases (Layout.margin cs).code <;> simp

/-- The hollow lines are the bare lines that are not blank. -/
theorem isHollow_iff (cs : List Char) : IsHollow cs ↔ IsBare cs ∧ ¬ IsBlank cs := by
  constructor
  · rintro ⟨gap, more, rfl, hspaces, hmore, c, hc, hgap⟩
    have hm : Layout.IsMargin gap ['\r'] more := ⟨hspaces, .inl rfl⟩
    have hmargin := hm.margin_eq
    rw [List.singleton_append] at hmargin
    rw [isBlank_iff, ← isBare_code, hmargin]
    refine ⟨hmore, fun hcomment => ?_⟩
    rw [hcomment c hc] at hgap
    cases hgap
  · rintro ⟨hbare, hblank⟩
    obtain ⟨gap, ret, code, rfl, hm⟩ := Layout.exists_isMargin cs
    rw [isBlank_iff, hm.margin_eq] at hblank
    rw [← isBare_code, hm.margin_eq] at hbare
    push Not at hblank
    obtain ⟨c, hc, hcomment⟩ := hblank
    have hgap : isGap c = true := by
      by_contra hgap
      obtain ⟨rest, rfl⟩ := List.head?_eq_some_iff.mp hc
      exact hcomment ((isBare_char (by simpa using hgap) rest).mp hbare)
    rcases hm.ret with rfl | ⟨-, hhead⟩
    · exact ⟨gap, code, rfl, hm.spaces, hbare, c, hc, hgap⟩
    · have hne := hhead c hc
      simp [isGap, hne] at hgap

/-! Tokens in a row. -/

theorem linesCarry_append (ts us : List Token) :
    LinesCarry (ts ++ us) ↔ LinesCarry ts ∧ us.IsChain EndsCode ∧
      ∀ u ∈ us.head?, u.kind = .newline →
        ∃ t ∈ ts.getLast?, t.kind ≠ .newline ∧ t.kind ≠ .indent ∧ t.kind ≠ .dedent := by
  constructor
  · rintro ⟨hfirst, hnext⟩
    obtain ⟨hts, hus, hseam⟩ := List.isChain_append.mp hnext
    refine ⟨⟨fun t ht => hfirst t (List.mem_head?_append_of_mem_head? ht), hts⟩, hus, ?_⟩
    intro u hu hline
    cases hlast : ts.getLast? with
    | none =>
      rw [List.getLast?_eq_none_iff.mp hlast] at hfirst
      exact absurd hline (hfirst u hu)
    | some t => exact ⟨t, rfl, hseam t hlast u hu hline⟩
  · rintro ⟨⟨hfirst, hts⟩, hus, hseam⟩
    refine ⟨fun t ht => ?_, List.isChain_append.mpr ⟨hts, hus, fun t ht u hu hline => ?_⟩⟩
    · cases ts with
      | nil =>
        intro hline
        obtain ⟨t, hnone, -⟩ := hseam t ht hline
        cases hnone
      | cons _ _ => exact hfirst t ht
    · obtain ⟨t', ht', hcode⟩ := hseam u hu hline
      rw [Option.mem_unique ht ht']
      exact hcode

theorem linesCarry_of_ne {ts : List Token} (h : ∀ t ∈ ts, t.kind ≠ .newline) : LinesCarry ts :=
  ⟨fun t ht => h t (List.mem_of_mem_head? ht), (List.pairwise_of_forall_mem_list
    fun _ _ u hu hline => absurd hline (h u hu)).isChain⟩

/-- Behind the end of a line the tokens begin anew. -/
theorem linesCarry_append_of_newline {ts : List Token} (us : List Token)
    (h : ∀ t ∈ ts.getLast?, t.kind = .newline) :
    LinesCarry (ts ++ us) ↔ LinesCarry ts ∧ LinesCarry us := by
  rw [linesCarry_append]
  refine and_congr_right fun _ => ⟨fun ⟨hus, hseam⟩ => ⟨fun u hu hline => ?_, hus⟩,
    fun hus => ⟨hus.next, fun u hu hline => absurd hline (hus.first u hu)⟩⟩
  obtain ⟨t, ht, hne, -⟩ := hseam u hu hline
  exact hne (h t ht)

/-! One line. -/

/-- A line changes nothing of the layout when it begins where the innermost block did. -/
theorem tokens_eq_nil_iff {blocks left : Layout.Blocks} {w : Nat} {change : Layout.Change}
    (h : blocks.enter? w = some (left, change)) (pos : Pos) :
    change.tokens pos = [] ↔ w = blocks.width := by
  unfold Layout.Blocks.enter? at h
  dsimp only at h
  split at h
  · rename_i hlt
    cases h
    exact iff_of_false (List.cons_ne_nil _ _) (Nat.ne_of_gt hlt)
  · rename_i hle
    split at h <;> cases h
    rw [Layout.Change.tokens, List.replicate_eq_nil_iff, List.length_eq_zero_iff]
    cases blocks with
    | nil => simpa [Layout.Blocks.width] using hle
    | cons b blocks =>
      simp only [Layout.Blocks.width, List.headD_cons] at hle ⊢
      by_cases hlt : w < b
      · simp [hlt, Nat.ne_of_lt hlt]
      · have heq : w = b := by omega
        simp [heq]

theorem hasCode_iff (l : Layout.Line) : l.hasCode = true ↔ ¬ IsBlank l.text := by
  simp [Layout.Line.hasCode, IsBlank]

/-- The tokens of a bare line: none, unless the line is hollow. A hollow line has an end behind
what it opens and closes, except at the end of the text where it opens and closes nothing. -/
theorem ofLine_bare {l : Layout.Line} {blocks left : Layout.Blocks} {ended : Bool}
    {ts : List Token} (hbare : IsBare l.text)
    (h : ofLine blocks l.number ended l.text = .ok (left, ts)) :
    ts = [] ∧ (IsHollow l.text → ended = false ∧ l.width = blocks.width) ∨
      IsHollow l.text ∧ ¬ (ended = false ∧ l.width = blocks.width) ∧
        ∃ change : Layout.Change, ts = change.tokens l.start ++ [newline l.stop] := by
  cases hcode : l.hasCode with
  | false =>
    cases (Layout.ofLine_blank hcode blocks ended).symm.trans h
    refine .inl ⟨rfl, fun hhollow => ?_⟩
    rw [(hasCode_iff l).mpr ((isHollow_iff _).mp hhollow).2] at hcode
    cases hcode
  | true =>
    have hhollow : IsHollow l.text := (isHollow_iff _).mpr ⟨hbare, (hasCode_iff l).mp hcode⟩
    obtain ⟨change, code, henter, hread, rfl⟩ := (Layout.ofLine_eq_ok hcode).mp h
    obtain rfl : code = [] := (ofCode_eq_nil_iff hread).mpr ((isBare_code _).mpr hbare)
    rw [List.append_nil]
    by_cases hlevel : ended = false ∧ l.width = blocks.width
    · refine .inl ⟨?_, fun _ => hlevel⟩
      rw [(tokens_eq_nil_iff henter l.start).mpr hlevel.2, hlevel.1]
      rfl
    · refine .inr ⟨hhollow, hlevel, change, l.closed_eq ?_⟩
      rw [← tokens_eq_nil_iff henter l.start, not_and] at hlevel
      cases ended with
      | false => exact .inr (hlevel rfl)
      | true => exact .inl rfl

/-- The end of a line stands behind code unless the line is hollow. -/
theorem ofLine_linesCarry {l : Layout.Line} {blocks left : Layout.Blocks} {ended : Bool}
    {ts : List Token} (h : ofLine blocks l.number ended l.text = .ok (left, ts)) :
    LinesCarry ts ↔ (IsHollow l.text → ended = false ∧ l.width = blocks.width) := by
  by_cases hbare : IsBare l.text
  · rcases ofLine_bare hbare h with ⟨rfl, hlevel⟩ | ⟨hhollow, hlevel, change, rfl⟩
    · exact iff_of_true (linesCarry_of_ne (by simp)) hlevel
    · refine iff_of_false (fun hcarry => ?_) fun himp => hlevel (himp hhollow)
      obtain ⟨t, ht, -, hindent, hdedent⟩ :=
        ((linesCarry_append _ _).mp hcarry).2.2 _ rfl rfl
      rcases change_tokens_kind change l.start t (List.mem_of_getLast? ht) with hkind | hkind
      · exact hindent hkind
      · exact hdedent hkind
  · refine iff_of_true ?_ fun hhollow => absurd ((isHollow_iff _).mp hhollow).1 hbare
    cases hcode : l.hasCode with
    | false =>
      cases (Layout.ofLine_blank hcode blocks ended).symm.trans h
      exact linesCarry_of_ne (by simp)
    | true =>
      obtain ⟨change, code, -, hread, rfl⟩ := (Layout.ofLine_eq_ok hcode).mp h
      have hne : code ≠ [] := fun hnil =>
        hbare ((isBare_code _).mp ((ofCode_eq_nil_iff hread).mp hnil))
      rw [l.closed_eq (.inr (by simp [hne])), linesCarry_append]
      refine ⟨linesCarry_of_ne (kind_ne_newline hread change l.start), List.isChain_singleton _,
        fun u _ _ => ⟨code.getLast hne, ?_, ?_⟩⟩
      · rw [List.getLast?_append, List.getLast?_eq_some_getLast hne]
        rfl
      · have hkind := (ofCode_mem hread _ (List.getLast_mem hne)).1
        refine ⟨fun heq => ?_, fun heq => ?_, fun heq => ?_⟩ <;> rw [heq] at hkind <;> cases hkind

/-! All lines. -/

theorem kind_of_mem_closings {count : Nat} {pos : Pos} {t : Token}
    (h : t ∈ List.replicate count (dedent pos) ++ [eof pos]) :
    t.kind = .dedent ∨ t.kind = .eof := by
  rcases List.mem_append.mp h with h | h
  · exact .inl (by rw [List.eq_of_mem_replicate h]; rfl)
  · exact .inr (by rw [List.mem_singleton.mp h]; rfl)

theorem linesCarry_closings (count : Nat) (pos : Pos) :
    LinesCarry (List.replicate count (dedent pos) ++ [eof pos]) :=
  linesCarry_of_ne fun t ht => by
    rcases kind_of_mem_closings ht with hkind | hkind <;> rw [hkind] <;> decide

theorem getLast?_ofLine {blocks left : Layout.Blocks} {line : Int} {ended : Bool}
    {cs : List Char} {ts : List Token} (h : ofLine blocks line ended cs = .ok (left, ts)) :
    ∀ t ∈ ts.getLast?, t.kind = .newline := by
  rcases ofLine_tokens h with rfl | ⟨change, start, stop, code, -, rfl⟩
  · simp
  · intro t ht
    rw [← List.append_assoc, List.getLast?_concat] at ht
    cases ht
    rfl

theorem codeLines_cons (line : Int) (cs : List Char) (rest : List (List Char)) :
    Layout.codeLines line (cs :: rest) =
      Layout.codeLines line [cs] ++ Layout.codeLines (line + 1) rest :=
  List.filter_append [Layout.Line.mk line cs] _

/-- The lines of a text carry code when every hollow line is the last and level with the line with
code before it. -/
theorem ofLines_linesCarry {blocks : Layout.Blocks} {widths : List Nat} {line : Int}
    {ls : List (List Char)} {ts : List Token} (htracks : Layout.Tracks blocks widths)
    (h : ofLines blocks line ls = .ok ts) :
    LinesCarry ts ↔ ∀ above cs below, ls = above ++ cs :: below → IsHollow cs →
      below = [] ∧ (Layout.margin cs).width =
        (widths ++ (Layout.codeLines line above).map Layout.Line.width).getLastD 0 := by
  induction ls generalizing blocks widths line ts with
  | nil =>
    cases h
    exact iff_of_true (linesCarry_of_ne (by simp)) (by simp)
  | cons first rest ih =>
    obtain ⟨left, tokens, later, hline, rfl, hlater⟩ := ofLines_cons_eq_ok h
    have hfirst := ofLine_linesCarry (l := ⟨line, first⟩) hline
    rw [htracks.width, Bool.not_eq_false', List.isEmpty_iff] at hfirst
    -- What the first line leaves to the others, which matters only when there are others.
    have hrest : LinesCarry later ↔ ∀ above cs below, rest = above ++ cs :: below → IsHollow cs →
        below = [] ∧ (Layout.margin cs).width = (widths ++
          (Layout.codeLines line (first :: above)).map Layout.Line.width).getLastD 0 := by
      rcases hlater with ⟨rfl, rfl⟩ | ⟨hne, hts⟩
      · exact iff_of_true (linesCarry_closings _ _) (by simp)
      · have hended : ofEnded blocks line [first] = .ok (left, tokens) := by
          obtain ⟨next, rest, rfl⟩ := List.exists_cons_of_ne_nil hne
          rw [ofEnded_singleton]
          exact hline
        simpa only [List.append_assoc, ← List.map_append, ← codeLines_cons] using
          ih (Layout.tracks_of_ofEnded htracks hended) hts
    rw [linesCarry_append_of_newline later (getLast?_ofLine hline), hfirst, hrest]
    constructor
    · rintro ⟨hhead, htail⟩ above cs below heq
      cases above with
      | nil =>
        cases heq
        simpa [Layout.codeLines, Layout.numbered, Layout.Line.width] using hhead
      | cons l above =>
        cases heq
        exact htail above cs below rfl
    · intro hall
      refine ⟨fun hhollow => ?_, fun above cs below heq => hall (first :: above) cs below ?_⟩
      · have hlevel := hall [] first rest rfl hhollow
        simpa [Layout.codeLines, Layout.numbered, Layout.Line.width] using hlevel
      · rw [heq]
        rfl

/-- A bare line has an end among the tokens when it is hollow, except as the last line and level
with the line with code before it. -/
theorem ofSource_newline_iff {source : String} {ts : List Token} (h : ofSource source = .ok ts)
    {above below : List (List Char)} {cs : List Char}
    (hlines : lines source.toList = above ++ cs :: below) (hbare : IsBare cs) :
    (∃ t ∈ ts, t.kind = .newline ∧ t.pos.line = 1 + above.length) ↔
      IsHollow cs ∧ ¬ EndsLevel above cs below := by
  unfold ofSource at h
  rw [hlines, ofLines_append _ _ _ (List.cons_ne_nil _ _)] at h
  obtain ⟨⟨left, before⟩, hended, hlater⟩ := bind_eq_ok.mp h
  obtain ⟨ts', hts, heq⟩ := bind_eq_ok.mp hlater
  cases heq
  obtain ⟨left', tokens, later, hline, rfl, hbehind⟩ := ofLines_cons_eq_ok hts
  -- The tokens of the line are those at its number, but for the closings.
  have hown : (∃ t ∈ before ++ (tokens ++ later), t.kind = .newline ∧
      t.pos.line = 1 + above.length) ↔ ∃ t ∈ tokens, t.kind = .newline := by
    constructor
    · rintro ⟨t, ht, hkind, hpos⟩
      rcases List.mem_append.mp ht with ht | ht
      · exact absurd hpos (Int.ne_of_lt (ofEnded_line hended t ht))
      · rcases List.mem_append.mp ht with ht | ht
        · exact ⟨t, ht, hkind⟩
        · rcases hbehind with ⟨-, rfl⟩ | ⟨-, hts'⟩
          · rcases kind_of_mem_closings ht with hend | hend <;> rw [hend] at hkind <;> cases hkind
          · have hle := ofLines_line hts' t ht
            omega
    · rintro ⟨t, ht, hkind⟩
      exact ⟨t, by simp [ht], hkind, ofLine_line (l := ⟨1 + above.length, cs⟩) hline t ht⟩
  have hwidth := (Layout.tracks_of_ofEnded .start hended).width
  rw [hown]
  have hcases := ofLine_bare (l := ⟨1 + above.length, cs⟩) hbare hline
  rw [hwidth, Bool.not_eq_false', List.isEmpty_iff] at hcases
  rcases hcases with ⟨rfl, hlevel⟩ | ⟨hhollow, hlevel, change, rfl⟩
  · exact iff_of_false (by simp) fun ⟨hhollow, hnot⟩ => hnot (hlevel hhollow)
  · exact iff_of_true ⟨_, List.mem_append_right _ (List.mem_singleton_self _), rfl⟩
      ⟨hhollow, hlevel⟩

end SceneScript.Token
