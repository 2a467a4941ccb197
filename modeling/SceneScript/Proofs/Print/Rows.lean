import SceneScript.Proofs.Print.Lines

/-! Words in rows. Any words may stand in a row, whether they make sense together or not: with a
space between them each is read as it was written, and with two spaces before them for every level
the rows are laid out as their depths ask. -/

namespace SceneScript.Print

/-- The ways to write a word. A string stands between two quotes that do not occur in it. -/
def Word.WrittenAs (w : Word) (cs : List Char) : Prop :=
  match w with
  | .str text => ∃ q, (q = '"' ∨ q = '\'') ∧ q ∉ text.toList ∧ cs = q :: text.toList ++ [q]
  | w => cs = w.lexeme

/-- Words at a depth. -/
structure Row where
  depth : Nat
  words : List Word

namespace Row

structure Proper (r : Row) : Prop where
  ne_nil : r.words ≠ []
  proper : ∀ w ∈ r.words, w.Proper

/-- The ways to write a row: two spaces for every level, and the words with a space between them. -/
def WrittenAs (r : Row) (cs : List Char) : Prop :=
  ∃ spellings, List.Forall₂ Word.WrittenAs r.words spellings ∧
    cs = List.replicate (2 * r.depth) ' ' ++ [' '].intercalate spellings

end Row

/-- The tokens of rows behind one at the given depth, at no place in particular: one opening where
the depth grows, one closing for every level it falls by, and at the end one for every level
left. -/
def laid (depth : Nat) : List Row → List Token
  | [] => List.replicate depth (.dedent ⟨0, 0⟩) ++ [.eof ⟨0, 0⟩]
  | r :: rs =>
    (if depth < r.depth then [.indent ⟨0, 0⟩]
      else List.replicate (depth - r.depth) (.dedent ⟨0, 0⟩)) ++
      r.words.map Word.token ++ .newline ⟨0, 0⟩ :: laid r.depth rs

/-! One row. -/

/-- A word that is written before what stops it is cut off there. -/
theorem Word.WrittenAs.exists_cut {w : Word} {cs rest : List Char} (h : w.WrittenAs cs)
    (hw : w.Proper) (hrest : Stops rest) :
    ∃ c cs', cs = c :: cs' ∧ Token.isGap c = false ∧ c ≠ '#' ∧
      Token.cut c (cs' ++ rest) = .ok ⟨w.kind, w.lexeme, cs, rest⟩ := by
  have hplain : w.spelling = cs → ∃ c cs', cs = c :: cs' ∧ Token.isGap c = false ∧ c ≠ '#' ∧
      Token.cut c (cs' ++ rest) = .ok ⟨w.kind, w.lexeme, cs, rest⟩ := by
    rintro rfl
    obtain ⟨c, cs', hcuts⟩ := exists_cuts hw (.inr hrest)
    exact ⟨c, cs', hcuts.spelling, hcuts.gap, hcuts.comment, hcuts.cut⟩
  cases w with
  | str text =>
    obtain ⟨q, hq, hnot, rfl⟩ := h
    refine ⟨q, text.toList ++ [q], rfl, ?_, ?_, cut_quoted hq hnot rest⟩
    · rcases hq with rfl | rfl <;> rfl
    · rcases hq with rfl | rfl <;> decide
  | _ => exact hplain h.symm

theorem stops_space (cs : List Char) : Stops (' ' :: cs) := by
  intro c hc
  cases hc
  decide

/-- Words with a space between them are read back. -/
theorem ofCode_written {words : List Word} {spellings : List (List Char)}
    (h : List.Forall₂ Word.WrittenAs words spellings) (hwords : ∀ w ∈ words, w.Proper) (pos : Pos) :
    ∃ ts, Token.ofCode pos ([' '].intercalate spellings) = .ok ts ∧
      ts.map (Token.mapPos Pos.forget) = words.map Word.token := by
  induction h generalizing pos with
  | nil => exact ⟨[], by rw [List.intercalate_nil, Token.ofCode], rfl⟩
  | @cons w cs words spellings hw htail ih =>
    rw [List.forall_mem_cons] at hwords
    obtain ⟨rest, htext, hstops, hread⟩ : ∃ rest,
        [' '].intercalate (cs :: spellings) = cs ++ rest ∧ Stops rest ∧
          ∀ pos, ∃ ts, Token.ofCode pos rest = .ok ts ∧
            ts.map (Token.mapPos Pos.forget) = words.map Word.token := by
      cases htail with
      | nil => exact ⟨[], by simp, stops_nil, ih hwords.2⟩
      | @cons w' cs' words spellings hw' htail =>
        refine ⟨' ' :: [' '].intercalate (cs' :: spellings), ?_, stops_space _, fun pos => ?_⟩
        · rw [List.intercalate_cons_of_ne_nil (by simp)]
          simp
        · rw [Token.ofCode_gap (by decide)]
          exact ih hwords.2 _
    obtain ⟨c, cs', rfl, hgap, hcomment, hcut⟩ := hw.exists_cut hwords.1 hstops
    rw [htext, List.cons_append, Token.ofCode_cut hgap hcomment hcut]
    obtain ⟨ts, hts, htokens⟩ := hread { pos with col := pos.col + Text.width (c :: cs') }
    exact ⟨_, bind_eq_ok.mpr ⟨ts, hts, rfl⟩, congrArg (w.token :: ·) htokens⟩

theorem Row.WrittenAs.exists_code {r : Row} {cs : List Char} (h : r.WrittenAs cs)
    (hr : r.Proper) :
    ∃ c code, cs = List.replicate (2 * r.depth) ' ' ++ c :: code ∧ Token.isGap c = false ∧
      c ≠ '#' ∧ ∀ pos, ∃ ts, Token.ofCode pos (c :: code) = .ok ts ∧
        ts.map (Token.mapPos Pos.forget) = r.words.map Word.token := by
  obtain ⟨spellings, hspellings, rfl⟩ := h
  have hread := ofCode_written hspellings hr.proper
  obtain ⟨w, words, hwords⟩ := List.exists_cons_of_ne_nil hr.ne_nil
  rw [hwords] at hspellings
  cases hspellings with
  | @cons _ spelling _ spellings hw _ =>
    obtain ⟨c, cs, rfl, hgap, hcomment, -⟩ :=
      hw.exists_cut (hr.proper w (by simp [hwords])) stops_nil
    cases spellings with
    | nil =>
      rw [List.intercalate_singleton] at hread ⊢
      exact ⟨c, cs, rfl, hgap, hcomment, hread⟩
    | cons spelling spellings =>
      rw [List.intercalate_cons_of_ne_nil (List.cons_ne_nil _ _)] at hread ⊢
      exact ⟨c, _, rfl, hgap, hcomment, hread⟩

theorem ofLine_written {r : Row} {cs : List Char} (h : r.WrittenAs cs) (hr : r.Proper)
    {blocks left : Layout.Blocks} {change : Layout.Change}
    (henter : blocks.enter? (2 * r.depth) = some (left, change)) (number : Int) :
    ∃ start stop code, Token.ofLine blocks number true cs =
        .ok (left, change.tokens start ++ code ++ [.newline stop]) ∧
      code.map (Token.mapPos Pos.forget) = r.words.map Word.token := by
  obtain ⟨c, text, rfl, hgap, hcomment, hread⟩ := h.exists_code hr
  let line : Layout.Line := ⟨number, List.replicate (2 * r.depth) ' ' ++ c :: text⟩
  have hmargin : Layout.margin line.text = ⟨2 * r.depth, 2 * r.depth, c :: text⟩ :=
    margin_set_in hgap _ text
  have hcode : line.hasCode = true := by
    unfold Layout.Line.hasCode Layout.Margin.isEmpty
    rw [hmargin]
    simpa using hcomment
  obtain ⟨code, hcodeRead, htokens⟩ := hread line.start
  refine ⟨line.start, line.stop, code, ?_, htokens⟩
  rw [← line.closed_eq (.inl rfl)]
  refine (Layout.ofLine_eq_ok (l := line) hcode).mpr ⟨change, code, ?_, ?_, rfl⟩
  · rw [Layout.Line.width, hmargin]
    exact henter
  · rw [hmargin]
    exact hcodeRead

/-! All rows. -/

/-- A row that is not deeper than the last one closes the levels between them. -/
theorem enter?_fall {width : Nat} (hwidth : 0 < width) {k depth : Nat} (hk : k ≤ depth) :
    (blocksAt width depth).enter? (k * width) = some (blocksAt width k, .closes (depth - k)) := by
  induction depth, hk using Nat.le_induction with
  | base =>
    rw [Nat.sub_self]
    exact enter?_same k
  | succ depth hk ih =>
    obtain ⟨n, hn, henter⟩ := enter?_shallower hwidth hk ih
    cases hn
    rw [henter, Nat.succ_sub hk]

theorem exists_enter {k depth : Nat} (hk : k ≤ depth + 1) :
    ∃ change, (blocksAt 2 depth).enter? (2 * k) = some (blocksAt 2 k, change) ∧
      ∀ pos, (change.tokens pos).map (Token.mapPos Pos.forget) =
        if depth < k then [.indent ⟨0, 0⟩] else List.replicate (depth - k) (.dedent ⟨0, 0⟩) := by
  rw [Nat.mul_comm]
  by_cases hrise : depth < k
  · obtain rfl : k = depth + 1 := by omega
    exact ⟨.opens, enter?_deeper (by decide) depth, fun pos => by rw [if_pos hrise]; rfl⟩
  · refine ⟨.closes (depth - k), enter?_fall (by decide) (by omega), fun pos => ?_⟩
    rw [if_neg hrise, Layout.Change.tokens, List.map_replicate]
    rfl

/-- Rows whose depth never grows by more than one are read back with the layout they ask for. -/
theorem ofLines_written {rows : List Row} {texts : List (List Char)}
    (h : List.Forall₂ Row.WrittenAs rows texts) (hrows : ∀ r ∈ rows, r.Proper) {depth : Nat}
    (hdepths : (depth :: rows.map Row.depth).IsChain fun d d' => d' ≤ d + 1) (number : Int) :
    ∃ ts, Token.ofLines (blocksAt 2 depth) number (texts ++ [[]]) = .ok ts ∧
      ts.map (Token.mapPos Pos.forget) = laid depth rows := by
  induction h generalizing depth number with
  | nil =>
    have hlength : (blocksAt 2 depth).length = depth := by
      clear hdepths
      induction depth with
      | zero => rfl
      | succ depth ih => rw [blocksAt, List.length_cons, ih]
    refine ⟨_, ofLines_end _ number, ?_⟩
    rw [hlength, List.map_append, List.map_replicate]
    rfl
  | @cons r cs rows texts hr _ ih =>
    rw [List.forall_mem_cons] at hrows
    rw [List.map_cons, List.isChain_cons_cons] at hdepths
    obtain ⟨change, henter, hchange⟩ := exists_enter hdepths.1
    obtain ⟨start, stop, code, hline, hcode⟩ := ofLine_written hr hrows.1 henter number
    obtain ⟨ts, hread, hts⟩ := ih hrows.2 hdepths.2 (number + 1)
    refine ⟨change.tokens start ++ code ++ [.newline stop] ++ ts, ?_, ?_⟩
    · rw [List.cons_append, Token.ofLines_cons _ _ _ (by simp)]
      exact bind_eq_ok.mpr ⟨_, hline, bind_eq_ok.mpr ⟨ts, hread, rfl⟩⟩
    · rw [laid, List.map_append, List.map_append, List.map_append, hchange, hcode, hts]
      simp [Token.mapPos, Pos.forget, Token.newline]

theorem Word.WrittenAs.newline_notMem {w : Word} {cs : List Char} (h : w.WrittenAs cs)
    (hw : w.Proper) : '\n' ∉ cs := by
  cases w with
  | str text =>
    obtain ⟨q, hq, -, rfl⟩ := h
    have hquote : '\n' ≠ q := by rcases hq with rfl | rfl <;> decide
    simp [hquote, hw.1]
  | _ =>
    cases h
    exact newline_notMem_spelling hw

theorem newline_notMem_of_forall₂ {α : Type} {R : α → List Char → Prop} {as : List α}
    {texts : List (List Char)} (h : List.Forall₂ R as texts)
    (hR : ∀ a ∈ as, ∀ cs, R a cs → '\n' ∉ cs) : ∀ cs ∈ texts, '\n' ∉ cs := by
  induction h with
  | nil => exact List.forall_mem_nil _
  | cons ha _ ih =>
    rw [List.forall_mem_cons] at hR
    exact List.forall_mem_cons.mpr ⟨hR.1 _ ha, ih hR.2⟩

theorem Row.WrittenAs.newline_notMem {r : Row} {cs : List Char} (h : r.WrittenAs cs)
    (hr : r.Proper) : '\n' ∉ cs := by
  obtain ⟨spellings, hspellings, rfl⟩ := h
  have hlines := newline_notMem_of_forall₂ hspellings
    fun w hw cs h => h.newline_notMem (hr.proper w hw)
  have htext : '\n' ∉ [' '].intercalate spellings := by
    clear hspellings
    induction spellings with
    | nil => simp
    | cons cs spellings ih =>
      rw [List.forall_mem_cons] at hlines
      cases spellings with
      | nil => simpa using hlines.1
      | cons cs' spellings =>
        rw [List.intercalate_cons_of_ne_nil (List.cons_ne_nil _ _)]
        simpa [hlines.1] using ih hlines.2
  simp [htext]

/-! Rows can be written. -/

theorem Word.Proper.exists_written {w : Word} (h : w.Proper) : ∃ cs, w.WrittenAs cs := by
  cases w with
  | str text =>
    by_cases hdouble : '"' ∈ text.toList
    · exact ⟨_, '\'', .inr rfl, fun hsingle => h.2 ⟨hdouble, hsingle⟩, rfl⟩
    · exact ⟨_, '"', .inl rfl, hdouble, rfl⟩
  | _ => exact ⟨_, rfl⟩

theorem exists_forall₂ {α β : Type} {R : α → β → Prop} {as : List α} (h : ∀ a ∈ as, ∃ b, R a b) :
    ∃ bs, List.Forall₂ R as bs := by
  induction as with
  | nil => exact ⟨[], .nil⟩
  | cons a as ih =>
    rw [List.forall_mem_cons] at h
    obtain ⟨b, hb⟩ := h.1
    obtain ⟨bs, hbs⟩ := ih h.2
    exact ⟨b :: bs, .cons hb hbs⟩

theorem Row.Proper.exists_written {r : Row} (h : r.Proper) : ∃ cs, r.WrittenAs cs := by
  obtain ⟨spellings, hspellings⟩ := exists_forall₂ fun w hw => (h.proper w hw).exists_written
  exact ⟨_, spellings, hspellings, rfl⟩

end SceneScript.Print

namespace SceneScript

open Print

/-- Words in rows can be written and are read back, whatever they are. When the first row is at most
one level deep and no row is more than one level deeper than the row before it, every text that
writes the rows gives the tokens of the words with the layout of the rows. -/
theorem Token.ofSource_rows {rows : List Row} (hrows : ∀ r ∈ rows, r.Proper)
    (hdepths : (0 :: rows.map Row.depth).IsChain fun d d' => d' ≤ d + 1) :
    (∃ texts, List.Forall₂ Row.WrittenAs rows texts) ∧
      ∀ texts, List.Forall₂ Row.WrittenAs rows texts →
        ∃ ts, Token.ofSource (String.ofList (Token.unlines texts)) = .ok ts ∧
          ts.map (Token.mapPos Pos.forget) = laid 0 rows := by
  refine ⟨exists_forall₂ fun r hr => (hrows r hr).exists_written, fun texts htexts => ?_⟩
  have hlines := newline_notMem_of_forall₂ htexts
    fun r hr cs h => h.newline_notMem (hrows r hr)
  unfold Token.ofSource
  rw [String.toList_ofList, Token.lines_unlines hlines]
  exact ofLines_written htexts hrows hdepths 1

/-- Signs that would be one without the space, a comment sign and a carriage return in strings of
either quote, and a fall by two levels. -/
def Print.adjacent : List Row :=
  [⟨1, [.sign "=", .sign "="]⟩, ⟨2, [.str "# \"", .int ['1'], .name "x", .str "'\r"]⟩,
    ⟨0, [.sign "<", .sign "=", .float ['0'] ['5']]⟩]

theorem Token.ofSource_rows_adjacent :
    ∃ ts, Token.ofSource "  = =\n    '# \"' 1 x \"'\r\"\n< = 0.5\n" = .ok ts ∧
      ts.map (Token.mapPos Pos.forget) = laid 0 adjacent := by
  have hrows : ∀ r ∈ adjacent, r.Proper := by
    unfold adjacent
    simp only [List.forall_mem_cons]
    exact ⟨⟨by simp, by decide⟩, ⟨by simp, by decide⟩, ⟨by simp, by decide⟩, by simp⟩
  have htexts : List.Forall₂ Row.WrittenAs adjacent
      ["  = =".toList, "    '# \"' 1 x \"'\r\"".toList, "< = 0.5".toList] := by
    refine .cons ⟨[['='], ['=']], .cons rfl (.cons rfl .nil), rfl⟩ (.cons ?_ (.cons ?_ .nil))
    · refine ⟨["'# \"'".toList, ['1'], ['x'], "\"'\r\"".toList], ?_, rfl⟩
      exact .cons ⟨'\'', .inr rfl, by decide, rfl⟩ (.cons rfl (.cons rfl
        (.cons ⟨'"', .inl rfl, by decide, rfl⟩ .nil)))
    · exact ⟨[['<'], ['='], "0.5".toList], .cons rfl (.cons rfl (.cons rfl .nil)), rfl⟩
  have hsource : String.ofList (Token.unlines ["  = =".toList, "    '# \"' 1 x \"'\r\"".toList,
      "< = 0.5".toList]) = "  = =\n    '# \"' 1 x \"'\r\"\n< = 0.5\n" := by decide +kernel
  rw [← hsource]
  exact (Token.ofSource_rows hrows (by decide)).2 _ htexts

end SceneScript
