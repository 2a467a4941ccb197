import SceneScript.Proofs.Grammar.Places
import SceneScript.Proofs.Grammar.Seam
import SceneScript.Proofs.Layout.Rule
import SceneScript.Proofs.Tree.Equality

/-! Texts one after another. The tokens of two texts with a newline between them are those of the
first and those of the second, further down; only what closes the blocks of the first stands
elsewhere, since the first line of the second with code does it. So a text followed by another
holds the one program followed by the other. -/

namespace SceneScript

/-- A place so many lines further down. -/
def Pos.down (count : Int) (p : Pos) : Pos := { p with line := p.line + count }

/-- A move of places that keeps the distances within a line. -/
def Pos.Rigid (move : Pos → Pos) : Prop :=
  ∀ (p : Pos) (columns : Int),
    move { p with col := p.col + columns } = { move p with col := (move p).col + columns }

theorem Pos.down_rigid (count : Int) : Pos.Rigid (Pos.down count) := fun _ _ => rfl

/-- An error at another place. -/
def LexError.mapPos (move : Pos → Pos) (e : LexError) : LexError := { e with pos := move e.pos }

namespace Token

/-! Tokens of lines further down. -/

theorem length_lines (cs : List Char) : (lines cs).length = 1 + cs.count '\n' := by
  induction cs with
  | nil => rfl
  | cons c cs ih =>
    by_cases hc : c = '\n'
    · subst hc
      rw [lines_newline, List.length_cons, ih, List.count_cons_self]
      omega
    · obtain ⟨l, ls, hls⟩ := List.exists_cons_of_ne_nil (lines_ne_nil cs)
      rw [lines_cons hc hls, List.count_cons_of_ne hc, ← ih, hls, List.length_cons,
        List.length_cons]

theorem ofCode_moved {move : Pos → Pos} (hmove : Pos.Rigid move) (pos : Pos) (cs : List Char) :
    ofCode (move pos) cs = ((ofCode pos cs).map (List.map (mapPos move))).mapError
      (LexError.mapPos move) := by
  fun_induction ofCode pos cs with
  | case1 =>
    rw [ofCode]
    rfl
  | case2 pos c cs hgap ih =>
    rw [ofCode_gap hgap, ← hmove]
    exact ih
  | case3 =>
    rw [ofCode_comment]
    rfl
  | case4 pos c cs hgap hc cause hcut => exact ofCode_error (by simpa using hgap) hc hcut _
  | case5 pos c cs hgap hc t hcut ih =>
    rw [ofCode_cut (by simpa using hgap) hc hcut, ← hmove, ih]
    cases ofCode { pos with col := pos.col + Text.width t.spelling } t.rest <;> rfl

theorem tokens_moved (move : Pos → Pos) (change : Layout.Change) (pos : Pos) :
    change.tokens (move pos) = (change.tokens pos).map (mapPos move) := by
  cases change with
  | opens => rfl
  | closes n =>
    rw [Layout.Change.tokens, Layout.Change.tokens, List.map_replicate]
    rfl

theorem closed_moved {move : Pos → Pos} {l l' : Layout.Line} (hstop : l'.stop = move l.stop)
    (ended : Bool) (ts : List Token) :
    l'.closed ended (ts.map (mapPos move)) = (l.closed ended ts).map (mapPos move) := by
  unfold Layout.Line.closed
  rw [List.isEmpty_map]
  split
  · rw [List.map_append, hstop]
    rfl
  · rfl

theorem ofLine_moved (count : Int) (l : Layout.Line) (blocks : Layout.Blocks) (ended : Bool) :
    ofLine blocks (l.number + count) ended l.text =
      ((ofLine blocks l.number ended l.text).map
        fun r => (r.1, r.2.map (mapPos (Pos.down count)))).mapError
          (LexError.mapPos (Pos.down count)) := by
  let lower : Layout.Line := ⟨l.number + count, l.text⟩
  cases hcode : l.hasCode with
  | false =>
    rw [Layout.ofLine_blank hcode, Layout.ofLine_blank (l := lower) hcode]
    rfl
  | true =>
    have hread : ofCode lower.start (Layout.margin lower.text).code = _ :=
      ofCode_moved (Pos.down_rigid count) l.start (Layout.margin l.text).code
    rw [Layout.ofLine_code hcode, Layout.ofLine_code (l := lower) hcode, hread]
    have hwidth : lower.width = l.width := rfl
    rw [hwidth]
    cases blocks.enter? l.width with
    | none => rfl
    | some next =>
      cases ofCode l.start (Layout.margin l.text).code with
      | error e => rfl
      | ok code =>
        have htokens : next.2.tokens lower.start = _ :=
          tokens_moved (Pos.down count) next.2 l.start
        have hstop : lower.stop = l.stop.down count := rfl
        have hclosed := closed_moved hstop ended (next.2.tokens l.start ++ code)
        rw [List.map_append, ← htokens] at hclosed
        exact congrArg (fun ts => Except.ok (next.1, ts)) hclosed

/-- Lines further down give the same tokens, or the same error, further down. -/
theorem ofLines_moved (count : Int) (blocks : Layout.Blocks) (line : Int)
    (ls : List (List Char)) :
    ofLines blocks (line + count) ls =
      ((ofLines blocks line ls).map (List.map (mapPos (Pos.down count)))).mapError
        (LexError.mapPos (Pos.down count)) := by
  induction ls generalizing blocks line with
  | nil => rfl
  | cons cs rest ih =>
    have hfirst := fun ended => ofLine_moved count ⟨line, cs⟩ blocks ended
    by_cases hrest : rest = []
    · subst hrest
      rw [ofLines, ofLines, hfirst]
      cases ofLine blocks line false cs with
      | error e => rfl
      | ok next =>
        refine congrArg Except.ok (Eq.symm ?_)
        rw [List.map_append, List.map_append, List.map_replicate]
        rfl
    · rw [ofLines_cons _ _ _ hrest, ofLines_cons _ _ _ hrest, hfirst]
      cases ofLine blocks line true cs with
      | error e => rfl
      | ok next =>
        have hlater := ih next.1 (line + 1)
        rw [Int.add_right_comm] at hlater
        show (ofLines next.1 (line + count + 1) rest >>= fun ts => Except.ok (_ ++ ts)) = _
        rw [hlater]
        show _ = Except.mapError _ (Except.map _
          (ofLines next.1 (line + 1) rest >>= fun ts => Except.ok (next.2 ++ ts)))
        cases ofLines next.1 (line + 1) rest with
        | error e => rfl
        | ok ts => exact congrArg Except.ok List.map_append.symm

theorem ofLines_down (count : Int) {blocks : Layout.Blocks} {line : Int} {ls : List (List Char)}
    {ts : List Token} (h : ofLines blocks line ls = .ok ts) :
    ofLines blocks (line + count) ls = .ok (ts.map (mapPos (Pos.down count))) := by
  rw [ofLines_moved, h]
  rfl

/-! What a text ends with. -/

/-- A line gives no tokens, or those of its layout, those of its code and its end. -/
theorem ofLine_tokens {blocks blocks' : Layout.Blocks} {line : Int} {ended : Bool}
    {cs : List Char} {ts : List Token} (h : ofLine blocks line ended cs = .ok (blocks', ts)) :
    ts = [] ∨ ∃ (change : Layout.Change) (start stop : Pos) (code : List Token),
      (∀ t ∈ code, t.kind.isLayout = false) ∧
        ts = change.tokens start ++ (code ++ [newline stop]) := by
  by_cases hcode : Layout.Line.hasCode ⟨line, cs⟩ = true
  · obtain ⟨change, code, -, hread, rfl⟩ := (Layout.ofLine_eq_ok (l := ⟨line, cs⟩) hcode).mp h
    unfold Layout.Line.closed
    split
    · exact .inr ⟨change, _, _, code, fun t ht => (ofCode_mem hread t ht).1, List.append_assoc ..⟩
    · rename_i hempty
      rw [Bool.or_eq_true, not_or, Bool.not_eq_true', Bool.not_eq_false] at hempty
      exact .inl (List.isEmpty_iff.mp hempty.2)
  · rw [Bool.not_eq_true] at hcode
    cases (Layout.ofLine_blank hcode blocks ended).symm.trans h
    exact .inl rfl

theorem ofLine_kind_ne_eof {blocks blocks' : Layout.Blocks} {line : Int} {ended : Bool}
    {cs : List Char} {ts : List Token} (h : ofLine blocks line ended cs = .ok (blocks', ts)) :
    ∀ t ∈ ts, t.kind ≠ .eof := by
  rcases ofLine_tokens h with rfl | ⟨change, start, stop, code, hcode, rfl⟩
  · simp
  · rw [List.forall_mem_append, List.forall_mem_append]
    refine ⟨?_, ?_, by simp [newline]⟩
    · cases change with
      | opens => simp [Layout.Change.tokens, indent]
      | closes n =>
        intro t ht
        simp [List.eq_of_mem_replicate ht, dedent]
    · intro t ht heof
      have hnot := hcode t ht
      rw [heof] at hnot
      cases hnot

theorem ended_of_ofLines {blocks : Layout.Blocks} {line : Int} {ls : List (List Char)}
    {ts : List Token} (hne : ls ≠ []) (h : ofLines blocks line ls = .ok ts) : Ended ts := by
  induction ls generalizing blocks line ts with
  | nil => exact absurd rfl hne
  | cons cs rest ih =>
    obtain ⟨left, tokens, later, hline, rfl, hlater⟩ := ofLines_cons_eq_ok h
    refine Ended.append (ofLine_kind_ne_eof hline) ?_
    rcases hlater with ⟨-, rfl⟩ | ⟨hrest, hts⟩
    · refine Ended.append (fun t ht => ?_) rfl
      simp [List.eq_of_mem_replicate ht, dedent]
    · exact ih hrest hts

/-! The seam between two texts. -/

section Joined

open Grammar (Joined Newlines)

variable {tail ts us : List Token}

theorem joined_closings (count : Nat) (pos pos' : Pos) (h : Joined tail true ts us) :
    Joined tail true (List.replicate count (dedent pos) ++ ts)
      (List.replicate count (dedent pos') ++ us) := by
  induction count with
  | zero => exact h
  | succ count ih => exact .close rfl rfl (.refl _) ih

theorem joined_code {code : List Token} (hcode : ∀ t ∈ code, t.kind.isLayout = false)
    (h : ∀ fresh, Joined tail fresh ts us) (fresh : Bool) :
    Joined tail fresh (code ++ ts) (code ++ us) := by
  induction code generalizing fresh with
  | nil => exact h fresh
  | cons t code ih =>
    rw [List.forall_mem_cons] at hcode
    exact .code (.inl hcode.1) (ih hcode.2 false)

theorem joined_line {blocks blocks' : Layout.Blocks} {line : Int} {ended : Bool} {cs : List Char}
    {tokens : List Token} (hline : ofLine blocks line ended cs = .ok (blocks', tokens))
    (h : Joined tail true ts us) : Joined tail true (tokens ++ ts) (tokens ++ us) := by
  rcases ofLine_tokens hline with rfl | ⟨change, start, stop, code, hcode, rfl⟩
  · exact h
  · have hbehind : ∀ fresh,
        Joined tail fresh (code ++ newline stop :: ts) (code ++ newline stop :: us) :=
      joined_code hcode fun fresh => .line rfl h
    simp only [List.append_assoc, List.singleton_append]
    cases change with
    | opens => exact .code (.inr rfl) (hbehind false)
    | closes n => exact joined_closings n start start (hbehind true)

/-- An end of a line may stand before what closes the blocks. -/
theorem joined_newline {line : Token} (hline : line.kind = .newline) {count : Nat} {pos stop : Pos}
    (h : Joined tail true (List.replicate count (dedent pos) ++ [eof stop]) us) :
    Joined tail true (List.replicate count (dedent pos) ++ [eof stop]) (line :: us) := by
  cases count with
  | zero => exact .stop rfl ((h.stop_inv rfl).cons hline)
  | succ count =>
    obtain ⟨u, us', hu, hlines, hrest⟩ := h.close_inv rfl
    exact .close rfl hu (hlines.cons hline) hrest

/-- A line that ends the text gives the same tokens when a newline ends it, or nothing but its end
in place of none. -/
theorem ofLine_ended {blocks blocks' : Layout.Blocks} {line : Int} {cs : List Char}
    {ts : List Token} (h : ofLine blocks line false cs = .ok (blocks', ts)) :
    ofLine blocks line true cs = .ok (blocks', ts) ∨
      ts = [] ∧ ∃ pos, ofLine blocks line true cs = .ok (blocks', [newline pos]) := by
  by_cases hcode : Layout.Line.hasCode ⟨line, cs⟩ = true
  · obtain ⟨change, code, henter, hread, rfl⟩ :=
      (Layout.ofLine_eq_ok (l := ⟨line, cs⟩) hcode).mp h
    have hended : ofLine blocks line true cs = .ok (blocks', _) :=
      (Layout.ofLine_eq_ok (l := ⟨line, cs⟩) hcode).mpr ⟨change, code, henter, hread, rfl⟩
    cases hempty : change.tokens (Layout.Line.start ⟨line, cs⟩) ++ code with
    | nil =>
      rw [hempty] at hended
      exact .inr ⟨rfl, _, hended⟩
    | cons t ts =>
      rw [hempty] at hended
      exact .inl hended
  · rw [Bool.not_eq_true] at hcode
    cases (Layout.ofLine_blank hcode blocks false).symm.trans h
    exact .inl (Layout.ofLine_blank hcode blocks true)

/-- The lines of a text that others follow: their blocks are closed later, and the tokens are the
same up to there. -/
theorem joined_of_ofLines {blocks : Layout.Blocks} {line : Int} {ls : List (List Char)}
    {ts : List Token} (hne : ls ≠ []) (h : ofLines blocks line ls = .ok ts) :
    ∃ left tokens, ofEnded blocks line ls = .ok (left, tokens) ∧
      ∀ (tail us : List Token) (pos : Pos), Newlines us tail →
        Joined tail true ts (tokens ++ (List.replicate left.length (dedent pos) ++ us)) := by
  induction ls generalizing blocks line ts with
  | nil => exact absurd rfl hne
  | cons cs rest ih =>
    by_cases hrest : rest = []
    · subst hrest
      obtain ⟨⟨left, tokens⟩, hline, heq⟩ := bind_eq_ok.mp h
      cases heq
      have hclosings : ∀ (tail us : List Token) (pos : Pos), Newlines us tail →
          Joined tail true
            (List.replicate left.length (dedent (lineEnd line cs)) ++ [eof (lineEnd line cs)])
            (List.replicate left.length (dedent pos) ++ us) :=
        fun tail us pos hus => joined_closings _ _ _ (.stop rfl hus)
      rcases ofLine_ended hline with hended | ⟨rfl, pos, hended⟩
      · refine ⟨left, tokens, ?_, fun tail us pos hus => ?_⟩
        · rw [ofEnded_singleton, hended]
        · rw [List.append_assoc]
          exact joined_line hline (hclosings tail us pos hus)
      · refine ⟨left, [newline pos], ?_, fun tail us pos hus => ?_⟩
        · rw [ofEnded_singleton, hended]
        · exact joined_newline rfl (hclosings tail us pos hus)
    · rw [ofLines_cons _ _ _ hrest] at h
      obtain ⟨⟨left, tokens⟩, hline, hlater⟩ := bind_eq_ok.mp h
      obtain ⟨ts', hts', heq⟩ := bind_eq_ok.mp hlater
      cases heq
      obtain ⟨left', tokens', hended, hjoined⟩ := ih hrest hts'
      refine ⟨left', tokens ++ tokens', ?_, fun tail us pos hus => ?_⟩
      · exact bind_eq_ok.mpr ⟨_, hline, bind_eq_ok.mpr ⟨_, hended, rfl⟩⟩
      · rw [List.append_assoc]
        exact joined_line hline (hjoined tail us pos hus)

/-- A line with code that is not set in closes every block that is open before it. -/
theorem ofLine_closing {l : Layout.Line} {blocks left : Layout.Blocks} {widths : List Nat}
    {ended : Bool} {ts : List Token} (htracks : Layout.Tracks blocks widths)
    (hcode : l.hasCode = true) (hwidth : l.width = 0)
    (h : ofLine [] l.number ended l.text = .ok (left, ts)) :
    left = [] ∧ ∃ us, Newlines us ts ∧ ofLine blocks l.number ended l.text =
      .ok ([], List.replicate blocks.length (dedent l.start) ++ us) := by
  obtain ⟨change, code, henter, hread, rfl⟩ := (Layout.ofLine_eq_ok hcode).mp h
  rw [hwidth] at henter
  cases henter
  have hblocks : blocks.enter? l.width = some ([], .closes blocks.length) := by
    have hnone : blocks.filter (· ≤ 0) = [] :=
      List.filter_eq_nil_iff.mpr fun v hv => by simpa using ((htracks.mem v).mp hv).1
    rw [hwidth, htracks.enter?_of_le (Nat.zero_le _), if_pos (Layout.open_zero widths), hnone,
      htracks.openAbove_zero]
  have hline : ofLine blocks l.number ended l.text = .ok ([], _) :=
    (Layout.ofLine_eq_ok hcode).mpr ⟨_, code, hblocks, hread, rfl⟩
  refine ⟨rfl, ?_⟩
  show ∃ us, Newlines us (l.closed ended code) ∧ _
  rw [hline, Layout.Change.tokens]
  by_cases hfull : ended = true ∨ code ≠ []
  · refine ⟨_, .refl _, ?_⟩
    rw [l.closed_eq hfull, l.closed_eq (hfull.imp_right (by simp +contextual)), List.append_assoc]
  · rw [not_or, Bool.not_eq_true, not_not] at hfull
    obtain ⟨rfl, rfl⟩ := hfull
    rw [List.append_nil]
    cases blocks with
    | nil => exact ⟨[], .refl _, rfl⟩
    | cons b blocks =>
      refine ⟨[newline l.stop], .cons rfl (.refl _), ?_⟩
      rw [l.closed_eq (.inr (by simp))]

/-- The first line with code is not set in when no block opens before its code. -/
theorem width_eq_zero {l : Layout.Line} {left : Layout.Blocks} {ended : Bool}
    {ts more : List Token} (hcode : l.hasCode = true)
    (h : ofLine [] l.number ended l.text = .ok (left, ts))
    (hindent : (Grammar.peek (ts ++ more)).kind ≠ .indent) : l.width = 0 := by
  obtain ⟨change, code, henter, -, rfl⟩ := (Layout.ofLine_eq_ok hcode).mp h
  refine Nat.eq_zero_of_not_pos fun hwidth => hindent ?_
  rw [Layout.Tracks.start.enter?_of_lt hwidth] at henter
  cases henter
  rw [Layout.Change.tokens, List.singleton_append, l.closed_eq (.inr (List.cons_ne_nil _ _))]
  rfl

/-- Lines behind open blocks give the same tokens as at the beginning of a text, once the blocks
are closed, unless the first line with code is set in. -/
theorem ofLines_closing {blocks : Layout.Blocks} {widths : List Nat} {line : Int}
    {ls : List (List Char)} {ts : List Token} (htracks : Layout.Tracks blocks widths)
    (hne : ls ≠ []) (hindent : (Grammar.peek ts).kind ≠ .indent)
    (h : ofLines [] line ls = .ok ts) :
    ∃ pos us, Newlines us ts ∧
      ofLines blocks line ls = .ok (List.replicate blocks.length (dedent pos) ++ us) := by
  induction ls generalizing line ts with
  | nil => exact absurd rfl hne
  | cons cs rest ih =>
    by_cases hrest : rest = []
    · subst hrest
      obtain ⟨⟨left, tokens⟩, hline, heq⟩ := bind_eq_ok.mp h
      cases heq
      by_cases hcode : Layout.Line.hasCode ⟨line, cs⟩ = true
      · rw [List.append_assoc] at hindent
        have hwidth := width_eq_zero hcode hline hindent
        obtain ⟨rfl, us, hus, hline'⟩ := ofLine_closing htracks hcode hwidth hline
        refine ⟨Layout.Line.start ⟨line, cs⟩, us ++ [eof (lineEnd line cs)], ?_,
          bind_eq_ok.mpr ⟨_, hline', ?_⟩⟩
        · rw [List.append_assoc]
          exact hus.append _
        · rw [← List.append_assoc]
          exact congrArg (fun ts => Except.ok (ts ++ [eof (lineEnd line cs)])) (List.append_nil _)
      · rw [Bool.not_eq_true] at hcode
        cases (Layout.ofLine_blank hcode [] false).symm.trans hline
        have hblank := Layout.ofLine_blank hcode blocks false
        exact ⟨_, [eof (lineEnd line cs)], .refl _, bind_eq_ok.mpr ⟨_, hblank, rfl⟩⟩
    · rw [ofLines_cons _ _ _ hrest] at h
      obtain ⟨⟨left, tokens⟩, hline, hlater⟩ := bind_eq_ok.mp h
      obtain ⟨ts', hts', heq⟩ := bind_eq_ok.mp hlater
      cases heq
      by_cases hcode : Layout.Line.hasCode ⟨line, cs⟩ = true
      · have hwidth := width_eq_zero hcode hline hindent
        obtain ⟨rfl, us, hus, hline'⟩ := ofLine_closing htracks hcode hwidth hline
        refine ⟨Layout.Line.start ⟨line, cs⟩, us ++ ts', hus.append ts', ?_⟩
        rw [ofLines_cons _ _ _ hrest, ← List.append_assoc]
        exact bind_eq_ok.mpr ⟨_, hline', bind_eq_ok.mpr ⟨_, hts', rfl⟩⟩
      · rw [Bool.not_eq_true] at hcode
        cases (Layout.ofLine_blank hcode [] true).symm.trans hline
        obtain ⟨pos, us, hus, hbehind⟩ := ih hrest hindent hts'
        refine ⟨pos, us, hus, ?_⟩
        rw [ofLines_cons _ _ _ hrest]
        have hblank := Layout.ofLine_blank hcode blocks true
        exact bind_eq_ok.mpr ⟨_, hblank, bind_eq_ok.mpr ⟨_, hbehind, rfl⟩⟩

end Joined

end Token

/-- A text followed by a newline and another text holds the statements of the one and then those of
the other, further down by the lines of the first, unless the second begins with a word that would
go on with a conditional. -/
theorem Program.ofSource_append {a b : String} {p q : Program} (ha : Program.ofSource a = .ok p)
    (hb : Program.ofSource b = .ok q)
    (hfirst : ∀ t ts, Token.ofSource b = .ok (t :: ts) →
      t.isWord "elif" = false ∧ t.isWord "else" = false) :
    Program.ofSource (a ++ "\n" ++ b) =
      .ok (p ++ q.mapPos (Pos.down (1 + a.toList.count '\n'))) := by
  obtain ⟨ts, hts, hp⟩ := Program.ofSource_eq_ok.mp ha
  obtain ⟨us, hus, hq⟩ := Program.ofSource_eq_ok.mp hb
  -- The second text on its own, but at the lines it has behind the first.
  have husDown := Token.ofLines_down (1 + a.toList.count '\n') hus
  have hqDown := (Grammar.statements_eq_ok_iff
    (Token.ended_of_ofLines (Token.lines_ne_nil _) husDown)).mp
      (Program.ofTokens_map_eq_ok.mpr ⟨q, hq, rfl⟩)
  -- The first text leaves blocks open, and the first line of the second with code closes them.
  obtain ⟨blocks, tokens, hended, hjoined⟩ :=
    Token.joined_of_ofLines (Token.lines_ne_nil _) hts
  obtain ⟨pos, mid, hmid, hbehind⟩ := Token.ofLines_closing
    (Layout.tracks_of_ofEnded Layout.Tracks.start hended) (Token.lines_ne_nil _)
    hqDown.peek_ne_indent husDown
  have hsource : Token.ofSource (a ++ "\n" ++ b) =
      .ok (tokens ++ (List.replicate blocks.length (.dedent pos) ++ mid)) := by
    have hlines : Token.lines (a ++ "\n" ++ b).toList =
        Token.lines a.toList ++ Token.lines b.toList := by
      rw [String.toList_append, String.toList_append, List.append_assoc]
      exact Token.lines_append _ _
    unfold Token.ofSource
    rw [hlines, Token.ofLines_append _ _ _ (Token.lines_ne_nil _), Token.length_lines]
    exact bind_eq_ok.mpr ⟨_, hended, bind_eq_ok.mpr ⟨_, by simpa using hbehind, rfl⟩⟩
  have hpeek : ∀ w, (∀ t ts, Token.ofSource b = .ok (t :: ts) → t.isWord w = false) →
      (Grammar.peek
        (us.map (Token.mapPos (Pos.down (1 + a.toList.count '\n'))))).isWord w = false := by
    intro w hw
    cases us with
    | nil => rfl
    | cons u us => exact hw u us hus
  have hp' := (Grammar.statements_eq_ok_iff
    (Token.ended_of_ofLines (Token.lines_ne_nil _) hts)).mp hp
  obtain ⟨items, hlines, hitems⟩ := hp'.joined
    (hpeek "elif" fun t ts h => (hfirst t ts h).1) (hpeek "else" fun t ts h => (hfirst t ts h).2)
    hqDown (hjoined _ mid pos hmid)
  exact Program.ofSource_eq_ok.mpr ⟨_, hsource, hlines.statements.trans hitems.statements⟩

/-- A text that ends within a block, and one whose first line is a comment. -/
theorem Program.ofSource_append_comment :
    Program.ofSource ("if x:\n  y" ++ "\n" ++ "# note\n\nz = 1") = .ok
      [.cond ⟨1, 1⟩ (.ident ⟨1, 4⟩ "x") [.expr ⟨2, 3⟩ (.ident ⟨2, 3⟩ "y")] .none,
        .assign ⟨5, 1⟩ "z" (.int ⟨5, 5⟩ (.ofNat 1))] := by
  have htokens : Token.ofSource "# note\n\nz = 1" = .ok [⟨.identifier, "z", ⟨3, 1⟩⟩,
      ⟨.op, "=", ⟨3, 3⟩⟩, ⟨.int, "1", ⟨3, 5⟩⟩, .newline ⟨3, 6⟩, .eof ⟨3, 6⟩] := by
    decide +kernel
  have ha : Program.ofSource "if x:\n  y" = .ok
      [.cond ⟨1, 1⟩ (.ident ⟨1, 4⟩ "x") [.expr ⟨2, 3⟩ (.ident ⟨2, 3⟩ "y")] .none] := by
    decide +kernel
  have hb : Program.ofSource "# note\n\nz = 1" = .ok
      [.assign ⟨3, 1⟩ "z" (.int ⟨3, 5⟩ (.ofNat 1))] := by decide +kernel
  refine Program.ofSource_append ha hb ?_
  intro t ts h
  cases htokens.symm.trans h
  exact ⟨rfl, rfl⟩

end SceneScript
