import SceneScript.Proofs.Layout.Rule
import SceneScript.Proofs.Print.Words

/-! Printed lines. Every line stands at a depth and is set in by so many times a fixed width. The
tokens of printed lines are those of their words with the layout that the depths ask for: one
opening where the depth grows by one, one closing for every level it falls by. -/

namespace SceneScript.Print

/-- A line in print: how deep it stands and the pieces in it. -/
structure Line where
  depth : Nat
  pieces : List Piece

/-- How a line is printed. -/
def Line.text (width : Nat) (l : Line) : List Char :=
  List.replicate (l.depth * width) ' ' ++ Print.text l.pieces

/-- The line has a first word, with no space before it, and can be printed. -/
structure Line.Fits (l : Line) : Prop where
  head : ∃ w rest, l.pieces = ⟨false, w⟩ :: rest
  sound : Sound l.pieces

/-- No line at the front stands deeper than `depth`. -/
def Shallow (depth : Nat) (ls : List Line) : Prop := ∀ l, ls.head? = some l → l.depth ≤ depth

/-- The tokens of printed lines behind a line at the given depth, at no place in particular. -/
inductive Lays : Nat → List Line → List Token → Prop
  | stop : Lays 0 [] [.eof ⟨0, 0⟩]
  | line {l : Line} {ls : List Line} {ts : List Token} :
      l.Fits → Lays l.depth ls ts →
      Lays l.depth (l :: ls) (tokens l.pieces ++ .newline ⟨0, 0⟩ :: ts)
  | deeper {depth : Nat} {l : Line} {ls : List Line} {ts : List Token} :
      l.depth = depth + 1 → Lays (depth + 1) (l :: ls) ts →
      Lays depth (l :: ls) (.indent ⟨0, 0⟩ :: ts)
  | shallower {depth : Nat} {ls : List Line} {ts : List Token} :
      Shallow depth ls → Lays depth ls ts → Lays (depth + 1) ls (.dedent ⟨0, 0⟩ :: ts)

/-- The open blocks at a depth. -/
def blocksAt (width : Nat) : Nat → Layout.Blocks
  | 0 => []
  | depth + 1 => (depth + 1) * width :: blocksAt width depth

section Blocks

variable {width : Nat}

theorem width_blocksAt (depth : Nat) : (blocksAt width depth).width = depth * width := by
  cases depth with
  | zero => exact (Nat.zero_mul width).symm
  | succ depth => rfl

/-- A line at the depth of the last one changes nothing. -/
theorem enter?_same (depth : Nat) :
    (blocksAt width depth).enter? (depth * width) = some (blocksAt width depth, .closes 0) := by
  have hfirst : ∀ v rest, blocksAt width depth = v :: rest → ¬ depth * width < v := by
    rintro v rest hv
    cases depth with
    | zero => cases hv
    | succ depth =>
      cases hv
      exact Nat.lt_irrefl _
  have hstays : (blocksAt width depth).dropWhile (depth * width < ·) = blocksAt width depth ∧
      (blocksAt width depth).takeWhile (depth * width < ·) = [] := by
    cases hblocks : blocksAt width depth with
    | nil => exact ⟨rfl, rfl⟩
    | cons v rest => simp [hfirst v rest hblocks]
  unfold Layout.Blocks.enter?
  rw [width_blocksAt, if_neg (Nat.lt_irrefl _)]
  dsimp only
  rw [hstays.1, hstays.2, width_blocksAt, if_pos rfl]
  rfl

/-- A line one level deeper opens a block. -/
theorem enter?_deeper (hwidth : 0 < width) (depth : Nat) :
    (blocksAt width depth).enter? ((depth + 1) * width) =
      some (blocksAt width (depth + 1), .opens) := by
  have hlt : depth * width < (depth + 1) * width := by
    rw [Nat.add_mul]
    omega
  unfold Layout.Blocks.enter?
  rw [width_blocksAt, if_pos hlt]
  rfl

/-- A line that is not deeper than the level below closes one block more than it does there. -/
theorem enter?_shallower (hwidth : 0 < width) {depth k : Nat} (hk : k ≤ depth)
    {blocks : Layout.Blocks} {change : Layout.Change}
    (h : (blocksAt width depth).enter? (k * width) = some (blocks, change)) :
    ∃ n, change = .closes n ∧
      (blocksAt width (depth + 1)).enter? (k * width) = some (blocks, .closes (n + 1)) := by
  have hle : k * width ≤ depth * width := Nat.mul_le_mul_right _ hk
  have hlt : k * width < (depth + 1) * width := by
    rw [Nat.add_mul]
    omega
  unfold Layout.Blocks.enter? at h ⊢
  rw [width_blocksAt, if_neg (Nat.not_lt.mpr hle)] at h
  rw [width_blocksAt, if_neg (Nat.not_lt.mpr (Nat.le_of_lt hlt))]
  dsimp only at h ⊢
  rw [blocksAt, List.dropWhile_cons_of_pos (by simpa using hlt),
    List.takeWhile_cons_of_pos (by simpa using hlt)]
  split at h
  · rename_i hleft
    cases h
    rw [if_pos hleft]
    exact ⟨_, rfl, rfl⟩
  · cases h

end Blocks

/-! One line. -/

theorem exists_text_head {l : Line} (h : l.Fits) :
    ∃ c cs, text l.pieces = c :: cs ∧ Token.isGap c = false ∧ c ≠ '#' := by
  obtain ⟨w, rest, hpieces⟩ := h.head
  have hsound := h.sound
  rw [hpieces] at hsound ⊢
  have hrest : w.isOpen = true ∨ Stops (text rest) := by
    cases rest with
    | nil => exact .inr stops_nil
    | cons q rest => exact stops_of_before rest (List.isChain_cons_cons.mp hsound.chain).1
  obtain ⟨c, cs, hcuts⟩ := exists_cuts (hsound.proper _ List.mem_cons_self) hrest
  refine ⟨c, cs ++ text rest, ?_, hcuts.gap, hcuts.comment⟩
  rw [← List.cons_append, ← hcuts.spelling]
  rfl

theorem margin_set_in {c : Char} (hc : Token.isGap c = false) (n : Nat) (cs : List Char) :
    Layout.margin (List.replicate n ' ' ++ c :: cs) = ⟨n, n, c :: cs⟩ := by
  rw [Token.isGap, Bool.or_eq_false_iff] at hc
  have hspace : Layout.isSpace c = false := hc.1
  have hne : c ≠ '\r' := by simpa using hc.2
  obtain ⟨htake, hdrop⟩ := @takeWhile_append Layout.isSpace (List.replicate n ' ') (c :: cs)
    (by simp [Layout.isSpace]) (by simpa using hspace)
  unfold Layout.margin
  rw [htake, hdrop, List.length_replicate]
  split
  · rename_i heq
    cases heq
    exact absurd rfl hne
  · rfl

theorem margin_text {l : Line} (h : l.Fits) (width : Nat) :
    Layout.margin (l.text width) = ⟨l.depth * width, l.depth * width, text l.pieces⟩ := by
  obtain ⟨c, cs, htext, hgap, _⟩ := exists_text_head h
  unfold Line.text
  rw [htext, margin_set_in hgap]

theorem hasCode_text {l : Line} (h : l.Fits) (width : Nat) (number : Int) :
    Layout.Line.hasCode ⟨number, l.text width⟩ = true := by
  obtain ⟨c, cs, htext, _, hcomment⟩ := exists_text_head h
  unfold Layout.Line.hasCode Layout.Margin.isEmpty
  rw [margin_text h, htext]
  simpa using hcomment

/-- A printed line enters its block and gives the tokens of its words. -/
theorem ofLine_text {l : Line} (h : l.Fits) {width : Nat} {blocks left : Layout.Blocks}
    {change : Layout.Change} (henter : blocks.enter? (l.depth * width) = some (left, change))
    (number : Int) :
    ∃ start stop code, Token.ofLine blocks number true (l.text width) =
        .ok (left, change.tokens start ++ code ++ [.newline stop]) ∧
      code.map (Token.mapPos Pos.forget) = tokens l.pieces := by
  let line : Layout.Line := ⟨number, l.text width⟩
  obtain ⟨code, hread, htokens⟩ := ofCode_text h.sound line.start
  refine ⟨line.start, line.stop, code, ?_, htokens⟩
  rw [← line.closed_eq (.inl rfl)]
  refine (Layout.ofLine_eq_ok (l := line) (hasCode_text h width number)).mpr
    ⟨change, code, ?_, ?_, rfl⟩
  · rw [Layout.Line.width, margin_text h]
    exact henter
  · rw [margin_text h]
    exact hread

/-- Where a line does one thing more to other blocks and leaves the same ones open, it and the
lines behind give one token more. -/
theorem ofLines_enter {l : Line} (h : l.Fits) {width : Nat} {blocks blocks' : Layout.Blocks}
    {number : Int} {rest : List (List Char)} {ts : List Token} {t : Pos → Token} (hrest : rest ≠ [])
    (henter : ∀ left change, blocks.enter? (l.depth * width) = some (left, change) →
      ∃ change', blocks'.enter? (l.depth * width) = some (left, change') ∧
        ∀ pos, change'.tokens pos = t pos :: change.tokens pos)
    (hread : Token.ofLines blocks number (l.text width :: rest) = .ok ts) :
    ∃ pos, Token.ofLines blocks' number (l.text width :: rest) = .ok (t pos :: ts) := by
  let line : Layout.Line := ⟨number, l.text width⟩
  have hcode : line.hasCode = true := hasCode_text h width number
  have hwidth : line.width = l.depth * width := by rw [Layout.Line.width, margin_text h]
  rw [Token.ofLines_cons _ _ _ hrest] at hread
  obtain ⟨⟨left, own⟩, hline, hread⟩ := bind_eq_ok.mp hread
  obtain ⟨others, hothers, heq⟩ := bind_eq_ok.mp hread
  cases heq
  obtain ⟨change, code, hleft, hcodeRead, hown⟩ := (Layout.ofLine_eq_ok (l := line) hcode).mp hline
  rw [hwidth] at hleft
  obtain ⟨change', hleft', htokens⟩ := henter left change hleft
  refine ⟨line.start, ?_⟩
  rw [Token.ofLines_cons _ _ _ hrest]
  have hline' : Token.ofLine blocks' number true (l.text width) =
      .ok (left, t line.start :: own) := by
    refine (Layout.ofLine_eq_ok (l := line) hcode).mpr
      ⟨change', code, by rw [hwidth]; exact hleft', hcodeRead, ?_⟩
    rw [hown, line.closed_eq (.inl rfl), line.closed_eq (.inl rfl), htokens]
    rfl
  exact bind_eq_ok.mpr ⟨_, hline', bind_eq_ok.mpr ⟨others, hothers, rfl⟩⟩

/-! All lines. -/

theorem Lays.fits {depth : Nat} {ls : List Line} {ts : List Token} (h : Lays depth ls ts) :
    ∀ l ∈ ls, l.Fits := by
  induction h with
  | stop => exact nofun
  | line hl _ ih => exact List.forall_mem_cons.mpr ⟨hl, ih⟩
  | deeper _ _ ih => exact ih
  | shallower _ _ ih => exact ih

theorem ofLines_end (blocks : Layout.Blocks) (number : Int) :
    Token.ofLines blocks number [[]] =
      .ok (List.replicate blocks.length (.dedent (Token.lineEnd number [])) ++
        [.eof (Token.lineEnd number [])]) := rfl

theorem newline_notMem_line {l : Line} (h : l.Fits) (width : Nat) : '\n' ∉ l.text width := by
  rw [Line.text, List.mem_append, not_or]
  exact ⟨fun hmem => absurd (List.eq_of_mem_replicate hmem) (by decide),
    newline_notMem_text h.sound⟩

/-- Printed lines are read back as the tokens they are to give. -/
theorem Lays.read {width : Nat} (hwidth : 0 < width) {depth : Nat} {ls : List Line}
    {ts : List Token} (h : Lays depth ls ts) (number : Int) :
    ∃ us, Token.ofLines (blocksAt width depth) number (ls.map (Line.text width) ++ [[]]) = .ok us ∧
      us.map (Token.mapPos Pos.forget) = ts := by
  induction h generalizing number with
  | stop => exact ⟨_, rfl, rfl⟩
  | @line l ls ts hl _ ih =>
    obtain ⟨start, stop, code, hline, htokens⟩ := ofLine_text hl (enter?_same l.depth) number
    obtain ⟨us, hread, hus⟩ := ih (number + 1)
    refine ⟨code ++ [.newline stop] ++ us, ?_, ?_⟩
    · rw [List.map_cons, List.cons_append, Token.ofLines_cons _ _ _ (by simp)]
      exact bind_eq_ok.mpr ⟨_, hline, bind_eq_ok.mpr ⟨us, hread, rfl⟩⟩
    · rw [List.map_append, List.map_append, htokens, hus, List.append_assoc]
      rfl
  | @deeper depth l ls ts hl hrest ih =>
    -- The same lines were read with the block open already, and then the line changed nothing.
    obtain ⟨us, hread, hus⟩ := ih number
    have henter : ∀ left change,
        (blocksAt width (depth + 1)).enter? (l.depth * width) = some (left, change) →
        ∃ change', (blocksAt width depth).enter? (l.depth * width) = some (left, change') ∧
          ∀ pos, change'.tokens pos = .indent pos :: change.tokens pos := by
      intro left change hleft
      rw [hl, enter?_same] at hleft
      cases hleft
      rw [hl]
      exact ⟨.opens, enter?_deeper hwidth depth, fun _ => rfl⟩
    obtain ⟨pos, hmore⟩ :=
      ofLines_enter (hrest.fits l List.mem_cons_self) (by simp) henter hread
    exact ⟨_, hmore, congrArg (Token.indent ⟨0, 0⟩ :: ·) hus⟩
  | @shallower depth ls ts hls hrest ih =>
    obtain ⟨us, hread, hus⟩ := ih number
    -- With one block more open, the next line or the end of the text closes it too.
    suffices hmore : ∃ pos, Token.ofLines (blocksAt width (depth + 1)) number
        (ls.map (Line.text width) ++ [[]]) = .ok (.dedent pos :: us) by
      obtain ⟨pos, hmore⟩ := hmore
      exact ⟨_, hmore, congrArg (Token.dedent ⟨0, 0⟩ :: ·) hus⟩
    cases ls with
    | nil =>
      rw [List.map_nil, List.nil_append, ofLines_end] at hread ⊢
      cases hread
      exact ⟨_, rfl⟩
    | cons l ls =>
      refine ofLines_enter (hrest.fits l List.mem_cons_self) (by simp) ?_ hread
      intro left change hleft
      obtain ⟨n, rfl, hleft'⟩ := enter?_shallower hwidth (hls l rfl) hleft
      exact ⟨.closes (n + 1), hleft', fun _ => rfl⟩

end SceneScript.Print
