import SceneScript.Proofs.Program.Append
import SceneScript.Proofs.Token.Trailing

/-! Texts set in anew. What layout makes of a text depends on the order of the widths of its lines
and on nothing else: when every line that was set in by some width is set in by another, and the
order of the widths stays, the tokens are the same words on the same lines. Places within a line all
move by the same number of columns, so the text holds the same program as before. -/

namespace SceneScript

/-- The line `cs'` is `cs` with other spaces and tabs at its beginning: where there were `w` of them
there are now `f w`. -/
def Layout.SetIn (f : Nat → Nat) (cs cs' : List Char) : Prop :=
  ∃ gap gap' code : List Char, cs = gap ++ code ∧ cs' = gap' ++ code ∧
    (∀ c ∈ gap ++ gap', c = ' ' ∨ c = '\t') ∧ (∀ c ∈ code.head?, c ≠ ' ' ∧ c ≠ '\t') ∧
    gap'.length = f gap.length

/-- Where a place comes to lie when each of the lines that was set in by `w` is set in by `f w`. -/
def Pos.setIn (f : Nat → Nat) (ls : List (List Char)) (p : Pos) : Pos :=
  let w := (Layout.margin (ls.getD (p.line - 1).toNat [])).width
  { p with col := p.col + (f w - w) }

/-- A line that begins where no block did is told with the width it has now. -/
def LexCause.setIn (f : Nat → Nat) : LexCause → LexCause
  | .inconsistent w => .inconsistent (f w)
  | cause => cause

/-- An error at another place, in a text set in anew. -/
def LexError.setIn (f : Nat → Nat) (move : Pos → Pos) (e : LexError) : LexError :=
  ⟨e.cause.setIn f, move e.pos⟩

theorem Pos.setIn_rigid (f : Nat → Nat) (ls : List (List Char)) : Pos.Rigid (Pos.setIn f ls) := by
  intro p columns
  simp [Pos.setIn, Int.add_right_comm]

namespace Layout

/-! Widths in the same order. -/

section Order

variable {f : Nat → Nat}

theorem width_map (hzero : f 0 = 0) (blocks : Blocks) :
    Blocks.width (blocks.map f) = f blocks.width := by
  cases blocks with
  | nil => exact hzero.symm
  | cons b blocks => rfl

/-- A line does to the open blocks what it did before they were set in anew. -/
theorem enter?_map (hf : StrictMono f) (hzero : f 0 = 0) (blocks : Blocks) (w : Nat) :
    Blocks.enter? (blocks.map f) (f w) =
      (blocks.enter? w).map fun next => (next.1.map f, next.2) := by
  have hless : (fun v => decide (f w < v)) ∘ f = fun v => decide (w < v) :=
    funext fun v => by simp [hf.lt_iff_lt]
  unfold Blocks.enter?
  dsimp only
  rw [width_map hzero, List.dropWhile_map, List.takeWhile_map, hless, width_map hzero,
    List.length_map]
  simp only [hf.lt_iff_lt, hf.injective.eq_iff]
  split
  · rfl
  · split <;> rfl

end Order

/-! One line. -/

theorem isSpace_iff {c : Char} : isSpace c = true ↔ c = ' ' ∨ c = '\t' := by simp [isSpace]

/-- Spaces and tabs before a line add to its width and to the columns that its margin skips. -/
theorem margin_gap {gap code : List Char} (hgap : ∀ c ∈ gap, isSpace c = true)
    (hcode : ∀ c, code.head? = some c → isSpace c = false) :
    margin (gap ++ code) =
      ⟨gap.length, gap.length + (margin code).skipped, (margin code).code⟩ := by
  obtain ⟨htake, hdrop⟩ := Print.takeWhile_append hgap hcode
  obtain ⟨htake', hdrop'⟩ := Print.takeWhile_append (List.forall_mem_nil _) hcode
  rw [List.nil_append] at htake' hdrop'
  unfold margin
  rw [htake, hdrop, htake', hdrop']
  split <;> simp

/-- The line `l'` is `l` set in anew, and `move` takes the places of the one to those of the
other. -/
structure SetIn.Lines (f : Nat → Nat) (move : Pos → Pos) (l l' : Line) : Prop where
  width : l'.width = f l.width
  code : (margin l'.text).code = (margin l.text).code
  start : l'.start = move l.start
  stop : l'.stop = move l.stop

theorem SetIn.lines {f : Nat → Nat} {cs cs' : List Char} (h : SetIn f cs cs') {move : Pos → Pos}
    {number : Int} (hmove : ∀ col, move ⟨number, col⟩ =
      ⟨number, col + (f (margin cs).width - (margin cs).width)⟩) :
    SetIn.Lines f move ⟨number, cs⟩ ⟨number, cs'⟩ := by
  obtain ⟨gap, gap', code, rfl, rfl, hgaps, hcode, hlength⟩ := h
  simp only [← isSpace_iff, List.forall_mem_append] at hgaps
  have hhead : ∀ c, code.head? = some c → isSpace c = false := by
    intro c hc
    have hne := hcode c hc
    simp [isSpace, hne.1, hne.2]
  have hunits {gap : List Char} (h : ∀ c ∈ gap, isSpace c = true) : Text.width gap = gap.length :=
    Token.width_of_isGap fun c hc => by rw [Token.isGap, Bool.or_eq_true]; exact .inl (h c hc)
  have hmargin := margin_gap hgaps.1 hhead
  have hmargin' := margin_gap hgaps.2 hhead
  constructor
  · simp [Line.width, hmargin, hmargin', hlength]
  · simp [hmargin, hmargin']
  · simp only [Line.start, hmove, hmargin, hmargin', hlength, Pos.mk.injEq, true_and]
    omega
  · simp only [Line.stop, Token.lineEnd, hmove, hmargin, Text.width_append, hunits hgaps.1,
      hunits hgaps.2, hlength, Pos.mk.injEq, true_and]
    omega

theorem mem_numbered {number : Int} {ls : List (List Char)} {l : Line}
    (h : l ∈ numbered number ls) :
    ∃ i : Nat, ls[i]? = some l.text ∧ l.number = number + i := by
  induction ls generalizing number with
  | nil => cases h
  | cons cs rest ih =>
    rcases List.mem_cons.mp h with rfl | h
    · exact ⟨0, rfl, (Int.add_zero number).symm⟩
    · obtain ⟨i, htext, hnumber⟩ := ih h
      exact ⟨i + 1, htext, by omega⟩

end Layout

/-- Each line of a text moves as far as it is set in further. -/
theorem Pos.setIn_line (f : Nat → Nat) (ls : List (List Char)) {l : Layout.Line}
    (h : l ∈ Layout.numbered 1 ls) (col : Int) :
    Pos.setIn f ls ⟨l.number, col⟩ = ⟨l.number, col + (f l.width - l.width)⟩ := by
  obtain ⟨i, htext, hnumber⟩ := Layout.mem_numbered h
  have hindex : (l.number - 1).toNat = i := by omega
  simp [Pos.setIn, hindex, List.getD_eq_getElem?_getD, htext, Layout.Line.width]

namespace Token

section Lines

variable {f : Nat → Nat} (hf : StrictMono f) (hzero : f 0 = 0) {move : Pos → Pos}
  (hmove : Pos.Rigid move)
include hf hzero hmove

theorem ofLine_setIn {l l' : Layout.Line} (h : Layout.SetIn.Lines f move l l')
    (blocks : Layout.Blocks) (ended : Bool) :
    ofLine (blocks.map f) l'.number ended l'.text =
      ((ofLine blocks l.number ended l.text).map
        fun next => (next.1.map f, next.2.map (mapPos move))).mapError (LexError.setIn f move) := by
  have hsame : l'.hasCode = l.hasCode := by
    unfold Layout.Line.hasCode Layout.Margin.isEmpty
    rw [h.code]
  cases hcode : l.hasCode with
  | false =>
    rw [Layout.ofLine_blank hcode, Layout.ofLine_blank (hsame.trans hcode)]
    rfl
  | true =>
    rw [Layout.ofLine_code hcode, Layout.ofLine_code (hsame.trans hcode), h.width, h.code,
      Layout.enter?_map hf hzero, h.start]
    cases blocks.enter? l.width with
    | none => rfl
    | some next =>
      dsimp only [Option.map_some]
      rw [ofCode_moved hmove]
      cases hread : ofCode l.start (Layout.margin l.text).code with
      | error e =>
        -- Code is refused for what it reads, and that is the same.
        have hcause : e.cause.setIn f = e.cause := by
          have hne := (ofCode_eq_error hread).2
          unfold LexCause.setIn
          split
          · rename_i w heq
            exact absurd heq (hne w)
          · rfl
        exact congrArg (fun cause => Except.error (LexError.mk cause (move e.pos))) hcause.symm
      | ok code =>
        have hclosed := closed_moved h.stop ended (next.2.tokens l.start ++ code)
        rw [List.map_append, ← tokens_moved] at hclosed
        exact congrArg (fun ts => Except.ok (next.1.map f, ts)) hclosed

/-- Lines set in anew give the same tokens, moved, or fail for the same cause. -/
theorem ofLines_setIn {ls ls' : List (List Char)} (h : List.Forall₂ (Layout.SetIn f) ls ls')
    {line : Int} (hplace : ∀ l ∈ Layout.numbered line ls, ∀ col,
      move ⟨l.number, col⟩ = ⟨l.number, col + (f l.width - l.width)⟩) (blocks : Layout.Blocks) :
    ofLines (blocks.map f) line ls' =
      ((ofLines blocks line ls).map (List.map (mapPos move))).mapError (LexError.setIn f move) := by
  induction h generalizing line blocks with
  | nil => rfl
  | @cons cs cs' rest rest' hcs hrest ih =>
    rw [Layout.numbered, List.forall_mem_cons] at hplace
    have hlines := hcs.lines hplace.1
    have hfirst := ofLine_setIn hf hzero hmove hlines blocks
    simp only at hfirst
    cases hrest with
    | nil =>
      rw [ofLines, ofLines, hfirst]
      cases ofLine blocks line false cs with
      | error e => rfl
      | ok next =>
        have hstop : lineEnd line cs' = move (lineEnd line cs) := hlines.stop
        refine congrArg Except.ok ?_
        rw [List.map_append, List.map_append, List.map_replicate]
        show _ ++ List.replicate (next.1.map f).length (dedent (lineEnd line cs')) ++ _ = _
        rw [List.length_map, hstop]
        rfl
    | cons hsecond hlater =>
      rw [ofLines_cons _ _ _ (List.cons_ne_nil _ _), ofLines_cons _ _ _ (List.cons_ne_nil _ _),
        hfirst]
      cases ofLine blocks line true cs with
      | error e => rfl
      | ok next =>
        have hnext := ih hplace.2 next.1
        show (ofLines (next.1.map f) (line + 1) _ >>= fun ts =>
          Except.ok (next.2.map (mapPos move) ++ ts)) = Except.mapError _ (Except.map _
            (ofLines next.1 (line + 1) _ >>= fun ts => Except.ok (next.2 ++ ts)))
        rw [hnext]
        cases ofLines next.1 (line + 1) _ with
        | error e => rfl
        | ok ts => exact congrArg Except.ok List.map_append.symm

end Lines

end Token

/-- Only the order of the widths matters to layout. When the lines of a text are set in anew, by a
width that grows with the width from before and is nothing where that was nothing, the tokens are
the same words on the same lines, each line moved by the columns its margin has gained or lost; or
both texts are refused on the same line and for the same cause, where a line that begins where no
block did is told with its new width. So the one text holds a program just when the other does, and
it is the same program, moved alike. -/
theorem Program.ofSource_reindented {f : Nat → Nat} (hf : StrictMono f) (hzero : f 0 = 0)
    {source source' : String}
    (h : List.Forall₂ (Layout.SetIn f) (Token.lines source.toList)
      (Token.lines source'.toList)) :
    let move := Pos.setIn f (Token.lines source.toList)
    (∀ p, (move p).line = p.line) ∧
      Token.ofSource source' =
        ((Token.ofSource source).map (List.map (Token.mapPos move))).mapError
          (LexError.setIn f move) ∧
      ∀ p', Program.ofSource source' = .ok p' ↔
        ∃ p, Program.ofSource source = .ok p ∧ Program.mapPos move p = p' := by
  intro move
  have htokens : Token.ofSource source' =
      ((Token.ofSource source).map (List.map (Token.mapPos move))).mapError
        (LexError.setIn f move) :=
    Token.ofLines_setIn hf hzero (Pos.setIn_rigid f _) h
      (fun l hl => Pos.setIn_line f _ hl) []
  refine ⟨fun p => rfl, htokens, fun p' => ?_⟩
  rw [Program.ofSource_eq_ok, htokens]
  constructor
  · rintro ⟨ts', hts', hp'⟩
    cases hts : Token.ofSource source with
    | error e =>
      rw [hts] at hts'
      cases hts'
    | ok ts =>
      rw [hts] at hts'
      cases hts'
      obtain ⟨p, hp, hmoved⟩ := Program.ofTokens_map_eq_ok.mp hp'
      exact ⟨p, Program.ofSource_eq_ok.mpr ⟨ts, hts, hp⟩, hmoved⟩
  · rintro ⟨p, hp, hmoved⟩
    obtain ⟨ts, hts, hread⟩ := Program.ofSource_eq_ok.mp hp
    rw [hts]
    exact ⟨_, rfl, Program.ofTokens_map_eq_ok.mpr ⟨p, hread, hmoved⟩⟩

/-- Two blocks with a comment between, all set in twice as far and by other characters; and a line
that begins where no block did. -/
theorem Program.ofSource_reindented_doubled :
    Program.ofSource "if a:\n\t\tif b:\n# note\n \t    c\n  d" = .ok
        [.cond ⟨1, 1⟩ (.ident ⟨1, 4⟩ "a")
          [.cond ⟨2, 3⟩ (.ident ⟨2, 6⟩ "b") [.expr ⟨4, 7⟩ (.ident ⟨4, 7⟩ "c")] .none,
            .expr ⟨5, 3⟩ (.ident ⟨5, 3⟩ "d")] .none] ∧
      Token.ofSource "a:\n\t   b\n\t\t'c" = .error ⟨.inconsistent 2, ⟨3, 3⟩⟩ := by
  have hdouble : StrictMono fun w : Nat => 2 * w := fun v w hlt => by simpa using hlt
  have hset (gap gap' code : List Char) (hgaps : ∀ c ∈ gap ++ gap', c = ' ' ∨ c = '\t')
      (hcode : ∀ c ∈ code.head?, c ≠ ' ' ∧ c ≠ '\t') (hlength : gap'.length = 2 * gap.length) :
      Layout.SetIn (2 * ·) (gap ++ code) (gap' ++ code) :=
    ⟨gap, gap', code, rfl, rfl, hgaps, hcode, hlength⟩
  constructor
  · have hread : Program.ofSource "if a:\n\tif b:\n# note\n   c\n d" = .ok
        [.cond ⟨1, 1⟩ (.ident ⟨1, 4⟩ "a")
          [.cond ⟨2, 2⟩ (.ident ⟨2, 5⟩ "b") [.expr ⟨4, 4⟩ (.ident ⟨4, 4⟩ "c")] .none,
            .expr ⟨5, 2⟩ (.ident ⟨5, 2⟩ "d")] .none] := by
      decide +kernel
    have hlines : List.Forall₂ (Layout.SetIn (2 * ·))
        (Token.lines "if a:\n\tif b:\n# note\n   c\n d".toList)
        (Token.lines "if a:\n\t\tif b:\n# note\n \t    c\n  d".toList) :=
      .cons (hset [] [] "if a:".toList (by simp) (by simp) rfl)
        (.cons (hset ['\t'] ['\t', '\t'] "if b:".toList (by simp) (by simp) rfl)
          (.cons (hset [] [] "# note".toList (by simp) (by simp) rfl)
            (.cons (hset [' ', ' ', ' '] " \t    ".toList ['c'] (by simp) (by simp) rfl)
              (.cons (hset [' '] [' ', ' '] ['d'] (by simp) (by simp) rfl) .nil))))
    exact ((Program.ofSource_reindented hdouble rfl hlines).2.2 _).mpr ⟨_, hread, rfl⟩
  · have hrefused : Token.ofSource "a:\n  b\n 'c" = .error ⟨.inconsistent 1, ⟨3, 2⟩⟩ := by
      decide +kernel
    have hlines : List.Forall₂ (Layout.SetIn (2 * ·)) (Token.lines "a:\n  b\n 'c".toList)
        (Token.lines "a:\n\t   b\n\t\t'c".toList) :=
      .cons (hset [] [] "a:".toList (by simp) (by simp) rfl)
        (.cons (hset [' ', ' '] "\t   ".toList ['b'] (by simp) (by simp) rfl)
          (.cons (hset [' '] ['\t', '\t'] "'c".toList (by simp) (by simp) rfl) .nil))
    have hmoved := (Program.ofSource_reindented hdouble rfl hlines).2.1
    rw [hrefused] at hmoved
    exact hmoved

end SceneScript
