import SceneScript.Proofs.Grammar.Segment
import SceneScript.Token.Lexer

/-! Texts line by line. A text is cut at its newlines and nowhere else, so the lines of a text with
a newline in it are those before and those behind. The lexer carries the open blocks from line to
line, and the tokens of the code of a line stand on that line and are none of layout. -/

namespace SceneScript.Token

/-! Lines of a text. -/

theorem lines_ne_nil (cs : List Char) : lines cs ≠ [] := by
  cases cs with
  | nil => exact List.cons_ne_nil _ _
  | cons c cs =>
    unfold lines
    split
    · exact List.cons_ne_nil _ _
    · split
      · exact List.cons_ne_nil _ _
      · exact List.cons_ne_nil _ _

theorem lines_newline (cs : List Char) : lines ('\n' :: cs) = [] :: lines cs := rfl

theorem lines_cons {c : Char} (hc : c ≠ '\n') {cs l : List Char} {ls : List (List Char)}
    (h : lines cs = l :: ls) : lines (c :: cs) = (c :: l) :: ls := by
  unfold lines
  rw [if_neg hc, h]

/-- The lines of a text are those before a newline and those behind it. -/
theorem lines_append (as bs : List Char) :
    lines (as ++ '\n' :: bs) = lines as ++ lines bs := by
  induction as with
  | nil => rfl
  | cons c as ih =>
    by_cases hc : c = '\n'
    · subst hc
      rw [List.cons_append, lines_newline, lines_newline, ih, List.cons_append]
    · obtain ⟨l, ls, hls⟩ := List.exists_cons_of_ne_nil (lines_ne_nil as)
      rw [hls, List.cons_append] at ih
      rw [List.cons_append, lines_cons hc ih, lines_cons hc hls, List.cons_append]

/-- A text without newlines is one line. -/
theorem lines_eq_singleton {cs : List Char} (h : '\n' ∉ cs) : lines cs = [cs] := by
  induction cs with
  | nil => rfl
  | cons c cs ih =>
    rw [List.mem_cons, not_or] at h
    exact lines_cons (Ne.symm h.1) (ih h.2)

theorem newline_notMem_of_mem_lines {cs l : List Char} (h : l ∈ lines cs) : '\n' ∉ l := by
  induction cs generalizing l with
  | nil =>
    cases List.mem_singleton.mp h
    exact List.not_mem_nil
  | cons c cs ih =>
    by_cases hc : c = '\n'
    · subst hc
      rcases List.mem_cons.mp h with rfl | hl
      · exact List.not_mem_nil
      · exact ih hl
    · obtain ⟨l', ls, hls⟩ := List.exists_cons_of_ne_nil (lines_ne_nil cs)
      rw [lines_cons hc hls] at h
      rcases List.mem_cons.mp h with rfl | hl
      · have hl' := ih (hls ▸ List.mem_cons_self)
        exact fun hmem => (List.mem_cons.mp hmem).elim (fun heq => hc heq.symm) hl'
      · exact ih (hls ▸ List.mem_cons_of_mem _ hl)

/-- The text of lines that are all ended by newlines. -/
def unlines (ls : List (List Char)) : List Char := ls.flatMap (· ++ ['\n'])

/-- Lines that are ended by newlines are the first lines of a text that begins with them. -/
theorem lines_unlines_append {ls : List (List Char)} (h : ∀ l ∈ ls, '\n' ∉ l) (cs : List Char) :
    lines (unlines ls ++ cs) = ls ++ lines cs := by
  induction ls with
  | nil => rfl
  | cons l ls ih =>
    rw [List.forall_mem_cons] at h
    have hcons : unlines (l :: ls) ++ cs = l ++ '\n' :: (unlines ls ++ cs) := by simp [unlines]
    rw [hcons, lines_append, lines_eq_singleton h.1, ih h.2]
    rfl

theorem lines_unlines {ls : List (List Char)} (h : ∀ l ∈ ls, '\n' ∉ l) :
    lines (unlines ls) = ls ++ [[]] := by
  simpa [lines] using lines_unlines_append h []

/-- Every text is some lines that are ended by newlines and a last one that is not. -/
theorem exists_unlines (cs : List Char) :
    ∃ ls l, cs = unlines ls ++ l ∧ (∀ l ∈ ls, '\n' ∉ l) ∧ '\n' ∉ l := by
  induction cs with
  | nil => exact ⟨[], [], by simp [unlines]⟩
  | cons c cs ih =>
    obtain ⟨ls, l, rfl, hls, hl⟩ := ih
    by_cases hc : c = '\n'
    · exact ⟨[] :: ls, l, by simp [unlines, hc], by simpa using hls, hl⟩
    · cases ls with
      | nil => exact ⟨[], c :: l, by simp [unlines], by simp, by simp [Ne.symm hc, hl]⟩
      | cons first ls =>
        refine ⟨(c :: first) :: ls, l, by simp [unlines], ?_, hl⟩
        rw [List.forall_mem_cons] at hls ⊢
        exact ⟨by simp [Ne.symm hc, hls.1], hls.2⟩

theorem count_unlines {ls : List (List Char)} (h : ∀ l ∈ ls, '\n' ∉ l) :
    (unlines ls).count '\n' = ls.length := by
  induction ls with
  | nil => rfl
  | cons l ls ih =>
    rw [List.forall_mem_cons] at h
    have hcons : unlines (l :: ls) = l ++ '\n' :: unlines ls := by simp [unlines]
    rw [hcons, List.count_append, List.count_eq_zero.mpr h.1, List.count_cons_self, ih h.2]
    simp

/-- Every carriage return of the text is followed by a newline. -/
def ReturnsEnded : List Char → Prop
  | [] => True
  | c :: cs => (c = '\r' → cs.head? = some '\n') ∧ ReturnsEnded cs

instance ReturnsEnded.decidable : (cs : List Char) → Decidable (ReturnsEnded cs)
  | [] => isTrue trivial
  | c :: cs =>
    have := ReturnsEnded.decidable cs
    inferInstanceAs (Decidable ((c = '\r' → cs.head? = some '\n') ∧ ReturnsEnded cs))

/-- A carriage return that a newline follows is the last character of its line. -/
theorem ReturnsEnded.last {cs : List Char} (h : ReturnsEnded cs) {l before behind : List Char}
    (hl : l ∈ lines cs) (heq : l = before ++ '\r' :: behind) : behind = [] := by
  induction cs generalizing l before with
  | nil =>
    cases List.mem_singleton.mp hl
    cases before <;> cases heq
  | cons c cs ih =>
    by_cases hc : c = '\n'
    · subst hc
      rcases List.mem_cons.mp hl with rfl | hl
      · cases before <;> cases heq
      · exact ih h.2 hl heq
    · obtain ⟨l', ls, hls⟩ := List.exists_cons_of_ne_nil (lines_ne_nil cs)
      rw [lines_cons hc hls] at hl
      rcases List.mem_cons.mp hl with rfl | hl
      · cases before with
        | nil =>
          cases heq
          obtain ⟨rest, rfl⟩ := List.head?_eq_some_iff.mp (h.1 rfl)
          rw [lines_newline] at hls
          cases hls
          rfl
        | cons b before =>
          cases heq
          exact ih h.2 (hls ▸ List.mem_cons_self) rfl
      · exact ih h.2 (hls ▸ List.mem_cons_of_mem _ hl) heq

/-! Lines one after another. -/

/-- The tokens of lines that are all ended by newlines, and the open blocks after them. -/
def ofEnded (blocks : Layout.Blocks) (line : Int) :
    List (List Char) → Except LexError (Layout.Blocks × List Token)
  | [] => .ok (blocks, [])
  | cs :: rest => do
    let (blocks, tokens) ← ofLine blocks line true cs
    let (blocks, ts) ← ofEnded blocks (line + 1) rest
    return (blocks, tokens ++ ts)

theorem ofEnded_singleton (blocks : Layout.Blocks) (line : Int) (cs : List Char) :
    ofEnded blocks line [cs] = ofLine blocks line true cs := by
  rw [ofEnded]
  cases ofLine blocks line true cs with
  | error e => rfl
  | ok next =>
    show Except.ok (next.1, next.2 ++ []) = .ok next
    rw [List.append_nil]

theorem ofLines_cons (blocks : Layout.Blocks) (line : Int) (cs : List Char)
    {rest : List (List Char)} (h : rest ≠ []) :
    ofLines blocks line (cs :: rest) = (do
      let (blocks, tokens) ← ofLine blocks line true cs
      let ts ← ofLines blocks (line + 1) rest
      return tokens ++ ts) := by
  cases rest with
  | nil => exact absurd rfl h
  | cons l rest => rw [ofLines]; exact List.cons_ne_nil _ _

/-- The tokens of a text are those of its first line before those of the others, or before the
closings when there are no others. -/
theorem ofLines_cons_eq_ok {blocks : Layout.Blocks} {line : Int} {cs : List Char}
    {rest : List (List Char)} {ts : List Token} (h : ofLines blocks line (cs :: rest) = .ok ts) :
    ∃ left tokens later, ofLine blocks line (!rest.isEmpty) cs = .ok (left, tokens) ∧
      ts = tokens ++ later ∧
      (rest = [] ∧ later = List.replicate left.length (dedent (lineEnd line cs)) ++
          [eof (lineEnd line cs)] ∨
        rest ≠ [] ∧ ofLines left (line + 1) rest = .ok later) := by
  by_cases hrest : rest = []
  · subst hrest
    obtain ⟨⟨left, tokens⟩, hline, heq⟩ := bind_eq_ok.mp h
    cases heq
    exact ⟨left, tokens, _, hline, List.append_assoc .., .inl ⟨rfl, rfl⟩⟩
  · rw [ofLines_cons _ _ _ hrest] at h
    obtain ⟨⟨left, tokens⟩, hline, hlater⟩ := bind_eq_ok.mp h
    obtain ⟨later, hts, heq⟩ := bind_eq_ok.mp hlater
    cases heq
    obtain ⟨next, rest, rfl⟩ := List.exists_cons_of_ne_nil hrest
    exact ⟨left, tokens, later, hline, rfl, .inr ⟨hrest, hts⟩⟩

/-- Lines before others are ended and leave their blocks to them. -/
theorem ofLines_append (blocks : Layout.Blocks) (line : Int) (ls : List (List Char))
    {rest : List (List Char)} (h : rest ≠ []) :
    ofLines blocks line (ls ++ rest) = (do
      let (blocks, tokens) ← ofEnded blocks line ls
      let ts ← ofLines blocks (line + ls.length) rest
      return tokens ++ ts) := by
  induction ls generalizing blocks line with
  | nil =>
    show ofLines blocks line rest = ofLines blocks (line + 0) rest >>= fun ts => .ok ([] ++ ts)
    rw [Int.add_zero]
    cases ofLines blocks line rest <;> rfl
  | cons cs ls ih =>
    have hnumber : line + 1 + (ls.length : Int) = line + ((cs :: ls).length : Int) := by
      rw [List.length_cons]
      omega
    rw [List.cons_append, ofLines_cons _ _ _ (by simp [h]), ofEnded]
    simp only [ih, hnumber, bind_assoc, pure_bind, List.append_assoc]

/-! The code of a line. -/

theorem not_isLayout_of_cut {c : Char} {cs : List Char} {t : Cut} (h : cut c cs = .ok t) :
    t.kind.isLayout = false := by
  unfold cut at h
  split at h
  · rename_i kind hkind
    cases h
    unfold punctuation? at hkind
    split at hkind <;> cases hkind <;> rfl
  · split at h
    · unfold cutString at h
      dsimp only at h
      split at h <;> cases h
      rfl
    · split at h
      · rename_i hop
        cases h
        unfold cutOp? at hop
        dsimp only at hop
        repeat' split at hop
        all_goals cases hop <;> rfl
      · split at h
        · cases h
          unfold cutNumber
          dsimp only
          repeat' split
          all_goals rfl
        · split at h <;> cases h
          rfl

theorem ofCode_gap {c : Char} (hc : isGap c = true) (pos : Pos) (cs : List Char) :
    ofCode pos (c :: cs) = ofCode { pos with col := pos.col + 1 } cs := by
  rw [ofCode, if_pos hc]

theorem ofCode_comment (pos : Pos) (cs : List Char) : ofCode pos ('#' :: cs) = .ok [] := by
  rw [ofCode]
  rfl

theorem ofCode_error {c : Char} {cs : List Char} {cause : LexCause} (hgap : isGap c = false)
    (hc : c ≠ '#') (h : cut c cs = .error cause) (pos : Pos) :
    ofCode pos (c :: cs) = .error ⟨cause, pos⟩ := by
  rw [ofCode, if_neg (by simp [hgap]), if_neg hc]
  split
  · rename_i heq
    rw [h] at heq
    cases heq
    rfl
  · rename_i heq
    rw [h] at heq
    cases heq

theorem ofCode_cut {c : Char} {cs : List Char} {t : Cut} (hgap : isGap c = false)
    (hc : c ≠ '#') (h : cut c cs = .ok t) (pos : Pos) :
    ofCode pos (c :: cs) = (do
      let ts ← ofCode { pos with col := pos.col + Text.width t.spelling } t.rest
      return ⟨t.kind, String.ofList t.lexeme, pos⟩ :: ts) := by
  rw [ofCode, if_neg (by simp [hgap]), if_neg hc]
  split
  · rename_i heq
    rw [h] at heq
    cases heq
  · rename_i heq
    rw [h] at heq
    cases heq
    rfl

/-- The tokens of the code of a line stand on the line and none of them tells of layout. -/
theorem ofCode_mem {pos : Pos} {cs : List Char} {ts : List Token} (h : ofCode pos cs = .ok ts) :
    ∀ t ∈ ts, t.kind.isLayout = false ∧ t.pos.line = pos.line := by
  fun_induction ofCode pos cs generalizing ts with
  | case1 =>
    cases h
    simp
  | case2 pos c cs hgap ih => exact ih h
  | case3 =>
    cases h
    simp
  | case4 => cases h
  | case5 pos c cs hgap hc t hcut ih =>
    obtain ⟨ts', hts, heq⟩ := bind_eq_ok.mp h
    cases heq
    exact List.forall_mem_cons.mpr ⟨⟨not_isLayout_of_cut hcut, rfl⟩, ih hts⟩

/-- Code that begins with a character of its own gives a token. -/
theorem ofCode_ne_nil {pos : Pos} {c : Char} {cs : List Char} {ts : List Token}
    (hgap : isGap c = false) (hc : c ≠ '#') (h : ofCode pos (c :: cs) = .ok ts) : ts ≠ [] := by
  cases hcut : cut c cs with
  | error cause =>
    rw [ofCode_error hgap hc hcut] at h
    cases h
  | ok t =>
    rw [ofCode_cut hgap hc hcut] at h
    obtain ⟨ts', -, h⟩ := bind_eq_ok.mp h
    cases h
    exact List.cons_ne_nil _ _

theorem cause_ne_inconsistent_of_cut {c : Char} {cs : List Char} {cause : LexCause}
    (h : cut c cs = .error cause) (w : Nat) : cause ≠ .inconsistent w := by
  unfold cut at h
  split at h
  · cases h
  · split at h
    · unfold cutString at h
      dsimp only at h
      split at h <;> cases h
      simp
    · repeat' split at h
      all_goals cases h
      simp

/-- Code that cannot be read fails on its line and for another reason than layout. -/
theorem ofCode_eq_error {pos : Pos} {cs : List Char} {e : LexError}
    (h : ofCode pos cs = .error e) :
    e.pos.line = pos.line ∧ ∀ w, e.cause ≠ .inconsistent w := by
  fun_induction ofCode pos cs with
  | case1 => cases h
  | case2 pos c cs hgap ih => exact ih h
  | case3 => cases h
  | case4 pos c cs hgap hc cause hcut =>
    cases h
    exact ⟨rfl, cause_ne_inconsistent_of_cut hcut⟩
  | case5 pos c cs hgap hc t hcut ih =>
    rcases bind_eq_error.mp h with hrest | ⟨ts, -, hts⟩
    · exact ih hrest
    · cases hts

end SceneScript.Token
