import SceneScript.Proofs.Layout.Widths
import SceneScript.Proofs.Token.Lines

/-! The layout rule. In a text whose carriage returns all stand before newlines, the layout tokens
are told from the widths of the lines with code, and no list of open blocks is needed to say which
they are: `Laid` is the rule, and the tokens of every such text that has tokens follow it. A line
with code that begins where no open block did is the one thing layout refuses. -/

namespace SceneScript.Layout

/-- A line of a text and its number. -/
structure Line where
  number : Int
  text : List Char

namespace Line

/-- How many spaces and tabs the line begins with. -/
def width (l : Line) : Nat := (margin l.text).width

/-- The place where the code of the line begins. -/
def start (l : Line) : Pos := ⟨l.number, 1 + (margin l.text).skipped⟩

/-- The place behind the line. -/
def stop (l : Line) : Pos := Token.lineEnd l.number l.text

/-- Whether the line has code: something other than a comment behind its spaces and tabs and a
carriage return after them. -/
def hasCode (l : Line) : Bool := !(margin l.text).isEmpty

/-- The tokens of the line with its end, which is one of them when a newline ends the line or the
line gave another. -/
def closed (l : Line) (ended : Bool) (ts : List Token) : List Token :=
  if ended || !ts.isEmpty then ts ++ [.newline l.stop] else ts

theorem closed_eq (l : Line) {ended : Bool} {ts : List Token} (h : ended = true ∨ ts ≠ []) :
    l.closed ended ts = ts ++ [.newline l.stop] := if_pos (by simpa using h)

/-- The code of the line reads as these tokens, of which there is one at least and none of
layout. -/
structure Holds (l : Line) (code : List Token) : Prop where
  read : Token.ofCode l.start (margin l.text).code = .ok code
  ne_nil : code ≠ []
  not_isLayout : ∀ t ∈ code, t.kind.isLayout = false

end Line

/-- The lines with their numbers, the first of which is given. -/
def numbered (number : Int) : List (List Char) → List Line
  | [] => []
  | cs :: rest => ⟨number, cs⟩ :: numbered (number + 1) rest

/-- The lines with code among them. -/
def codeLines (number : Int) (ls : List (List Char)) : List Line :=
  (numbered number ls).filter Line.hasCode

/-- The layout tokens before a line set in by `w` that follows lines of the given widths: one
opening when it is set in further than the last, and otherwise a closing for every open width
greater than its own. -/
def opening (widths : List Nat) (w : Nat) (pos : Pos) : List Token :=
  if widths.getLastD 0 < w then [.indent pos] else List.replicate (openAbove widths w) (.dedent pos)

/-- A line set in by `w` is set in less than the last of the lines before, but by a width that is
not open. -/
def OutOfPlace (widths : List Nat) (w : Nat) : Prop := w < widths.getLastD 0 ∧ ¬ Open widths w
deriving Decidable

/-- The tokens of lines with code that follow lines of the given widths, each line in its place. -/
inductive Laid : List Nat → List Line → List Token → Prop
  | stop {widths : List Nat} (pos : Pos) :
    Laid widths [] (List.replicate (openAbove widths 0) (.dedent pos) ++ [.eof pos])
  | line {widths : List Nat} {l : Line} {ls : List Line} {code rest : List Token}
    (hplace : ¬ OutOfPlace widths l.width) (hcode : l.Holds code)
    (hrest : Laid (widths ++ [l.width]) ls rest) :
    Laid widths (l :: ls) (opening widths l.width l.start ++ code ++ .newline l.stop :: rest)

/-- With so many blocks open, the tokens never close a block that is not open, and close all in
the end. -/
def Nested : Nat → List Token → Prop
  | depth, [] => depth = 0
  | depth, t :: ts =>
    if t.kind = .indent then Nested (depth + 1) ts
    else if t.kind = .dedent then 0 < depth ∧ Nested (depth - 1) ts
    else Nested depth ts

/-! One line. -/

theorem enter?_tokens {blocks blocks' : Blocks} {widths : List Nat} {w : Nat} {change : Change}
    (h : Tracks blocks widths) (henter : blocks.enter? w = some (blocks', change)) (pos : Pos) :
    change.tokens pos = opening widths w pos := by
  unfold opening
  by_cases hw : widths.getLastD 0 < w
  · rw [h.enter?_of_lt hw] at henter
    cases henter
    rw [if_pos hw]
    rfl
  · rw [h.enter?_of_le (Nat.not_lt.mp hw)] at henter
    split at henter <;> cases henter
    rw [if_neg hw]
    rfl

theorem margin_code_head {cs : List Char} {c : Char} {rest : List Char}
    (hreturn : ∀ before behind : List Char, cs = before ++ '\r' :: behind → behind = [])
    (h : (margin cs).code = c :: rest) : Token.isGap c = false := by
  have hsplit := List.takeWhile_append_dropWhile (p := isSpace) (l := cs)
  have hhead : ∀ d behind, cs.dropWhile isSpace = d :: behind → isSpace d = false := by
    intro d behind hd
    have := List.head?_dropWhile_not isSpace cs
    rw [hd] at this
    simpa using this
  unfold margin at h
  dsimp only at h
  split at h
  · rename_i behind hd
    rw [hd] at hsplit
    have hnil := hreturn _ _ hsplit.symm
    rw [hnil] at h
    cases h
  · rename_i hd
    have hspace := hhead _ _ h
    have hne : c ≠ '\r' := fun heq => hd rest (heq ▸ h)
    unfold isSpace at hspace
    unfold Token.isGap
    rw [Bool.or_eq_false_iff]
    exact ⟨hspace, by simpa using hne⟩

/-- A line without code changes nothing. -/
theorem ofLine_blank {l : Line} (h : l.hasCode = false) (blocks : Blocks) (ended : Bool) :
    Token.ofLine blocks l.number ended l.text = .ok (blocks, []) := by
  unfold Token.ofLine
  dsimp only
  rw [if_pos (by simpa [Line.hasCode] using h)]

theorem ofLine_code {l : Line} (h : l.hasCode = true) (blocks : Blocks) (ended : Bool) :
    Token.ofLine blocks l.number ended l.text =
      match blocks.enter? l.width with
      | none => .error ⟨.inconsistent l.width, l.start⟩
      | some (blocks, change) => do
        let code ← Token.ofCode l.start (margin l.text).code
        return (blocks, l.closed ended (change.tokens l.start ++ code)) := by
  unfold Token.ofLine
  dsimp only
  rw [if_neg (by simpa [Line.hasCode] using h)]
  rfl

/-- A line with code enters its block. -/
theorem ofLine_eq_ok {l : Line} {blocks blocks' : Blocks} {ended : Bool} {ts : List Token}
    (hcode : l.hasCode = true) :
    Token.ofLine blocks l.number ended l.text = .ok (blocks', ts) ↔
      ∃ change code, blocks.enter? l.width = some (blocks', change) ∧
        Token.ofCode l.start (margin l.text).code = .ok code ∧
        ts = l.closed ended (change.tokens l.start ++ code) := by
  rw [ofLine_code hcode]
  constructor
  · intro h
    cases henter : blocks.enter? l.width with
    | none =>
      rw [henter] at h
      cases h
    | some next =>
      obtain ⟨left, change⟩ := next
      rw [henter] at h
      obtain ⟨code, hread, heq⟩ := bind_eq_ok.mp h
      cases heq
      exact ⟨change, code, rfl, hread, rfl⟩
  · rintro ⟨change, code, henter, hread, rfl⟩
    rw [henter]
    exact bind_eq_ok.mpr ⟨code, hread, rfl⟩

/-- Where carriage returns end lines, a line with code follows the rule, whether a newline or the
end of the text ends it. -/
theorem ofLine_laid {l : Line} {blocks blocks' : Blocks} {widths : List Nat} {ended : Bool}
    {ts rest : List Token} {ls : List Line} (htracks : Tracks blocks widths)
    (hcode : l.hasCode = true)
    (hreturn : ∀ before behind : List Char, l.text = before ++ '\r' :: behind → behind = [])
    (h : Token.ofLine blocks l.number ended l.text = .ok (blocks', ts))
    (hrest : Tracks blocks' (widths ++ [l.width]) → Laid (widths ++ [l.width]) ls rest) :
    Laid widths (l :: ls) (ts ++ rest) := by
  obtain ⟨change, code, henter, hread, rfl⟩ := (ofLine_eq_ok hcode).mp h
  have hplace : ¬ OutOfPlace widths l.width := by
    intro hout
    rw [htracks.enter?_eq_none.mpr hout] at henter
    cases henter
  have hne : code ≠ [] := by
    cases hbehind : (margin l.text).code with
    | nil => simp [Line.hasCode, Margin.isEmpty, hbehind] at hcode
    | cons c rest =>
      have hc : c ≠ '#' := by simpa [Line.hasCode, Margin.isEmpty, hbehind] using hcode
      exact Token.ofCode_ne_nil (margin_code_head hreturn hbehind) hc (hbehind ▸ hread)
  have hholds : l.Holds code := ⟨hread, hne, fun t ht => (Token.ofCode_mem hread t ht).1⟩
  rw [l.closed_eq (.inr (by simp [hne])), enter?_tokens htracks henter, List.append_assoc]
  exact .line hplace hholds (hrest (htracks.enter henter))

/-! All lines. -/

theorem codeLines_blank {number : Int} {cs : List Char} {rest : List (List Char)}
    (h : Line.hasCode ⟨number, cs⟩ = false) :
    codeLines number (cs :: rest) = codeLines (number + 1) rest := by
  unfold codeLines
  rw [numbered, List.filter_cons_of_neg (by simp [h])]

theorem codeLines_code {number : Int} {cs : List Char} {rest : List (List Char)}
    (h : Line.hasCode ⟨number, cs⟩ = true) :
    codeLines number (cs :: rest) = ⟨number, cs⟩ :: codeLines (number + 1) rest := by
  unfold codeLines
  rw [numbered, List.filter_cons_of_pos h]

/-- The closings at the end of a text. -/
theorem Laid.closings {blocks : Blocks} {widths : List Nat} (h : Tracks blocks widths) (pos : Pos) :
    Laid widths [] (List.replicate blocks.length (.dedent pos) ++ [.eof pos]) :=
  h.openAbove_zero ▸ .stop pos

theorem laid_of_ofLines {blocks : Blocks} {widths : List Nat} {number : Int}
    {ls : List (List Char)} {ts : List Token} (htracks : Tracks blocks widths)
    (hreturn : ∀ l ∈ ls, ∀ before behind : List Char, l = before ++ '\r' :: behind → behind = [])
    (hne : ls ≠ []) (h : Token.ofLines blocks number ls = .ok ts) :
    Laid widths (codeLines number ls) ts := by
  induction ls generalizing blocks widths number ts with
  | nil => exact absurd rfl hne
  | cons cs rest ih =>
    rw [List.forall_mem_cons] at hreturn
    obtain ⟨left, tokens, later, hline, rfl, hlater⟩ := Token.ofLines_cons_eq_ok h
    -- Behind the line stand the others or, when it is the last, the closings.
    have hbehind : ∀ {widths : List Nat}, Tracks left widths →
        Laid widths (codeLines (number + 1) rest) later := by
      intro widths hleft
      rcases hlater with ⟨rfl, rfl⟩ | ⟨hrest, hts⟩
      · exact .closings hleft _
      · exact ih hleft hreturn.2 hrest hts
    by_cases hcode : Line.hasCode ⟨number, cs⟩ = true
    · rw [codeLines_code hcode]
      exact ofLine_laid htracks hcode hreturn.1 hline hbehind
    · rw [Bool.not_eq_true] at hcode
      cases (ofLine_blank hcode blocks _).symm.trans hline
      rw [codeLines_blank hcode]
      exact hbehind htracks

/-! Openings and closings. -/

theorem nested_of_not_isLayout {code rest : List Token} {depth : Nat}
    (hcode : ∀ t ∈ code, t.kind.isLayout = false) (h : Nested depth rest) :
    Nested depth (code ++ rest) := by
  induction code with
  | nil => exact h
  | cons t code ih =>
    rw [List.forall_mem_cons] at hcode
    have hindent : t.kind ≠ .indent := fun heq => by simp [heq, TokenKind.isLayout] at hcode
    have hdedent : t.kind ≠ .dedent := fun heq => by simp [heq, TokenKind.isLayout] at hcode
    rw [List.cons_append, Nested, if_neg hindent, if_neg hdedent]
    exact ih hcode.2

theorem nested_closings {rest : List Token} {depth : Nat} (count : Nat) (pos : Pos)
    (h : Nested depth rest) :
    Nested (depth + count) (List.replicate count (.dedent pos) ++ rest) := by
  induction count with
  | zero => exact h
  | succ count ih => exact ⟨Nat.succ_pos _, ih⟩

/-- Entering a line takes the open blocks to those after it. -/
theorem nested_enter {blocks blocks' : Blocks} {change : Change} {w : Nat} {rest : List Token}
    (henter : blocks.enter? w = some (blocks', change)) (pos : Pos)
    (h : Nested blocks'.length rest) : Nested blocks.length (change.tokens pos ++ rest) := by
  unfold Blocks.enter? at henter
  dsimp only at henter
  split at henter
  · cases henter
    exact h
  · split at henter <;> cases henter
    have hlength : blocks.length =
        (blocks.dropWhile (w < ·)).length + (blocks.takeWhile (w < ·)).length := by
      rw [Nat.add_comm, ← List.length_append, List.takeWhile_append_dropWhile]
    rw [hlength]
    exact nested_closings _ pos h

theorem Laid.nested {blocks : Blocks} {widths : List Nat} {ls : List Line} {ts : List Token}
    (htracks : Tracks blocks widths) (h : Laid widths ls ts) : Nested blocks.length ts := by
  induction h generalizing blocks with
  | stop pos =>
    have hend : Nested 0 [.eof pos] := by simp [Nested, Token.eof]
    have hnested := nested_closings blocks.length pos hend
    rw [Nat.zero_add] at hnested
    rwa [htracks.openAbove_zero]
  | @line widths l ls code rest hplace hcode _ ih =>
    cases henter : blocks.enter? l.width with
    | none => exact absurd (htracks.enter?_eq_none.mp henter) hplace
    | some next =>
      obtain ⟨left, change⟩ := next
      rw [← enter?_tokens htracks henter, List.append_assoc]
      refine nested_enter henter _ (nested_of_not_isLayout hcode.not_isLayout ?_)
      exact ih (htracks.enter henter)

/-! Lines out of place. -/

/-- The lines before a line leave open what their widths tell. -/
theorem tracks_of_ofEnded {blocks blocks' : Blocks} {widths : List Nat} {number : Int}
    {ls : List (List Char)} {ts : List Token} (htracks : Tracks blocks widths)
    (h : Token.ofEnded blocks number ls = .ok (blocks', ts)) :
    Tracks blocks' (widths ++ (codeLines number ls).map Line.width) := by
  induction ls generalizing blocks widths number ts with
  | nil =>
    cases h
    simpa [codeLines, numbered] using htracks
  | cons cs rest ih =>
    obtain ⟨⟨left, tokens⟩, hline, hlater⟩ := bind_eq_ok.mp h
    obtain ⟨⟨left', ts'⟩, hrest, heq⟩ := bind_eq_ok.mp hlater
    cases heq
    by_cases hcode : Line.hasCode ⟨number, cs⟩ = true
    · obtain ⟨change, code, henter, -, -⟩ := (ofLine_eq_ok (l := ⟨number, cs⟩) hcode).mp hline
      rw [codeLines_code hcode, List.map_cons, List.append_cons]
      exact ih (htracks.enter henter) hrest
    · rw [Bool.not_eq_true] at hcode
      cases (ofLine_blank hcode blocks true).symm.trans hline
      rw [codeLines_blank hcode]
      exact ih htracks hrest

/-- A line fails at its number, and for its layout only when it cannot enter a block. -/
theorem ofLine_eq_error {l : Line} {blocks : Blocks} {ended : Bool} {e : LexError}
    (h : Token.ofLine blocks l.number ended l.text = .error e) :
    e.pos.line = l.number ∧
      ∀ w, e.cause = .inconsistent w → l.hasCode = true ∧ blocks.enter? l.width = none := by
  by_cases hcode : l.hasCode = true
  · rw [ofLine_code hcode] at h
    cases henter : blocks.enter? l.width with
    | none =>
      rw [henter] at h
      cases h
      exact ⟨rfl, fun w _ => ⟨hcode, rfl⟩⟩
    | some next =>
      rw [henter] at h
      rcases bind_eq_error.mp h with hread | ⟨code, -, hcode⟩
      · obtain ⟨hline, hcause⟩ := Token.ofCode_eq_error hread
        exact ⟨hline, fun w hw => absurd hw (hcause w)⟩
      · cases hcode
  · rw [Bool.not_eq_true] at hcode
    rw [ofLine_blank hcode] at h
    cases h

/-- Lines fail at one of their numbers. -/
theorem le_of_ofLines_eq_error {blocks : Blocks} {number : Int} {ls : List (List Char)}
    {e : LexError} (h : Token.ofLines blocks number ls = .error e) : number ≤ e.pos.line := by
  induction ls generalizing blocks number with
  | nil => cases h
  | cons cs rest ih =>
    by_cases hrest : rest = []
    · subst hrest
      rcases bind_eq_error.mp h with hline | ⟨next, -, hnext⟩
      · exact (ofLine_eq_error (l := ⟨number, cs⟩) hline).1.ge
      · cases hnext
    · rw [Token.ofLines_cons _ _ _ hrest] at h
      rcases bind_eq_error.mp h with hline | ⟨next, -, hnext⟩
      · exact (ofLine_eq_error (l := ⟨number, cs⟩) hline).1.ge
      · rcases bind_eq_error.mp hnext with hlater | ⟨ts, -, hts⟩
        · have hle := ih hlater
          omega
        · cases hts

/-- The first of some lines is read on its own, and what fails after it fails at a later one. -/
theorem ofLines_first (number : Int) (cs : List Char) (rest : List (List Char)) :
    ∃ (ended : Bool) (later : Blocks × List Token → Except LexError (List Token)),
      (∀ blocks, Token.ofLines blocks number (cs :: rest) =
        Token.ofLine blocks number ended cs >>= later) ∧
      ∀ next e, later next = .error e → number < e.pos.line := by
  by_cases hrest : rest = []
  · subst hrest
    refine ⟨false, _, fun blocks => rfl, ?_⟩
    intro next e h
    cases h
  · refine ⟨true, _, fun blocks => Token.ofLines_cons blocks number cs hrest, ?_⟩
    intro next e h
    rcases bind_eq_error.mp h with hlater | ⟨ts, -, hts⟩
    · exact Int.lt_of_add_one_le (le_of_ofLines_eq_error hlater)
    · cases hts

/-- A line with code is refused for its layout just when it cannot enter a block. -/
theorem ofLines_inconsistent {l : Line} (blocks : Blocks) (rest : List (List Char))
    (hcode : l.hasCode = true) :
    ((∃ e w, Token.ofLines blocks l.number (l.text :: rest) = .error e ∧
        e.cause = .inconsistent w ∧ e.pos.line = l.number) ↔ blocks.enter? l.width = none) ∧
      (blocks.enter? l.width = none →
        Token.ofLines blocks l.number (l.text :: rest) =
          .error ⟨.inconsistent l.width, l.start⟩) := by
  obtain ⟨ended, later, hfirst, hlater⟩ := ofLines_first l.number l.text rest
  have hrefused (henter : blocks.enter? l.width = none) :
      Token.ofLines blocks l.number (l.text :: rest) = .error ⟨.inconsistent l.width, l.start⟩ := by
    rw [hfirst, ofLine_code hcode, henter]
    rfl
  refine ⟨⟨?_, fun henter => ⟨_, l.width, hrefused henter, rfl, rfl⟩⟩, hrefused⟩
  rintro ⟨e, w, h, hcause, hnumber⟩
  rw [hfirst] at h
  rcases bind_eq_error.mp h with hline | ⟨next, -, hnext⟩
  · exact ((ofLine_eq_error hline).2 w hcause).2
  · have hlt := hlater next e hnext
    omega

/-- Lines whose text has tokens leave their blocks to the line after them. -/
theorem ofSource_behind {before rest : List (List Char)} {source : String} {cs : List Char}
    {ts : List Token} (hlines : Token.lines source.toList = before ++ cs :: rest)
    (h : Token.ofSource (String.ofList (Token.unlines before)) = .ok ts) :
    ∃ blocks tokens, Tracks blocks ((codeLines 1 before).map Line.width) ∧
      Token.ofSource source =
        (tokens ++ ·) <$> Token.ofLines blocks (1 + before.length) (cs :: rest) := by
  have hnewline : ∀ l ∈ before, '\n' ∉ l := fun l hl =>
    Token.newline_notMem_of_mem_lines (hlines ▸ List.mem_append_left _ hl)
  unfold Token.ofSource at h
  rw [String.toList_ofList, Token.lines_unlines hnewline,
    Token.ofLines_append _ _ _ (List.cons_ne_nil _ _)] at h
  obtain ⟨⟨blocks, tokens⟩, hended, -⟩ := bind_eq_ok.mp h
  refine ⟨blocks, tokens, tracks_of_ofEnded Tracks.start hended, ?_⟩
  unfold Token.ofSource
  rw [hlines, Token.ofLines_append _ _ _ (List.cons_ne_nil _ _), hended]
  rfl

/-- In a text whose carriage returns all stand before newlines, layout is told from the widths of
the lines with code: if the text has tokens then they follow the rule, and blocks close as they
opened. And in every text, when the lines before a line with code have tokens, that line is refused
for its layout just when it is set in less than the last line with code, but where no open block
began. -/
theorem laid_and_refused (source : String) :
    (Token.ReturnsEnded source.toList → ∀ ts, Token.ofSource source = .ok ts →
      Laid [] (codeLines 1 (Token.lines source.toList)) ts ∧ Nested 0 ts) ∧
    ∀ (before : List (List Char)) (l : Line) (rest : List (List Char)),
      Token.lines source.toList = before ++ l.text :: rest → l.number = 1 + before.length →
      l.hasCode = true →
      (∃ ts, Token.ofSource (String.ofList (Token.unlines before)) = .ok ts) →
      ((∃ e w, Token.ofSource source = .error e ∧ e.cause = .inconsistent w ∧
          e.pos.line = l.number) ↔ OutOfPlace ((codeLines 1 before).map Line.width) l.width) ∧
        (OutOfPlace ((codeLines 1 before).map Line.width) l.width →
          Token.ofSource source = .error ⟨.inconsistent l.width, l.start⟩) := by
  constructor
  · intro hreturn ts h
    have hlaid := laid_of_ofLines Tracks.start (fun l hl before behind => hreturn.last hl)
      (Token.lines_ne_nil _) h
    exact ⟨hlaid, hlaid.nested Tracks.start⟩
  · rintro before l rest hlines hnumber hcode ⟨ts, hbefore⟩
    obtain ⟨blocks, tokens, htracks, hsource⟩ := ofSource_behind hlines hbefore
    obtain ⟨hiff, hrefused⟩ := ofLines_inconsistent blocks rest hcode
    have herror : ∀ e, Token.ofSource source = .error e ↔
        Token.ofLines blocks l.number (l.text :: rest) = .error e := by
      intro e
      rw [hsource, hnumber]
      cases Token.ofLines blocks (1 + before.length) (l.text :: rest) <;> simp
    unfold OutOfPlace
    simp only [herror, ← htracks.enter?_eq_none]
    exact ⟨hiff, hrefused⟩

/-- Two blocks open and both close at once behind a blank line; a line between their widths is
refused. -/
theorem laid_and_refused_between :
    (∃ ts, Token.ofSource "a:\n  b:\n    c\r\n \nd" = .ok ts ∧
      ts.map Token.kind = [.identifier, .colon, .newline, .indent, .identifier, .colon, .newline,
        .indent, .identifier, .newline, .dedent, .dedent, .identifier, .newline, .eof] ∧
      Laid [] (codeLines 1 (Token.lines "a:\n  b:\n    c\r\n \nd".toList)) ts ∧ Nested 0 ts) ∧
    Token.ofSource "a:\n  b\n c" = .error ⟨.inconsistent 1, ⟨3, 2⟩⟩ := by
  constructor
  · have hkinds : (Token.ofSource "a:\n  b:\n    c\r\n \nd").map (·.map Token.kind) = .ok
        [.identifier, .colon, .newline, .indent, .identifier, .colon, .newline, .indent,
          .identifier, .newline, .dedent, .dedent, .identifier, .newline, .eof] := by decide +kernel
    cases hts : Token.ofSource "a:\n  b:\n    c\r\n \nd" with
    | error e =>
      rw [hts] at hkinds
      cases hkinds
    | ok ts =>
      rw [hts] at hkinds
      exact ⟨ts, rfl, Except.ok.inj hkinds, (laid_and_refused _).1 (by decide) ts hts⟩
  · have hbefore : Token.ofSource (String.ofList (Token.unlines ["a:".toList, "  b".toList])) = .ok
        [⟨.identifier, "a", ⟨1, 1⟩⟩, ⟨.colon, ":", ⟨1, 2⟩⟩, .newline ⟨1, 3⟩, .indent ⟨2, 3⟩,
          ⟨.identifier, "b", ⟨2, 3⟩⟩, .newline ⟨2, 4⟩, .dedent ⟨3, 1⟩, .eof ⟨3, 1⟩] := by
      decide +kernel
    exact ((laid_and_refused _).2 ["a:".toList, "  b".toList] ⟨3, " c".toList⟩ [] (by decide) rfl
      (by decide) ⟨_, hbefore⟩).2 (by decide)

end SceneScript.Layout
