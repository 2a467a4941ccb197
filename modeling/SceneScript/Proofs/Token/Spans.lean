import Mathlib.Data.List.DropRight
import Mathlib.Data.List.TakeWhile
import SceneScript.Proofs.Layout.Rule

/-! Lexing loses nothing. The words that the tokens of a text stand for lie in the text one behind
another, at the places that the tokens tell, and what lies between them are blanks and comments. -/

namespace SceneScript

/-- The place of what stands behind `before`: lines count newlines, columns the units since the last
one. -/
def Pos.behind (before : List Char) : Pos :=
  ⟨1 + before.count '\n', 1 + Text.width (before.rtakeWhile (· != '\n'))⟩

theorem Pos.behind_append {before word : List Char} (h : '\n' ∉ word) :
    Pos.behind (before ++ word) =
      { Pos.behind before with col := (Pos.behind before).col + Text.width word } := by
  have hword : ∀ c ∈ word.reverse, (c != '\n') = true := by
    intro c hc
    rw [bne_iff_ne]
    rintro rfl
    exact h (List.mem_reverse.mp hc)
  have hsince : (before ++ word).rtakeWhile (· != '\n') =
      before.rtakeWhile (· != '\n') ++ word := by
    unfold List.rtakeWhile
    rw [List.reverse_append, List.takeWhile_append_of_pos hword, List.reverse_append,
      List.reverse_reverse]
  unfold Pos.behind
  rw [hsince, List.count_append, List.count_eq_zero.mpr h, Text.width_append]
  simp [Int.add_assoc]

theorem Pos.behind_newline (before : List Char) :
    Pos.behind (before ++ ['\n']) = ⟨(Pos.behind before).line + 1, 1⟩ := by
  simp [Pos.behind, Int.add_assoc]

/-- A stretch of a text: how many characters stand before it, and what it reads. -/
structure Span where
  start : Nat
  text : List Char

namespace Span

def stop (s : Span) : Nat := s.start + s.text.length

def Covers (s : Span) (i : Nat) : Prop := s.start ≤ i ∧ i < s.stop

def Before (s t : Span) : Prop := s.stop ≤ t.start

structure In (cs : List Char) (s : Span) : Prop where
  ne_nil : s.text ≠ []
  reads : s.text <+: cs.drop s.start

/-- A comment runs from its sign to the end of the line. -/
structure IsComment (cs : List Char) (s : Span) : Prop extends s.In cs where
  sign : s.text.head? = some '#'
  line : '\n' ∉ s.text
  ends : ∀ c, cs[s.stop]? = some c → c = '\n'

end Span

/-- Whether a character separates words or lines. -/
def Text.separates (c : Char) : Bool := c ∈ [' ', '\t', '\r', '\n']

namespace Token

/-- Whether a token is a word of the text and not of layout. -/
def isCode (t : Token) : Bool := !t.kind.isLayout

@[simp] theorem isCode_newline (pos : Pos) : (newline pos).isCode = false := rfl
@[simp] theorem isCode_indent (pos : Pos) : (indent pos).isCode = false := rfl
@[simp] theorem isCode_dedent (pos : Pos) : (dedent pos).isCode = false := rfl
@[simp] theorem isCode_eof (pos : Pos) : (eof pos).isCode = false := rfl

/-- How a token may be spelled: as what it carries, in the case of a string between two quotes of
one kind. -/
def SpelledAs (t : Token) (word : List Char) : Prop :=
  if t.kind = .string then ∃ q, (q = '"' ∨ q = '\'') ∧ word = q :: t.lexeme.toList ++ [q]
  else word = t.lexeme.toList

/-- The token sits on the span: it is spelled there and tells its place. -/
structure SitsOn (cs : List Char) (s : Span) (t : Token) : Prop extends s.In cs where
  spelled : t.SpelledAs s.text
  pos : t.pos = Pos.behind (cs.take s.start)

end Token

/-- From an offset on, the text consists of the words that the tokens sit on, in their order and one
behind another, of comments and of characters that separate them. -/
structure Tiles (cs : List Char) (offset : Nat) (ts : List Token) (words comments : List Span) :
    Prop where
  tokens : List.Forall₂ (Token.SitsOn cs) words ts
  ordered : words.Pairwise Span.Before
  aside : ∀ s ∈ comments, s.IsComment cs ∧ ∀ w ∈ words, w.Before s ∨ s.Before w
  beyond : ∀ s ∈ words ++ comments, offset ≤ s.start
  covered : ∀ i c, offset ≤ i → cs[i]? = some c →
    (∃ s ∈ words ++ comments, s.Covers i) ∨ Text.separates c = true

namespace Tiles

variable {cs : List Char} {offset : Nat} {ts : List Token} {words comments : List Span}

theorem done (cs : List Char) : Tiles cs cs.length [] [] [] where
  tokens := .nil
  ordered := .nil
  aside := List.forall_mem_nil _
  beyond := List.forall_mem_nil _
  covered i c hi hc := absurd (List.getElem?_eq_some_iff.mp hc).1 (by omega)

theorem separator {c : Char} (hc : cs[offset]? = some c) (hsep : Text.separates c = true)
    (h : Tiles cs (offset + 1) ts words comments) : Tiles cs offset ts words comments where
  tokens := h.tokens
  ordered := h.ordered
  aside := h.aside
  beyond s hs := Nat.le_of_succ_le (h.beyond s hs)
  covered i d hi hd := by
    obtain rfl | hlt := Nat.eq_or_lt_of_le hi
    · rw [hc] at hd
      cases hd
      exact .inr hsep
    · exact h.covered i d hlt hd

theorem comment {s : Span} (hs : s.IsComment cs) (h : Tiles cs s.stop ts words comments) :
    Tiles cs s.start ts words (s :: comments) where
  tokens := h.tokens
  ordered := h.ordered
  aside := by
    refine List.forall_mem_cons.mpr ⟨⟨hs, fun w hw => .inr ?_⟩, h.aside⟩
    exact h.beyond w (List.mem_append_left _ hw)
  beyond t ht := by
    obtain ht | rfl | ht := (List.mem_append.mp ht).imp_right List.mem_cons.mp
    · exact Nat.le_trans (Nat.le_add_right ..) (h.beyond t (List.mem_append_left _ ht))
    · exact Nat.le_refl _
    · exact Nat.le_trans (Nat.le_add_right ..) (h.beyond t (List.mem_append_right _ ht))
  covered i c hi hc := by
    by_cases hstop : i < s.stop
    · exact .inl ⟨s, by simp, hi, hstop⟩
    · refine (h.covered i c (Nat.not_lt.mp hstop) hc).imp_left fun ⟨t, ht, hcovers⟩ => ?_
      exact ⟨t, by simp at ht ⊢; tauto, hcovers⟩

theorem word {s : Span} {t : Token} (hs : t.SitsOn cs s) (h : Tiles cs s.stop ts words comments) :
    Tiles cs s.start (t :: ts) (s :: words) comments where
  tokens := .cons hs h.tokens
  ordered := .cons (fun w hw => h.beyond w (List.mem_append_left _ hw)) h.ordered
  aside u hu := by
    obtain ⟨hcomment, hapart⟩ := h.aside u hu
    exact ⟨hcomment, List.forall_mem_cons.mpr
      ⟨.inl (h.beyond u (List.mem_append_right _ hu)), hapart⟩⟩
  beyond u hu := by
    obtain rfl | hu := List.mem_cons.mp hu
    · exact Nat.le_refl _
    · exact Nat.le_trans (Nat.le_add_right ..) (h.beyond u hu)
  covered i c hi hc := by
    by_cases hstop : i < s.stop
    · exact .inl ⟨s, List.mem_cons_self, hi, hstop⟩
    · refine (h.covered i c (Nat.not_lt.mp hstop) hc).imp_left fun ⟨u, hu, hcovers⟩ => ?_
      exact ⟨u, List.mem_cons_of_mem _ hu, hcovers⟩

end Tiles

/-- Behind `before`, the text is tiled by the words of the tokens. -/
def Tiled (before text : List Char) (ts : List Token) : Prop :=
  ∃ words comments, Tiles (before ++ text) before.length ts words comments

namespace Tiled

variable {before rest : List Char} {ts : List Token}

theorem done (before : List Char) : Tiled before [] [] :=
  ⟨[], [], by simpa using Tiles.done before⟩

theorem separators (skipped : List Char) (hsep : ∀ c ∈ skipped, Text.separates c = true)
    (h : Tiled (before ++ skipped) rest ts) : Tiled before (skipped ++ rest) ts := by
  induction skipped generalizing before with
  | nil => simpa using h
  | cons c skipped ih =>
    rw [List.forall_mem_cons] at hsep
    obtain ⟨words, comments, hrest⟩ := @ih (before ++ [c]) hsep.2 (by simpa using h)
    refine ⟨words, comments, .separator (c := c) (by simp) hsep.1 ?_⟩
    simpa using hrest

/-- What follows ends a line or the text. -/
def Ends (rest : List Char) : Prop := ∀ c, rest.head? = some c → c = '\n'

theorem comment {line : List Char} (hline : '\n' ∉ line) (hends : Ends rest)
    (h : Tiled (before ++ '#' :: line) rest ts) : Tiled before ('#' :: line ++ rest) ts := by
  obtain ⟨words, comments, hrest⟩ := h
  rw [List.append_assoc, List.length_append] at hrest
  let s : Span := ⟨before.length, '#' :: line⟩
  refine ⟨words, s :: comments, Tiles.comment (s := s) ?_ hrest⟩
  refine ⟨⟨List.cons_ne_nil _ _, by simp [s]⟩, rfl, by simp [s, hline], fun c hc => hends c ?_⟩
  rw [List.head?_eq_getElem?, ← hc]
  simp [s, Span.stop, List.getElem?_append_right]

theorem word {t : Token} {word : List Char} (hne : word ≠ []) (hspelled : t.SpelledAs word)
    (hpos : t.pos = Pos.behind before) (h : Tiled (before ++ word) rest ts) :
    Tiled before (word ++ rest) (t :: ts) := by
  obtain ⟨words, comments, hrest⟩ := h
  rw [List.append_assoc, List.length_append] at hrest
  let s : Span := ⟨before.length, word⟩
  refine ⟨s :: words, comments, Tiles.word (s := s) ?_ hrest⟩
  exact ⟨⟨hne, by simp [s]⟩, hspelled, by simpa [s] using hpos⟩

end Tiled

namespace Token

/-- What is cut off is the beginning of the text and spells the token. -/
structure Cut.Of (text : List Char) (t : Cut) : Prop where
  split : text = t.spelling ++ t.rest
  ne_nil : t.spelling ≠ []
  spelled : ∀ pos, SpelledAs ⟨t.kind, String.ofList t.lexeme, pos⟩ t.spelling

theorem Cut.Of.plain {kind : TokenKind} (hkind : kind ≠ .string) {text spelling rest : List Char}
    (hne : spelling ≠ []) (h : text = spelling ++ rest) :
    (Cut.plain kind spelling rest).Of text :=
  ⟨h, hne, fun _ => by simp [SpelledAs, Cut.plain, hkind]⟩

theorem cutString_of {q : Char} (hq : q = '"' ∨ q = '\'') {cs : List Char} {t : Cut}
    (h : cutString q cs = .ok t) : t.Of (q :: cs) := by
  have hsplit := List.takeWhile_append_dropWhile (p := (· != q)) (l := cs)
  unfold cutString at h
  dsimp only at h
  split at h
  · cases h
  · rename_i d rest hdrop
    cases h
    have hd : d = q := by
      have := List.head?_dropWhile_not (· != q) cs
      rw [hdrop] at this
      simpa using this
    rw [hdrop, hd] at hsplit
    refine ⟨?_, by simp, fun pos => ?_⟩
    · simp [hsplit]
    · exact (if_pos rfl).mpr ⟨q, hq, by simp⟩

theorem cutNumber_of (c : Char) (cs : List Char) : (cutNumber c cs).Of (c :: cs) := by
  have hsplit := List.takeWhile_append_dropWhile (p := Char.isDigit) (l := cs)
  unfold cutNumber
  dsimp only
  split
  · rename_i d rest hdrop
    have hrest := List.takeWhile_append_dropWhile (p := Char.isDigit) (l := rest)
    rw [hdrop] at hsplit
    split
    · exact .plain (by decide) (by simp) (by simp [hsplit, hrest])
    · exact .plain (by decide) (by simp) (by simp [hsplit])
  · exact .plain (by decide) (by simp) (by simp [hsplit])

theorem cutOp?_of {c : Char} {cs : List Char} {t : Cut} (h : cutOp? c cs = some t) :
    t.Of (c :: cs) := by
  have hshort : ∀ {t : Cut}, (if String.singleton c ∈ shortOps then some (Cut.plain .op [c] cs)
      else none) = some t → t.Of (c :: cs) := by
    intro t h
    split at h <;> cases h
    exact .plain (by decide) (by simp) rfl
  unfold cutOp? at h
  dsimp only at h
  split at h
  · split at h
    · cases h
      exact .plain (by decide) (by simp) rfl
    · exact hshort h
  · exact hshort h

theorem cut_of {c : Char} {cs : List Char} {t : Cut} (h : cut c cs = .ok t) : t.Of (c :: cs) := by
  unfold cut at h
  split at h
  · rename_i kind hkind
    cases h
    refine .plain ?_ (by simp) rfl
    rintro rfl
    unfold punctuation? at hkind
    split at hkind <;> cases hkind
  · split at h
    · rename_i hq
      exact cutString_of hq h
    · split at h
      · rename_i hop
        cases h
        exact cutOp?_of hop
      · split at h
        · cases h
          exact cutNumber_of c cs
        · split at h <;> cases h
          exact .plain (by decide) (by simp) (by simp)

theorem separates_of_isGap {c : Char} (h : isGap c = true) :
    Text.separates c = true ∧ Text.unitCount c = 1 ∧ c ≠ '\n' := by
  simp only [isGap, Bool.or_eq_true, beq_iff_eq] at h
  obtain (rfl | rfl) | rfl := h <;> decide

theorem width_of_isGap {cs : List Char} (h : ∀ c ∈ cs, isGap c = true) :
    Text.width cs = cs.length := by
  induction cs with
  | nil => rfl
  | cons c cs ih =>
    rw [List.forall_mem_cons] at h
    rw [Text.width_cons, (separates_of_isGap h.1).2.1, ih h.2, List.length_cons, Nat.add_comm]

/-- The code of a line is tiled by its tokens and the comment behind them. -/
theorem ofCode_tiled {pos : Pos} {cs : List Char} {ts : List Token} (h : ofCode pos cs = .ok ts)
    (hline : '\n' ∉ cs) {before rest : List Char} (hpos : pos = Pos.behind before)
    (hends : Tiled.Ends rest) {us : List Token} (hrest : Tiled (before ++ cs) rest us) :
    Tiled before (cs ++ rest) (ts ++ us) := by
  fun_induction ofCode pos cs generalizing ts before with
  | case1 =>
    cases h
    simpa using hrest
  | case2 pos c cs hgap ih =>
    rw [List.mem_cons, not_or] at hline
    obtain ⟨hsep, hunit, hc⟩ := separates_of_isGap hgap
    refine .separators [c] (by simpa using hsep) (ih h hline.2 ?_ (by simpa using hrest))
    rw [Pos.behind_append (by simpa using hline.1), hpos]
    simp [hunit]
  | case3 pos cs =>
    cases h
    rw [List.mem_cons, not_or] at hline
    exact .comment hline.2 hends hrest
  | case4 => cases h
  | case5 pos c cs hgap hc t hcut ih =>
    obtain ⟨ts', hts, heq⟩ := bind_eq_ok.mp h
    cases heq
    have hof := cut_of hcut
    rw [hof.split] at hline hrest ⊢
    rw [List.mem_append, not_or] at hline
    rw [List.append_assoc]
    refine .word hof.ne_nil (hof.spelled pos) hpos (ih hts hline.2 ?_ (by simpa using hrest))
    rw [Pos.behind_append hline.1, hpos]

end Token

namespace Layout

/-- What a margin skips separates words, and one unit each. -/
theorem exists_skipped (cs : List Char) :
    ∃ skipped, cs = skipped ++ (margin cs).code ∧ (∀ c ∈ skipped, Token.isGap c = true) ∧
      skipped.length = (margin cs).skipped := by
  have hsplit := List.takeWhile_append_dropWhile (p := isSpace) (l := cs)
  have hgap : ∀ c ∈ cs.takeWhile isSpace, Token.isGap c = true := by
    intro c hc
    have := List.mem_takeWhile_imp hc
    unfold Token.isGap
    rw [Bool.or_eq_true]
    exact .inl this
  unfold margin
  dsimp only
  split
  · rename_i rest hdrop
    refine ⟨cs.takeWhile isSpace ++ ['\r'], ?_, ?_, by simp⟩
    · rw [hdrop] at hsplit
      simpa using hsplit.symm
    · rw [List.forall_mem_append]
      exact ⟨hgap, by simp [Token.isGap]⟩
  · exact ⟨cs.takeWhile isSpace, hsplit.symm, hgap, rfl⟩

/-- The tokens of a line that stand in its text are those of the code behind its margin. -/
theorem ofLine_code_tokens {l : Line} {blocks blocks' : Blocks} {ended : Bool} {ts : List Token}
    (h : Token.ofLine blocks l.number ended l.text = .ok (blocks', ts)) :
    Token.ofCode l.start (margin l.text).code = .ok (ts.filter Token.isCode) := by
  cases hcode : l.hasCode with
  | false =>
    rw [ofLine_blank hcode] at h
    cases h
    rw [Line.hasCode, Margin.isEmpty, Bool.not_eq_false'] at hcode
    split at hcode
    · rename_i hnil
      rw [hnil, Token.ofCode]
      rfl
    · rename_i c cs hcons
      rw [hcons, beq_iff_eq.mp hcode, Token.ofCode_comment]
      rfl
  | true =>
    obtain ⟨change, code, -, hread, rfl⟩ := (ofLine_eq_ok hcode).mp h
    have hlayout : (change.tokens l.start).filter Token.isCode = [] := by
      cases change <;> simp [Change.tokens]
    have hself : code.filter Token.isCode = code := by
      rw [List.filter_eq_self]
      intro t ht
      simp [Token.isCode, (Token.ofCode_mem hread t ht).1]
    have hclosed : (l.closed ended (change.tokens l.start ++ code)).filter Token.isCode = code := by
      unfold Line.closed
      split <;> simp [List.filter_append, hlayout, hself]
    rw [hread, hclosed]

end Layout

namespace Token

theorem ofLine_tiled {blocks blocks' : Layout.Blocks} {line : Int} {ended : Bool}
    {cs : List Char} {ts : List Token} (h : ofLine blocks line ended cs = .ok (blocks', ts))
    (hline : '\n' ∉ cs) {before rest : List Char} (hpos : Pos.behind before = ⟨line, 1⟩)
    (hends : Tiled.Ends rest) {us : List Token} (hrest : Tiled (before ++ cs) rest us) :
    Tiled before (cs ++ rest) (ts.filter isCode ++ us) := by
  have hcode := Layout.ofLine_code_tokens (l := ⟨line, cs⟩) h
  obtain ⟨skipped, hcs, hgap, hlength⟩ := Layout.exists_skipped cs
  have hwidth := width_of_isGap hgap
  rw [hcs, List.mem_append, not_or] at hline
  have hplace : Layout.Line.start ⟨line, cs⟩ = Pos.behind (before ++ skipped) := by
    rw [Pos.behind_append hline.1, hpos, hwidth, hlength]
    rfl
  have htiled : Tiled (before ++ skipped) ((Layout.margin cs).code ++ rest)
      (ts.filter isCode ++ us) := by
    refine ofCode_tiled hcode hline.2 hplace hends ?_
    rw [List.append_assoc, ← hcs]
    exact hrest
  have hseparators := Tiled.separators skipped
    (fun c hc => (separates_of_isGap (hgap c hc)).1) htiled
  rw [← List.append_assoc, ← hcs] at hseparators
  exact hseparators

theorem ofLines_tiled {blocks : Layout.Blocks} {line : Int} {ls : List (List Char)}
    {ts : List Token} (h : ofLines blocks line ls = .ok ts) (hlines : ∀ l ∈ ls, '\n' ∉ l)
    (before : List Char) (hpos : Pos.behind before = ⟨line, 1⟩) :
    Tiled before (['\n'].intercalate ls) (ts.filter Token.isCode) := by
  fun_induction ofLines blocks line ls generalizing ts before with
  | case1 =>
    cases h
    exact .done before
  | case2 blocks line cs =>
    obtain ⟨⟨blocks', tokens⟩, hline, heq⟩ := bind_eq_ok.mp h
    cases heq
    have hends : Tiled.Ends [] := by simp [Tiled.Ends]
    have htiled := ofLine_tiled hline (hlines cs List.mem_cons_self) hpos hends (.done _)
    simpa [List.filter_append] using htiled
  | case3 blocks line cs rest hne ih =>
    obtain ⟨⟨blocks', tokens⟩, hline, h⟩ := bind_eq_ok.mp h
    obtain ⟨ts', hrest, heq⟩ := bind_eq_ok.mp h
    cases heq
    rw [List.forall_mem_cons] at hlines
    have hplace : Pos.behind (before ++ cs ++ ['\n']) = ⟨line + 1, 1⟩ := by
      rw [Pos.behind_newline, Pos.behind_append hlines.1, hpos]
    have hbehind := Tiled.separators ['\n'] (by simp [Text.separates])
      (ih blocks' hrest hlines.2 _ hplace)
    rw [List.filter_append, List.intercalate_cons_of_ne_nil hne]
    simpa using ofLine_tiled hline hlines.1 hpos (by simp [Tiled.Ends]) hbehind

theorem intercalate_lines (cs : List Char) : ['\n'].intercalate (lines cs) = cs := by
  induction cs with
  | nil => rfl
  | cons c cs ih =>
    by_cases hc : c = '\n'
    · subst hc
      rw [lines_newline, List.intercalate_cons_of_ne_nil (lines_ne_nil cs), ih]
      rfl
    · obtain ⟨l, ls, hls⟩ := List.exists_cons_of_ne_nil (lines_ne_nil cs)
      rw [lines_cons hc hls]
      rw [hls] at ih
      cases ls with
      | nil => simpa using ih
      | cons l' ls =>
        rw [List.intercalate_cons_of_ne_nil (List.cons_ne_nil _ _)] at ih ⊢
        rw [← ih]
        rfl

/-- The tokens of a text that are not of layout sit in the text on words of theirs, and the words,
the comments and single separating characters are the whole text. -/
theorem ofSource_tiles {source : String} {ts : List Token} (h : ofSource source = .ok ts) :
    ∃ words comments, Tiles source.toList 0 (ts.filter isCode) words comments := by
  have htiled := ofLines_tiled h (fun l hl => newline_notMem_of_mem_lines hl) [] rfl
  rw [intercalate_lines] at htiled
  exact htiled

/-- Quotes in a string of the other quotes, a character of two units before a token, a comment and a
carriage return. -/
theorem ofSource_tiles_quotes :
    let source := "f:\n\tx<='\"😀'+1.5 # 2\r\ny"
    let code : List Token := [⟨.identifier, "f", ⟨1, 1⟩⟩, ⟨.colon, ":", ⟨1, 2⟩⟩,
      ⟨.identifier, "x", ⟨2, 2⟩⟩, ⟨.op, "<=", ⟨2, 3⟩⟩, ⟨.string, "\"😀", ⟨2, 5⟩⟩,
      ⟨.op, "+", ⟨2, 10⟩⟩, ⟨.float, "1.5", ⟨2, 11⟩⟩, ⟨.identifier, "y", ⟨3, 1⟩⟩]
    (ofSource source).map (·.filter isCode) = .ok code ∧
      ∃ words comments, Tiles source.toList 0 code words comments := by
  intro source code
  have hcode : (ofSource source).map (·.filter isCode) = .ok code := by decide +kernel
  cases hts : ofSource source with
  | error e =>
    rw [hts] at hcode
    cases hcode
  | ok ts =>
    rw [hts] at hcode
    obtain ⟨words, comments, htiles⟩ := ofSource_tiles hts
    have heq : ts.filter isCode = code := Except.ok.inj hcode
    exact ⟨hcode, words, comments, heq ▸ htiles⟩

end Token

end SceneScript
