import Mathlib.Data.List.Chain
import Mathlib.Data.List.TakeWhile
import SceneScript.Proofs.Token.Lines
import SceneScript.Proofs.Tree.Places

/-! Words and how they are printed in a line. A line is printed as words with a space before some of
them. Where a word has no space before it, either it is a punctuation mark or the word before is
one that nothing can be added to; so the words are read back one by one as they were printed. -/

namespace SceneScript.Print

/-- The words of a line. -/
inductive Word where
  | name (text : String)
  | int (digits : List Char)
  | float (whole part : List Char)
  | str (text : String)
  | sign (text : String)
  | lparen
  | rparen
  | comma
  | colon

/-- Whether the characters are one that may come first and others that may come later. -/
def isRun (first later : Char → Bool) : List Char → Bool
  | [] => false
  | c :: cs => first c && cs.all later

/-- Whether the characters are those of a name. -/
def isIdentifier : List Char → Bool := isRun Token.isNameStart Token.isNamePart

/-- Whether the characters are digits, and one at least. -/
def isNumeral : List Char → Bool := isRun Char.isDigit Char.isDigit

/-- The quote around a text: the double one, unless it occurs in the text. -/
def quoteOf (text : String) : Char := if '"' ∈ text.toList then '\'' else '"'

namespace Word

/-- The kind of the token that a word is read as. -/
def kind : Word → TokenKind
  | .name _ => .identifier
  | .int _ => .int
  | .float .. => .float
  | .str _ => .string
  | .sign _ => .op
  | .lparen => .lparen
  | .rparen => .rparen
  | .comma => .comma
  | .colon => .colon

/-- What a word is read as. -/
def lexeme : Word → List Char
  | .name text | .str text | .sign text => text.toList
  | .int digits => digits
  | .float whole part => whole ++ '.' :: part
  | .lparen => ['(']
  | .rparen => [')']
  | .comma => [',']
  | .colon => [':']

/-- How a word is printed. -/
def spelling : Word → List Char
  | .str text => quoteOf text :: text.toList ++ [quoteOf text]
  | w => w.lexeme

/-- The token that a word is read as, at no place in particular. -/
def token (w : Word) : Token := ⟨w.kind, String.ofList w.lexeme, ⟨0, 0⟩⟩

/-- Whether the word is a punctuation mark. -/
def isMark : Word → Bool
  | .lparen | .rparen | .comma | .colon => true
  | _ => false

/-- Whether any word may follow without a space. -/
def isOpen : Word → Bool
  | .lparen => true
  | .sign text => text == "-"
  | _ => false

/-- The word has the characters its kind asks for. -/
def Proper : Word → Prop
  | .name text => isIdentifier text.toList = true
  | .int digits => isNumeral digits = true
  | .float whole part => isNumeral whole = true ∧ isNumeral part = true
  | .str text => '\n' ∉ text.toList ∧ ¬ ('"' ∈ text.toList ∧ '\'' ∈ text.toList)
  | .sign text => text ∈ Token.longOps ∨ text ∈ Token.shortOps
  | .lparen | .rparen | .comma | .colon => True

instance : (w : Word) → Decidable w.Proper
  | .name text => inferInstanceAs (Decidable (isIdentifier text.toList = true))
  | .int digits => inferInstanceAs (Decidable (isNumeral digits = true))
  | .float whole part =>
    inferInstanceAs (Decidable (isNumeral whole = true ∧ isNumeral part = true))
  | .str text => inferInstanceAs (Decidable ('\n' ∉ text.toList ∧
      ¬ ('"' ∈ text.toList ∧ '\'' ∈ text.toList)))
  | .sign text => inferInstanceAs (Decidable (text ∈ Token.longOps ∨ text ∈ Token.shortOps))
  | .lparen | .rparen | .comma | .colon => isTrue trivial

end Word

/-- Nothing at the front of the text can be added to a word before it. -/
def Stops (cs : List Char) : Prop :=
  ∀ c, cs.head? = some c → Token.isNamePart c = false ∧ c ≠ '.' ∧ c ≠ '='

theorem stops_nil : Stops [] := nofun

/-! One word. -/

theorem takeWhile_append {p : Char → Bool} {as rest : List Char} (has : ∀ c ∈ as, p c = true)
    (hrest : ∀ c, rest.head? = some c → p c = false) :
    (as ++ rest).takeWhile p = as ∧ (as ++ rest).dropWhile p = rest := by
  rw [List.takeWhile_append_of_pos has, List.dropWhile_append_of_pos has]
  cases rest with
  | nil => simp
  | cons c rest =>
    have hc := hrest c rfl
    simp [hc]

/-- The characters that are no part of a name and mean something to the lexer. -/
def specials : List Char :=
  ['(', ')', ',', ':', '"', '\'', '=', '!', '<', '>', '+', '-', '*', '/', '%', '#', ' ', '\t', '\r']

theorem not_mem_specials {c : Char} (h : Token.isNamePart c = true) : c ∉ specials := by
  have hall : specials.all (!Token.isNamePart ·) = true := by decide
  intro hc
  have hnot := List.all_eq_true.mp hall c hc
  rw [h] at hnot
  cases hnot

theorem head_mem_specials {op : String} (h : op ∈ Token.longOps ++ Token.shortOps) {c : Char}
    {cs : List Char} (hop : op.toList = c :: cs) : c ∈ specials := by
  have hall : ∀ op ∈ Token.longOps ++ Token.shortOps, op.toList.headD 'a' ∈ specials := by decide
  have hc := hall op h
  rw [hop] at hc
  exact hc

theorem cutOp?_eq_none {c : Char} (h : c ∉ specials) (cs : List Char) :
    Token.cutOp? c cs = none := by
  have hshort : String.singleton c ∉ Token.shortOps := fun hmem =>
    h (head_mem_specials (List.mem_append_right _ hmem) (String.toList_singleton c))
  have hlong : ∀ d, String.ofList [c, d] ∉ Token.longOps := fun d hmem =>
    h (head_mem_specials (List.mem_append_left _ hmem) String.toList_ofList)
  unfold Token.cutOp?
  cases cs with
  | nil => exact if_neg hshort
  | cons d cs =>
    dsimp only
    rw [if_neg (hlong d), if_neg hshort]

/-- A character that can be part of a name begins a number or a name. -/
theorem cut_of_isNamePart {c : Char} (h : Token.isNamePart c = true) (cs : List Char) :
    Token.cut c cs =
      if c.isDigit then .ok (Token.cutNumber c cs)
      else if Token.isNameStart c then .ok (Token.cutName c cs)
      else .error (.unexpected c) := by
  have hspecial := not_mem_specials h
  have hmark : Token.punctuation? c = none := by
    unfold Token.punctuation?
    split
    iterate 4 exact absurd (by decide) hspecial
    rfl
  have hquote : ¬ (c = '"' ∨ c = '\'') := by
    rintro (rfl | rfl) <;> exact hspecial (by decide)
  unfold Token.cut
  rw [hmark]
  dsimp only
  rw [if_neg hquote, cutOp?_eq_none hspecial]

/-- The front of `rest` behind the word is where the lexer cuts. -/
structure Cuts (w : Word) (rest : List Char) (c : Char) (cs : List Char) : Prop where
  spelling : w.spelling = c :: cs
  gap : Token.isGap c = false
  comment : c ≠ '#'
  cut : Token.cut c (cs ++ rest) = .ok ⟨w.kind, w.lexeme, w.spelling, rest⟩

theorem isNamePart_of_isNameStart {c : Char} (h : Token.isNameStart c = true) :
    Token.isNamePart c = true := by
  unfold Token.isNameStart at h
  unfold Token.isNamePart Char.isAlphanum
  simp only [Bool.or_eq_true] at h ⊢
  exact h.imp_left .inl

theorem isNamePart_of_isDigit {c : Char} (h : c.isDigit = true) : Token.isNamePart c = true := by
  unfold Token.isNamePart Char.isAlphanum
  simp [h]

theorem not_isDigit_of_isNameStart {c : Char} (h : Token.isNameStart c = true) :
    c.isDigit = false := by
  unfold Token.isNameStart Char.isAlpha Char.isUpper Char.isLower at h
  unfold Char.isDigit
  simp only [Bool.or_eq_true, Bool.and_eq_true, Bool.and_eq_false_iff, decide_eq_true_eq,
    decide_eq_false_iff_not, beq_iff_eq, ge_iff_le, UInt32.le_iff_toNat_le] at h ⊢
  rcases h with h | rfl
  · have hbounds :
        (65 ≤ c.val.toNat ∧ c.val.toNat ≤ 90) ∨ (97 ≤ c.val.toNat ∧ c.val.toNat ≤ 122) := h
    have hnine : ('9' : Char).val.toNat = 57 := rfl
    omega
  · decide

theorem not_isDigit_of_not_isNamePart {c : Char} (h : Token.isNamePart c = false) :
    c.isDigit = false := by
  cases hc : c.isDigit with
  | false => rfl
  | true =>
    rw [isNamePart_of_isDigit hc] at h
    cases h

theorem cuts_of_isNamePart {c : Char} (h : Token.isNamePart c = true) :
    Token.isGap c = false ∧ c ≠ '#' := by
  have hspecial := not_mem_specials h
  simp [specials] at hspecial
  simp [Token.isGap, hspecial]

theorem exists_of_isRun {first later : Char → Bool} {text : List Char}
    (h : isRun first later text = true) :
    ∃ c cs, text = c :: cs ∧ first c = true ∧ ∀ d ∈ cs, later d = true := by
  cases text with
  | nil => cases h
  | cons c cs =>
    rw [isRun, Bool.and_eq_true, List.all_eq_true] at h
    exact ⟨c, cs, rfl, h⟩

theorem isNumeral_of_digits {ds : List Char} (hne : ds ≠ []) (h : ∀ d ∈ ds, d.isDigit = true) :
    isNumeral ds = true := by
  obtain ⟨c, cs, rfl⟩ := List.exists_cons_of_ne_nil hne
  exact List.all_eq_true.mpr h

theorem cuts_name {text : String} {rest : List Char} (hw : Word.Proper (.name text))
    (hrest : Stops rest) : ∃ c cs, Cuts (.name text) rest c cs := by
  obtain ⟨c, cs, htext, hc, hcs⟩ := exists_of_isRun hw
  have hpart := isNamePart_of_isNameStart hc
  obtain ⟨htake, hdrop⟩ := takeWhile_append hcs fun d hd => (hrest d hd).1
  obtain ⟨hgap, hcomment⟩ := cuts_of_isNamePart hpart
  refine ⟨c, cs, htext, hgap, hcomment, ?_⟩
  rw [cut_of_isNamePart hpart, if_neg (by simp [not_isDigit_of_isNameStart hc]), if_pos hc]
  unfold Token.cutName
  rw [htake, hdrop]
  show Except.ok (Token.Cut.mk .identifier (c :: cs) (c :: cs) rest) =
    .ok ⟨_, text.toList, text.toList, rest⟩
  rw [htext]
  rfl

theorem cuts_int {digits rest : List Char} (hw : Word.Proper (.int digits)) (hrest : Stops rest) :
    ∃ c cs, Cuts (.int digits) rest c cs := by
  obtain ⟨c, cs, rfl, hc, hcs⟩ := exists_of_isRun hw
  have hpart := isNamePart_of_isDigit hc
  obtain ⟨htake, hdrop⟩ := takeWhile_append hcs
    fun d hd => not_isDigit_of_not_isNamePart (hrest d hd).1
  obtain ⟨hgap, hcomment⟩ := cuts_of_isNamePart hpart
  refine ⟨c, cs, rfl, hgap, hcomment, ?_⟩
  rw [cut_of_isNamePart hpart, if_pos hc]
  unfold Token.cutNumber
  rw [htake, hdrop]
  dsimp only
  split
  · exact absurd rfl (hrest '.' rfl).2.1
  · rfl

theorem cuts_float {whole part rest : List Char} (hw : Word.Proper (.float whole part))
    (hrest : Stops rest) : ∃ c cs, Cuts (.float whole part) rest c cs := by
  obtain ⟨c, cs, rfl, hc, hcs⟩ := exists_of_isRun hw.1
  obtain ⟨d, ds, rfl, hd, hds⟩ := exists_of_isRun hw.2
  have hname := isNamePart_of_isDigit hc
  have hpoint : ∀ e, ('.' :: d :: (ds ++ rest)).head? = some e → e.isDigit = false := by
    intro e he
    cases he
    decide
  obtain ⟨htake, hdrop⟩ := takeWhile_append hcs hpoint
  obtain ⟨htake', hdrop'⟩ := takeWhile_append hds
    fun d hd => not_isDigit_of_not_isNamePart (hrest d hd).1
  obtain ⟨hgap, hcomment⟩ := cuts_of_isNamePart hname
  refine ⟨c, cs ++ '.' :: d :: ds, rfl, hgap, hcomment, ?_⟩
  rw [cut_of_isNamePart hname, if_pos hc, List.append_assoc, List.cons_append,
    List.cons_append]
  unfold Token.cutNumber
  rw [htake, hdrop]
  show Except.ok (if d.isDigit then Token.Cut.plain .float
    (c :: cs ++ '.' :: d :: (ds ++ rest).takeWhile Char.isDigit)
    ((ds ++ rest).dropWhile Char.isDigit) else _) = _
  rw [if_pos hd, htake', hdrop']
  rfl

/-- A text between two quotes that do not occur in it is cut off as a string. -/
theorem cut_quoted {q : Char} (hq : q = '"' ∨ q = '\'') {text : List Char} (hnot : q ∉ text)
    (rest : List Char) :
    Token.cut q (text ++ [q] ++ rest) = .ok ⟨.string, text, q :: text ++ [q], rest⟩ := by
  have hbody : ∀ c ∈ text, (c != q) = true := by
    intro c hc
    rw [bne_iff_ne]
    rintro rfl
    exact hnot hc
  have hend : ∀ c, (q :: rest).head? = some c → (c != q) = false := by
    intro c hc
    cases hc
    exact bne_self_eq_false _
  obtain ⟨htake, hdrop⟩ := takeWhile_append hbody hend
  have hmark : Token.punctuation? q = none := by rcases hq with rfl | rfl <;> rfl
  unfold Token.cut
  rw [hmark]
  dsimp only
  rw [if_pos hq]
  unfold Token.cutString
  rw [List.append_assoc, List.singleton_append, htake, hdrop]

theorem cuts_str {text : String} {rest : List Char} (hw : Word.Proper (.str text)) :
    ∃ c cs, Cuts (.str text) rest c cs := by
  have hquote : quoteOf text = '"' ∨ quoteOf text = '\'' := by
    unfold quoteOf
    split
    · exact .inr rfl
    · exact .inl rfl
  have hnot : quoteOf text ∉ text.toList := by
    unfold quoteOf
    split
    · rename_i hdouble
      exact fun hsingle => hw.2 ⟨hdouble, hsingle⟩
    · rename_i hdouble
      exact hdouble
  refine ⟨quoteOf text, text.toList ++ [quoteOf text], rfl, ?_, ?_, cut_quoted hquote hnot rest⟩
  · rcases hquote with hq | hq <;> rw [hq] <;> rfl
  · rcases hquote with hq | hq <;> rw [hq] <;> decide

theorem not_mem_longOps (c : Char) {d : Char} (h : d ≠ '=') :
    String.ofList [c, d] ∉ Token.longOps := by
  have hall : ∀ op ∈ Token.longOps, op.toList.tail = ['='] := by decide
  intro hmem
  have htail := hall _ hmem
  rw [String.toList_ofList] at htail
  cases htail
  exact h rfl

/-- No longer operator begins where a word stops, and none with a minus. -/
theorem no_longOp {c : Char} {rest : List Char} (h : c = '-' ∨ Stops rest) :
    ∀ d, rest.head? = some d → String.ofList [c, d] ∉ Token.longOps := by
  intro d hd
  rcases h with rfl | hstops
  · have hall : ∀ op ∈ Token.longOps, op.toList.head? ≠ some '-' := by decide
    exact fun hmem => hall _ hmem (by rw [String.toList_ofList]; rfl)
  · exact not_mem_longOps c (hstops d hd).2.2

/-- An operator sign of one character is cut off where no longer one begins. -/
theorem cut_short {c : Char} {rest : List Char} (hmark : Token.punctuation? c = none)
    (hquote : ¬ (c = '"' ∨ c = '\'')) (hc : String.singleton c ∈ Token.shortOps)
    (hrest : ∀ d, rest.head? = some d → String.ofList [c, d] ∉ Token.longOps) :
    Token.cut c rest = .ok (.plain .op [c] rest) := by
  have hop : Token.cutOp? c rest = some (.plain .op [c] rest) := by
    unfold Token.cutOp?
    cases rest with
    | nil => exact if_pos hc
    | cons d rest =>
      dsimp only
      rw [if_neg (hrest d rfl), if_pos hc]
  unfold Token.cut
  rw [hmark]
  dsimp only
  rw [if_neg hquote, hop]

theorem cuts_sign {text : String} {rest : List Char} (hw : Word.Proper (.sign text))
    (hrest : text = "-" ∨ Stops rest) : ∃ c cs, Cuts (.sign text) rest c cs := by
  rcases hw with hlong | hshort
  · simp only [Token.longOps, List.mem_cons, List.not_mem_nil, or_false] at hlong
    rcases hlong with rfl | rfl | rfl | rfl
    all_goals exact ⟨_, _, rfl, rfl, by decide, rfl⟩
  · simp only [Token.shortOps, List.mem_cons, List.not_mem_nil, or_false] at hshort
    rcases hshort with rfl | rfl | rfl | rfl | rfl | rfl | rfl | rfl
    all_goals exact ⟨_, _, rfl, rfl, by decide,
      cut_short rfl (by decide) (by decide) (no_longOp (hrest.imp_left (by decide)))⟩

/-- A proper word is cut off where it stops. -/
theorem exists_cuts {w : Word} {rest : List Char} (hw : w.Proper)
    (hrest : w.isOpen = true ∨ Stops rest) : ∃ c cs, Cuts w rest c cs := by
  cases w with
  | name text => exact cuts_name hw (hrest.resolve_left nofun)
  | int digits => exact cuts_int hw (hrest.resolve_left nofun)
  | float whole part => exact cuts_float hw (hrest.resolve_left nofun)
  | str text => exact cuts_str hw
  | sign text => exact cuts_sign hw (hrest.imp_left beq_iff_eq.mp)
  | lparen | rparen | comma | colon => exact ⟨_, _, rfl, rfl, by decide, rfl⟩

/-! A line of words. -/

/-- A word of a line and whether a space stands before it. -/
structure Piece where
  spaced : Bool
  word : Word

/-- How a piece is printed. -/
def Piece.text (p : Piece) : List Char := (if p.spaced then [' '] else []) ++ p.word.spelling

/-- How pieces are printed. -/
def text (ps : List Piece) : List Char := ps.flatMap Piece.text

/-- The tokens that pieces are read as. -/
def tokens (ps : List Piece) : List Token := ps.map (·.word.token)

/-- The second piece can follow the first. -/
def Piece.Before (p q : Piece) : Prop :=
  q.spaced = true ∨ p.word.isOpen = true ∨ q.word.isMark = true

theorem stops_of_before {p q : Piece} (ps : List Piece) (h : p.Before q) :
    p.word.isOpen = true ∨ Stops (text (q :: ps)) := by
  obtain ⟨spaced, word⟩ := q
  rcases h with rfl | hopen | hmark
  · refine .inr fun c hc => ?_
    cases hc
    decide
  · exact .inl hopen
  · refine .inr fun c hc => ?_
    cases spaced with
    | true =>
      cases hc
      decide
    | false =>
      cases word with
      | lparen | rparen | comma | colon =>
        cases hc
        decide
      | _ => cases hmark

/-- The pieces can stand in a line as they are. -/
structure Sound (ps : List Piece) : Prop where
  proper : ∀ p ∈ ps, p.word.Proper
  chain : ps.IsChain Piece.Before

theorem Sound.singleton {p : Piece} (h : p.word.Proper) : Sound [p] :=
  ⟨by simpa using h, List.isChain_singleton p⟩

theorem Sound.cons {p q : Piece} {qs : List Piece} (hp : p.word.Proper) (h : Sound (q :: qs))
    (hbefore : p.Before q) : Sound (p :: q :: qs) :=
  ⟨List.forall_mem_cons.mpr ⟨hp, h.proper⟩, List.isChain_cons_cons.mpr ⟨hbefore, h.chain⟩⟩

theorem Sound.cons_open {p : Piece} {ps : List Piece} (hp : p.word.Proper)
    (hopen : p.word.isOpen = true) (h : Sound ps) : Sound (p :: ps) := by
  cases ps with
  | nil => exact .singleton hp
  | cons q qs => exact .cons hp h (.inr (.inl hopen))

theorem notMem_of_isRun {first later : Char → Bool} {d : Char} (hfirst : first d = false)
    (hlater : later d = false) {text : List Char} (h : isRun first later text = true) :
    d ∉ text := by
  obtain ⟨c, cs, rfl, hc, hcs⟩ := exists_of_isRun h
  rw [List.mem_cons]
  rintro (rfl | hmem)
  · exact Bool.false_ne_true (hfirst.symm.trans hc)
  · exact Bool.false_ne_true (hlater.symm.trans (hcs d hmem))

/-- Words have no newline in them. -/
theorem newline_notMem_spelling {w : Word} (h : w.Proper) : '\n' ∉ w.spelling := by
  cases w with
  | name text => exact notMem_of_isRun rfl rfl h
  | int digits => exact notMem_of_isRun rfl rfl h
  | float whole part =>
    have hwhole : '\n' ∉ whole := notMem_of_isRun rfl rfl h.1
    have hpart : '\n' ∉ part := notMem_of_isRun rfl rfl h.2
    simp [Word.spelling, Word.lexeme, hwhole, hpart]
  | str text =>
    have hquote : '\n' ≠ quoteOf text := by
      unfold quoteOf
      split <;> decide
    simp [Word.spelling, hquote, h.1]
  | sign text =>
    have hnone : ∀ op ∈ Token.longOps ++ Token.shortOps, '\n' ∉ op.toList := by decide
    exact hnone text (List.mem_append.mpr h)
  | lparen | rparen | comma | colon => decide

/-- Pieces are followed by others that begin with a space or a punctuation mark. -/
theorem Sound.append {ps qs : List Piece} {q : Piece} (h : Sound ps) (h' : Sound (q :: qs))
    (hq : q.spaced = true ∨ q.word.isMark = true) : Sound (ps ++ q :: qs) := by
  refine ⟨List.forall_mem_append.mpr ⟨h.proper, h'.proper⟩,
    List.isChain_append.mpr ⟨h.chain, h'.chain, ?_⟩⟩
  intro p _ r hr
  cases hr
  exact hq.imp_right .inr

theorem newline_notMem_text {ps : List Piece} (h : Sound ps) : '\n' ∉ text ps := by
  intro hmem
  obtain ⟨p, hp, hmem⟩ := List.mem_flatMap.mp hmem
  rcases List.mem_append.mp hmem with hspace | hword
  · split at hspace
    · exact absurd hspace (by decide)
    · cases hspace
  · exact newline_notMem_spelling (h.proper p hp) hword

/-- Pieces are read back as they were printed. -/
theorem ofCode_text {ps : List Piece} (h : Sound ps) (pos : Pos) :
    ∃ ts, Token.ofCode pos (text ps) = .ok ts ∧ ts.map (Token.mapPos Pos.forget) = tokens ps := by
  induction ps generalizing pos with
  | nil => exact ⟨[], by rw [text, List.flatMap_nil, Token.ofCode], rfl⟩
  | cons p ps ih =>
    obtain ⟨hproper, hchain⟩ := h
    rw [List.forall_mem_cons] at hproper
    have hrest : p.word.isOpen = true ∨ Stops (text ps) := by
      cases ps with
      | nil => exact .inr stops_nil
      | cons q ps => exact stops_of_before ps (List.isChain_cons_cons.mp hchain).1
    obtain ⟨c, cs, hcuts⟩ := exists_cuts hproper.1 hrest
    have hword : ∀ pos, ∃ ts, Token.ofCode pos (p.word.spelling ++ text ps) = .ok ts ∧
        ts.map (Token.mapPos Pos.forget) = tokens (p :: ps) := by
      intro pos
      rw [hcuts.spelling, List.cons_append, Token.ofCode_cut hcuts.gap hcuts.comment hcuts.cut]
      obtain ⟨ts, hts, htokens⟩ := ih ⟨hproper.2, hchain.tail⟩ _
      exact ⟨_, bind_eq_ok.mpr ⟨ts, hts, rfl⟩, congrArg (p.word.token :: ·) htokens⟩
    have htext : text (p :: ps) =
        (if p.spaced then [' '] else []) ++ (p.word.spelling ++ text ps) := by
      simp [text, Piece.text]
    rw [htext]
    cases p.spaced with
    | false => exact hword pos
    | true =>
      show ∃ ts, Token.ofCode pos (' ' :: (p.word.spelling ++ text ps)) = .ok ts ∧ _
      rw [Token.ofCode_gap (by decide)]
      exact hword _

end SceneScript.Print
