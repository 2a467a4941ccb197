import SceneScript.Proofs.Grammar.Segment
import SceneScript.Proofs.Number.Naturals
import SceneScript.Proofs.Print.Words

/-! Printed expressions. Parentheses stand only where an operand would be read otherwise: around a
left operand whose operator binds less tightly, around a right one whose operator does not bind more
tightly, and around a binary operand of a sign. What is printed is read back as the expression, up
to places. -/

namespace SceneScript

namespace Print

/-- The words with a meaning of their own. -/
def keywords : List String :=
  ["var", "let", "if", "elif", "else", "for", "in", "range", "proc", "return", "true", "false",
    "not", "and", "or"]

/-- The text is a name and no keyword. -/
def IsName (text : String) : Prop := Word.Proper (.name text) ∧ text ∉ keywords
deriving Decidable

/-- The digits before and behind a point are read as the number. -/
def Spells (digits : List Char × List Char) (v : Number) : Prop :=
  Word.Proper (.float digits.1 digits.2) ∧
    Number.read (String.ofList (digits.1 ++ '.' :: digits.2)) = v

/-- An operator as a word. -/
def operatorWord (op : BinaryOp) : Word :=
  if op.isWord then .name op.symbol else .sign op.symbol

/-- Whether the expression is binary. -/
def isBinary : Expr → Bool
  | .binary .. => true
  | _ => false

/-- Whether the expression is binary with an operator that binds less tightly than `level`. -/
def looser (level : Nat) : Expr → Bool
  | .binary _ op _ _ => decide (op.precedence < level)
  | _ => false

/-- What is printed, in parentheses if they are needed. -/
def enclose (needed : Bool) (print : Bool → List Piece) (spaced : Bool) : List Piece :=
  if needed then ⟨spaced, .lparen⟩ :: (print false ++ [⟨false, .rparen⟩]) else print spaced

end Print

open Print

mutual

/-- An expression that can be printed: its names are no keywords, its whole literals are natural
numbers up to the limit, its fractional ones are read from the digits chosen for them, and its texts
keep to a line and lack one of the quotes. -/
def Expr.Printable (spell : Number → List Char × List Char) : Expr → Prop
  | .int _ v => ∃ n ≤ Number.safeLimit, v = .ofNat n
  | .float _ v => Spells (spell v) v
  | .str _ text => Word.Proper (.str text)
  | .bool .. => True
  | .ident _ name => IsName name
  | .unary _ _ e => e.Printable spell
  | .binary _ _ l r => l.Printable spell ∧ r.Printable spell
  | .call _ name args => IsName name ∧ Expr.PrintableAll spell args

/-- Expressions that can be printed. -/
def Expr.PrintableAll (spell : Number → List Char × List Char) : List Expr → Prop
  | [] => True
  | e :: es => e.Printable spell ∧ Expr.PrintableAll spell es

end

mutual

/-- An expression in print, with a space before it or without. -/
def Expr.pieces (spell : Number → List Char × List Char) : Expr → Bool → List Piece
  | .int _ v, spaced => [⟨spaced, .int (Number.digitsOf (v.integer?.getD 0).toNat)⟩]
  | .float _ v, spaced => [⟨spaced, .float (spell v).1 (spell v).2⟩]
  | .str _ text, spaced => [⟨spaced, .str text⟩]
  | .bool _ b, spaced => [⟨spaced, .name (if b then "true" else "false")⟩]
  | .ident _ name, spaced => [⟨spaced, .name name⟩]
  | .unary _ .neg e, spaced =>
    ⟨spaced, .sign "-"⟩ :: enclose (isBinary e) (fun b => e.pieces spell b) false
  | .unary _ .not e, spaced =>
    ⟨spaced, .name "not"⟩ :: enclose (isBinary e) (fun b => e.pieces spell b) true
  | .binary _ op l r, spaced =>
    enclose (looser op.precedence l) (fun b => l.pieces spell b) spaced ++
      ⟨true, operatorWord op⟩ ::
        enclose (looser (op.precedence + 1) r) (fun b => r.pieces spell b) true
  | .call _ name args, spaced =>
    ⟨spaced, .name name⟩ :: ⟨false, .lparen⟩ :: Expr.argumentPieces spell args false

/-- The arguments of a call up to the closing parenthesis. -/
def Expr.argumentPieces (spell : Number → List Char × List Char) : List Expr → Bool → List Piece
  | [], _ => [⟨false, .rparen⟩]
  | [e], spaced => e.pieces spell spaced ++ [⟨false, .rparen⟩]
  | e :: es, spaced =>
    e.pieces spell spaced ++ ⟨false, .comma⟩ :: Expr.argumentPieces spell es true

end

namespace Print

/-! How printed expressions stand in a line. -/

/-- The words that a statement or one of its branches begins with. -/
def leadingWords : List String := ["var", "let", "if", "elif", "else", "for", "proc", "return"]

/-- The word begins no statement and assigns nothing. -/
def Word.Ordinary (w : Word) : Prop :=
  (∀ s ∈ leadingWords, w.token.isWord s = false) ∧ w.token.isOp "=" = false
deriving Decidable

/-- What is printed begins with a space just when it is asked to, and it can stand in a line. -/
structure Fits (print : Bool → List Piece) : Prop where
  head : ∀ spaced, ∃ w rest, print spaced = ⟨spaced, w⟩ :: rest
  sound : ∀ spaced, Sound (print spaced)
  ordinary : ∀ spaced, ∀ p ∈ print spaced, p.word.Ordinary

theorem IsName.ordinary {text : String} (h : IsName text) : Word.Ordinary (.name text) := by
  refine ⟨fun s hs => ?_, rfl⟩
  have hne : text ≠ s := by
    rintro rfl
    have hall : ∀ s ∈ leadingWords, s ∈ keywords := by decide
    exact h.2 (hall text hs)
  simpa [Token.isWord, Word.token, Word.lexeme, Word.kind, String.ofList_toList] using hne

theorem operatorWord_proper (op : BinaryOp) : (operatorWord op).Proper := by
  cases op with
  | logic op => cases op <;> decide
  | compare op => cases op <;> decide
  | arith op => cases op <;> decide

theorem operatorWord_ordinary (op : BinaryOp) : (operatorWord op).Ordinary := by
  cases op with
  | logic op => cases op <;> decide
  | compare op => cases op <;> decide
  | arith op => cases op <;> decide

namespace Fits

variable {print : Bool → List Piece} {w : Word}

theorem word (hw : w.Proper) (ho : w.Ordinary) : Fits fun spaced => [⟨spaced, w⟩] :=
  ⟨fun spaced => ⟨w, [], rfl⟩, fun spaced => .singleton hw, fun _ => by simpa using ho⟩

theorem sound_cons (h : Fits print) {p : Piece} (hp : p.word.Proper) (gap : Bool)
    (hgap : gap = true ∨ p.word.isOpen = true) : Sound (p :: print gap) := by
  have hsound := h.sound gap
  obtain ⟨v, rest, heq⟩ := h.head gap
  rw [heq] at hsound ⊢
  exact .cons hp hsound (hgap.imp_right .inl)

/-- A word and what follows it, with a space between them or behind a word that needs none. -/
theorem cons (h : Fits print) (hw : w.Proper) (ho : w.Ordinary) (gap : Bool)
    (hgap : gap = true ∨ w.isOpen = true) : Fits fun spaced => ⟨spaced, w⟩ :: print gap :=
  ⟨fun _ => ⟨w, print gap, rfl⟩, fun _ => h.sound_cons hw gap hgap,
    fun _ => List.forall_mem_cons.mpr ⟨ho, h.ordinary gap⟩⟩

/-- What is printed and more behind it that begins with a space or a punctuation mark. -/
theorem append (h : Fits print) {q : Piece} {qs : List Piece} (hsound : Sound (q :: qs))
    (ho : ∀ p ∈ q :: qs, p.word.Ordinary) (hq : q.spaced = true ∨ q.word.isMark = true) :
    Fits fun spaced => print spaced ++ q :: qs := by
  refine ⟨fun spaced => ?_, fun spaced => (h.sound spaced).append hsound hq,
    fun spaced => List.forall_mem_append.mpr ⟨h.ordinary spaced, ho⟩⟩
  obtain ⟨v, rest, heq⟩ := h.head spaced
  exact ⟨v, rest ++ q :: qs, by rw [heq]; rfl⟩

theorem enclose (h : Fits print) (needed : Bool) : Fits (enclose needed print) := by
  cases needed with
  | false => exact h
  | true =>
    have hinside := h.append (q := ⟨false, .rparen⟩) (.singleton (by decide)) (by decide) (.inr rfl)
    exact hinside.cons (w := .lparen) (by decide) (by decide) false (.inr rfl)

end Fits

/-! How printed expressions are read. -/

open Grammar (Reads binaryOp? peek lead)

/-- The tokens behind an expression of the given level do not go on with it. -/
structure Closed (level : Nat) (rest : List Token) : Prop where
  paren : (peek rest).kind ≠ .lparen
  op : ∀ op, binaryOp? (peek rest) = some op → op.precedence ≤ level

/-- What is printed is read as the expression: as an operand unless it is binary, and as the first
part of an expression whose operators bind less tightly than its own. -/
structure ReadAs (print : Bool → List Piece) (e : Expr) : Prop where
  operand : isBinary e = false → ∀ spaced rest, (peek rest).kind ≠ .lparen →
    Reads (.operand e) (tokens (print spaced) ++ rest) rest
  expr : ∀ spaced level n x rest rest', level < n → looser n e = false → Closed n rest →
    Reads (.operators level e x) rest rest' →
    Reads (.expr level x) (tokens (print spaced) ++ rest) rest'

theorem Closed.of_kind {level : Nat} {t : Token} (hparen : t.kind ≠ .lparen) (hop : t.kind ≠ .op)
    (hname : t.kind ≠ .identifier) (rest : List Token) : Closed level (t :: rest) := by
  refine ⟨hparen, fun op h => ?_⟩
  rw [peek, Grammar.binaryOp?_eq_none hop hname] at h
  cases h

@[simp] theorem tokens_nil : tokens [] = [] := rfl

@[simp] theorem tokens_cons (p : Piece) (ps : List Piece) :
    tokens (p :: ps) = p.word.token :: tokens ps := rfl

@[simp] theorem tokens_append (ps qs : List Piece) : tokens (ps ++ qs) = tokens ps ++ tokens qs :=
  List.map_append

theorem binaryOp?_operatorWord (op : BinaryOp) : binaryOp? (operatorWord op).token = some op := by
  cases op with
  | logic op => cases op <;> rfl
  | compare op => cases op <;> rfl
  | arith op => cases op <;> rfl

theorem precedence_pos (op : BinaryOp) : 0 < op.precedence := by
  cases op with
  | logic op => cases op <;> decide
  | compare op => cases op <;> decide
  | arith op => cases op <;> decide

namespace ReadAs

variable {print : Bool → List Piece} {e : Expr}

theorem of_operand (h : ∀ spaced rest, (peek rest).kind ≠ .lparen →
      Reads (.operand e) (tokens (print spaced) ++ rest) rest) : ReadAs print e :=
  ⟨fun _ => h, fun spaced _ _ _ rest _ _ _ hclosed hrest =>
    .expr (h spaced rest hclosed.paren) hrest⟩

/-- A whole expression. -/
theorem whole (h : ReadAs print e) (spaced : Bool) {rest : List Token} (hrest : Closed 0 rest) :
    Reads (.expr 0 e) (tokens (print spaced) ++ rest) rest := by
  have hlooser : looser 1 e = false := by
    cases e with
    | binary pos op l r => exact decide_eq_false (Nat.not_lt.mpr (precedence_pos op))
    | _ => rfl
  refine h.expr spaced 0 1 e rest rest Nat.zero_lt_one hlooser ⟨hrest.paren, fun op hop => ?_⟩
    (.stop hrest.op)
  exact Nat.le_succ_of_le (hrest.op op hop)

/-- In parentheses every expression is an operand. -/
theorem parens (h : ReadAs print e) (spaced : Bool) (rest : List Token) :
    Reads (.operand e) (tokens (enclose true print spaced) ++ rest) rest := by
  have hinside := h.whole false (.of_kind (t := Word.rparen.token) nofun nofun nofun rest)
  have htokens : tokens (enclose true print spaced) ++ rest =
      Word.lparen.token :: (tokens (print false) ++ Word.rparen.token :: rest) := by
    simp [enclose]
  rw [htokens]
  exact .paren rfl hinside rfl

/-- As an operand of an operator of level `n`, in parentheses if its own binds less tightly. -/
theorem enclosed (h : ReadAs print e) (spaced : Bool) {level n : Nat} {x : Expr}
    {rest rest' : List Token} (hlevel : level < n) (hrest : Closed n rest)
    (hbehind : Reads (.operators level e x) rest rest') :
    Reads (.expr level x) (tokens (enclose (looser n e) print spaced) ++ rest) rest' := by
  cases hlooser : looser n e with
  | true => exact .expr (h.parens spaced rest) hbehind
  | false => exact h.expr spaced level n x rest rest' hlevel hlooser hrest hbehind

theorem literal {w : Word} (hlead : lead w.token = .literal e) :
    ReadAs (fun spaced => [⟨spaced, w⟩]) e :=
  of_operand fun _ _ _ => .literal hlead

end ReadAs

theorem token_name_lexeme (name : String) : (Word.name name).token.lexeme = name :=
  String.ofList_toList

theorem lead_name {name : String} (h : IsName name) : lead (Word.name name).token = .name := by
  have hne : ∀ s ∈ keywords, name ≠ s := by
    rintro s hs rfl
    exact h.2 hs
  unfold lead
  simp only [Word.token, Word.kind, Word.lexeme, String.ofList_toList]
  rw [if_neg (hne _ (by decide)), if_neg (hne _ (by decide)), if_neg (hne _ (by decide))]

theorem readAs_unary {print : Bool → List Piece} {e : Expr} {op : UnaryOp} {w : Word}
    (h : ReadAs print e) (hlead : lead w.token = .unary op) (gap : Bool) :
    ReadAs (fun spaced => ⟨spaced, w⟩ :: enclose (isBinary e) print gap)
      (.unary ⟨0, 0⟩ op e) := by
  refine .of_operand fun spaced rest hrest => ?_
  have hoperand : Reads (.operand e) (tokens (enclose (isBinary e) print gap) ++ rest) rest := by
    cases hbinary : isBinary e with
    | true => exact h.parens gap rest
    | false => exact h.operand hbinary gap rest hrest
  exact .sign (t := w.token) hlead hoperand

theorem readAs_binary {left right : Bool → List Piece} {l r : Expr} (hl : ReadAs left l)
    (hr : ReadAs right r) (op : BinaryOp) :
    ReadAs (fun spaced => enclose (looser op.precedence l) left spaced ++
        ⟨true, operatorWord op⟩ :: enclose (looser (op.precedence + 1) r) right true)
      (.binary ⟨0, 0⟩ op l r) := by
  refine ⟨nofun, fun spaced level n x rest rest' hlevel hlooser hclosed hbehind => ?_⟩
  have hn : n ≤ op.precedence := by simpa [looser] using hlooser
  have hle : ∀ op', binaryOp? (peek rest) = some op' → op'.precedence ≤ op.precedence :=
    fun op' hop' => Nat.le_trans (hclosed.op op' hop') hn
  -- The right operand takes the operators of higher levels and leaves the others.
  have hright : Reads (.expr op.precedence r)
      (tokens (enclose (looser (op.precedence + 1) r) right true) ++ rest) rest :=
    hr.enclosed true (Nat.lt_succ_self _)
      ⟨hclosed.paren, fun op' hop' => Nat.le_succ_of_le (hle op' hop')⟩ (.stop hle)
  have hword := binaryOp?_operatorWord op
  have hclosedLeft : ∀ rest, Closed op.precedence ((operatorWord op).token :: rest) := by
    refine fun rest => ⟨?_, fun op' hop' => ?_⟩
    · unfold operatorWord
      split <;> nofun
    · rw [peek, hword] at hop'
      cases hop'
      exact Nat.le_refl _
  have hleft := hl.enclosed spaced (Nat.lt_of_lt_of_le hlevel hn) (hclosedLeft _)
    (.step hword (Nat.lt_of_lt_of_le hlevel hn) hright hbehind)
  simpa using hleft

/-! Every printable expression. -/

/-- What is printed for an expression can stand in a line and is read as the expression. -/
structure Printed (spell : Number → List Char × List Char) (e : Expr) : Prop where
  fits : Fits (e.pieces spell)
  readAs : ReadAs (e.pieces spell) (e.mapPos Pos.forget)

variable {spell : Number → List Char × List Char}

theorem isBinary_mapPos (e : Expr) : isBinary (e.mapPos Pos.forget) = isBinary e := by
  cases e <;> rfl

theorem looser_mapPos (n : Nat) (e : Expr) : looser n (e.mapPos Pos.forget) = looser n e := by
  cases e <;> rfl

theorem printed_word {e : Expr} {w : Word} (hpieces : e.pieces spell = fun spaced => [⟨spaced, w⟩])
    (hw : w.Proper) (ho : w.Ordinary) (hlead : lead w.token = .literal (e.mapPos Pos.forget)) :
    Printed spell e := by
  constructor
  · rw [hpieces]
    exact .word hw ho
  · rw [hpieces]
    exact .literal hlead

theorem printed_int {pos : Pos} {v : Number} (h : (Expr.int pos v).Printable spell) :
    Printed spell (.int pos v) := by
  obtain ⟨n, hn, rfl⟩ := h
  have hdigits : Number.digitsOf ((Number.ofNat n).integer?.getD 0).toNat = Number.digitsOf n := by
    rw [Number.integer?_ofNat hn]
    rfl
  refine printed_word (w := .int (Number.digitsOf n)) ?_ ?_ ?_ ?_
  · funext spaced
    rw [Expr.pieces, hdigits]
  · exact isNumeral_of_digits Nat.toDigits_ne_nil fun d hd => Number.isDigit_of_mem_digitsOf hd
  · exact ⟨fun s _ => rfl, rfl⟩
  · unfold lead
    dsimp only [Word.token, Word.kind, Word.lexeme]
    rw [Number.read_digitsOf, if_pos (Number.isSafeInteger_ofNat hn)]
    rfl

theorem printed_float {pos : Pos} {v : Number} (h : (Expr.float pos v).Printable spell) :
    Printed spell (.float pos v) := by
  obtain ⟨hproper, hread⟩ := h
  refine printed_word rfl hproper ⟨fun s _ => rfl, rfl⟩ ?_
  unfold lead
  dsimp only [Word.token, Word.kind, Word.lexeme]
  rw [hread]
  rfl

theorem printed_str {pos : Pos} {text : String} (h : (Expr.str pos text).Printable spell) :
    Printed spell (.str pos text) := by
  refine printed_word rfl h ⟨fun s _ => rfl, rfl⟩ ?_
  unfold lead
  dsimp only [Word.token, Word.kind, Word.lexeme]
  rw [String.ofList_toList]
  rfl

theorem printed_bool (pos : Pos) (b : Bool) : Printed spell (.bool pos b) := by
  cases b with
  | true => exact printed_word rfl (by decide) (by decide) rfl
  | false => exact printed_word rfl (by decide) (by decide) rfl

theorem printed_ident {pos : Pos} {name : String} (h : IsName name) :
    Printed spell (.ident pos name) := by
  constructor
  · exact .word h.1 h.ordinary
  · refine .of_operand fun spaced rest hrest => ?_
    have hread := Reads.name (lead_name h) hrest
    rw [token_name_lexeme] at hread
    exact hread

theorem printed_unary {pos : Pos} {op : UnaryOp} {e : Expr} (h : Printed spell e) :
    Printed spell (.unary pos op e) := by
  have hfits := h.fits.enclose (isBinary e)
  have hbinary := isBinary_mapPos e
  cases op with
  | neg =>
    refine ⟨hfits.cons (w := .sign "-") (by decide) (by decide) false (.inr rfl), ?_⟩
    have hread := readAs_unary (w := .sign "-") h.readAs rfl false
    rw [hbinary] at hread
    exact hread
  | not =>
    refine ⟨hfits.cons (w := .name "not") (by decide) (by decide) true (.inl rfl), ?_⟩
    have hread := readAs_unary (w := .name "not") h.readAs rfl true
    rw [hbinary] at hread
    exact hread

theorem printed_binary {pos : Pos} {op : BinaryOp} {l r : Expr} (hl : Printed spell l)
    (hr : Printed spell r) : Printed spell (.binary pos op l r) := by
  constructor
  · have hright := (hr.fits.enclose (looser (op.precedence + 1) r)).cons
      (operatorWord_proper op) (operatorWord_ordinary op) true (.inl rfl)
    exact (hl.fits.enclose (looser op.precedence l)).append (hright.sound true)
      (hright.ordinary true) (.inl rfl)
  · have hread := readAs_binary hl.readAs hr.readAs op
    rw [looser_mapPos, looser_mapPos] at hread
    exact hread

/-! Calls. -/

theorem argumentPieces_cons {e : Expr} {es : List Expr} (h : es ≠ []) (spaced : Bool) :
    Expr.argumentPieces spell (e :: es) spaced =
      e.pieces spell spaced ++ ⟨false, .comma⟩ :: Expr.argumentPieces spell es true := by
  cases es with
  | nil => exact absurd rfl h
  | cons e' es => rw [Expr.argumentPieces]; exact List.cons_ne_nil _ _

theorem fits_arguments {es : List Expr} (hne : es ≠ []) (h : ∀ e ∈ es, Printed spell e) :
    Fits (Expr.argumentPieces spell es) := by
  induction es with
  | nil => exact absurd rfl hne
  | cons e es ih =>
    rw [List.forall_mem_cons] at h
    by_cases hes : es = []
    · subst hes
      exact h.1.fits.append (q := ⟨false, .rparen⟩) (.singleton (by decide)) (by decide) (.inr rfl)
    · have hrest := (ih hes h.2).cons (w := .comma) (by decide) (by decide) true (.inl rfl)
      have hargs := h.1.fits.append (hrest.sound false) (hrest.ordinary false) (.inr rfl)
      have hpieces : Expr.argumentPieces spell (e :: es) = _ :=
        funext fun spaced => argumentPieces_cons hes spaced
      rw [hpieces]
      exact hargs

/-- The arguments of a call behind its opening parenthesis. -/
theorem sound_call {es : List Expr} (h : ∀ e ∈ es, Printed spell e) :
    Sound (⟨false, .lparen⟩ :: Expr.argumentPieces spell es false) ∧
      ∀ p ∈ (⟨false, .lparen⟩ : Piece) :: Expr.argumentPieces spell es false, p.word.Ordinary := by
  by_cases hes : es = []
  · subst hes
    have hpieces : Expr.argumentPieces spell [] false = [⟨false, .rparen⟩] := rfl
    rw [hpieces]
    exact ⟨.cons_open (by decide) rfl (.singleton (by decide)), by decide⟩
  · have hfits := fits_arguments hes h
    exact ⟨.cons_open (by decide) rfl (hfits.sound false),
      List.forall_mem_cons.mpr ⟨by decide, hfits.ordinary false⟩⟩

theorem reads_argumentList {es : List Expr} (hne : es ≠ []) (h : ∀ e ∈ es, Printed spell e)
    (spaced : Bool) (rest : List Token) :
    Reads (.argumentList (Expr.mapPosAll Pos.forget es))
      (tokens (Expr.argumentPieces spell es spaced) ++ rest) rest := by
  induction es generalizing spaced with
  | nil => exact absurd rfl hne
  | cons e es ih =>
    rw [List.forall_mem_cons] at h
    by_cases hes : es = []
    · subst hes
      have hlast := h.1.readAs.whole spaced
        (.of_kind (t := Word.rparen.token) nofun nofun nofun rest)
      rw [Expr.argumentPieces, tokens_append, List.append_assoc]
      exact .lastArgument hlast rfl
    · have hfirst := h.1.readAs.whole spaced
        (.of_kind (t := Word.comma.token) nofun nofun nofun
          (tokens (Expr.argumentPieces spell es true) ++ rest))
      rw [argumentPieces_cons hes, tokens_append, List.append_assoc]
      exact .argument hfirst rfl (ih hes h.2 true)

theorem printed_call {pos : Pos} {name : String} {es : List Expr} (hname : IsName name)
    (h : ∀ e ∈ es, Printed spell e) : Printed spell (.call pos name es) := by
  constructor
  · exact (Fits.word hname.1 hname.ordinary).append (sound_call h).1 (sound_call h).2 (.inr rfl)
  · refine .of_operand fun spaced rest _ => ?_
    have hargs : Reads (.arguments (Expr.mapPosAll Pos.forget es))
        (tokens (Expr.argumentPieces spell es false) ++ rest) rest := by
      by_cases hes : es = []
      · subst hes
        exact .noArguments rfl
      · exact .someArguments (reads_argumentList hes h false rest)
    have hopening : Word.lparen.token.kind = .lparen := rfl
    have hread := Reads.call (lead_name hname) hopening hargs
    rw [token_name_lexeme] at hread
    exact hread

mutual

/-- Every printable expression is read back from its print. -/
theorem printed : (e : Expr) → e.Printable spell → Printed spell e
  | .int _ _, h => printed_int h
  | .float _ _, h => printed_float h
  | .str _ _, h => printed_str h
  | .bool pos b, _ => printed_bool pos b
  | .ident _ _, h => printed_ident h
  | .unary _ _ e, h => printed_unary (printed e h)
  | .binary _ _ l r, h => printed_binary (printed l h.1) (printed r h.2)
  | .call _ _ es, h => printed_call h.1 (printed_all es h.2)

theorem printed_all : (es : List Expr) → Expr.PrintableAll spell es → ∀ e ∈ es, Printed spell e
  | [], _ => nofun
  | e :: es, h => List.forall_mem_cons.mpr ⟨printed e h.1, printed_all es h.2⟩

end

end Print

end SceneScript
