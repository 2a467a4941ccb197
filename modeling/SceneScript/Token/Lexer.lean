import SceneScript.Error
import SceneScript.Token.Layout

/-! From text to tokens. A text is a list of lines; a line gives the tokens of its layout, those of
its code and the end of the line, and a line without code gives none. The code of a line is cut
from left to right, each token as long as it can be. -/

namespace SceneScript.Token

/-- A token cut from the front of a text: what it carries, how it was spelled and what is left. -/
structure Cut where
  kind : TokenKind
  lexeme : List Char
  spelling : List Char
  rest : List Char
deriving DecidableEq, Repr

/-- A cut whose token carries what it is spelled with. -/
def Cut.plain (kind : TokenKind) (spelling rest : List Char) : Cut :=
  ⟨kind, spelling, spelling, rest⟩

/-- A text between two quotes `q`, the first of which has been taken. -/
def cutString (q : Char) (cs : List Char) : Except LexCause Cut :=
  let body := cs.takeWhile (· != q)
  match cs.dropWhile (· != q) with
  | [] => .error .unterminated
  | _ :: rest => .ok ⟨.string, body, q :: body ++ [q], rest⟩

/-- A number that begins with the digit `c`. A point belongs to it only when a digit follows. -/
def cutNumber (c : Char) (cs : List Char) : Cut :=
  let whole := c :: cs.takeWhile Char.isDigit
  match cs.dropWhile Char.isDigit with
  | '.' :: d :: rest =>
    if d.isDigit then
      .plain .float (whole ++ '.' :: d :: rest.takeWhile Char.isDigit) (rest.dropWhile Char.isDigit)
    else .plain .int whole ('.' :: d :: rest)
  | rest => .plain .int whole rest

/-- A name that begins with `c`. -/
def cutName (c : Char) (cs : List Char) : Cut :=
  .plain .identifier (c :: cs.takeWhile isNamePart) (cs.dropWhile isNamePart)

/-- An operator that begins with `c`, a longer one if there is one. -/
def cutOp? (c : Char) (cs : List Char) : Option Cut :=
  let short := if String.singleton c ∈ shortOps then some (.plain .op [c] cs) else none
  match cs with
  | d :: rest => if String.ofList [c, d] ∈ longOps then some (.plain .op [c, d] rest) else short
  | [] => short

/-- The token at the front of a text that begins with `c`, which is neither a space nor the
beginning of a comment. -/
def cut (c : Char) (cs : List Char) : Except LexCause Cut :=
  match punctuation? c with
  | some kind => .ok (.plain kind [c] cs)
  | none =>
    if c = '"' ∨ c = '\'' then cutString c cs
    else match cutOp? c cs with
      | some op => .ok op
      | none =>
        if c.isDigit then .ok (cutNumber c cs)
        else if isNameStart c then .ok (cutName c cs)
        else .error (.unexpected c)

theorem cutString_rest_le {q : Char} {cs : List Char} {t : Cut} (h : cutString q cs = .ok t) :
    t.rest.length ≤ cs.length := by
  have hle : (cs.dropWhile (· != q)).length ≤ cs.length := (List.dropWhile_sublist _).length_le
  unfold cutString at h
  dsimp only at h
  split at h
  · cases h
  · rename_i hd
    cases h
    rw [hd, List.length_cons] at hle
    exact Nat.le_of_succ_le hle

theorem cutNumber_rest_le (c : Char) (cs : List Char) :
    (cutNumber c cs).rest.length ≤ cs.length := by
  have hle : (cs.dropWhile Char.isDigit).length ≤ cs.length := (List.dropWhile_sublist _).length_le
  unfold cutNumber
  dsimp only
  split
  · rename_i d rest hd
    have hrest : (rest.dropWhile Char.isDigit).length ≤ rest.length :=
      (List.dropWhile_sublist _).length_le
    rw [hd, List.length_cons, List.length_cons] at hle
    split
    · exact Nat.le_trans hrest (by omega)
    · exact hle
  · exact hle

theorem cutOp?_rest_le {c : Char} {cs : List Char} {t : Cut} (h : cutOp? c cs = some t) :
    t.rest.length ≤ cs.length := by
  unfold cutOp? at h
  dsimp only at h
  split at h
  · split at h
    · cases h; exact Nat.le_succ _
    · split at h <;> cases h
      exact Nat.le_refl _
  · split at h <;> cases h
    exact Nat.le_refl _

/-- A cut takes at least one character. -/
theorem cut_rest_le {c : Char} {cs : List Char} {t : Cut} (h : cut c cs = .ok t) :
    t.rest.length ≤ cs.length := by
  unfold cut at h
  split at h
  · cases h; exact Nat.le_refl _
  · split at h
    · exact cutString_rest_le h
    · split at h
      · rename_i hop
        cases h
        exact cutOp?_rest_le hop
      · split at h
        · cases h; exact cutNumber_rest_le c cs
        · split at h
          · cases h; exact (List.dropWhile_sublist _).length_le
          · cases h

/-- Characters that separate tokens within a line. -/
def isGap (c : Char) : Bool := c == ' ' || c == '\t' || c == '\r'

/-- The tokens of the code of a line, from the given place on. -/
def ofCode (pos : Pos) : List Char → Except LexError (List Token)
  | [] => .ok []
  | c :: cs =>
    if isGap c then ofCode { pos with col := pos.col + 1 } cs
    else if c = '#' then .ok []
    else
      match _h : cut c cs with
      | .error cause => .error ⟨cause, pos⟩
      | .ok t => do
        let ts ← ofCode { pos with col := pos.col + Text.width t.spelling } t.rest
        return ⟨t.kind, String.ofList t.lexeme, pos⟩ :: ts
termination_by cs => cs.length
decreasing_by
  · simp
  · exact Nat.lt_succ_of_le (cut_rest_le _h)

/-- The place behind the last character of a line. -/
def lineEnd (line : Int) (cs : List Char) : Pos := ⟨line, 1 + Text.width cs⟩

/-- The tokens of one line and the open blocks after it. The end of the line is a token when the
line is ended by a newline, or when the text ends with it and it gave a token. -/
def ofLine (blocks : Layout.Blocks) (line : Int) (ended : Bool) (cs : List Char) :
    Except LexError (Layout.Blocks × List Token) :=
  let margin := Layout.margin cs
  if margin.isEmpty then .ok (blocks, [])
  else
    let start : Pos := ⟨line, 1 + margin.skipped⟩
    match blocks.enter? margin.width with
    | none => .error ⟨.inconsistent margin.width, start⟩
    | some (blocks, change) => do
      let code ← ofCode start margin.code
      let tokens := change.tokens start ++ code
      return (blocks,
        if ended || !tokens.isEmpty then tokens ++ [newline (lineEnd line cs)] else tokens)

/-- The tokens of a list of lines, of which only the last is not ended by a newline. At the end of
the text every open block is closed. -/
def ofLines (blocks : Layout.Blocks) (line : Int) : List (List Char) → Except LexError (List Token)
  | [] => .ok []
  | [cs] => do
    let (blocks, tokens) ← ofLine blocks line false cs
    let stop := lineEnd line cs
    return tokens ++ List.replicate blocks.length (dedent stop) ++ [eof stop]
  | cs :: rest => do
    let (blocks, tokens) ← ofLine blocks line true cs
    let ts ← ofLines blocks (line + 1) rest
    return tokens ++ ts

/-- The lines of a text, cut at its newlines. -/
def lines : List Char → List (List Char)
  | [] => [[]]
  | c :: cs =>
    if c = '\n' then [] :: lines cs
    else match lines cs with
      | [] => [[c]]
      | l :: ls => (c :: l) :: ls

/-- The tokens of a text. -/
def ofSource (source : String) : Except LexError (List Token) :=
  ofLines [] 1 (lines source.toList)

end SceneScript.Token
