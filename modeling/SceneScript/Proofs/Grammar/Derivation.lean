import SceneScript.Program
import SceneScript.Proofs.Grammar.Segment

/-! The grammar of statements. A phrase is derived from the tokens of a list before a rest of it,
by one rule for each form in which it can be written; what an expression is, the reader of
expressions tells. The readers of statements and programs accept exactly what can be derived, and
the tree they return is the only one. -/

namespace SceneScript

/-- The list has one end token, which is its last token. -/
def Token.Ended : List Token → Prop
  | [] => False
  | [t] => t.kind = .eof
  | t :: ts => t.kind ≠ .eof ∧ Token.Ended ts

instance Token.decidableEnded : (ts : List Token) → Decidable (Token.Ended ts)
  | [] => inferInstanceAs (Decidable False)
  | [t] => inferInstanceAs (Decidable (t.kind = .eof))
  | t :: u :: ts =>
    have := Token.decidableEnded (u :: ts)
    inferInstanceAs (Decidable (t.kind ≠ .eof ∧ Token.Ended (u :: ts)))

theorem Token.Ended.of_append {seg rest : List Token} (h : Token.Ended (seg ++ rest))
    (hseg : ∀ t ∈ seg, t.kind ≠ .eof) : Token.Ended rest := by
  induction seg with
  | nil => exact h
  | cons t seg ih =>
    refine ih ?_ fun u hu => hseg u (List.mem_cons_of_mem t hu)
    cases htail : seg ++ rest with
    | nil =>
      rw [List.cons_append, htail] at h
      exact absurd h (hseg t List.mem_cons_self)
    | cons u tail =>
      rw [List.cons_append, htail] at h
      exact h.2

theorem Token.Ended.append {seg rest : List Token} (hseg : ∀ t ∈ seg, t.kind ≠ .eof)
    (hrest : Token.Ended rest) : Token.Ended (seg ++ rest) := by
  induction seg with
  | nil => exact hrest
  | cons t seg ih =>
    rw [List.forall_mem_cons] at hseg
    have htail := ih hseg.2
    cases htokens : seg ++ rest with
    | nil =>
      rw [htokens] at htail
      exact absurd htail id
    | cons u tail =>
      rw [htokens] at htail
      rw [List.cons_append, htokens]
      exact ⟨hseg.1, htail⟩

theorem Token.Ended.eq_singleton {t : Token} {ts : List Token} (h : Token.Ended (t :: ts))
    (ht : t.kind = .eof) : ts = [] := by
  cases ts with
  | nil => rfl
  | cons u ts => exact absurd ht h.1

namespace Grammar

/-- The word that announces a form of statement. -/
def Keyword.word : Keyword → String
  | .var => "var"
  | .let => "let"
  | .cond => "if"
  | .loop => "for"
  | .proc => "proc"
  | .ret => "return"

/-- The tokens of `ts` before `rest` are the expression `e`: the reader of expressions takes them
and no more. -/
def IsExpr (e : Expr) (ts rest : List Token) : Prop := plain (expr 0 ts) = .ok (e, rest)

/-- The parts of a program that the grammar tells apart, each with the tree it stands for. -/
inductive Phrase where
  | statement (s : Stmt)
  /-- The branches behind the first one of a conditional. -/
  | alternatives (a : Alternative)
  /-- The parameters of a procedure in their parentheses. -/
  | parameters (ps : List Param)
  /-- One parameter or more up to the closing parenthesis. -/
  | parameterList (ps : List Param)
  | block (body : List Stmt)
  /-- The lines of a block up to the close of the block. -/
  | lines (body : List Stmt)

/-- What ends a statement: the end of its line, the close of the block around it or the end of the
text directly behind it, or the close of its own last block. -/
inductive Ends (s : Stmt) : List Token → List Token → Prop
  | newline {t : Token} {rest : List Token} : t.kind = .newline → Ends s (t :: rest) rest
  | before {t : Token} {rest : List Token} :
      t.kind = .dedent ∨ t.kind = .eof → Ends s (t :: rest) (t :: rest)
  | closed {ts : List Token} : s.endsInBlock = true → Ends s ts ts

/-- The rules of the grammar. `Derives phrase ts rest` says that the tokens of `ts` before `rest`
form the phrase. -/
inductive Derives : Phrase → List Token → List Token → Prop
  | var {word name sign : Token} {init : Expr} {ts rest : List Token} :
      word.isWord "var" = true → name.kind = .identifier → sign.isOp "=" = true →
      IsExpr init ts rest →
      Derives (.statement (.var word.pos name.lexeme init)) (word :: name :: sign :: ts) rest
  | let {word name sign : Token} {init : Expr} {ts rest : List Token} :
      word.isWord "let" = true → name.kind = .identifier → sign.isOp "=" = true →
      IsExpr init ts rest →
      Derives (.statement (.let word.pos name.lexeme init)) (word :: name :: sign :: ts) rest
  | cond {word : Token} {test : Expr} {body : List Stmt} {a : Alternative}
      {ts afterTest afterBody rest : List Token} :
      word.isWord "if" = true → IsExpr test ts afterTest →
      Derives (.block body) afterTest afterBody → Derives (.alternatives a) afterBody rest →
      Derives (.statement (.cond word.pos test body a)) (word :: ts) rest
  | loop {word name inWord rangeWord opening comma close : Token} {start stop : Expr}
      {body : List Stmt} {ts afterComma afterClose rest : List Token} :
      word.isWord "for" = true → name.kind = .identifier → inWord.isWord "in" = true →
      rangeWord.isWord "range" = true → opening.kind = .lparen →
      IsExpr start ts (comma :: afterComma) → comma.kind = .comma →
      IsExpr stop afterComma (close :: afterClose) → close.kind = .rparen →
      Derives (.block body) afterClose rest →
      Derives (.statement (.loop word.pos name.lexeme start stop body))
        (word :: name :: inWord :: rangeWord :: opening :: ts) rest
  | proc {word name : Token} {params : List Param} {body : List Stmt}
      {ts afterParams rest : List Token} :
      word.isWord "proc" = true → name.kind = .identifier →
      Derives (.parameters params) ts afterParams → Derives (.block body) afterParams rest →
      Derives (.statement (.proc word.pos name.lexeme params body)) (word :: name :: ts) rest
  | ret {word : Token} {value : Expr} {ts rest : List Token} :
      word.isWord "return" = true → IsExpr value ts rest →
      Derives (.statement (.ret word.pos value)) (word :: ts) rest
  | assign {name sign : Token} {value : Expr} {ts rest : List Token} :
      (∀ k : Keyword, name.isWord k.word = false) → name.kind = .identifier →
      sign.isOp "=" = true → IsExpr value ts rest →
      Derives (.statement (.assign name.pos name.lexeme value)) (name :: sign :: ts) rest
  | expr {t : Token} {e : Expr} {ts rest : List Token} :
      (∀ k : Keyword, t.isWord k.word = false) →
      ¬ (t.kind = .identifier ∧ (peek ts).isOp "=" = true) → IsExpr e (t :: ts) rest →
      Derives (.statement (.expr t.pos e)) (t :: ts) rest
  | noParameters {opening close : Token} {rest : List Token} :
      opening.kind = .lparen → close.kind = .rparen →
      Derives (.parameters []) (opening :: close :: rest) rest
  | someParameters {opening : Token} {ps : List Param} {ts rest : List Token} :
      opening.kind = .lparen → Derives (.parameterList ps) ts rest →
      Derives (.parameters ps) (opening :: ts) rest
  | lastParameter {name colon type close : Token} {rest : List Token} :
      name.kind = .identifier → colon.kind = .colon → type.kind = .identifier →
      close.kind = .rparen →
      Derives (.parameterList [⟨name.lexeme, type.lexeme⟩]) (name :: colon :: type :: close :: rest)
        rest
  | parameter {name colon type comma : Token} {ps : List Param} {ts rest : List Token} :
      name.kind = .identifier → colon.kind = .colon → type.kind = .identifier →
      comma.kind = .comma → Derives (.parameterList ps) ts rest →
      Derives (.parameterList (⟨name.lexeme, type.lexeme⟩ :: ps))
        (name :: colon :: type :: comma :: ts) rest
  /-- A branch that could follow is never left out. -/
  | noAlternative {ts : List Token} :
      (peek ts).isWord "elif" = false → (peek ts).isWord "else" = false →
      Derives (.alternatives .none) ts ts
  | otherwise {word : Token} {body : List Stmt} {ts rest : List Token} :
      word.isWord "else" = true → Derives (.block body) ts rest →
      Derives (.alternatives (.otherwise body)) (word :: ts) rest
  | elif {word : Token} {test : Expr} {body : List Stmt} {a : Alternative}
      {ts afterTest afterBody rest : List Token} :
      word.isWord "elif" = true → IsExpr test ts afterTest →
      Derives (.block body) afterTest afterBody → Derives (.alternatives a) afterBody rest →
      Derives (.alternatives (.elif test body a)) (word :: ts) rest
  | block {colon line opening : Token} {body : List Stmt} {ts rest : List Token} :
      colon.kind = .colon → line.kind = .newline → opening.kind = .indent →
      Derives (.lines body) ts rest → Derives (.block body) (colon :: line :: opening :: ts) rest
  | close {close : Token} {rest : List Token} :
      close.kind = .dedent → Derives (.lines []) (close :: rest) rest
  | blank {line : Token} {body : List Stmt} {ts rest : List Token} :
      line.kind = .newline → Derives (.lines body) ts rest →
      Derives (.lines body) (line :: ts) rest
  | line {s : Stmt} {body : List Stmt} {ts afterStatement afterEnd rest : List Token} :
      Derives (.statement s) ts afterStatement → Ends s afterStatement afterEnd →
      Derives (.lines body) afterEnd rest → Derives (.lines (s :: body)) ts rest

/-- The tokens of `ts` before `rest` are ends of lines. -/
def Newlines (ts rest : List Token) : Prop :=
  ∃ lines : List Token, ts = lines ++ rest ∧ ∀ t ∈ lines, t.kind = .newline

/-- Statements, each ended and followed by any number of ends of lines, and the end of the text. -/
inductive Items : List Token → Program → Prop
  | stop {t : Token} : t.kind = .eof → Items [t] []
  | item {s : Stmt} {p : Program} {ts afterStatement afterEnd rest : List Token} :
      Derives (.statement s) ts afterStatement → Ends s afterStatement afterEnd →
      Newlines afterEnd rest → Items rest p → Items ts (s :: p)

/-- The tokens are derived as a program: any number of ends of lines before the statements. -/
def Derivable (ts : List Token) (p : Program) : Prop := ∃ rest, Newlines ts rest ∧ Items rest p

end Grammar

end SceneScript
