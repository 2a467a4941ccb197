import SceneScript.Proofs.Grammar.Acceptance
import SceneScript.Proofs.Print.Expression
import SceneScript.Proofs.Print.Lines

/-! Printed statements. Every statement and every branch of a conditional begins a line of its own,
and the statements of a block stand one level deeper than the line that opens it. The tokens of the
lines are derived as the statements, up to places. -/

namespace SceneScript

open Print

/-- A parameter that can be printed. -/
def Param.Printable (p : Param) : Prop := IsName p.name ∧ Word.Proper (.name p.type)
deriving Decidable

mutual

/-- A statement that can be printed: no block on its own, no empty block, and nothing in it that
cannot be printed. -/
def Stmt.Printable (spell : Number → List Char × List Char) : Stmt → Prop
  | .expr _ e | .ret _ e => e.Printable spell
  | .var _ name e | .let _ name e | .assign _ name e => IsName name ∧ e.Printable spell
  | .cond _ test body rest =>
    test.Printable spell ∧ (body ≠ [] ∧ Stmt.PrintableAll spell body) ∧ rest.Printable spell
  | .loop _ name start stop body =>
    IsName name ∧ (start.Printable spell ∧ stop.Printable spell) ∧
      body ≠ [] ∧ Stmt.PrintableAll spell body
  | .proc _ name params body =>
    IsName name ∧ (∀ p ∈ params, p.Printable) ∧ body ≠ [] ∧ Stmt.PrintableAll spell body
  | .block .. => False

/-- Branches that can be printed. -/
def Alternative.Printable (spell : Number → List Char × List Char) : Alternative → Prop
  | .none => True
  | .otherwise body => body ≠ [] ∧ Stmt.PrintableAll spell body
  | .elif test body rest =>
    test.Printable spell ∧ (body ≠ [] ∧ Stmt.PrintableAll spell body) ∧ rest.Printable spell

/-- Statements that can be printed. -/
def Stmt.PrintableAll (spell : Number → List Char × List Char) : List Stmt → Prop
  | [] => True
  | s :: ss => s.Printable spell ∧ Stmt.PrintableAll spell ss

end

namespace Print

/-- A name that is given a value. -/
def assignment (name : Piece) (value : Bool → List Piece) : List Piece :=
  name :: ⟨true, .sign "="⟩ :: value true

/-- The line that opens a block. -/
def opening (depth : Nat) (head : List Piece) : Line := ⟨depth, head ++ [⟨false, .colon⟩]⟩

/-- The head of a loop. -/
def loopHead (name : String) (start stop : Bool → List Piece) : List Piece :=
  ⟨false, .name "for"⟩ :: ⟨true, .name name⟩ :: ⟨true, .name "in"⟩ :: ⟨true, .name "range"⟩ ::
    ⟨false, .lparen⟩ :: (start false ++ ⟨false, .comma⟩ :: (stop true ++ [⟨false, .rparen⟩]))

/-- A parameter and its type. -/
def paramPieces (p : Param) (spaced : Bool) : List Piece :=
  [⟨spaced, .name p.name⟩, ⟨false, .colon⟩, ⟨true, .name p.type⟩]

/-- The parameters of a procedure up to the closing parenthesis. -/
def parameterPieces : List Param → Bool → List Piece
  | [], _ => [⟨false, .rparen⟩]
  | [p], spaced => paramPieces p spaced ++ [⟨false, .rparen⟩]
  | p :: ps, spaced => paramPieces p spaced ++ ⟨false, .comma⟩ :: parameterPieces ps true

/-- The head of a procedure. -/
def procHead (name : String) (params : List Param) : List Piece :=
  ⟨false, .name "proc"⟩ :: ⟨true, .name name⟩ :: ⟨false, .lparen⟩ :: parameterPieces params false

end Print

mutual

/-- A statement in print at a depth. A block on its own has no form; its statements stand there. -/
def Stmt.lines (spell : Number → List Char × List Char) : Stmt → Nat → List Line
  | .expr _ e, depth => [⟨depth, e.pieces spell false⟩]
  | .var _ name e, depth =>
    [⟨depth, ⟨false, .name "var"⟩ :: assignment ⟨true, .name name⟩ (e.pieces spell)⟩]
  | .let _ name e, depth =>
    [⟨depth, ⟨false, .name "let"⟩ :: assignment ⟨true, .name name⟩ (e.pieces spell)⟩]
  | .assign _ name e, depth => [⟨depth, assignment ⟨false, .name name⟩ (e.pieces spell)⟩]
  | .cond _ test body rest, depth =>
    opening depth (⟨false, .name "if"⟩ :: test.pieces spell true) ::
      (Stmt.linesAll spell body (depth + 1) ++ rest.lines spell depth)
  | .loop _ name start stop body, depth =>
    opening depth (loopHead name (start.pieces spell) (stop.pieces spell)) ::
      Stmt.linesAll spell body (depth + 1)
  | .proc _ name params body, depth =>
    opening depth (procHead name params) :: Stmt.linesAll spell body (depth + 1)
  | .ret _ e, depth => [⟨depth, ⟨false, .name "return"⟩ :: e.pieces spell true⟩]
  | .block _ body, depth => Stmt.linesAll spell body depth

/-- Branches in print at the depth of their conditional. -/
def Alternative.lines (spell : Number → List Char × List Char) : Alternative → Nat → List Line
  | .none, _ => []
  | .otherwise body, depth =>
    opening depth [⟨false, .name "else"⟩] :: Stmt.linesAll spell body (depth + 1)
  | .elif test body rest, depth =>
    opening depth (⟨false, .name "elif"⟩ :: test.pieces spell true) ::
      (Stmt.linesAll spell body (depth + 1) ++ rest.lines spell depth)

/-- Statements in print at a depth. -/
def Stmt.linesAll (spell : Number → List Char × List Char) : List Stmt → Nat → List Line
  | [], _ => []
  | s :: ss, depth => s.lines spell depth ++ Stmt.linesAll spell ss depth

end

namespace Print

open Grammar (Derives IsExpr Ends Items Keyword peek)

variable {spell : Number → List Char × List Char}

/-! How the lines of statements are made up. -/

section Lines

variable {e e' : Expr} {name : String}

theorem sound_assignment (h : Printed spell e) (hname : IsName name) (spaced : Bool) :
    Sound (assignment ⟨spaced, .name name⟩ (e.pieces spell)) :=
  .cons hname.1 (h.fits.sound_cons (by decide) true (.inl rfl)) (.inl rfl)

theorem sound_loopHead (h : Printed spell e) (h' : Printed spell e') (hname : IsName name) :
    Sound (loopHead name (e.pieces spell) (e'.pieces spell)) := by
  have hstop := (h'.fits.sound_cons (p := ⟨false, .comma⟩) (by decide) true (.inl rfl)).append
    (q := ⟨false, .rparen⟩) (.singleton (by decide)) (.inr rfl)
  have hstart := (h.fits.sound false).append hstop (.inr rfl)
  have hrange := Sound.cons_open (p := ⟨false, .lparen⟩) (by decide) rfl hstart
  have hwords := Sound.cons (p := ⟨true, .name "range"⟩) (by decide) hrange (.inr (.inr rfl))
  exact .cons (by decide)
    (.cons hname.1 (.cons (by decide) hwords (.inl rfl)) (.inl rfl)) (.inl rfl)

theorem parameterPieces_cons (p : Param) {ps : List Param} (h : ps ≠ []) (spaced : Bool) :
    parameterPieces (p :: ps) spaced =
      paramPieces p spaced ++ ⟨false, .comma⟩ :: parameterPieces ps true := by
  cases ps with
  | nil => exact absurd rfl h
  | cons q ps => rw [parameterPieces]; exact List.cons_ne_nil _ _

theorem sound_paramPieces {p : Param} (h : p.Printable) (spaced : Bool) :
    Sound (paramPieces p spaced) :=
  .cons h.1.1 (.cons (by decide) (.singleton h.2) (.inl rfl)) (.inr (.inr rfl))

theorem sound_parameterPieces {ps : List Param} (h : ∀ p ∈ ps, p.Printable) (q : Piece)
    (hq : q.word.Proper) (spaced : Bool) (hspaced : spaced = true ∨ q.word.isOpen = true) :
    Sound (q :: parameterPieces ps spaced) := by
  have hend : Sound [⟨false, .rparen⟩] := .singleton (by decide)
  induction ps generalizing q spaced with
  | nil => exact .cons hq hend (.inr (.inr rfl))
  | cons p ps ih =>
    rw [List.forall_mem_cons] at h
    have hparam : Sound (q :: paramPieces p spaced) :=
      .cons hq (sound_paramPieces h.1 spaced) (hspaced.imp_right .inl)
    by_cases hps : ps = []
    · subst hps
      exact hparam.append hend (.inr rfl)
    · rw [parameterPieces_cons p hps]
      exact hparam.append (ih h.2 ⟨false, .comma⟩ (by decide) true (.inl rfl)) (.inr rfl)

theorem sound_procHead {ps : List Param} (hname : IsName name) (h : ∀ p ∈ ps, p.Printable) :
    Sound (procHead name ps) := by
  have hparams := sound_parameterPieces h ⟨false, .lparen⟩ (by decide) false (.inr rfl)
  exact .cons (by decide) (.cons hname.1 hparams (.inr (.inr rfl))) (.inl rfl)

end Lines

/-! How statements are derived from their lines. -/

/-- No branch of a conditional begins here. -/
def NoBranch (ts : List Token) : Prop :=
  (peek ts).isWord "elif" = false ∧ (peek ts).isWord "else" = false
deriving Decidable

/-- The lines behind a statement of the given depth, and their tokens. -/
structure Behind (depth : Nat) (ls : List Line) (ts : List Token) : Prop where
  lays : Lays depth ls ts
  shallow : Shallow depth ls

/-- The lines of a statement begin at its depth, and whatever stands behind them, the statement is
derived from them. -/
structure Derived (spell : Number → List Char × List Char) (s : Stmt) : Prop where
  head : ∀ depth, ∃ pieces rest, s.lines spell depth = ⟨depth, pieces⟩ :: rest
  derives : ∀ depth more ts, Behind depth more ts → NoBranch ts →
    ∃ us after, Lays depth (s.lines spell depth ++ more) us ∧ NoBranch us ∧
      Derives (.statement (s.mapPos Pos.forget)) us after ∧ Ends (s.mapPos Pos.forget) after ts

/-- Whatever stands behind the lines of the branches, the branches are derived from them. -/
def BranchesDerived (spell : Number → List Char × List Char) (a : Alternative) : Prop :=
  ∀ depth more ts, Behind depth more ts → NoBranch ts →
    ∃ us, Behind depth (a.lines spell depth ++ more) us ∧
      Derives (.alternatives (a.mapPos Pos.forget)) us ts

theorem shallow_cons (depth : Nat) (pieces : List Piece) (ls : List Line) :
    Shallow depth (⟨depth, pieces⟩ :: ls) := by
  intro l hl
  cases hl
  exact Nat.le_refl depth

theorem Printed.isExpr {e : Expr} (h : Printed spell e) (spaced : Bool) {t : Token}
    (hparen : t.kind ≠ .lparen) (hop : t.kind ≠ .op) (hname : t.kind ≠ .identifier)
    (rest : List Token) :
    IsExpr (e.mapPos Pos.forget) (tokens (e.pieces spell spaced) ++ t :: rest) (t :: rest) :=
  Grammar.reads_expr_iff.mp (h.readAs.whole spaced (.of_kind hparen hop hname rest))

theorem Printed.isExpr_line {e : Expr} (h : Printed spell e) (spaced : Bool) (rest : List Token) :
    IsExpr (e.mapPos Pos.forget) (tokens (e.pieces spell spaced) ++ .newline ⟨0, 0⟩ :: rest)
      (.newline ⟨0, 0⟩ :: rest) :=
  h.isExpr spaced (t := .newline ⟨0, 0⟩) nofun nofun nofun rest

/-! Statements of one line. -/

theorem derived_line {s : Stmt} {w : Word} {rest : List Piece}
    (hlines : ∀ depth, s.lines spell depth = [⟨depth, ⟨false, w⟩ :: rest⟩])
    (hsound : Sound (⟨false, w⟩ :: rest)) (hbranch : NoBranch [w.token])
    (hderives : ∀ ts, Derives (.statement (s.mapPos Pos.forget))
      (tokens (⟨false, w⟩ :: rest) ++ .newline ⟨0, 0⟩ :: ts) (.newline ⟨0, 0⟩ :: ts)) :
    Derived spell s := by
  refine ⟨fun depth => ⟨_, [], hlines depth⟩, fun depth more ts hmore _ => ?_⟩
  rw [hlines]
  have hfits : Line.Fits ⟨depth, ⟨false, w⟩ :: rest⟩ := ⟨⟨w, rest, rfl⟩, hsound⟩
  exact ⟨_, _, .line hfits hmore.lays, hbranch, hderives ts, .newline rfl⟩

section Simple

variable {e : Expr} {name : String} {pos : Pos}

theorem kind_name (name : String) : (Word.name name).token.kind = .identifier := rfl

theorem isOp_assign : (Word.sign "=").token.isOp "=" = true := rfl

theorem isWord_eq_false {w : Word} (h : w.Ordinary) (k : Keyword) :
    w.token.isWord k.word = false := by
  cases k <;> exact h.1 _ (by decide)

theorem noBranch_of_ordinary {w : Word} (h : w.Ordinary) (ts : List Token) :
    NoBranch (w.token :: ts) :=
  ⟨h.1 "elif" (by decide), h.1 "else" (by decide)⟩

theorem derived_var (hname : IsName name) (h : Printed spell e) :
    Derived spell (.var pos name e) := by
  have hsound : Sound (⟨false, .name "var"⟩ :: _) :=
    .cons (by decide) (sound_assignment h hname true) (.inl rfl)
  refine derived_line (fun _ => rfl) hsound (by decide) fun ts => ?_
  have hword : (Word.name "var").token.isWord "var" = true := rfl
  have hderives := Derives.var hword (kind_name name) isOp_assign (h.isExpr_line true ts)
  rw [token_name_lexeme] at hderives
  exact hderives

theorem derived_let (hname : IsName name) (h : Printed spell e) :
    Derived spell (.let pos name e) := by
  have hsound : Sound (⟨false, .name "let"⟩ :: _) :=
    .cons (by decide) (sound_assignment h hname true) (.inl rfl)
  refine derived_line (fun _ => rfl) hsound (by decide) fun ts => ?_
  have hword : (Word.name "let").token.isWord "let" = true := rfl
  have hderives := Derives.let hword (kind_name name) isOp_assign (h.isExpr_line true ts)
  rw [token_name_lexeme] at hderives
  exact hderives

theorem derived_assign (hname : IsName name) (h : Printed spell e) :
    Derived spell (.assign pos name e) := by
  refine derived_line (fun _ => rfl) (sound_assignment h hname false)
    (noBranch_of_ordinary hname.ordinary []) fun ts => ?_
  have hderives := Derives.assign (isWord_eq_false hname.ordinary) (kind_name name) isOp_assign
    (h.isExpr_line true ts)
  rw [token_name_lexeme] at hderives
  exact hderives

theorem derived_ret (h : Printed spell e) : Derived spell (.ret pos e) := by
  have hsound : Sound (⟨false, .name "return"⟩ :: _) :=
    h.fits.sound_cons (by decide) true (.inl rfl)
  have hword : (Word.name "return").token.isWord "return" = true := rfl
  exact derived_line (fun _ => rfl) hsound (by decide)
    fun ts => .ret hword (h.isExpr_line true ts)

/-- No word of an expression is taken for the beginning of another statement. -/
theorem derived_expr (h : Printed spell e) : Derived spell (.expr pos e) := by
  obtain ⟨w, rest, heq⟩ := h.fits.head false
  have hsound := h.fits.sound false
  have hordinary := h.fits.ordinary false
  rw [heq] at hsound hordinary
  rw [List.forall_mem_cons] at hordinary
  have hlines : ∀ depth, (Stmt.expr pos e).lines spell depth = [⟨depth, ⟨false, w⟩ :: rest⟩] :=
    fun depth => by rw [Stmt.lines, heq]
  refine derived_line hlines hsound (noBranch_of_ordinary hordinary.1 []) fun ts => ?_
  have hexpr := h.isExpr_line false ts
  rw [heq] at hexpr
  have hassign : (peek (tokens rest ++ .newline ⟨0, 0⟩ :: ts)).isOp "=" = false := by
    cases rest with
    | nil => rfl
    | cons q rest => exact (hordinary.2 q List.mem_cons_self).2
  exact .expr (isWord_eq_false hordinary.1)
    (fun hboth => Bool.false_ne_true (hassign.symm.trans hboth.2)) hexpr

end Simple

/-! Blocks. -/

theorem Derived.shallow {s : Stmt} (h : Derived spell s) (depth : Nat) (more : List Line) :
    Shallow depth (s.lines spell depth ++ more) := by
  obtain ⟨pieces, rest, hlines⟩ := h.head depth
  rw [hlines]
  exact shallow_cons depth pieces _

/-- The lines of a block, up to its close. -/
theorem derived_lines {body : List Stmt} (h : ∀ s ∈ body, Derived spell s) {depth : Nat}
    {more : List Line} {ts : List Token} (hmore : Behind depth more ts) :
    ∃ us, Behind (depth + 1) (Stmt.linesAll spell body (depth + 1) ++ more) us ∧ NoBranch us ∧
      Derives (.lines (Stmt.mapPosAll Pos.forget body)) us ts := by
  induction body with
  | nil =>
    refine ⟨_, ⟨.shallower hmore.shallow hmore.lays, fun l hl => ?_⟩, ⟨rfl, rfl⟩, .close rfl⟩
    exact Nat.le_succ_of_le (hmore.shallow l hl)
  | cons s body ih =>
    rw [List.forall_mem_cons] at h
    obtain ⟨vs, hbehind, hbranch, hrest⟩ := ih h.2
    obtain ⟨us, after, hlays, hfirst, hderives, hends⟩ := h.1.derives _ _ vs hbehind hbranch
    rw [Stmt.linesAll, List.append_assoc]
    exact ⟨us, ⟨hlays, h.1.shallow _ _⟩, hfirst, .line hderives hends hrest⟩

/-- A block behind the line that opens it. -/
theorem derived_block {body : List Stmt} (hne : body ≠ []) (h : ∀ s ∈ body, Derived spell s)
    {depth : Nat} {more : List Line} {ts : List Token} (hmore : Behind depth more ts) :
    ∃ us, Lays depth (Stmt.linesAll spell body (depth + 1) ++ more) us ∧
      Derives (.block (Stmt.mapPosAll Pos.forget body))
        (Word.colon.token :: .newline ⟨0, 0⟩ :: us) ts := by
  obtain ⟨us, hbehind, _, hlines⟩ := derived_lines h hmore
  -- The first statement of the block begins with a line one level deeper, which opens it.
  obtain ⟨s, body, rfl⟩ := List.exists_cons_of_ne_nil hne
  obtain ⟨pieces, rest, hhead⟩ := (h s List.mem_cons_self).head (depth + 1)
  have hlays := hbehind.lays
  rw [Stmt.linesAll, hhead] at hlays ⊢
  exact ⟨_, .deeper rfl hlays, .block rfl rfl rfl hlines⟩

/-! Statements with blocks. -/

section Compound

variable {body : List Stmt} {depth : Nat} {more : List Line} {ts : List Token}

/-- A block and the line that opens it. -/
theorem derived_opening {w : Word} {rest : List Piece} (hsound : Sound (⟨false, w⟩ :: rest))
    (hne : body ≠ []) (h : ∀ s ∈ body, Derived spell s) (hmore : Behind depth more ts) :
    ∃ us, Lays depth (opening depth (⟨false, w⟩ :: rest) ::
        (Stmt.linesAll spell body (depth + 1) ++ more))
        (w.token :: (tokens rest ++ Word.colon.token :: us)) ∧
      Derives (.block (Stmt.mapPosAll Pos.forget body)) (Word.colon.token :: us) ts := by
  obtain ⟨us, hlays, hblock⟩ := derived_block hne h hmore
  have hfits : (opening depth (⟨false, w⟩ :: rest)).Fits :=
    ⟨⟨w, _, rfl⟩, hsound.append (.singleton (by decide)) (.inr rfl)⟩
  have hline := Lays.line hfits hlays
  have htokens : tokens (opening depth (⟨false, w⟩ :: rest)).pieces ++ .newline ⟨0, 0⟩ :: us =
      w.token :: (tokens rest ++ Word.colon.token :: .newline ⟨0, 0⟩ :: us) := by simp [opening]
  rw [htokens] at hline
  exact ⟨_, hline, hblock⟩

/-- A branch with a test, and those behind it. -/
theorem derived_branch (word : String) {test : Expr} {a : Alternative}
    (hword : Word.Proper (.name word)) (htest : Printed spell test) (hne : body ≠ [])
    (h : ∀ s ∈ body, Derived spell s) (ha : BranchesDerived spell a)
    (hmore : Behind depth more ts) (hbranch : NoBranch ts) :
    ∃ us afterTest afterBody,
      Lays depth (opening depth (⟨false, .name word⟩ :: test.pieces spell true) ::
        (Stmt.linesAll spell body (depth + 1) ++ a.lines spell depth) ++ more)
        ((Word.name word).token :: us) ∧
      IsExpr (test.mapPos Pos.forget) us afterTest ∧
      Derives (.block (Stmt.mapPosAll Pos.forget body)) afterTest afterBody ∧
      Derives (.alternatives (a.mapPos Pos.forget)) afterBody ts := by
  obtain ⟨vs, hbehind, halternatives⟩ := ha depth more ts hmore hbranch
  have hsound : Sound (⟨false, .name word⟩ :: _) := htest.fits.sound_cons hword true (.inl rfl)
  obtain ⟨us, hlays, hblock⟩ := derived_opening hsound hne h hbehind
  have hexpr := htest.isExpr true (t := Word.colon.token) nofun nofun nofun us
  rw [List.cons_append, List.append_assoc]
  exact ⟨_, _, _, hlays, hexpr, hblock, halternatives⟩

theorem derived_cond {pos : Pos} {test : Expr} {a : Alternative} (htest : Printed spell test)
    (hne : body ≠ []) (h : ∀ s ∈ body, Derived spell s) (ha : BranchesDerived spell a) :
    Derived spell (.cond pos test body a) := by
  refine ⟨fun depth => ⟨_, _, rfl⟩, fun depth more ts hmore hbranch => ?_⟩
  obtain ⟨us, afterTest, afterBody, hlays, hexpr, hblock, halternatives⟩ :=
    derived_branch "if" (by decide) htest hne h ha hmore hbranch
  have hword : (Word.name "if").token.isWord "if" = true := rfl
  exact ⟨_, _, hlays, ⟨rfl, rfl⟩, .cond hword hexpr hblock halternatives, .closed rfl⟩

theorem derived_loop {pos : Pos} {name : String} {start stop : Expr} (hname : IsName name)
    (hstart : Printed spell start) (hstop : Printed spell stop) (hne : body ≠ [])
    (h : ∀ s ∈ body, Derived spell s) : Derived spell (.loop pos name start stop body) := by
  refine ⟨fun depth => ⟨_, _, rfl⟩, fun depth more ts hmore _ => ?_⟩
  obtain ⟨us, hlays, hblock⟩ :=
    derived_opening (sound_loopHead hstart hstop hname) hne h hmore
  have hstopExpr := hstop.isExpr true (t := Word.rparen.token) nofun nofun nofun
    (Word.colon.token :: us)
  have hstartExpr := hstart.isExpr false (t := Word.comma.token) nofun nofun nofun
    (tokens (stop.pieces spell true) ++ Word.rparen.token :: Word.colon.token :: us)
  have hfor : (Word.name "for").token.isWord "for" = true := rfl
  have hin : (Word.name "in").token.isWord "in" = true := rfl
  have hrange : (Word.name "range").token.isWord "range" = true := rfl
  have hparen : Word.lparen.token.kind = .lparen := rfl
  have hderives := Derives.loop hfor (kind_name name) hin hrange hparen hstartExpr rfl hstopExpr
    rfl hblock
  rw [token_name_lexeme] at hderives
  refine ⟨_, ts, hlays, ⟨rfl, rfl⟩, ?_, .closed rfl⟩
  simp only [tokens_cons, tokens_append, tokens_nil, List.cons_append, List.append_assoc,
    List.nil_append]
  exact hderives

theorem derives_parameterList {ps : List Param} (hne : ps ≠ []) (spaced : Bool)
    (rest : List Token) :
    Derives (.parameterList ps) (tokens (parameterPieces ps spaced) ++ rest) rest := by
  induction ps generalizing spaced with
  | nil => exact absurd rfl hne
  | cons p ps ih =>
    have hcolon : Word.colon.token.kind = .colon := rfl
    by_cases hps : ps = []
    · subst hps
      have hclose : Word.rparen.token.kind = .rparen := rfl
      have hlast := @Derives.lastParameter _ _ _ _ rest (kind_name p.name) hcolon
        (kind_name p.type) hclose
      rw [token_name_lexeme, token_name_lexeme] at hlast
      exact hlast
    · have hcomma : Word.comma.token.kind = .comma := rfl
      have hmore := Derives.parameter (kind_name p.name) hcolon (kind_name p.type) hcomma
        (ih hps true)
      rw [token_name_lexeme, token_name_lexeme] at hmore
      rw [parameterPieces_cons p hps]
      exact hmore

theorem derives_parameters (ps : List Param) (rest : List Token) :
    Derives (.parameters ps)
      (Word.lparen.token :: (tokens (parameterPieces ps false) ++ rest)) rest := by
  by_cases hps : ps = []
  · subst hps
    exact .noParameters rfl rfl
  · exact .someParameters rfl (derives_parameterList hps false rest)

theorem derived_proc {pos : Pos} {name : String} {ps : List Param} (hname : IsName name)
    (hps : ∀ p ∈ ps, p.Printable) (hne : body ≠ []) (h : ∀ s ∈ body, Derived spell s) :
    Derived spell (.proc pos name ps body) := by
  refine ⟨fun depth => ⟨_, _, rfl⟩, fun depth more ts hmore _ => ?_⟩
  obtain ⟨us, hlays, hblock⟩ := derived_opening (sound_procHead hname hps) hne h hmore
  have hword : (Word.name "proc").token.isWord "proc" = true := rfl
  have hderives := Derives.proc hword (kind_name name)
    (derives_parameters ps (Word.colon.token :: us)) hblock
  rw [token_name_lexeme] at hderives
  exact ⟨_, ts, hlays, ⟨rfl, rfl⟩, hderives, .closed rfl⟩

/-! Branches. -/

theorem derived_none : BranchesDerived spell .none :=
  fun _ _ ts hmore hbranch => ⟨ts, hmore, .noAlternative hbranch.1 hbranch.2⟩

theorem derived_otherwise (hne : body ≠ []) (h : ∀ s ∈ body, Derived spell s) :
    BranchesDerived spell (.otherwise body) := by
  intro depth more ts hmore _
  have hsound : Sound [⟨false, .name "else"⟩] := .singleton (by decide)
  obtain ⟨us, hlays, hblock⟩ := derived_opening hsound hne h hmore
  have hword : (Word.name "else").token.isWord "else" = true := rfl
  exact ⟨_, ⟨hlays, shallow_cons depth _ _⟩, .otherwise hword hblock⟩

theorem derived_elif {test : Expr} {a : Alternative} (htest : Printed spell test)
    (hne : body ≠ []) (h : ∀ s ∈ body, Derived spell s) (ha : BranchesDerived spell a) :
    BranchesDerived spell (.elif test body a) := by
  intro depth more ts hmore hbranch
  obtain ⟨us, afterTest, afterBody, hlays, hexpr, hblock, halternatives⟩ :=
    derived_branch "elif" (by decide) htest hne h ha hmore hbranch
  have hword : (Word.name "elif").token.isWord "elif" = true := rfl
  exact ⟨_, ⟨hlays, shallow_cons depth _ _⟩, .elif hword hexpr hblock halternatives⟩

end Compound

/-! Every printable statement. -/

mutual

theorem derived : (s : Stmt) → s.Printable spell → Derived spell s
  | .expr _ e, h => derived_expr (printed e h)
  | .var _ _ e, h => derived_var h.1 (printed e h.2)
  | .let _ _ e, h => derived_let h.1 (printed e h.2)
  | .assign _ _ e, h => derived_assign h.1 (printed e h.2)
  | .cond _ test body a, h =>
    derived_cond (printed test h.1) h.2.1.1 (derived_all body h.2.1.2) (derived_branches a h.2.2)
  | .loop _ _ start stop body, h =>
    derived_loop h.1 (printed start h.2.1.1) (printed stop h.2.1.2) h.2.2.1
      (derived_all body h.2.2.2)
  | .proc _ _ _ body, h => derived_proc h.1 h.2.1 h.2.2.1 (derived_all body h.2.2.2)
  | .ret _ e, h => derived_ret (printed e h)

theorem derived_branches : (a : Alternative) → a.Printable spell → BranchesDerived spell a
  | .none, _ => derived_none
  | .otherwise body, h => derived_otherwise h.1 (derived_all body h.2)
  | .elif test body a, h =>
    derived_elif (printed test h.1) h.2.1.1 (derived_all body h.2.1.2) (derived_branches a h.2.2)

theorem derived_all : (ss : List Stmt) → Stmt.PrintableAll spell ss → ∀ s ∈ ss, Derived spell s
  | [], _ => nofun
  | s :: ss, h => List.forall_mem_cons.mpr ⟨derived s h.1, derived_all ss h.2⟩

end

/-- The lines of a program are laid out as tokens from which the program is derived. -/
theorem derived_items {p : Program} (h : ∀ s ∈ p, Derived spell s) :
    ∃ us, Behind 0 (Stmt.linesAll spell p 0) us ∧ NoBranch us ∧ Items us (p.mapPos Pos.forget) := by
  induction p with
  | nil => exact ⟨_, ⟨.stop, nofun⟩, by decide, .stop rfl⟩
  | cons s p ih =>
    rw [List.forall_mem_cons] at h
    obtain ⟨vs, hbehind, hbranch, hitems⟩ := ih h.2
    obtain ⟨us, after, hlays, hfirst, hderives, hends⟩ := h.1.derives _ _ vs hbehind hbranch
    exact ⟨us, ⟨hlays, h.1.shallow _ _⟩, hfirst, .item hderives hends (.refl vs) hitems⟩

end Print

end SceneScript
