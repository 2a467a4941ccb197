import SceneScript.Proofs.Grammar.Layers
import SceneScript.Proofs.Program.Append
import SceneScript.Proofs.Token.Spans

/-! What a program keeps of its text. Besides punctuation and layout, every token of a text that
holds a program is told by the tree: it is the literal, the name or the operator of one node, a word
of a statement, or a name that a statement binds. Listed in the order of the source, these are the
tokens of the text, none lost, doubled or moved; and a statement tells the place of the first token
it is read from. -/

namespace SceneScript

mutual

/-- The nodes of an expression in the order of the source. -/
def Expr.nodes : Expr → List Expr
  | .int pos v => [.int pos v]
  | .float pos v => [.float pos v]
  | .str pos text => [.str pos text]
  | .bool pos b => [.bool pos b]
  | .ident pos name => [.ident pos name]
  | .unary pos op e => .unary pos op e :: e.nodes
  | .binary pos op l r => l.nodes ++ .binary pos op l r :: r.nodes
  | .call pos name args => .call pos name args :: Expr.nodesAll args

def Expr.nodesAll : List Expr → List Expr
  | [] => []
  | e :: es => e.nodes ++ Expr.nodesAll es

end

/-- The node is what the token says: it tells the token's place and holds what the token carries. -/
def Expr.IsAt (e : Expr) (t : Token) : Prop :=
  e.pos = t.pos ∧
    match e with
    | .int _ v => t.kind = .int ∧ v = Number.read t.lexeme
    | .float _ v => t.kind = .float ∧ v = Number.read t.lexeme
    | .str _ text => t.kind = .string ∧ text = t.lexeme
    | .bool _ b => t.kind = .identifier ∧ t.lexeme = if b then "true" else "false"
    | .ident _ name | .call _ name _ => t.kind = .identifier ∧ name = t.lexeme
    | .unary _ op _ => t.lexeme = op.symbol ∧ t.kind = if op = .not then .identifier else .op
    | .binary _ op _ _ =>
      t.lexeme = op.symbol ∧ (t.kind = .op ∨ t.kind = .identifier ∧ op.isWord = true)

/-- What a token does in a program, when it is more than punctuation: it is a node of an expression,
a word of a statement, or a name or type that a statement gives. -/
inductive Role where
  | node (e : Expr)
  | keyword (word : String)
  | name (text : String)

def Role.node? : Role → Option Expr
  | .node e => some e
  | _ => none

def Role.IsAt (t : Token) : Role → Prop
  | .node e => e.IsAt t
  | .keyword word => t.isWord word = true
  | .name text => t.kind = .identifier ∧ t.lexeme = text

def Expr.roles (e : Expr) : List Role := e.nodes.map .node

def Param.roles (p : Param) : List Role := [.name p.name, .name p.type]

mutual

/-- The roles of a statement in the order of the source. -/
def Stmt.roles : Stmt → List Role
  | .expr _ e => e.roles
  | .var _ name init => .keyword "var" :: .name name :: init.roles
  | .let _ name init => .keyword "let" :: .name name :: init.roles
  | .assign _ name value => .name name :: value.roles
  | .cond _ test body rest => .keyword "if" :: (test.roles ++ Stmt.rolesAll body ++ rest.roles)
  | .loop _ name start stop body =>
    .keyword "for" :: .name name :: .keyword "in" :: .keyword "range" ::
      (start.roles ++ stop.roles ++ Stmt.rolesAll body)
  | .proc _ name params body =>
    .keyword "proc" :: .name name :: (params.flatMap Param.roles ++ Stmt.rolesAll body)
  | .ret _ value => .keyword "return" :: value.roles
  | .block _ body => Stmt.rolesAll body

def Alternative.roles : Alternative → List Role
  | .none => []
  | .otherwise body => .keyword "else" :: Stmt.rolesAll body
  | .elif test body rest => .keyword "elif" :: (test.roles ++ Stmt.rolesAll body ++ rest.roles)

def Stmt.rolesAll : List Stmt → List Role
  | [] => []
  | s :: ss => s.roles ++ Stmt.rolesAll ss

end

/-- The nodes of all expressions of a program in the order of the source. -/
def Program.nodes (p : Program) : List Expr := (Stmt.rolesAll p).filterMap Role.node?

mutual

/-- A statement and those in its bodies, however deep. -/
def Stmt.inside : Stmt → List Stmt
  | .cond pos test body rest => .cond pos test body rest :: (Stmt.insideAll body ++ rest.inside)
  | .loop pos name start stop body => .loop pos name start stop body :: Stmt.insideAll body
  | .proc pos name params body => .proc pos name params body :: Stmt.insideAll body
  | .block pos body => .block pos body :: Stmt.insideAll body
  | s => [s]

def Alternative.inside : Alternative → List Stmt
  | .none => []
  | .otherwise body => Stmt.insideAll body
  | .elif _ body rest => Stmt.insideAll body ++ rest.inside

def Stmt.insideAll : List Stmt → List Stmt
  | [] => []
  | s :: ss => s.inside ++ Stmt.insideAll ss

end

def TokenKind.punctuates : TokenKind → Bool
  | .lparen | .rparen | .comma | .colon | .newline | .indent | .dedent | .eof => true
  | _ => false

/-- Whether a token is the sign of an assignment, a parenthesis, a comma, a colon or of layout. -/
def Token.punctuates (t : Token) : Bool := t.isOp "=" || t.kind.punctuates

theorem Role.IsAt.not_punctuates {r : Role} {t : Token} (h : r.IsAt t) : t.punctuates = false := by
  have hkind : ∀ {kind : TokenKind}, t.kind = kind → kind ≠ .op → kind.punctuates = false →
      t.punctuates = false := by
    rintro kind rfl hop hkind
    simp [Token.punctuates, Token.isOp, hop, hkind]
  have hsign : ∀ {w : String}, t.lexeme = w → w ≠ "=" → t.kind = .op → t.punctuates = false := by
    rintro w rfl hne hop
    simp [Token.punctuates, Token.isOp, TokenKind.punctuates, hop, hne]
  cases r with
  | keyword word => exact hkind (Grammar.kind_of_isWord h) (by decide) rfl
  | name text => exact hkind h.1 (by decide) rfl
  | node e =>
    obtain ⟨-, h⟩ := h
    cases e with
    | int | float | str | bool | ident | call => exact hkind h.1 (by decide) rfl
    | unary pos op e =>
      cases op with
      | neg => exact hsign h.1 (by decide) h.2
      | not => exact hkind h.2 (by decide) rfl
    | binary pos op l r =>
      obtain ⟨hlexeme, hop | ⟨hname, -⟩⟩ := h
      · refine hsign hlexeme ?_ hop
        rcases op with op | op | op <;> cases op <;> decide
      · exact hkind hname (by decide) rfl

namespace Grammar

/-- The tokens of `ts` before `rest` that do not punctuate have the given roles, one after
another. -/
def Lists (roles : List Role) (ts rest : List Token) : Prop :=
  ∃ seg, ts = seg ++ rest ∧
    List.Forall₂ (fun r t => r.IsAt t) roles (seg.filter fun t => !t.punctuates)

namespace Lists

variable {roles roles' : List Role} {t : Token} {ts mid rest : List Token}

theorem refl (ts : List Token) : Lists [] ts ts := ⟨[], rfl, .nil⟩

theorem append (h : Lists roles ts mid) (h' : Lists roles' mid rest) :
    Lists (roles ++ roles') ts rest := by
  obtain ⟨seg, rfl, hseg⟩ := h
  obtain ⟨seg', rfl, hseg'⟩ := h'
  refine ⟨seg ++ seg', by simp, ?_⟩
  rw [List.filter_append]
  exact List.rel_append hseg hseg'

theorem skip (ht : t.punctuates = true) (h : Lists roles ts rest) : Lists roles (t :: ts) rest := by
  obtain ⟨seg, rfl, hseg⟩ := h
  exact ⟨t :: seg, rfl, by simpa [ht] using hseg⟩

theorem mark {kind : TokenKind} (ht : t.kind = kind) (hkind : kind.punctuates = true)
    (h : Lists roles ts rest) : Lists roles (t :: ts) rest :=
  h.skip (by simp [Token.punctuates, ht, hkind])

theorem sign (ht : t.isOp "=" = true) (h : Lists roles ts rest) : Lists roles (t :: ts) rest :=
  h.skip (by simp [Token.punctuates, ht])

theorem cons {r : Role} (hr : r.IsAt t) (h : Lists roles ts rest) :
    Lists (r :: roles) (t :: ts) rest := by
  obtain ⟨seg, rfl, hseg⟩ := h
  exact ⟨t :: seg, rfl, by simpa [hr.not_punctuates] using ⟨hr, hseg⟩⟩

end Lists

/-- What the lead of a token tells about the token. -/
def Lead.Tells (t : Token) : Lead → Prop
  | .literal e => e.roles = [.node e] ∧ e.IsAt t
  | .paren => t.kind = .lparen
  | .unary op => ∀ e, (Expr.unary t.pos op e).IsAt t
  | .name => t.kind = .identifier
  | .none | .outOfRange => True

theorem lead_tells (t : Token) : (lead t).Tells t := by
  unfold lead
  cases hkind : t.kind with
  | int =>
    dsimp only
    split
    · exact ⟨rfl, rfl, hkind, rfl⟩
    · trivial
  | float => exact ⟨rfl, rfl, hkind, rfl⟩
  | string => exact ⟨rfl, rfl, hkind, rfl⟩
  | lparen => exact hkind
  | op =>
    dsimp only
    split
    · exact fun e => ⟨rfl, by assumption, hkind⟩
    · trivial
  | identifier =>
    dsimp only
    split
    · exact ⟨rfl, rfl, hkind, by assumption⟩
    · split
      · exact ⟨rfl, rfl, hkind, by assumption⟩
      · split
        · exact fun e => ⟨rfl, by assumption, hkind⟩
        · exact hkind
  | _ => trivial

theorem Lead.Tells.of_eq {t : Token} {l : Lead} (h : lead t = l) : l.Tells t := h ▸ lead_tells t

/-! What the readers list. -/

theorem roles_binary (pos : Pos) (op : BinaryOp) (l r : Expr) :
    (Expr.binary pos op l r).roles = l.roles ++ .node (.binary pos op l r) :: r.roles := by
  simp [Expr.roles, Expr.nodes]

/-- The tokens of `ts` before `rest` have the roles of what is to be read. Where operators are to be
read, the expression before them has been listed already. -/
def Goal.Lists (ts rest : List Token) : Goal → Prop
  | .expr _ e | .operand e => Grammar.Lists e.roles ts rest
  | .operators _ left e => ∃ roles, e.roles = left.roles ++ roles ∧ Grammar.Lists roles ts rest
  | .arguments es | .argumentList es => Grammar.Lists ((Expr.nodesAll es).map .node) ts rest

theorem Reads.lists {g : Goal} {ts rest : List Token} (h : Reads g ts rest) : g.Lists ts rest := by
  induction h with
  | @expr level left e ts mid rest _ _ ihOperand ihOperators =>
    obtain ⟨roles, heq, hroles⟩ := ihOperators
    show Grammar.Lists e.roles ts rest
    rw [heq]
    exact Lists.append ihOperand hroles
  | @stop level left ts => exact ⟨[], by simp, .refl ts⟩
  | @step level left right e op t ts mid rest hop _ _ _ ihExpr ihOperators =>
    obtain ⟨roles, heq, hroles⟩ := ihOperators
    refine ⟨.node (.binary t.pos op left right) :: (right.roles ++ roles), ?_, ?_⟩
    · rw [heq, roles_binary]
      simp
    · have hspells := Layered.binaryOp?_eq_some.mp hop
      refine .cons ⟨rfl, ?_⟩ (Lists.append ihExpr hroles)
      simpa [Layered.spells] using hspells
  | @literal e t ts hlead =>
    obtain ⟨heq, hat⟩ := Lead.Tells.of_eq hlead
    show Grammar.Lists e.roles (t :: ts) ts
    rw [heq]
    exact .cons hat (.refl ts)
  | @sign e op t ts rest hlead _ ih => exact .cons (Lead.Tells.of_eq hlead e) ih
  | @paren e t close ts rest hlead _ hclose ih =>
    refine .mark (Lead.Tells.of_eq hlead) rfl ?_
    have hend := Lists.mark hclose rfl (.refl rest)
    simpa using Lists.append ih hend
  | @name t ts hlead => exact .cons ⟨rfl, Lead.Tells.of_eq hlead, rfl⟩ (.refl ts)
  | @call es t opening ts rest hlead hopening _ ih =>
    refine .cons ⟨rfl, Lead.Tells.of_eq hlead, rfl⟩ ?_
    exact .mark hopening rfl ih
  | @noArguments close rest hclose =>
    exact .mark hclose rfl (.refl rest)
  | someArguments _ ih => exact ih
  | @lastArgument e close ts rest _ hclose ih =>
    have hend := Lists.mark hclose rfl (.refl rest)
    simpa [Goal.Lists, Expr.nodesAll, Expr.roles] using Lists.append ih hend
  | @argument e es comma ts mid rest _ hcomma _ ih ihList =>
    have hlist := Lists.mark hcomma rfl ihList
    simpa [Goal.Lists, Expr.nodesAll, Expr.roles] using Lists.append ih hlist

theorem IsExpr.lists {e : Expr} {ts rest : List Token} (h : IsExpr e ts rest) :
    Lists e.roles ts rest := (reads_of_expr h).lists

theorem Ends.lists {s : Stmt} {ts rest : List Token} (h : Ends s ts rest) : Lists [] ts rest := by
  cases h with
  | newline ht => exact .mark ht rfl (.refl _)
  | before | closed => exact .refl _

theorem Newlines.lists {ts rest : List Token} (h : Newlines ts rest) : Lists [] ts rest := by
  obtain ⟨lines, rfl, hlines⟩ := h
  induction lines with
  | nil => exact .refl rest
  | cons t lines ih =>
    rw [List.forall_mem_cons] at hlines
    exact .mark hlines.1 rfl (ih hlines.2)

def Phrase.roles : Phrase → List Role
  | .statement s => s.roles
  | .alternatives a => a.roles
  | .parameters ps | .parameterList ps => ps.flatMap Param.roles
  | .block body | .lines body => Stmt.rolesAll body

theorem Derives.lists {phrase : Phrase} {ts rest : List Token} (h : Derives phrase ts rest) :
    Lists phrase.roles ts rest := by
  induction h with
  | var hword hname hsign hinit | «let» hword hname hsign hinit =>
    exact .cons hword (.cons ⟨hname, rfl⟩ (.sign hsign hinit.lists))
  | cond hword htest _ _ ihBody ihRest | elif hword htest _ _ ihBody ihRest =>
    exact .cons hword ((htest.lists.append ihBody).append ihRest)
  | loop hword hname hin hrange hopening hstart hcomma hstop hclose _ ih =>
    have hbounds := hstart.lists.append (.mark hcomma rfl hstop.lists)
    have hbody := hbounds.append (.mark hclose rfl ih)
    exact .cons hword (.cons ⟨hname, rfl⟩ (.cons hin (.cons hrange (.mark hopening rfl hbody))))
  | proc hword hname _ _ ihParams ihBody =>
    exact .cons hword (.cons ⟨hname, rfl⟩ (ihParams.append ihBody))
  | ret hword hvalue => exact .cons hword hvalue.lists
  | assign _ hname hsign hvalue =>
    exact .cons ⟨hname, rfl⟩ (.sign hsign hvalue.lists)
  | expr _ _ he => exact he.lists
  | noParameters hopening hclose =>
    exact .mark hopening rfl (.mark hclose rfl (.refl _))
  | someParameters hopening _ ih => exact .mark hopening rfl ih
  | lastParameter hname hcolon htype hclose =>
    exact .cons ⟨hname, rfl⟩ (.mark hcolon rfl (.cons ⟨htype, rfl⟩ (.mark hclose rfl (.refl _))))
  | parameter hname hcolon htype hcomma _ ih =>
    exact .cons ⟨hname, rfl⟩ (.mark hcolon rfl (.cons ⟨htype, rfl⟩ (.mark hcomma rfl ih)))
  | noAlternative => exact .refl _
  | otherwise hword _ ih => exact .cons hword ih
  | block hcolon hline hopening _ ih =>
    exact .mark hcolon rfl (.mark hline rfl (.mark hopening rfl ih))
  | close hclose => exact .mark hclose rfl (.refl _)
  | blank hline _ ih => exact .mark hline rfl ih
  | line _ hend _ ihStatement ihBody => exact ihStatement.append (hend.lists.append ihBody)

theorem Items.lists {ts : List Token} {p : Program} (h : Items ts p) :
    Lists (Stmt.rolesAll p) ts [] := by
  induction h with
  | stop ht => exact .mark ht rfl (.refl [])
  | item hs hend hlines _ ih => exact hs.lists.append (hend.lists.append (hlines.lists.append ih))

/-! Where statements begin. -/

theorem Derives.starts {s : Stmt} {ts rest : List Token} (h : Derives (.statement s) ts rest) :
    (peek ts).pos = s.pos := by
  cases h <;> rfl

theorem Passes.suffix {ts rest : List Token} (h : Passes ts rest) : rest <:+ ts := by
  obtain ⟨seg, rfl, -⟩ := h
  exact List.suffix_append seg rest

/-- Some of the tokens of `ts` before `rest` form the statement. -/
def Holds (ts rest : List Token) (s : Stmt) : Prop :=
  ∃ ts' rest', ts' <:+ ts ∧ rest <:+ rest' ∧ Derives (.statement s) ts' rest'

theorem Derives.holds_self {s : Stmt} {ts rest : List Token}
    (h : Derives (.statement s) ts rest) : Holds ts rest s :=
  ⟨ts, rest, List.suffix_refl ts, List.suffix_refl rest, h⟩

theorem Holds.mono {s : Stmt} {ts rest ts' rest' : List Token} (h : Holds ts rest s)
    (hts : ts <:+ ts') (hrest : rest' <:+ rest) : Holds ts' rest' s := by
  obtain ⟨us, after, hus, hafter, hs⟩ := h
  exact ⟨us, after, hus.trans hts, hrest.trans hafter, hs⟩

def Phrase.statements : Phrase → List Stmt
  | .statement s => s.inside
  | .alternatives a => a.inside
  | .parameters _ | .parameterList _ => []
  | .block body | .lines body => Stmt.insideAll body

theorem Derives.holds {phrase : Phrase} {ts rest : List Token} (h : Derives phrase ts rest) :
    ∀ s ∈ phrase.statements, Holds ts rest s := by
  have hsuffix : ∀ {phrase : Phrase} {ts rest : List Token}, Derives phrase ts rest → rest <:+ ts :=
    fun h => h.passes.suffix
  induction h with
  | var hword hname hsign hinit =>
    exact List.forall_mem_singleton.mpr (Derives.var hword hname hsign hinit).holds_self
  | «let» hword hname hsign hinit =>
    exact List.forall_mem_singleton.mpr (Derives.let hword hname hsign hinit).holds_self
  | ret hword hvalue => exact List.forall_mem_singleton.mpr (Derives.ret hword hvalue).holds_self
  | assign hplain hname hsign hvalue =>
    exact List.forall_mem_singleton.mpr (Derives.assign hplain hname hsign hvalue).holds_self
  | expr hplain hassign he =>
    exact List.forall_mem_singleton.mpr (Derives.expr hplain hassign he).holds_self
  | @cond word test body a ts afterTest afterBody rest hword htest hbody hrest ihBody ihRest =>
    have hts : afterTest <:+ word :: ts := htest.passes.suffix.trans (List.suffix_cons word ts)
    refine List.forall_mem_cons.mpr ⟨(Derives.cond hword htest hbody hrest).holds_self, ?_⟩
    refine List.forall_mem_append.mpr ⟨fun s hs => ?_, fun s hs => ?_⟩
    · exact (ihBody s hs).mono hts (hsuffix hrest)
    · exact (ihRest s hs).mono ((hsuffix hbody).trans hts) (List.suffix_refl rest)
  | @loop word name inWord rangeWord opening comma close start stop body ts afterComma afterClose
      rest hword hname hin hrange hopening hstart hcomma hstop hclose hbody ih =>
    have hts : afterClose <:+ word :: name :: inWord :: rangeWord :: opening :: ts := by
      have hstop' := (List.suffix_cons close afterClose).trans hstop.passes.suffix
      have hstart' := (List.suffix_cons comma afterComma).trans hstart.passes.suffix
      exact (hstop'.trans hstart').trans
        (List.suffix_append [word, name, inWord, rangeWord, opening] ts)
    refine List.forall_mem_cons.mpr ⟨(Derives.loop hword hname hin hrange hopening hstart hcomma
      hstop hclose hbody).holds_self, fun s hs => ?_⟩
    exact (ih s hs).mono hts (List.suffix_refl rest)
  | @proc word name params body ts afterParams rest hword hname hparams hbody _ ih =>
    have hts : afterParams <:+ word :: name :: ts :=
      (hsuffix hparams).trans (List.suffix_append [word, name] ts)
    refine List.forall_mem_cons.mpr
      ⟨(Derives.proc hword hname hparams hbody).holds_self, fun s hs => ?_⟩
    exact (ih s hs).mono hts (List.suffix_refl rest)
  | noParameters | someParameters | lastParameter | parameter => exact List.forall_mem_nil _
  | noAlternative | close => exact List.forall_mem_nil _
  | @otherwise word body ts rest _ _ ih =>
    exact fun s hs => (ih s hs).mono (List.suffix_cons word ts) (List.suffix_refl rest)
  | @elif word test body a ts afterTest afterBody rest _ htest hbody hrest ihBody ihRest =>
    have hts : afterTest <:+ word :: ts := htest.passes.suffix.trans (List.suffix_cons word ts)
    refine List.forall_mem_append.mpr ⟨fun s hs => ?_, fun s hs => ?_⟩
    · exact (ihBody s hs).mono hts (hsuffix hrest)
    · exact (ihRest s hs).mono ((hsuffix hbody).trans hts) (List.suffix_refl rest)
  | @block colon line opening body ts rest _ _ _ _ ih =>
    exact fun s hs => (ih s hs).mono (List.suffix_append [colon, line, opening] ts)
      (List.suffix_refl rest)
  | @blank line body ts rest _ _ ih =>
    exact fun s hs => (ih s hs).mono (List.suffix_cons line ts) (List.suffix_refl rest)
  | @line s body ts afterStatement afterEnd rest hs hend hbody ihStatement ihBody =>
    have hafter : afterEnd <:+ afterStatement := hend.passes.suffix
    refine List.forall_mem_append.mpr ⟨fun s hs => ?_, fun s' hs' => ?_⟩
    · exact (ihStatement s hs).mono (List.suffix_refl ts) ((hsuffix hbody).trans hafter)
    · exact (ihBody s' hs').mono (hafter.trans (hsuffix hs)) (List.suffix_refl rest)

theorem Items.holds {ts : List Token} {p : Program} (h : Items ts p) :
    ∀ s ∈ Stmt.insideAll p, Holds ts [] s := by
  induction h with
  | stop => exact List.forall_mem_nil _
  | @item s p ts afterStatement afterEnd rest hs hend hlines _ ih =>
    have hrest : rest <:+ ts :=
      (hlines.passes.suffix.trans hend.passes.suffix).trans hs.passes.suffix
    refine List.forall_mem_append.mpr ⟨fun s' hs' => ?_, fun s' hs' => ?_⟩
    · exact (hs.holds s' hs').mono (List.suffix_refl ts) List.nil_suffix
    · exact (ih s' hs').mono hrest List.nil_suffix

/-- A statement that is held somewhere has tokens of its own, and the first of them its place. -/
theorem Holds.exists_own {s : Stmt} {ts rest : List Token} (h : Holds ts rest s) :
    ∃ before own after, ts = before ++ own ++ after ∧
      Derives (.statement s) (own ++ after) after ∧ own.head?.map Token.pos = some s.pos := by
  obtain ⟨ts', after, ⟨before, rfl⟩, -, hs⟩ := h
  obtain ⟨own, rfl, -⟩ := hs.passes
  refine ⟨before, own, after, (List.append_assoc ..).symm, hs, ?_⟩
  cases own with
  | nil => exact absurd (length_lt_of_plain hs.read) (Nat.lt_irrefl _)
  | cons t own => exact congrArg some hs.starts

end Grammar

/-! Places in order. -/

def Pos.Before (p q : Pos) : Prop := p.line < q.line ∨ p.line = q.line ∧ p.col < q.col

theorem Pos.behind_before (before : List Char) {word : List Char} (h : word ≠ []) :
    (Pos.behind before).Before (Pos.behind (before ++ word)) := by
  by_cases hline : '\n' ∈ word
  · left
    have hcount : 0 < word.count '\n' := List.count_pos_iff.mpr hline
    simp only [Pos.behind, List.count_append]
    omega
  · right
    obtain ⟨c, cs, rfl⟩ := List.exists_cons_of_ne_nil h
    have hunit := Text.unitCount_pos c
    rw [Pos.behind_append hline, Text.width_cons]
    exact ⟨rfl, by dsimp only; omega⟩

theorem Token.SitsOn.pos_before {cs : List Char} {s s' : Span} {t t' : Token}
    (h : t.SitsOn cs s) (h' : t'.SitsOn cs s') (hbefore : s.Before s') :
    t.pos.Before t'.pos := by
  have hlength : 0 < s.text.length := List.length_pos_iff.mpr h.ne_nil
  obtain ⟨between, hstart⟩ := Nat.exists_eq_add_of_le hbefore
  have hsplit : cs.take s'.start =
      cs.take s.start ++ (cs.drop s.start).take (s.text.length + between) := by
    rw [hstart, Span.stop, Nat.add_assoc, List.take_add]
  rw [h.pos, h'.pos, hsplit]
  refine Pos.behind_before _ fun hnil => ?_
  obtain ⟨rest, hreads⟩ := h.reads
  rw [← hreads, List.take_eq_nil_iff] at hnil
  rcases hnil with hnil | hnil
  · omega
  · exact h.ne_nil (List.append_eq_nil_iff.mp hnil).1

/-- Tokens that sit on words one behind another tell places one behind another. -/
theorem Tiles.pos_before {cs : List Char} {offset : Nat} {ts : List Token}
    {words comments : List Span} (h : Tiles cs offset ts words comments) :
    ts.Pairwise fun t u => t.pos.Before u.pos := by
  obtain ⟨hlength, hsits⟩ := List.forall₂_iff_get.mp h.tokens
  rw [List.pairwise_iff_getElem]
  intro i j hi hj hij
  rw [← hlength] at hi hj
  exact (hsits i hi _).pos_before (hsits j hj _)
    (List.pairwise_iff_getElem.mp h.ordered i j hi hj hij)

theorem Token.ofSource_pos_before {source : String} {ts : List Token}
    (h : Token.ofSource source = .ok ts) :
    (ts.filter Token.isCode).Pairwise fun t u => t.pos.Before u.pos := by
  obtain ⟨words, comments, htiles⟩ :=
    Token.ofLines_tiled h (fun l hl => Token.newline_notMem_of_mem_lines hl) [] rfl
  exact htiles.pos_before

theorem Token.isCode_of_not_punctuates {t : Token} (h : t.punctuates = false) :
    t.isCode = true := by
  unfold Token.punctuates at h
  unfold Token.isCode
  cases hkind : t.kind <;> simp_all [TokenKind.punctuates, TokenKind.isLayout]

theorem filter_punctuates_sublist (ts : List Token) :
    (ts.filter fun t => !t.punctuates).Sublist (ts.filter Token.isCode) := by
  refine List.monotone_filter_right ts fun t ht => ?_
  exact Token.isCode_of_not_punctuates (by simpa using ht)

/-- The nodes among the roles have the tokens among those of the roles. -/
theorem exists_carriers {roles : List Role} {ts : List Token}
    (h : List.Forall₂ (fun r t => Role.IsAt t r) roles ts) :
    ∃ carriers, carriers.Sublist ts ∧
      List.Forall₂ Expr.IsAt (roles.filterMap Role.node?) carriers := by
  induction h with
  | nil => exact ⟨[], List.Sublist.refl [], .nil⟩
  | @cons r t roles ts hr _ ih =>
    obtain ⟨carriers, hsub, hcarriers⟩ := ih
    cases r with
    | node e => exact ⟨t :: carriers, hsub.cons_cons t, .cons hr hcarriers⟩
    | keyword | name => exact ⟨carriers, hsub.cons t, hcarriers⟩

/-- The program keeps what the tokens say, where they say it. -/
structure Program.Keeps (p : Program) (ts : List Token) : Prop where
  /-- The tokens that do not punctuate are, one for one and in order, the nodes, the words and the
  names of the program. -/
  words : List.Forall₂ (fun r t => Role.IsAt t r) (Stmt.rolesAll p)
    (ts.filter fun t => !t.punctuates)
  /-- The nodes in the order of the source are at tokens that stand one behind another. -/
  nodes : ∃ carriers, carriers.Sublist ts ∧ (carriers.Pairwise fun t u => t.pos.Before u.pos) ∧
    List.Forall₂ Expr.IsAt p.nodes carriers
  /-- Every statement, however deep, is formed by tokens of the list and placed at their first. -/
  statements : ∀ s ∈ Stmt.insideAll p, ∃ before own after, ts = before ++ own ++ after ∧
    Grammar.Derives (.statement s) (own ++ after) after ∧ own.head?.map Token.pos = some s.pos

/-- A text that holds a program is kept in it, token by token. -/
theorem Program.ofSource_keeps {source : String} {p : Program}
    (h : Program.ofSource source = .ok p) :
    ∃ ts, Token.ofSource source = .ok ts ∧ p.Keeps ts := by
  obtain ⟨ts, hts, hp⟩ := Program.ofSource_eq_ok.mp h
  have hended : Token.Ended ts := Token.ended_of_ofLines (Token.lines_ne_nil _) hts
  obtain ⟨items, hlines, hitems⟩ := Grammar.derivable_of_statements hended hp
  obtain ⟨seg, hseg, hroles⟩ := hlines.lists.append hitems.lists
  rw [List.append_nil] at hseg
  subst hseg
  obtain ⟨carriers, hsub, hcarriers⟩ := exists_carriers hroles
  have hordered := (Token.ofSource_pos_before hts).sublist
    (hsub.trans (filter_punctuates_sublist ts))
  refine ⟨ts, hts, hroles, ⟨carriers, hsub.trans List.filter_sublist, hordered, hcarriers⟩, ?_⟩
  intro s hs
  exact ((hitems.holds s hs).mono hlines.passes.suffix (List.suffix_refl [])).exists_own

/-- Operators read after their left operands, and a statement that begins with a parenthesis. -/
theorem Program.ofSource_keeps_loop :
    let source := "for i in range(1, n):\n  (a) - -f(i) * 2.5"
    let p : Program :=
      [.loop ⟨1, 1⟩ "i" (.int ⟨1, 16⟩ (.ofNat 1)) (.ident ⟨1, 19⟩ "n")
        [.expr ⟨2, 3⟩ (.binary ⟨2, 7⟩ (.arith .sub) (.ident ⟨2, 4⟩ "a")
          (.binary ⟨2, 15⟩ (.arith .mul)
            (.unary ⟨2, 9⟩ .neg (.call ⟨2, 10⟩ "f" [.ident ⟨2, 12⟩ "i"]))
            (.float ⟨2, 17⟩ (Number.read "2.5"))))]]
    Program.ofSource source = .ok p ∧
      p.nodes.map Expr.pos = [⟨1, 16⟩, ⟨1, 19⟩, ⟨2, 4⟩, ⟨2, 7⟩, ⟨2, 9⟩, ⟨2, 10⟩, ⟨2, 12⟩, ⟨2, 15⟩,
        ⟨2, 17⟩] ∧
      ∃ ts, Token.ofSource source = .ok ts ∧ p.Keeps ts := by
  intro source p
  have h : Program.ofSource source = .ok p := by decide +kernel
  exact ⟨h, rfl, Program.ofSource_keeps h⟩

end SceneScript
