import SceneScript.Proofs.Program.Listing
import SceneScript.Proofs.Token.Hollow

/-! Blocks that hold something. A block opens before a line with code, so that its first statement
follows the opening directly, unless that line is hollow: then the end of the line follows, and the
block may close with nothing in it. Where lines carry code, no block of a program is empty. -/

namespace SceneScript

/-- The blocks of the branches. -/
def Alternative.blocks : Alternative → List (List Stmt)
  | .none => []
  | .otherwise body => [body]
  | .elif _ body rest => body :: rest.blocks

/-- The blocks of a conditional, a loop or a procedure, without those inside them. -/
def Stmt.blocks : Stmt → List (List Stmt)
  | .cond _ _ body rest => body :: rest.blocks
  | .loop _ _ _ _ body | .proc _ _ _ body => [body]
  | _ => []

namespace Token

/-- Behind the opening of a block stands neither the end of a line nor a closing. -/
def OpensCode (t u : Token) : Prop := t.kind = .indent → u.kind ≠ .newline ∧ u.kind ≠ .dedent

/-! Openings. -/

theorem isChain_of_ne_indent {ts : List Token} (h : ∀ t ∈ ts, t.kind ≠ .indent) :
    ts.IsChain fun t u => t.kind = .indent → u.kind ≠ .dedent :=
  (List.pairwise_of_forall_mem_list fun t ht _ _ hindent => absurd hindent (h t ht)).isChain

theorem ofLine_isChain {blocks left : Layout.Blocks} {line : Int} {ended : Bool} {cs : List Char}
    {ts : List Token} (h : ofLine blocks line ended cs = .ok (left, ts)) :
    ts.IsChain fun t u => t.kind = .indent → u.kind ≠ .dedent := by
  rcases ofLine_tokens h with rfl | ⟨change, start, stop, code, hcode, rfl⟩
  · exact List.isChain_nil
  · have hbehind : ∀ t ∈ code ++ [newline stop], t.kind ≠ .indent ∧ t.kind ≠ .dedent := by
      refine List.forall_mem_append.mpr ⟨fun t ht => ⟨?_, ?_⟩, by simp [newline]⟩
      · exact (Grammar.kind_ne_of_isLayout rfl (hcode t ht)).symm
      · exact (Grammar.kind_ne_of_isLayout rfl (hcode t ht)).symm
    have hchain := isChain_of_ne_indent fun t ht => (hbehind t ht).1
    cases change with
    | opens =>
      exact List.isChain_cons.mpr
        ⟨fun u hu _ => (hbehind u (List.mem_of_mem_head? hu)).2, hchain⟩
    | closes count =>
      have hcloses : ∀ t ∈ List.replicate count (dedent start), t.kind = .dedent := by
        intro t ht
        rw [List.eq_of_mem_replicate ht]
        rfl
      refine List.isChain_append.mpr ⟨isChain_of_ne_indent fun t ht => ?_, hchain, ?_⟩
      · rw [hcloses t ht]
        decide
      · intro t ht u _ hindent
        rw [hcloses t (List.mem_of_getLast? ht)] at hindent
        cases hindent

/-- No block is closed directly behind its opening. -/
theorem ofLines_isChain {blocks : Layout.Blocks} {line : Int} {ls : List (List Char)}
    {ts : List Token} (h : ofLines blocks line ls = .ok ts) :
    ts.IsChain fun t u => t.kind = .indent → u.kind ≠ .dedent := by
  induction ls generalizing blocks line ts with
  | nil =>
    cases h
    exact List.isChain_nil
  | cons cs rest ih =>
    obtain ⟨left, tokens, later, hline, rfl, hlater⟩ := ofLines_cons_eq_ok h
    refine List.isChain_append.mpr ⟨ofLine_isChain hline, ?_, fun t ht u _ hindent => ?_⟩
    · rcases hlater with ⟨-, rfl⟩ | ⟨-, hts⟩
      · refine isChain_of_ne_indent fun t ht => ?_
        rcases kind_of_mem_closings ht with hkind | hkind <;> rw [hkind] <;> decide
      · exact ih hts
    · rw [getLast?_ofLine hline t ht] at hindent
      cases hindent

theorem isChain_opensCode {ts : List Token} (hends : ts.IsChain EndsCode)
    (hopens : ts.IsChain fun t u => t.kind = .indent → u.kind ≠ .dedent) :
    ts.IsChain OpensCode := by
  induction ts with
  | nil => exact List.isChain_nil
  | cons t ts ih =>
    rw [List.isChain_cons] at hends hopens ⊢
    refine ⟨fun u hu hindent => ⟨fun hline => ?_, hopens.1 u hu hindent⟩, ih hends.2 hopens.2⟩
    exact (hends.1 u hu hline).2.1 hindent

end Token

/-! Blocks. -/

namespace Grammar

open Token (OpensCode)

theorem Derives.block_ne_nil {body : List Stmt} {ts rest : List Token}
    (h : Derives (.block body) ts rest) (hts : ts.IsChain OpensCode) : body ≠ [] := by
  cases h with
  | block hcolon hline hopening hbody =>
    have hchain := hts.tail.tail
    cases hbody with
    | close hclose => exact absurd hclose ((List.isChain_cons_cons.mp hchain).1 hopening).2
    | blank hline' => exact absurd hline' ((List.isChain_cons_cons.mp hchain).1 hopening).1
    | line => exact List.cons_ne_nil _ _

theorem Derives.branches_ne_nil {a : Alternative} {ts rest : List Token}
    (h : Derives (.alternatives a) ts rest) (hts : ts.IsChain OpensCode) :
    ∀ body ∈ a.blocks, body ≠ [] := by
  fun_induction Alternative.blocks a generalizing ts with
  | case1 => simp
  | case2 body =>
    cases h with
    | otherwise _ hbody => exact List.forall_mem_singleton.mpr (hbody.block_ne_nil hts.tail)
  | case3 test body a ih =>
    cases h with
    | elif _ htest hbody ha =>
      have hbehind := hts.tail.suffix htest.passes.suffix
      exact List.forall_mem_cons.mpr
        ⟨hbody.block_ne_nil hbehind, ih ha (hbehind.suffix hbody.passes.suffix)⟩

theorem Derives.blocks_ne_nil {s : Stmt} {ts rest : List Token}
    (h : Derives (.statement s) ts rest) (hts : ts.IsChain OpensCode) :
    ∀ body ∈ s.blocks, body ≠ [] := by
  cases h with
  | var | «let» | ret | assign | expr => exact List.forall_mem_nil _
  | cond _ htest hbody ha =>
    have hbehind := hts.tail.suffix htest.passes.suffix
    exact List.forall_mem_cons.mpr ⟨hbody.block_ne_nil hbehind,
      ha.branches_ne_nil (hbehind.suffix hbody.passes.suffix)⟩
  | loop _ _ _ _ _ hstart _ hstop _ hbody =>
    have hbehind := hts.tail.tail.tail.tail.tail.suffix hstart.passes.suffix
    have hclose := hbehind.tail.suffix hstop.passes.suffix
    exact List.forall_mem_singleton.mpr (hbody.block_ne_nil hclose.tail)
  | proc _ _ hparams hbody =>
    have hbehind := hts.tail.tail.suffix hparams.passes.suffix
    exact List.forall_mem_singleton.mpr (hbody.block_ne_nil hbehind)

end Grammar

theorem Program.blocks_ne_nil {source : String} {ts : List Token} {p : Program}
    (hts : Token.ofSource source = .ok ts) (hcarry : Token.LinesCarry ts)
    (h : Program.ofTokens ts = .ok p) :
    ∀ s ∈ Stmt.insideAll p, ∀ body ∈ s.blocks, body ≠ [] := by
  intro s hs
  have hended : Token.Ended ts := Token.ended_of_ofLines (Token.lines_ne_nil _) hts
  obtain ⟨items, hlines, hitems⟩ := Grammar.derivable_of_statements hended h
  obtain ⟨own, rest, hown, -, hstatement⟩ := hitems.holds s hs
  have hchain := Token.isChain_opensCode hcarry.next (Token.ofLines_isChain hts)
  exact hstatement.blocks_ne_nil (hchain.suffix (hown.trans hlines.passes.suffix))

/-- A bare line of a text has an end among the tokens when it is hollow and not a last line that is
level with the code before it. Every line carries code when the text has no such line, and only
then; and where every line does, no block of the program is empty. -/
theorem Program.ofSource_lines_carry {source : String} {ts : List Token}
    (h : Token.ofSource source = .ok ts) :
    (∀ above cs below, Token.lines source.toList = above ++ cs :: below → Token.IsBare cs →
      ((∃ t ∈ ts, t.kind = .newline ∧ t.pos.line = 1 + above.length) ↔
        Token.IsHollow cs ∧ ¬ Token.EndsLevel above cs below)) ∧
      (Token.LinesCarry ts ↔ ∀ above cs below,
        Token.lines source.toList = above ++ cs :: below → Token.IsHollow cs →
          Token.EndsLevel above cs below) ∧
      (Token.LinesCarry ts → ∀ p, Program.ofSource source = .ok p →
        ∀ s ∈ Stmt.insideAll p, ∀ body ∈ s.blocks, body ≠ []) := by
  refine ⟨fun above cs below => Token.ofSource_newline_iff h, ?_, fun hcarry p hp => ?_⟩
  · exact Token.ofLines_linesCarry .start h
  · obtain ⟨ts', hts', hread⟩ := Program.ofSource_eq_ok.mp hp
    cases hts'.symm.trans h
    exact Program.blocks_ne_nil h hcarry hread

/-- A line with one carriage return in a block, which has no end among the tokens, and a hollow line
behind it that is level with the code before. -/
theorem Program.ofSource_lines_carry_level :
    let source := "if a:\n\t\r# b\n  c\r\n  \r\r"
    let ts : List Token := [⟨.identifier, "if", ⟨1, 1⟩⟩, ⟨.identifier, "a", ⟨1, 4⟩⟩,
      ⟨.colon, ":", ⟨1, 5⟩⟩, .newline ⟨1, 6⟩, .indent ⟨3, 3⟩, ⟨.identifier, "c", ⟨3, 3⟩⟩,
      .newline ⟨3, 5⟩, .dedent ⟨4, 5⟩, .eof ⟨4, 5⟩]
    Token.ofSource source = .ok ts ∧
      ¬ (∃ t ∈ ts, t.kind = .newline ∧ t.pos.line = 1 + ["if a:".toList].length) ∧
      Token.EndsLevel ["if a:".toList, "\t\r# b".toList, "  c\r".toList] "  \r\r".toList [] ∧
      ∀ p, Program.ofSource source = .ok p → ∀ s ∈ Stmt.insideAll p, ∀ body ∈ s.blocks,
        body ≠ [] := by
  intro source ts
  have h : Token.ofSource source = .ok ts := by decide +kernel
  have hcarry : Token.LinesCarry ts := ⟨by decide, by decide⟩
  obtain ⟨hends, hiff, hblocks⟩ := Program.ofSource_lines_carry h
  have hlines : Token.lines source.toList =
      ["if a:".toList, "\t\r# b".toList, "  c\r".toList, "  \r\r".toList] := by decide +kernel
  have hbare : Token.IsBare "\t\r# b".toList :=
    ⟨['\t', '\r'], "# b".toList, rfl, by simp [Token.isGap], by simp⟩
  have hhollow : Token.IsHollow "  \r\r".toList :=
    ⟨[' ', ' '], ['\r'], rfl, by simp, ⟨['\r'], [], rfl, by simp [Token.isGap], .inl rfl⟩, '\r',
      rfl, rfl⟩
  refine ⟨h, fun hend => ?_, hiff.mp hcarry _ _ _ hlines hhollow, hblocks hcarry⟩
  have hnot := ((hends ["if a:".toList] _ _ hlines hbare).mp hend).1
  exact ((Token.isHollow_iff _).mp hnot).2 rfl

/-- Lines of two carriage returns: one that is the first token, and one that is the whole block of a
conditional. -/
theorem Program.hollow_lines_end :
    (Token.IsBare "\r\r".toList ∧
      Token.ofSource "\r\r\n" = .ok [.newline ⟨1, 3⟩, .eof ⟨2, 1⟩] ∧
      ¬ Token.LinesCarry [.newline ⟨1, 3⟩, .eof ⟨2, 1⟩]) ∧
    Program.ofSource "if x:\n  \r\r\n" = .ok [.cond ⟨1, 1⟩ (.ident ⟨1, 4⟩ "x") [] .none] := by
  have hbare : Token.IsBare "\r\r".toList :=
    ⟨['\r', '\r'], [], rfl, by simp [Token.isGap], .inl rfl⟩
  exact ⟨⟨hbare, by decide +kernel, fun hcarry => hcarry.first _ rfl rfl⟩, by decide +kernel⟩

end SceneScript
