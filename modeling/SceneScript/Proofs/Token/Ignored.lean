import SceneScript.Proofs.Program.Append
import SceneScript.Proofs.Token.Trailing

/-! What reading a text passes over. A line without code may be added anywhere and moves what stands
below it; spaces, tabs and a comment may be added to any line, and carriage returns to all of them,
and move nothing but the ends of lines. -/

namespace SceneScript

/-- A place in a text that has got one more line before the given one. -/
def Pos.pushed (line : Int) (p : Pos) : Pos := if line ≤ p.line then p.down 1 else p

theorem Pos.pushed_of_lt {line : Int} {p : Pos} (h : p.line < line) : p.pushed line = p :=
  if_neg (Int.not_le.mpr h)

theorem Pos.pushed_of_le {line : Int} {p : Pos} (h : line ≤ p.line) : p.pushed line = p.down 1 :=
  if_pos h

namespace Token

/-- Spaces and tabs in one line, and behind them perhaps a comment. -/
def IsFiller (cs : List Char) : Prop :=
  '\n' ∉ cs ∧ ∃ gap comment, cs = gap ++ comment ∧ (∀ c ∈ gap, c = ' ' ∨ c = '\t') ∧
    (comment = [] ∨ ∃ text, comment = '#' :: text)

theorem IsFiller.isBlank {cs : List Char} (h : IsFiller cs) : IsBlank cs := by
  obtain ⟨-, gap, comment, rfl, hgap, hcomment⟩ := h
  refine isBlank_of_comment (fun c hc => ?_) fun c hc => ?_
  · rcases hgap c hc with rfl | rfl <;> rfl
  · rcases hcomment with rfl | ⟨text, rfl⟩ <;> cases hc
    rfl

/-! The lines of tokens. -/

theorem ofLine_line {l : Layout.Line} {blocks blocks' : Layout.Blocks} {ended : Bool}
    {ts : List Token} (h : ofLine blocks l.number ended l.text = .ok (blocks', ts)) :
    ∀ t ∈ ts, t.pos.line = l.number := by
  cases hcode : l.hasCode with
  | false =>
    cases (Layout.ofLine_blank hcode blocks ended).symm.trans h
    simp
  | true =>
    obtain ⟨change, code, -, hread, rfl⟩ := (Layout.ofLine_eq_ok hcode).mp h
    have htokens : ∀ t ∈ change.tokens l.start ++ code, t.pos.line = l.number := by
      rw [List.forall_mem_append]
      refine ⟨fun t ht => ?_, fun t ht => (ofCode_mem hread t ht).2⟩
      cases change with
      | opens => rw [List.mem_singleton.mp ht]; rfl
      | closes count => rw [List.eq_of_mem_replicate ht]; rfl
    unfold Layout.Line.closed
    split
    · rw [List.forall_mem_append]
      exact ⟨htokens, by simp [newline, Layout.Line.stop, lineEnd]⟩
    · exact htokens

theorem ofLines_line {blocks : Layout.Blocks} {line : Int} {ls : List (List Char)}
    {ts : List Token} (h : ofLines blocks line ls = .ok ts) : ∀ t ∈ ts, line ≤ t.pos.line := by
  induction ls generalizing blocks line ts with
  | nil =>
    cases h
    simp
  | cons cs rest ih =>
    obtain ⟨left, tokens, later, hline, rfl, hlater⟩ := ofLines_cons_eq_ok h
    have htokens := ofLine_line (l := ⟨line, cs⟩) hline
    refine List.forall_mem_append.mpr ⟨fun t ht => (htokens t ht).ge, ?_⟩
    rcases hlater with ⟨-, rfl⟩ | ⟨-, hts⟩
    · rw [List.forall_mem_append, List.forall_mem_singleton]
      refine ⟨fun t ht => ?_, le_rfl⟩
      rw [List.eq_of_mem_replicate ht]
      exact le_rfl
    · intro t ht
      have hle := ih hts t ht
      omega

theorem ofEnded_line {blocks blocks' : Layout.Blocks} {line : Int} {ls : List (List Char)}
    {ts : List Token} (h : ofEnded blocks line ls = .ok (blocks', ts)) :
    ∀ t ∈ ts, t.pos.line < line + ls.length := by
  induction ls generalizing blocks line ts with
  | nil =>
    cases h
    simp
  | cons cs rest ih =>
    obtain ⟨⟨left, tokens⟩, hline, hlater⟩ := bind_eq_ok.mp h
    obtain ⟨⟨left', ts'⟩, hrest, heq⟩ := bind_eq_ok.mp hlater
    cases heq
    have htokens := ofLine_line (l := ⟨line, cs⟩) hline
    simp only [List.forall_mem_append, List.length_cons]
    refine ⟨fun t ht => ?_, fun t ht => ?_⟩
    · have heq := htokens t ht
      simp only at heq
      omega
    · have hlt := ih hrest t ht
      omega

theorem ofEnded_eq_error {blocks : Layout.Blocks} {line : Int} {ls : List (List Char)}
    {e : LexError} (h : ofEnded blocks line ls = .error e) : e.pos.line < line + ls.length := by
  induction ls generalizing blocks line with
  | nil => cases h
  | cons cs rest ih =>
    rw [List.length_cons]
    rcases bind_eq_error.mp h with hline | ⟨next, -, hlater⟩
    · have heq := (Layout.ofLine_eq_error (l := ⟨line, cs⟩) hline).1
      simp only at heq
      omega
    · rcases bind_eq_error.mp hlater with hrest | ⟨next', -, hnext⟩
      · have hlt := ih hrest
        omega
      · cases hnext

/-! One more line. -/

theorem map_pushed_of_lt {line : Int} {ts : List Token} (h : ∀ t ∈ ts, t.pos.line < line) :
    ts.map (mapPos (Pos.pushed line)) = ts := by
  refine (List.map_congr_left fun t ht => ?_).trans (List.map_id ts)
  simp [mapPos, Pos.pushed_of_lt (h t ht)]

theorem map_pushed_of_le {line : Int} {ts : List Token} (h : ∀ t ∈ ts, line ≤ t.pos.line) :
    ts.map (mapPos (Pos.pushed line)) = ts.map (mapPos (Pos.down 1)) := by
  refine List.map_congr_left fun t ht => ?_
  simp [mapPos, Pos.pushed_of_le (h t ht)]

theorem ofLines_blank {cs : List Char} (h : IsBlank cs) (blocks : Layout.Blocks) (line : Int)
    {rest : List (List Char)} (hrest : rest ≠ []) :
    ofLines blocks line (cs :: rest) = ofLines blocks (line + 1) rest := by
  have hcode : Layout.Line.hasCode ⟨line, cs⟩ = false := by
    unfold IsBlank at h
    simp [Layout.Line.hasCode, h]
  have hline : ofLine blocks line true cs = _ := Layout.ofLine_blank hcode blocks true
  rw [ofLines_cons _ _ _ hrest, hline]
  show (ofLines blocks (line + 1) rest >>= fun ts => Except.ok ([] ++ ts)) = _
  cases ofLines blocks (line + 1) rest <;> rfl

/-- A line without code among others moves what stands below it by one line. -/
theorem ofLines_pushed {cs : List Char} (h : IsBlank cs) (blocks : Layout.Blocks) (line : Int)
    (ls : List (List Char)) {rest : List (List Char)} (hrest : rest ≠ []) :
    ofLines blocks line (ls ++ cs :: rest) =
      ((ofLines blocks line (ls ++ rest)).map
        (List.map (mapPos (Pos.pushed (line + ls.length))))).mapError
          (LexError.mapPos (Pos.pushed (line + ls.length))) := by
  rw [ofLines_append _ _ _ hrest, ofLines_append _ _ _ (List.cons_ne_nil _ _)]
  cases hended : ofEnded blocks line ls with
  | error e =>
    have hplace := Pos.pushed_of_lt (ofEnded_eq_error hended)
    exact congrArg (fun p => Except.error (LexError.mk e.cause p)) hplace.symm
  | ok next =>
    have hbehind := ofLines_moved 1 next.1 (line + ls.length) rest
    show (ofLines next.1 (line + ls.length) (cs :: rest) >>= fun ts => Except.ok (next.2 ++ ts)) = _
    rw [ofLines_blank h _ _ hrest, hbehind]
    show _ = Except.mapError _ (Except.map _
      (ofLines next.1 (line + ls.length) rest >>= fun ts => Except.ok (next.2 ++ ts)))
    cases hlater : ofLines next.1 (line + ls.length) rest with
    | error e =>
      have hplace := Pos.pushed_of_le (Layout.le_of_ofLines_eq_error hlater)
      exact congrArg (fun p => Except.error (LexError.mk e.cause p)) hplace.symm
    | ok ts =>
      refine congrArg Except.ok ?_
      rw [List.map_append, map_pushed_of_lt (ofEnded_line hended),
        map_pushed_of_le (ofLines_line hlater)]

/-! Longer lines. -/

/-- The same token on the same line, and at the same place unless it ends a line, closes a block or
ends the text. -/
structure SameWord (t u : Token) : Prop where
  kind : u.kind = t.kind
  lexeme : u.lexeme = t.lexeme
  line : u.pos.line = t.pos.line
  pos : t.kind ≠ .newline → t.kind ≠ .dedent → t.kind ≠ .eof → u.pos = t.pos

theorem SameWord.refl (t : Token) : SameWord t t := ⟨rfl, rfl, rfl, fun _ _ _ => rfl⟩

theorem SameWord.all_refl (ts : List Token) : List.Forall₂ SameWord ts ts :=
  List.forall₂_same.mpr fun t _ => .refl t

theorem SameWord.stretch (columns : Nat) (t : Token) : SameWord t (t.stretch columns) := by
  unfold Token.stretch
  split
  · rename_i hkind
    exact ⟨rfl, rfl, rfl, fun hne => absurd hkind hne⟩
  · exact .refl t

theorem SameWord.all_stretch (columns : Nat) (ts : List Token) :
    List.Forall₂ SameWord ts (ts.map (Token.stretch columns)) :=
  List.forall₂_map_right_iff.mpr (List.forall₂_same.mpr fun t _ => .stretch columns t)

/-- A blank text behind one of some lines keeps the words of all. -/
theorem ofLines_lengthened {cs trail : List Char} (hreturn : '\r' ∉ cs) (htrail : IsBlank trail)
    {blocks : Layout.Blocks} {line : Int} {rest : List (List Char)} {ts : List Token}
    (h : ofLines blocks line (cs :: rest) = .ok ts) :
    ∃ ts', ofLines blocks line ((cs ++ trail) :: rest) = .ok ts' ∧
      List.Forall₂ SameWord ts ts' := by
  have hlonger {ended : Bool} {r : Layout.Blocks × List Token}
      (hline : ofLine blocks line ended cs = .ok r) :
      ofLine blocks line ended (cs ++ trail) =
        .ok (r.1, r.2.map (Token.stretch (Text.width trail))) := by
    have happend := ofLine_append (l := ⟨line, cs⟩) hreturn htrail (.inl ⟨r, hline⟩)
    simp only [hline] at happend
    exact happend
  by_cases hrest : rest = []
  · subst hrest
    obtain ⟨⟨left, tokens⟩, hline, heq⟩ := bind_eq_ok.mp h
    cases heq
    refine ⟨_, bind_eq_ok.mpr ⟨_, hlonger hline, rfl⟩, ?_⟩
    refine List.rel_append (List.rel_append (SameWord.all_stretch _ tokens) ?_) ?_
    · induction left.length with
      | zero => exact .nil
      | succ count ih => exact .cons ⟨rfl, rfl, rfl, fun _ hne => absurd rfl hne⟩ ih
    · exact .cons ⟨rfl, rfl, rfl, fun _ _ hne => absurd rfl hne⟩ .nil
  · rw [ofLines_cons _ _ _ hrest] at h ⊢
    obtain ⟨⟨left, tokens⟩, hline, hlater⟩ := bind_eq_ok.mp h
    obtain ⟨ts', hts', heq⟩ := bind_eq_ok.mp hlater
    cases heq
    refine ⟨_, bind_eq_ok.mpr ⟨_, hlonger hline, bind_eq_ok.mpr ⟨ts', hts', rfl⟩⟩, ?_⟩
    exact List.rel_append (SameWord.all_stretch _ tokens) (SameWord.all_refl ts')

/-! Carriage returns. -/

/-- The text with a carriage return before every newline. -/
def withReturns (cs : List Char) : List Char :=
  cs.flatMap fun c => if c = '\n' then ['\r', '\n'] else [c]

/-- A token of a text with a carriage return before each of its newlines: an end of a line that one
of them makes stands one column further right. The lines up to the number of newlines are those that
are ended by one. -/
def returned (newlines : Nat) (t : Token) : Token :=
  if t.pos.line ≤ newlines then t.stretch 1 else t

theorem withReturns_of_notMem {cs : List Char} (h : '\n' ∉ cs) : withReturns cs = cs := by
  induction cs with
  | nil => rfl
  | cons c cs ih =>
    rw [List.mem_cons, not_or] at h
    rw [withReturns, List.flatMap_cons, if_neg (Ne.symm h.1)]
    exact congrArg (c :: ·) (ih h.2)

theorem withReturns_unlines {ls : List (List Char)} (h : ∀ l ∈ ls, '\n' ∉ l) {last : List Char}
    (hlast : '\n' ∉ last) :
    withReturns (unlines ls ++ last) = unlines (ls.map (· ++ ['\r'])) ++ last := by
  induction ls with
  | nil => exact withReturns_of_notMem hlast
  | cons l ls ih =>
    rw [List.forall_mem_cons] at h
    have hl := withReturns_of_notMem h.1
    have hrest := ih h.2
    unfold withReturns unlines at *
    simp [hl, hrest]

theorem ofLines_withReturns {ls : List (List Char)} {last : List Char}
    (hreturn : ∀ l ∈ ls, '\r' ∉ l) (blocks : Layout.Blocks) (line : Nat) :
    ofLines blocks (line + 1) (ls.map (· ++ ['\r']) ++ [last]) =
      (ofLines blocks (line + 1) (ls ++ [last])).map (List.map (returned (line + ls.length))) := by
  induction ls generalizing blocks line with
  | nil =>
    simp only [List.map_nil, List.nil_append]
    cases hlast : ofLines blocks (line + 1) [last] with
    | error e => rfl
    | ok ts =>
      -- No newline ends the last line.
      refine congrArg Except.ok (Eq.symm ?_)
      refine (List.map_congr_left fun t ht => ?_).trans (List.map_id ts)
      have hle := ofLines_line hlast t ht
      exact if_neg (by simp; omega)
  | cons cs ls ih =>
    rw [List.forall_mem_cons] at hreturn
    have hline : ofLine blocks (line + 1) true (cs ++ ['\r']) =
        (ofLine blocks (line + 1) true cs).map fun r => (r.1, r.2.map (stretch 1)) :=
      ofLine_append (l := ⟨line + 1, cs⟩) hreturn.1 isBlank_return (.inr (by simp [Unquoted]))
    simp only [List.map_cons, List.cons_append]
    rw [ofLines_cons _ _ _ (by simp), ofLines_cons _ _ _ (by simp), hline]
    cases hfirst : ofLine blocks (line + 1) true cs with
    | error e => rfl
    | ok next =>
      have htokens : next.2.map (stretch 1) = next.2.map (returned (line + (ls.length + 1))) := by
        refine List.map_congr_left fun t ht => Eq.symm (if_pos ?_)
        have heq := ofLine_line (l := ⟨line + 1, cs⟩) hfirst t ht
        simp only at heq
        omega
      have hrest := ih hreturn.2 next.1 (line + 1)
      rw [Nat.add_right_comm, Int.natCast_succ] at hrest
      show (ofLines next.1 (line + 1 + 1) (ls.map (· ++ ['\r']) ++ [last]) >>= fun ts =>
        Except.ok (next.2.map (stretch 1) ++ ts)) = Except.map _
          (ofLines next.1 (line + 1 + 1) (ls ++ [last]) >>= fun ts => Except.ok (next.2 ++ ts))
      rw [htokens, hrest]
      cases ofLines next.1 (line + 1 + 1) (ls ++ [last]) with
      | error e => rfl
      | ok ts => exact congrArg Except.ok List.map_append.symm

theorem ofLine_newline {l : Layout.Line} {blocks blocks' : Layout.Blocks} {ended : Bool}
    {ts : List Token} (h : ofLine blocks l.number ended l.text = .ok (blocks', ts)) {t : Token}
    (ht : t ∈ ts) (hkind : t.kind = .newline) : t.pos = l.stop := by
  cases hcode : l.hasCode with
  | false =>
    cases (Layout.ofLine_blank hcode blocks ended).symm.trans h
    simp at ht
  | true =>
    obtain ⟨change, code, -, hread, rfl⟩ := (Layout.ofLine_eq_ok hcode).mp h
    have hnot : t ∉ change.tokens l.start ++ code := fun hmem =>
      kind_ne_newline hread change l.start t hmem hkind
    unfold Layout.Line.closed at ht
    split at ht
    · rcases List.mem_append.mp ht with hmem | hmem
      · exact absurd hmem hnot
      · rw [List.mem_singleton.mp hmem]
        rfl
    · exact absurd ht hnot

/-- There is a newline at the place. -/
def HasNewline (cs : List Char) (p : Pos) : Prop :=
  ∃ before behind, cs = before ++ '\n' :: behind ∧ p = Pos.behind before

/-- An end of a line before the last one stands at the newline that makes it. -/
theorem ofLines_newline {ls : List (List Char)} {last : List Char} (hls : ∀ l ∈ ls, '\n' ∉ l)
    {blocks : Layout.Blocks} {line : Int} {ts : List Token}
    (h : ofLines blocks line (ls ++ [last]) = .ok ts) {t : Token} (ht : t ∈ ts)
    (hkind : t.kind = .newline) (hline : t.pos.line < line + ls.length) (before : List Char)
    (hpos : Pos.behind before = ⟨line, 1⟩) :
    HasNewline (before ++ (unlines ls ++ last)) t.pos := by
  induction ls generalizing blocks line ts before with
  | nil =>
    have hle := ofLines_line h t ht
    simp at hline
    omega
  | cons cs ls ih =>
    rw [List.forall_mem_cons] at hls
    have hcons : unlines (cs :: ls) ++ last = cs ++ '\n' :: (unlines ls ++ last) := by
      simp [unlines]
    rw [List.cons_append, ofLines_cons _ _ _ (by simp)] at h
    obtain ⟨⟨left, tokens⟩, hfirst, hlater⟩ := bind_eq_ok.mp h
    obtain ⟨ts', hts', heq⟩ := bind_eq_ok.mp hlater
    cases heq
    rw [hcons]
    rcases List.mem_append.mp ht with ht | ht
    · refine ⟨before ++ cs, unlines ls ++ last, by simp, ?_⟩
      rw [ofLine_newline (l := ⟨line, cs⟩) hfirst ht hkind, Pos.behind_append hls.1, hpos]
      rfl
    · have hplace : Pos.behind (before ++ cs ++ ['\n']) = ⟨line + 1, 1⟩ := by
        rw [Pos.behind_newline, Pos.behind_append hls.1, hpos]
      have hlt : t.pos.line < line + 1 + ls.length := by
        rw [List.length_cons] at hline
        omega
      simpa using ih hls.2 hts' ht hlt _ hplace

theorem HasNewline.line_le {cs : List Char} {p : Pos} (h : HasNewline cs p) :
    p.line ≤ cs.count '\n' := by
  obtain ⟨before, behind, rfl, rfl⟩ := h
  simp [Pos.behind]
  omega

/-! Texts. -/

theorem exists_unlines_of_getLast? {cs : List Char}
    (h : ∀ c, cs.getLast? = some c → c = '\n') :
    ∃ ls, cs = unlines ls ∧ ∀ l ∈ ls, '\n' ∉ l := by
  obtain ⟨ls, l, rfl, hls, hl⟩ := exists_unlines cs
  obtain rfl : l = [] := by
    by_contra hne
    have hlast : l.getLast hne = '\n' :=
      h _ (by simp [List.getLast?_append, List.getLast?_eq_some_getLast hne])
    exact hl (hlast ▸ List.getLast_mem hne)
  exact ⟨ls, by simp, hls⟩

/-- What stands behind the end of a line adds lines and nothing to the line. -/
theorem exists_lines_of_head? {cs : List Char} (h : ∀ c, cs.head? = some c → c = '\n') :
    ∃ rest, ∀ l, '\n' ∉ l → lines (l ++ cs) = l :: rest := by
  cases cs with
  | nil => exact ⟨[], fun l hl => by rw [List.append_nil, lines_eq_singleton hl]⟩
  | cons c cs =>
    obtain rfl := h c rfl
    exact ⟨lines cs, fun l hl => by rw [lines_append, lines_eq_singleton hl]; rfl⟩

/-- Lines without code and comments behind code are passed over. A line of spaces and tabs, perhaps
with a comment, can be put in before any line: the tokens or the error are the same, moved down by a
line from there on. And where a text has tokens and no carriage returns, spaces, tabs and a comment
can be added to any line: the words are the same and at the same places. -/
theorem ofSource_ignores {filler : String} (hfiller : IsFiller filler.toList)
    (before behind : String) :
    let line : Int := 1 + before.toList.count '\n'
    ((∀ c, before.toList.getLast? = some c → c = '\n') →
      ofSource (before ++ (filler ++ "\n") ++ behind) =
        ((ofSource (before ++ behind)).map (List.map (mapPos (Pos.pushed line)))).mapError
          (LexError.mapPos (Pos.pushed line))) ∧
    ((∀ c, behind.toList.head? = some c → c = '\n') → '\r' ∉ (before ++ behind).toList →
      ∀ ts, ofSource (before ++ behind) = .ok ts →
        ∃ ts', ofSource (before ++ filler ++ behind) = .ok ts' ∧ List.Forall₂ SameWord ts ts') := by
  intro line
  constructor
  · intro hstart
    obtain ⟨ls, hls, hnewline⟩ := exists_unlines_of_getLast? hstart
    have hlength : line = 1 + ls.length := by
      rw [← count_unlines hnewline, ← hls]
    have hlines : lines (before ++ (filler ++ "\n") ++ behind).toList =
        ls ++ filler.toList :: lines behind.toList := by
      have htext : (before ++ (filler ++ "\n") ++ behind).toList =
          unlines ls ++ (filler.toList ++ '\n' :: behind.toList) := by
        simp [← hls]
      rw [htext, lines_unlines_append hnewline, lines_append, lines_eq_singleton hfiller.1]
      rfl
    unfold ofSource
    rw [hlines, String.toList_append, hls, lines_unlines_append hnewline, hlength]
    exact ofLines_pushed hfiller.isBlank [] 1 ls (lines_ne_nil _)
  · intro hend hreturn ts h
    obtain ⟨ls, l, hbefore, hls, hl⟩ := exists_unlines before.toList
    obtain ⟨rest, hrest⟩ := exists_lines_of_head? hend
    have hlines (trail : List Char) (htrail : '\n' ∉ trail) :
        lines (before.toList ++ trail ++ behind.toList) = ls ++ (l ++ trail) :: rest := by
      rw [hbefore, List.append_assoc, List.append_assoc, lines_unlines_append hls,
        ← List.append_assoc, hrest _ (by simp [hl, htrail])]
    have hl' : '\r' ∉ l := fun hmem => hreturn (by simp [hbefore, hmem])
    have hshort := hlines [] List.not_mem_nil
    rw [List.append_nil, List.append_nil] at hshort
    unfold ofSource at h ⊢
    rw [String.toList_append, hshort, ofLines_append _ _ _ (List.cons_ne_nil _ _)] at h
    rw [String.toList_append, String.toList_append, hlines _ hfiller.1,
      ofLines_append _ _ _ (List.cons_ne_nil _ _)]
    obtain ⟨⟨left, tokens⟩, hended, hlater⟩ := bind_eq_ok.mp h
    obtain ⟨ts₁, hts₁, heq⟩ := bind_eq_ok.mp hlater
    cases heq
    obtain ⟨ts₂, hts₂, hwords⟩ := ofLines_lengthened hl' hfiller.isBlank hts₁
    refine ⟨tokens ++ ts₂, bind_eq_ok.mpr ⟨_, hended, bind_eq_ok.mpr ⟨_, hts₂, rfl⟩⟩, ?_⟩
    exact List.rel_append (SameWord.all_refl tokens) hwords

/-- A comment before a line that closes no block, and behind the head of a block. -/
theorem ofSource_ignores_comments :
    ofSource ("a:\n  b\n" ++ ("\t # b's" ++ "\n") ++ " c") = .error ⟨.inconsistent 1, ⟨4, 2⟩⟩ ∧
      ∃ ts, ofSource ("a:" ++ "\t # b's" ++ "\n  b") = .ok ts ∧
        List.Forall₂ SameWord [⟨.identifier, "a", ⟨1, 1⟩⟩, ⟨.colon, ":", ⟨1, 2⟩⟩, .newline ⟨1, 3⟩,
          .indent ⟨2, 3⟩, ⟨.identifier, "b", ⟨2, 3⟩⟩, .newline ⟨2, 4⟩, .dedent ⟨2, 4⟩,
          .eof ⟨2, 4⟩] ts := by
  have hfiller : IsFiller "\t # b's".toList :=
    ⟨by decide, ['\t', ' '], "# b's".toList, rfl, by simp, .inr ⟨" b's".toList, rfl⟩⟩
  have hrefused : ofSource ("a:\n  b\n" ++ " c") = .error ⟨.inconsistent 1, ⟨3, 2⟩⟩ := by
    decide +kernel
  have hread : ofSource ("a:" ++ "\n  b") = .ok
      [⟨.identifier, "a", ⟨1, 1⟩⟩, ⟨.colon, ":", ⟨1, 2⟩⟩, .newline ⟨1, 3⟩, .indent ⟨2, 3⟩,
        ⟨.identifier, "b", ⟨2, 3⟩⟩, .newline ⟨2, 4⟩, .dedent ⟨2, 4⟩, .eof ⟨2, 4⟩] := by
    decide +kernel
  constructor
  · have hpushed := (ofSource_ignores hfiller "a:\n  b\n" " c").1 (by simp)
    rw [hrefused] at hpushed
    exact hpushed
  · exact (ofSource_ignores hfiller "a:" "\n  b").2 (by simp) (by simp) _ hread

/-- A text with a carriage return before each newline is read as the text without, with the same
error if there is one; and if there are tokens, they are the same except that the ends of lines that
stand at newlines are one column further right. -/
theorem ofSource_withReturns (source : String) (h : '\r' ∉ source.toList) :
    ofSource (String.ofList (withReturns source.toList)) =
        (ofSource source).map (List.map (returned (source.toList.count '\n'))) ∧
      ∀ ts, ofSource source = .ok ts → ∀ t ∈ ts, t.kind = .newline →
        (t.pos.line ≤ source.toList.count '\n' ↔ HasNewline source.toList t.pos) := by
  obtain ⟨ls, last, hsource, hls, hlast⟩ := exists_unlines source.toList
  have hcount : source.toList.count '\n' = ls.length := by
    rw [hsource, List.count_append, count_unlines hls, List.count_eq_zero.mpr hlast, Nat.add_zero]
  have hlines : lines source.toList = ls ++ [last] := by
    rw [hsource, lines_unlines_append hls, lines_eq_singleton hlast]
  constructor
  · have hreturn : ∀ l ∈ ls, '\r' ∉ l := by
      refine fun l hl hmem => h ?_
      rw [hsource, List.mem_append]
      exact .inl (List.mem_flatMap.mpr ⟨l, hl, by simp [hmem]⟩)
    have hreturned : ∀ l ∈ ls.map (· ++ ['\r']), '\n' ∉ l := by
      simpa using hls
    unfold ofSource
    rw [hcount, String.toList_ofList, hlines, hsource, withReturns_unlines hls hlast,
      lines_unlines_append hreturned, lines_eq_singleton hlast]
    simpa using ofLines_withReturns hreturn [] 0
  · intro ts hts t ht hkind
    refine ⟨fun hle => ?_, HasNewline.line_le⟩
    unfold ofSource at hts
    rw [hlines] at hts
    rw [hsource]
    exact ofLines_newline hls hts ht hkind (by omega) [] rfl

/-- Returns behind a comment, on an empty line, behind a string and before a string that is left
open. -/
theorem ofSource_withReturns_lines :
    ofSource "a: # b\r\n\r\n  \"c\"\r\nd" = .ok
        [⟨.identifier, "a", ⟨1, 1⟩⟩, ⟨.colon, ":", ⟨1, 2⟩⟩, .newline ⟨1, 8⟩, .indent ⟨3, 3⟩,
          ⟨.string, "c", ⟨3, 3⟩⟩, .newline ⟨3, 7⟩, .dedent ⟨4, 1⟩, ⟨.identifier, "d", ⟨4, 1⟩⟩,
          .newline ⟨4, 2⟩, .eof ⟨4, 2⟩] ∧
      ofSource "a\r\n'b\r\nc" = .error ⟨.unterminated, ⟨2, 1⟩⟩ := by
  have hread : ofSource "a: # b\n\n  \"c\"\nd" = .ok
      [⟨.identifier, "a", ⟨1, 1⟩⟩, ⟨.colon, ":", ⟨1, 2⟩⟩, .newline ⟨1, 7⟩, .indent ⟨3, 3⟩,
        ⟨.string, "c", ⟨3, 3⟩⟩, .newline ⟨3, 6⟩, .dedent ⟨4, 1⟩, ⟨.identifier, "d", ⟨4, 1⟩⟩,
        .newline ⟨4, 2⟩, .eof ⟨4, 2⟩] := by decide +kernel
  have hopen : ofSource "a\n'b\nc" = .error ⟨.unterminated, ⟨2, 1⟩⟩ := by decide +kernel
  constructor
  · have hreturns := (ofSource_withReturns "a: # b\n\n  \"c\"\nd" (by decide +kernel)).1
    rw [hread] at hreturns
    exact hreturns
  · have hreturns := (ofSource_withReturns "a\n'b\nc" (by decide +kernel)).1
    rw [hopen] at hreturns
    exact hreturns

end Token

end SceneScript
