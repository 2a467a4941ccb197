import SceneScript.Proofs.Print.Words
import SceneScript.Proofs.Token.Spans

/-! What stands behind the code of a line. A text that is blank as a line of its own, with a comment
or without, may be added to a line: the words of the line are cut as before, and only the end of the
line stands further right. Quotes are the one exception, since an added text may close a string that
was left open. -/

namespace SceneScript.Token

open Print (Stops)

/-- A text without code: spaces and tabs, perhaps a carriage return, and then nothing or a
comment. -/
def IsBlank (cs : List Char) : Prop := (Layout.margin cs).isEmpty = true

/-- No string can end in the text. -/
def Unquoted (cs : List Char) : Prop := '"' ∉ cs ∧ '\'' ∉ cs

theorem isBlank_of_comment {gap comment : List Char} (hgap : ∀ c ∈ gap, Layout.isSpace c = true)
    (hcomment : ∀ c, comment.head? = some c → c = '#') : IsBlank (gap ++ comment) := by
  have hspace : ∀ c, comment.head? = some c → Layout.isSpace c = false := by
    intro c hc
    rw [hcomment c hc]
    decide
  obtain ⟨-, hdrop⟩ := Print.takeWhile_append hgap hspace
  unfold IsBlank Layout.margin
  rw [hdrop]
  cases comment with
  | nil => rfl
  | cons c comment =>
    cases hcomment c rfl
    rfl

theorem isBlank_return : IsBlank ['\r'] := rfl

theorem IsBlank.code {cs : List Char} (h : IsBlank cs) :
    (Layout.margin cs).code = [] ∨ ∃ text, (Layout.margin cs).code = '#' :: text := by
  unfold IsBlank Layout.Margin.isEmpty at h
  split at h
  · exact .inl (by assumption)
  · rename_i c text hcode
    rw [beq_iff_eq.mp h] at hcode
    exact .inr ⟨text, hcode⟩

/-- A blank text gives no token. -/
theorem IsBlank.ofCode {cs : List Char} (h : IsBlank cs) (pos : Pos) :
    Token.ofCode pos cs = .ok [] := by
  obtain ⟨skipped, hcs, hgap, -⟩ := Layout.exists_skipped cs
  rw [hcs]
  have hcode := h.code
  generalize (Layout.margin cs).code = code at hcode
  clear hcs
  induction skipped generalizing pos with
  | nil =>
    rcases hcode with rfl | ⟨text, rfl⟩
    · rw [List.nil_append, Token.ofCode]
    · exact ofCode_comment pos text
  | cons c skipped ih =>
    rw [List.forall_mem_cons] at hgap
    rw [List.cons_append, ofCode_gap hgap.1]
    exact ih _ hgap.2

/-- A blank text adds nothing to a word before it. -/
theorem IsBlank.stops {cs : List Char} (h : IsBlank cs) : Stops cs := by
  have hhead : ∀ c, cs.head? = some c → isGap c = true ∨ c = '#' := by
    obtain ⟨skipped, hcs, hgap, -⟩ := Layout.exists_skipped cs
    intro c hc
    rw [hcs] at hc
    cases skipped with
    | nil =>
      rcases h.code with hnil | ⟨text, hcode⟩
      · rw [hnil] at hc
        cases hc
      · rw [hcode] at hc
        cases hc
        exact .inr rfl
    | cons d skipped =>
      rw [List.forall_mem_cons] at hgap
      cases hc
      exact .inl hgap.1
  intro c hc
  rcases hhead c hc with hgap | rfl
  · simp only [isGap, Bool.or_eq_true, beq_iff_eq] at hgap
    rcases hgap with (rfl | rfl) | rfl <;> decide
  · decide

/-! Words. -/

/-- A cut with more behind it. -/
def Cut.before (trail : List Char) (t : Cut) : Cut := { t with rest := t.rest ++ trail }

/-- A run of characters ends where it did, also when more stands behind the text, unless it took the
whole text and can go on. -/
theorem span_append {p : Char → Bool} {cs trail : List Char}
    (h : cs.dropWhile p = [] → ∀ c, trail.head? = some c → p c = false) :
    (cs ++ trail).takeWhile p = cs.takeWhile p ∧
      (cs ++ trail).dropWhile p = cs.dropWhile p ++ trail := by
  have hrest : ∀ c, (cs.dropWhile p ++ trail).head? = some c → p c = false := by
    intro c hc
    cases hdrop : cs.dropWhile p with
    | nil =>
      rw [hdrop] at hc
      exact h hdrop c hc
    | cons d rest =>
      have hd := List.head?_dropWhile_not p cs
      rw [hdrop] at hc hd
      cases hc
      simpa using hd
  have hcs : cs ++ trail = cs.takeWhile p ++ (cs.dropWhile p ++ trail) := by
    rw [← List.append_assoc, List.takeWhile_append_dropWhile]
  rw [hcs]
  exact Print.takeWhile_append (fun c hc => List.mem_takeWhile_imp hc) hrest

theorem cutString_append {q : Char} {cs trail : List Char}
    (h : (∃ t, cutString q cs = .ok t) ∨ q ∉ trail) :
    cutString q (cs ++ trail) = (cutString q cs).map (Cut.before trail) := by
  unfold cutString at h ⊢
  dsimp only at h ⊢
  cases hdrop : cs.dropWhile (· != q) with
  | nil =>
    -- The string is not closed, and the text behind holds no quote that could close it.
    rw [hdrop] at h
    have hquote : q ∉ trail := h.resolve_left (by simp)
    have hopen : (cs ++ trail).dropWhile (· != q) = [] := by
      rw [List.dropWhile_eq_nil_iff] at hdrop ⊢
      intro c hc
      rcases List.mem_append.mp hc with hc | hc
      · exact hdrop c hc
      · rw [bne_iff_ne]
        rintro rfl
        exact hquote hc
    rw [hopen]
    rfl
  | cons d rest =>
    obtain ⟨htake, hdrop'⟩ := @span_append (· != q) cs trail (by simp [hdrop])
    rw [htake, hdrop', hdrop]
    rfl

section Stops

variable {trail : List Char} (htrail : Stops trail)
include htrail

theorem cutNumber_append (c : Char) (cs : List Char) :
    cutNumber c (cs ++ trail) = (cutNumber c cs).before trail := by
  have hdigit : ∀ c, trail.head? = some c → c.isDigit = false :=
    fun c hc => Print.not_isDigit_of_not_isNamePart (htrail c hc).1
  obtain ⟨htake, hdrop⟩ := @span_append Char.isDigit cs trail fun _ => hdigit
  unfold cutNumber
  rw [htake, hdrop]
  generalize cs.dropWhile Char.isDigit = rest
  dsimp only
  split
  · rename_i d more hrest
    -- The point of the number is not the first of the text behind it.
    cases rest with
    | nil =>
      rw [List.nil_append] at hrest
      exact absurd rfl (htrail '.' (by rw [hrest]; rfl)).2.1
    | cons p rest =>
      cases rest with
      | nil =>
        cases hrest
        rw [if_neg (by simp [hdigit d rfl])]
        rfl
      | cons d rest =>
        simp only [List.cons_append, List.cons.injEq] at hrest
        obtain ⟨rfl, rfl, rfl⟩ := hrest
        obtain ⟨htake, hdrop⟩ := @span_append Char.isDigit rest trail fun _ => hdigit
        rw [htake, hdrop]
        show _ = Cut.before trail (if d.isDigit then _ else _)
        split <;> rfl
  · rename_i hnot
    split
    · exact absurd rfl (hnot _ _)
    · rfl

theorem cutName_append (c : Char) (cs : List Char) :
    cutName c (cs ++ trail) = (cutName c cs).before trail := by
  obtain ⟨htake, hdrop⟩ := @span_append isNamePart cs trail fun _ c hc => (htrail c hc).1
  unfold cutName
  rw [htake, hdrop]
  rfl

theorem cutOp?_append (c : Char) (cs : List Char) :
    cutOp? c (cs ++ trail) = (cutOp? c cs).map (Cut.before trail) := by
  unfold cutOp?
  dsimp only
  cases cs with
  | cons d rest =>
    dsimp only [List.cons_append]
    split
    · rfl
    · split <;> rfl
  | nil =>
    rw [List.nil_append]
    cases trail with
    | nil =>
      dsimp only
      split <;> rfl
    | cons d trail =>
      dsimp only
      rw [if_neg (Print.not_mem_longOps c (htrail d rfl).2.2)]
      split <;> rfl

/-- A word is cut off as before, unless it is a string that the text behind closes. -/
theorem cut_append {c : Char} {cs : List Char}
    (h : (∃ t, cut c cs = .ok t) ∨ Unquoted trail) :
    cut c (cs ++ trail) = (cut c cs).map (Cut.before trail) := by
  unfold cut at h ⊢
  generalize punctuation? c = mark at h ⊢
  cases mark with
  | some kind => rfl
  | none =>
    dsimp only at h ⊢
    by_cases hquote : c = '"' ∨ c = '\''
    · rw [if_pos hquote] at h ⊢
      rw [if_pos hquote]
      refine cutString_append (h.imp_right fun hunquoted => ?_)
      rcases hquote with rfl | rfl
      · exact hunquoted.1
      · exact hunquoted.2
    · rw [if_neg hquote, if_neg hquote, cutOp?_append htrail]
      cases cutOp? c cs with
      | some op => rfl
      | none =>
        simp only [Option.map_none, cutNumber_append htrail, cutName_append htrail]
        split
        · rfl
        · split <;> rfl

end Stops

/-- The code of a line gives the same tokens with a blank text behind it, unless that closes a
string. -/
theorem ofCode_append {trail : List Char} (htrail : IsBlank trail) {pos : Pos} {cs : List Char}
    (h : (∃ ts, ofCode pos cs = .ok ts) ∨ Unquoted trail) :
    ofCode pos (cs ++ trail) = ofCode pos cs := by
  fun_induction ofCode pos cs with
  | case1 pos => exact htrail.ofCode pos
  | case2 pos c cs hgap ih =>
    rw [List.cons_append, ofCode_gap hgap]
    exact ih h
  | case3 pos cs => exact ofCode_comment pos (cs ++ trail)
  | case4 pos c cs hgap hc cause hcut =>
    rw [List.cons_append]
    refine ofCode_error (by simpa using hgap) hc ?_ pos
    rw [cut_append htrail.stops (.inr (h.resolve_left (by simp))), hcut]
    rfl
  | case5 pos c cs hgap hc t hcut ih =>
    have hcut' : cut c (cs ++ trail) = .ok (t.before trail) := by
      rw [cut_append htrail.stops (.inl ⟨t, hcut⟩), hcut]
      rfl
    rw [List.cons_append, ofCode_cut (by simpa using hgap) hc hcut']
    refine congrArg (· >>= _) (ih (h.imp_left ?_))
    rintro ⟨ts, hts⟩
    obtain ⟨ts', hts', -⟩ := bind_eq_ok.mp hts
    exact ⟨ts', hts'⟩

/-! Lines. -/

theorem margin_append {cs : List Char} (h : (Layout.margin cs).code ≠ []) (trail : List Char) :
    Layout.margin (cs ++ trail) =
      { Layout.margin cs with code := (Layout.margin cs).code ++ trail } := by
  unfold Layout.margin at h ⊢
  obtain ⟨htake, hdrop⟩ := @span_append Layout.isSpace cs trail fun hnil => by
    rw [hnil] at h
    exact absurd rfl h
  rw [htake, hdrop]
  dsimp only at h ⊢
  cases hcode : cs.dropWhile Layout.isSpace with
  | nil =>
    rw [hcode] at h
    exact absurd rfl h
  | cons c rest =>
    by_cases hc : c = '\r'
    · subst hc
      rfl
    · rw [List.cons_append]
      split
      · rename_i heq
        cases heq
        exact absurd rfl hc
      · split
        · rename_i heq
          cases heq
          exact absurd rfl hc
        · rfl

/-- A line without carriage returns has nothing behind its margin only if it is all spaces and
tabs. -/
theorem all_isSpace {cs : List Char} (hreturn : '\r' ∉ cs) (h : (Layout.margin cs).code = []) :
    ∀ c ∈ cs, Layout.isSpace c = true := by
  have hsplit := List.takeWhile_append_dropWhile (p := Layout.isSpace) (l := cs)
  unfold Layout.margin at h
  dsimp only at h
  split at h
  · rename_i rest hdrop
    rw [hdrop] at hsplit
    exact absurd (hsplit ▸ List.mem_append_right _ List.mem_cons_self) hreturn
  · rename_i hdrop
    exact List.dropWhile_eq_nil_iff.mp h

theorem isBlank_append {cs trail : List Char} (htrail : IsBlank trail)
    (hreturn : '\r' ∉ cs) : IsBlank (cs ++ trail) ↔ IsBlank cs := by
  cases hcode : (Layout.margin cs).code with
  | nil =>
    have hspace := all_isSpace hreturn hcode
    have hcs : IsBlank cs := by simp [IsBlank, Layout.Margin.isEmpty, hcode]
    refine iff_of_true ?_ hcs
    unfold IsBlank Layout.margin at htrail ⊢
    rw [List.dropWhile_append_of_pos hspace]
    dsimp only at htrail ⊢
    split at htrail
    · exact htrail
    · exact htrail
  | cons c rest =>
    unfold IsBlank
    rw [margin_append (by simp [hcode])]
    unfold Layout.Margin.isEmpty
    rw [hcode]
    rfl

/-- A token of a line that is longer by some columns: the end of the line stands further right. -/
def stretch (columns : Nat) (t : Token) : Token :=
  if t.kind = .newline then { t with pos := { t.pos with col := t.pos.col + columns } } else t

theorem map_stretch_of_ne {columns : Nat} {ts : List Token} (h : ∀ t ∈ ts, t.kind ≠ .newline) :
    ts.map (stretch columns) = ts :=
  (List.map_congr_left fun t ht => if_neg (h t ht)).trans (List.map_id ts)

theorem closed_append {l : Layout.Line} (trail : List Char) (ended : Bool) {ts : List Token}
    (h : ∀ t ∈ ts, t.kind ≠ .newline) :
    Layout.Line.closed ⟨l.number, l.text ++ trail⟩ ended ts =
      (l.closed ended ts).map (stretch (Text.width trail)) := by
  have hstop : Layout.Line.stop ⟨l.number, l.text ++ trail⟩ =
      { l.stop with col := l.stop.col + Text.width trail } := by
    simp [Layout.Line.stop, lineEnd, Int.add_assoc]
  unfold Layout.Line.closed
  split
  · rw [List.map_append, map_stretch_of_ne h, hstop]
    rfl
  · rw [map_stretch_of_ne h]

theorem change_tokens_kind (change : Layout.Change) (pos : Pos) :
    ∀ t ∈ change.tokens pos, t.kind = .indent ∨ t.kind = .dedent := by
  intro t ht
  cases change with
  | opens =>
    rw [List.mem_singleton.mp ht]
    exact .inl rfl
  | closes count =>
    rw [List.eq_of_mem_replicate ht]
    exact .inr rfl

/-- Neither the layout before a line nor its code holds the end of a line. -/
theorem kind_ne_newline {pos : Pos} {cs : List Char} {code : List Token}
    (hread : ofCode pos cs = .ok code) (change : Layout.Change) (start : Pos) :
    ∀ t ∈ change.tokens start ++ code, t.kind ≠ .newline := by
  intro t ht heq
  rcases List.mem_append.mp ht with ht | ht
  · rcases change_tokens_kind change start t ht with hkind | hkind <;> simp [heq] at hkind
  · have hlayout := (ofCode_mem hread t ht).1
    rw [heq] at hlayout
    cases hlayout

/-- A line with a blank text behind it gives the same tokens, with its end further right. -/
theorem ofLine_append {l : Layout.Line} (hreturn : '\r' ∉ l.text) {trail : List Char}
    (htrail : IsBlank trail) {blocks : Layout.Blocks} {ended : Bool}
    (h : (∃ r, ofLine blocks l.number ended l.text = .ok r) ∨ Unquoted trail) :
    ofLine blocks l.number ended (l.text ++ trail) = (ofLine blocks l.number ended l.text).map
      fun r => (r.1, r.2.map (stretch (Text.width trail))) := by
  let longer : Layout.Line := ⟨l.number, l.text ++ trail⟩
  have hblank : longer.hasCode = l.hasCode := by
    have hiff := isBlank_append htrail hreturn
    unfold IsBlank at hiff
    unfold Layout.Line.hasCode
    rw [Bool.eq_iff_iff.mpr hiff]
  cases hcode : l.hasCode with
  | false =>
    rw [hcode] at hblank
    rw [Layout.ofLine_blank hcode, Layout.ofLine_blank (l := longer) hblank]
    rfl
  | true =>
    rw [hcode] at hblank
    have hne : (Layout.margin l.text).code ≠ [] := by
      intro hnil
      simp [Layout.Line.hasCode, Layout.Margin.isEmpty, hnil] at hcode
    have hmargin := margin_append hne trail
    have hwidth : longer.width = l.width := by
      unfold Layout.Line.width
      rw [hmargin]
    have hstart : longer.start = l.start := by
      unfold Layout.Line.start
      rw [hmargin]
    have hsame : ofCode l.start (Layout.margin longer.text).code =
        ofCode l.start (Layout.margin l.text).code := by
      rw [hmargin]
      refine ofCode_append htrail (h.imp_left ?_)
      rintro ⟨r, hr⟩
      obtain ⟨-, code, -, hread, -⟩ := (Layout.ofLine_eq_ok hcode).mp hr
      exact ⟨code, hread⟩
    rw [Layout.ofLine_code hcode, Layout.ofLine_code (l := longer) hblank, hwidth, hstart, hsame]
    cases blocks.enter? l.width with
    | none => rfl
    | some next =>
      cases hread : ofCode l.start (Layout.margin l.text).code with
      | error e => rfl
      | ok code =>
        have hkinds := kind_ne_newline hread next.2 l.start
        exact congrArg (fun ts => Except.ok (next.1, ts)) (closed_append trail ended hkinds)

end SceneScript.Token
