import SceneScript.Proofs.Grammar.Reads

/-! Expressions are segments of a list of tokens. A reader takes tokens that stand in the text,
never one of layout or a literal out of range, and what follows the segment matters only through its
first token: a reader goes on there when it finds an operator or an opening parenthesis, and stops
otherwise. -/

namespace SceneScript

/-- Whether a token tells of layout rather than standing in the text. -/
def TokenKind.isLayout : TokenKind → Bool
  | .newline | .indent | .dedent | .eof => true
  | _ => false

namespace Grammar

/-- `rest'` invites an expression before it to go on at most where `rest` does. -/
structure Follows (rest rest' : List Token) : Prop where
  paren : (peek rest').kind = .lparen → (peek rest).kind = .lparen
  op : ∀ op, binaryOp? (peek rest') = some op → binaryOp? (peek rest) = some op

theorem Follows.append {rest rest' : List Token} (h : Follows rest rest') (seg : List Token) :
    Follows (seg ++ rest) (seg ++ rest') := by
  cases seg with
  | nil => exact h
  | cons t seg => exact ⟨id, fun _ => id⟩

theorem Follows.cons (t : Token) (rest rest' : List Token) :
    Follows (t :: rest) (t :: rest') := ⟨id, fun _ => id⟩

theorem binaryOp?_eq_none {t : Token} (hop : t.kind ≠ .op) (hname : t.kind ≠ .identifier) :
    binaryOp? t = none := by
  simp [binaryOp?, hop, hname]

theorem kind_ne_of_isLayout {kind kind' : TokenKind} (h : kind.isLayout = true)
    (h' : kind'.isLayout = false) : kind ≠ kind' := by
  rintro rfl
  exact Bool.false_ne_true (h'.symm.trans h)

theorem not_isLayout_of_binaryOp? {t : Token} {op : BinaryOp} (h : binaryOp? t = some op) :
    t.kind.isLayout = false := by
  by_cases hop : t.kind = .op
  · rw [hop]; rfl
  · by_cases hname : t.kind = .identifier
    · rw [hname]; rfl
    · rw [binaryOp?_eq_none hop hname] at h
      cases h

theorem not_isLayout_of_lead {t : Token} (h : lead t ≠ .none) : t.kind.isLayout = false := by
  cases hkind : t.kind with
  | newline | indent | dedent | eof =>
    refine absurd ?_ h
    unfold lead
    rw [hkind]
  | _ => rfl

theorem lead_ne_outOfRange {t : Token} (h : t.kind ≠ .int) : lead t ≠ .outOfRange := by
  unfold lead
  cases hkind : t.kind with
  | int => exact absurd hkind h
  | op =>
    dsimp only
    split <;> simp
  | identifier =>
    dsimp only
    repeat' split
    all_goals simp
  | _ => simp

/-- A token that a reader of expressions can take: it stands in the text, and if it is a literal it
is in range. -/
def Legible (t : Token) : Prop := t.kind.isLayout = false ∧ lead t ≠ .outOfRange

theorem legible_of_kind {t : Token} {kind : TokenKind} (h : t.kind = kind)
    (hlayout : kind.isLayout = false) (hint : kind ≠ .int) : Legible t :=
  ⟨h ▸ hlayout, lead_ne_outOfRange (h ▸ hint)⟩

theorem legible_of_lead {t : Token} (hnone : lead t ≠ .none) (hrange : lead t ≠ .outOfRange) :
    Legible t := ⟨not_isLayout_of_lead hnone, hrange⟩

theorem legible_of_binaryOp? {t : Token} {op : BinaryOp} (h : binaryOp? t = some op) :
    Legible t := by
  refine ⟨not_isLayout_of_binaryOp? h, lead_ne_outOfRange fun hint => ?_⟩
  rw [binaryOp?_eq_none (by simp [hint]) (by simp [hint])] at h
  cases h

/-- The tokens `seg` are what the goal asks for, whatever follows them, as long as it invites to go
on no more than `rest` does. -/
structure Segment (g : Goal) (seg rest : List Token) : Prop where
  legible : ∀ t ∈ seg, Legible t
  reads : ∀ rest', Follows rest rest' → Reads g (seg ++ rest') rest'

/-- What is read is a segment. -/
theorem Reads.segment {g : Goal} {ts rest : List Token} (h : Reads g ts rest) :
    ∃ seg, ts = seg ++ rest ∧ Segment g seg rest := by
  induction h with
  | @expr level left e ts mid rest _ _ ihOperand ihOperators =>
    obtain ⟨seg, rfl, hseg⟩ := ihOperand
    obtain ⟨seg', rfl, hseg'⟩ := ihOperators
    refine ⟨seg ++ seg', by simp, ⟨List.forall_mem_append.mpr ⟨hseg.legible, hseg'.legible⟩, ?_⟩⟩
    intro rest' hf
    rw [List.append_assoc]
    exact .expr (hseg.reads _ (hf.append seg')) (hseg'.reads _ hf)
  | @stop level left ts hstop =>
    refine ⟨[], rfl, ⟨by simp, fun rest' hf => ?_⟩⟩
    exact .stop fun op hop => hstop op (hf.op op hop)
  | @step level left right e op t ts mid rest hop hlevel _ _ ihExpr ihOperators =>
    obtain ⟨seg, rfl, hseg⟩ := ihExpr
    obtain ⟨seg', rfl, hseg'⟩ := ihOperators
    have hlegible := List.forall_mem_append.mpr ⟨hseg.legible, hseg'.legible⟩
    refine ⟨t :: (seg ++ seg'), by simp,
      ⟨List.forall_mem_cons.mpr ⟨legible_of_binaryOp? hop, hlegible⟩, fun rest' hf => ?_⟩⟩
    rw [List.cons_append, List.append_assoc]
    exact .step hop hlevel (hseg.reads _ (hf.append seg')) (hseg'.reads _ hf)
  | @literal e t ts hlead =>
    have ht := legible_of_lead (t := t) (by simp [hlead]) (by simp [hlead])
    exact ⟨[t], rfl, ⟨by simpa using ht, fun rest' _ => .literal hlead⟩⟩
  | @sign e op t ts rest hlead _ ih =>
    obtain ⟨seg, rfl, hseg⟩ := ih
    have ht := legible_of_lead (t := t) (by simp [hlead]) (by simp [hlead])
    exact ⟨t :: seg, rfl, ⟨List.forall_mem_cons.mpr ⟨ht, hseg.legible⟩,
      fun rest' hf => .sign hlead (hseg.reads rest' hf)⟩⟩
  | @paren e t close ts rest hlead _ hclose ih =>
    obtain ⟨seg, rfl, hseg⟩ := ih
    have ht := legible_of_lead (t := t) (by simp [hlead]) (by simp [hlead])
    have hend : ∀ u ∈ [close], Legible u := by
      simpa using legible_of_kind hclose rfl (by decide)
    refine ⟨t :: (seg ++ [close]), by simp, ⟨List.forall_mem_cons.mpr
      ⟨ht, List.forall_mem_append.mpr ⟨hseg.legible, hend⟩⟩, fun rest' _ => ?_⟩⟩
    rw [List.cons_append, List.append_assoc]
    exact .paren hlead (hseg.reads _ (.cons close rest rest')) hclose
  | @name t ts hlead hpeek =>
    have ht := legible_of_lead (t := t) (by simp [hlead]) (by simp [hlead])
    exact ⟨[t], rfl, ⟨by simpa using ht,
      fun rest' hf => .name hlead fun h => hpeek (hf.paren h)⟩⟩
  | @call es t opening ts rest hlead hopening _ ih =>
    obtain ⟨seg, rfl, hseg⟩ := ih
    have ht := legible_of_lead (t := t) (by simp [hlead]) (by simp [hlead])
    have hparen := legible_of_kind hopening rfl (by decide)
    exact ⟨t :: opening :: seg, rfl,
      ⟨List.forall_mem_cons.mpr ⟨ht, List.forall_mem_cons.mpr ⟨hparen, hseg.legible⟩⟩,
        fun rest' hf => .call hlead hopening (hseg.reads rest' hf)⟩⟩
  | @noArguments close rest hclose =>
    have ht := legible_of_kind hclose rfl (by decide)
    exact ⟨[close], rfl, ⟨by simpa using ht, fun rest' _ => .noArguments hclose⟩⟩
  | someArguments _ ih =>
    obtain ⟨seg, rfl, hseg⟩ := ih
    exact ⟨seg, rfl, ⟨hseg.legible, fun rest' hf => .someArguments (hseg.reads rest' hf)⟩⟩
  | @lastArgument e close ts rest _ hclose ih =>
    obtain ⟨seg, rfl, hseg⟩ := ih
    have hend : ∀ u ∈ [close], Legible u := by
      simpa using legible_of_kind hclose rfl (by decide)
    refine ⟨seg ++ [close], by simp,
      ⟨List.forall_mem_append.mpr ⟨hseg.legible, hend⟩, fun rest' _ => ?_⟩⟩
    rw [List.append_assoc]
    exact .lastArgument (hseg.reads _ (.cons close rest rest')) hclose
  | @argument e es comma ts mid rest _ hcomma _ ih ihList =>
    obtain ⟨seg, rfl, hseg⟩ := ih
    obtain ⟨seg', rfl, hseg'⟩ := ihList
    have hbetween := legible_of_kind hcomma rfl (by decide)
    refine ⟨seg ++ comma :: seg', by simp, ⟨List.forall_mem_append.mpr
      ⟨hseg.legible, List.forall_mem_cons.mpr ⟨hbetween, hseg'.legible⟩⟩, fun rest' hf => ?_⟩⟩
    rw [List.append_assoc]
    exact .argument (hseg.reads _ (.cons comma _ _)) hcomma (hseg'.reads rest' hf)

end Grammar

end SceneScript
