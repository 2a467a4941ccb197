import Mathlib.Data.Finset.Card
import Mathlib.Data.Finset.Dedup
import Mathlib.Data.List.Infix
import SceneScript.Token.Layout

/-! The open blocks told from the widths of the lines alone. A width is open after some lines when
one of them is set in by it and none from there on by less; zero is always open. The list of open
blocks that a lexer carries from line to line holds just the open widths but zero, so what it does
at a line is a matter of the widths before. -/

namespace SceneScript.Layout

/-- The width is zero, or a line is set in by it and no line from there on by less. -/
def Open (widths : List Nat) (w : Nat) : Prop :=
  w = 0 ∨ ∃ before after : List Nat, widths = before ++ w :: after ∧ ∀ v ∈ after, w ≤ v

theorem open_iff_suffix {widths : List Nat} {w : Nat} :
    Open widths w ↔ w = 0 ∨ ∃ rest ∈ widths.tails, rest.head? = some w ∧ ∀ v ∈ rest, w ≤ v := by
  refine or_congr Iff.rfl ?_
  constructor
  · rintro ⟨before, after, rfl, hafter⟩
    refine ⟨w :: after, (List.mem_tails _ _).mpr ⟨before, rfl⟩, rfl, ?_⟩
    exact List.forall_mem_cons.mpr ⟨Nat.le_refl w, hafter⟩
  · rintro ⟨rest, hrest, hhead, hle⟩
    obtain ⟨before, rfl⟩ := (List.mem_tails _ _).mp hrest
    cases rest with
    | nil => cases hhead
    | cons v after =>
      cases hhead
      exact ⟨before, after, rfl, fun u hu => hle u (List.mem_cons_of_mem _ hu)⟩

instance (widths : List Nat) (w : Nat) : Decidable (Open widths w) :=
  decidable_of_iff _ open_iff_suffix.symm

/-- How many open widths are greater than `w`. -/
def openAbove (widths : List Nat) (w : Nat) : Nat :=
  (widths.toFinset.filter fun v => Open widths v ∧ w < v).card

@[simp] theorem open_zero (widths : List Nat) : Open widths 0 := .inl rfl

theorem open_nil {w : Nat} : Open [] w ↔ w = 0 := by
  constructor
  · rintro (h | ⟨before, after, h, -⟩)
    · exact h
    · simp at h
  · exact .inl

theorem mem_of_open {widths : List Nat} {w : Nat} (h : Open widths w) (hw : w ≠ 0) :
    w ∈ widths := by
  rcases h with rfl | ⟨before, after, rfl, -⟩
  · exact absurd rfl hw
  · simp

/-- One more line opens its own width and closes the greater ones. -/
theorem open_append_singleton {widths : List Nat} {w v : Nat} :
    Open (widths ++ [w]) v ↔ v = w ∨ Open widths v ∧ v ≤ w := by
  constructor
  · rintro (rfl | ⟨before, after, heq, hafter⟩)
    · exact .inr ⟨open_zero widths, Nat.zero_le w⟩
    · rcases List.eq_nil_or_concat' after with rfl | ⟨after, u, rfl⟩
      · exact .inl (List.append_singleton_inj.mp heq).2.symm
      · rw [← List.cons_append, ← List.append_assoc] at heq
        obtain ⟨rfl, rfl⟩ := List.append_singleton_inj.mp heq
        rw [List.forall_mem_append] at hafter
        exact .inr ⟨.inr ⟨before, after, rfl, hafter.1⟩, hafter.2 w List.mem_cons_self⟩
  · rintro (rfl | ⟨rfl | ⟨before, after, rfl, hafter⟩, hle⟩)
    · exact .inr ⟨widths, [], rfl, by simp⟩
    · exact open_zero _
    · refine .inr ⟨before, after ++ [w], by simp, ?_⟩
      exact List.forall_mem_append.mpr ⟨hafter, by simpa using hle⟩

/-- The open blocks are the open widths but zero, innermost first. -/
structure Tracks (blocks : Blocks) (widths : List Nat) : Prop where
  sorted : blocks.Pairwise (· > ·)
  mem : ∀ v, v ∈ blocks ↔ v ≠ 0 ∧ Open widths v
  width : blocks.width = widths.getLastD 0

/-- In falling order the greater entries are the first ones. -/
theorem takeWhile_eq_filter {blocks : Blocks} (h : blocks.Pairwise (· > ·)) (w : Nat) :
    blocks.takeWhile (w < ·) = blocks.filter (w < ·) := by
  induction blocks with
  | nil => rfl
  | cons b blocks ih =>
    obtain ⟨hb, hblocks⟩ := List.pairwise_cons.mp h
    by_cases hw : w < b
    · rw [List.takeWhile_cons_of_pos (by simpa using hw),
        List.filter_cons_of_pos (by simpa using hw), ih hblocks]
    · rw [List.takeWhile_cons_of_neg (by simpa using hw),
        List.filter_cons_of_neg (by simpa using hw)]
      refine (List.filter_eq_nil_iff.mpr fun v hv => ?_).symm
      have hlt := hb v hv
      simp only [decide_eq_true_eq]
      omega

theorem dropWhile_eq_filter {blocks : Blocks} (h : blocks.Pairwise (· > ·)) (w : Nat) :
    blocks.dropWhile (w < ·) = blocks.filter (· ≤ w) := by
  induction blocks with
  | nil => rfl
  | cons b blocks ih =>
    obtain ⟨hb, hblocks⟩ := List.pairwise_cons.mp h
    by_cases hw : w < b
    · rw [List.dropWhile_cons_of_pos (by simpa using hw),
        List.filter_cons_of_neg (by simpa using hw), ih hblocks]
    · rw [List.dropWhile_cons_of_neg (by simpa using hw), List.filter_eq_self.mpr]
      intro v hv
      simp only [decide_eq_true_eq]
      rcases List.mem_cons.mp hv with rfl | hv
      · omega
      · have hlt := hb v hv
        omega

theorem le_width {blocks : Blocks} (h : blocks.Pairwise (· > ·)) {v : Nat} (hv : v ∈ blocks) :
    v ≤ blocks.width := by
  cases blocks with
  | nil => cases hv
  | cons b blocks =>
    rcases List.mem_cons.mp hv with rfl | hv
    · exact Nat.le_refl v
    · exact Nat.le_of_lt ((List.pairwise_cons.mp h).1 v hv)

theorem width_mem {blocks : Blocks} (h : blocks.width ≠ 0) : blocks.width ∈ blocks := by
  cases blocks with
  | nil => exact absurd rfl h
  | cons b blocks => exact List.mem_cons_self

namespace Tracks

variable {blocks : Blocks} {widths : List Nat} {w : Nat}

theorem start : Tracks [] [] := ⟨.nil, by simp [open_nil], rfl⟩

/-- The blocks that a line set in by `w` leaves open. -/
theorem mem_filter (h : Tracks blocks widths) {v : Nat} :
    v ∈ blocks.filter (· ≤ w) ↔ v ≠ 0 ∧ Open widths v ∧ v ≤ w := by
  rw [List.mem_filter, h.mem, and_assoc, decide_eq_true_eq]

/-- The innermost of the blocks left open began where the line does just when its width is
open. -/
theorem width_filter (h : Tracks blocks widths) :
    Blocks.width (blocks.filter (· ≤ w)) = w ↔ Open widths w := by
  have hsorted := h.sorted.filter (· ≤ w)
  constructor
  · intro hw
    by_cases hzero : w = 0
    · exact .inl hzero
    · have hmem := width_mem (hw.symm ▸ hzero)
      rw [hw] at hmem
      exact (h.mem_filter.mp hmem).2.1
  · intro hopen
    have hle : Blocks.width (blocks.filter (· ≤ w)) ≤ w := by
      by_cases hzero : Blocks.width (blocks.filter (· ≤ w)) = 0
      · omega
      · exact (h.mem_filter.mp (width_mem hzero)).2.2
    by_cases hzero : w = 0
    · omega
    · exact Nat.le_antisymm hle
        (le_width hsorted (h.mem_filter.mpr ⟨hzero, hopen, Nat.le_refl w⟩))

/-- As many open widths are greater than `w` as there are open blocks further in. -/
theorem openAbove_eq (h : Tracks blocks widths) (w : Nat) :
    openAbove widths w = (blocks.takeWhile (w < ·)).length := by
  have hnodup : (blocks.filter (w < ·)).Nodup :=
    (h.sorted.imp fun hlt => Nat.ne_of_gt hlt).filter _
  rw [takeWhile_eq_filter h.sorted, ← List.toFinset_card_of_nodup hnodup]
  unfold openAbove
  congr 1
  ext v
  rw [Finset.mem_filter, List.mem_toFinset, List.mem_toFinset, List.mem_filter, h.mem,
    decide_eq_true_eq]
  constructor
  · rintro ⟨-, hopen, hlt⟩
    exact ⟨⟨by omega, hopen⟩, hlt⟩
  · rintro ⟨⟨hzero, hopen⟩, hlt⟩
    exact ⟨mem_of_open hopen hzero, hopen, hlt⟩

theorem openAbove_zero (h : Tracks blocks widths) : openAbove widths 0 = blocks.length := by
  rw [h.openAbove_eq, takeWhile_eq_filter h.sorted, List.filter_eq_self.mpr]
  intro v hv
  simpa using Nat.pos_of_ne_zero ((h.mem v).mp hv).1

/-- A line that is set in further than the last one opens a block. -/
theorem enter?_of_lt (h : Tracks blocks widths) (hw : widths.getLastD 0 < w) :
    blocks.enter? w = some (w :: blocks, .opens) := by
  unfold Blocks.enter?
  rw [if_pos (h.width ▸ hw)]

/-- Any other line closes the blocks further in, if it begins where an open block did. -/
theorem enter?_of_le (h : Tracks blocks widths) (hw : w ≤ widths.getLastD 0) :
    blocks.enter? w =
      if Open widths w then some (blocks.filter (· ≤ w), .closes (openAbove widths w))
      else none := by
  unfold Blocks.enter?
  rw [if_neg (by rw [h.width]; omega)]
  dsimp only
  rw [dropWhile_eq_filter h.sorted, h.openAbove_eq]
  by_cases hopen : Open widths w
  · rw [if_pos (h.width_filter.mpr hopen), if_pos hopen]
  · rw [if_neg (mt h.width_filter.mp hopen), if_neg hopen]

/-- A line is out of place when it is set in less than the last one and where no open block
began. -/
theorem enter?_eq_none (h : Tracks blocks widths) :
    blocks.enter? w = none ↔ w < widths.getLastD 0 ∧ ¬ Open widths w := by
  by_cases hw : widths.getLastD 0 < w
  · rw [h.enter?_of_lt hw]
    constructor
    · intro hnone
      cases hnone
    · rintro ⟨hlt, -⟩
      omega
  · rw [h.enter?_of_le (Nat.not_lt.mp hw)]
    constructor
    · intro hnone
      have hopen : ¬ Open widths w := by
        intro hopen
        rw [if_pos hopen] at hnone
        cases hnone
      refine ⟨Nat.lt_of_le_of_ne (Nat.not_lt.mp hw) fun heq => hopen ?_, hopen⟩
      by_cases hzero : w = 0
      · exact .inl hzero
      · have hmem := width_mem (h.width.trans heq.symm ▸ hzero)
        rw [h.width, ← heq] at hmem
        exact ((h.mem w).mp hmem).2
    · rintro ⟨-, hopen⟩
      exact if_neg hopen

/-- The blocks open after one more line are told from the widths as before. -/
theorem enter (h : Tracks blocks widths) {blocks' : Blocks} {change : Change}
    (henter : blocks.enter? w = some (blocks', change)) : Tracks blocks' (widths ++ [w]) := by
  by_cases hw : widths.getLastD 0 < w
  · rw [h.enter?_of_lt hw] at henter
    cases henter
    have hle : ∀ v ∈ blocks, v < w := fun v hv =>
      Nat.lt_of_le_of_lt (le_width h.sorted hv) (h.width ▸ hw)
    refine ⟨List.pairwise_cons.mpr ⟨hle, h.sorted⟩, fun v => ?_, by simp [Blocks.width]⟩
    rw [List.mem_cons, open_append_singleton]
    constructor
    · rintro (rfl | hv)
      · exact ⟨by omega, .inl rfl⟩
      · obtain ⟨hzero, hopen⟩ := (h.mem v).mp hv
        exact ⟨hzero, .inr ⟨hopen, Nat.le_of_lt (hle v hv)⟩⟩
    · rintro ⟨hzero, rfl | ⟨hopen, -⟩⟩
      · exact .inl rfl
      · exact .inr ((h.mem v).mpr ⟨hzero, hopen⟩)
  · rw [h.enter?_of_le (Nat.not_lt.mp hw)] at henter
    by_cases hopen : Open widths w
    · rw [if_pos hopen] at henter
      cases henter
      refine ⟨h.sorted.filter _, fun v => ?_, by simpa using h.width_filter.mpr hopen⟩
      rw [h.mem_filter, open_append_singleton]
      constructor
      · rintro ⟨hzero, hv, hle⟩
        exact ⟨hzero, .inr ⟨hv, hle⟩⟩
      · rintro ⟨hzero, rfl | ⟨hv, hle⟩⟩
        · exact ⟨hzero, hopen, Nat.le_refl v⟩
        · exact ⟨hzero, hv, hle⟩
    · rw [if_neg hopen] at henter
      cases henter

end Tracks

end SceneScript.Layout
