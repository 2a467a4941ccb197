import SceneScript.Proofs.Grammar.Mirror

/-! Reading with a cursor ends. Started anywhere up to the first end token of a list, every reader
comes to an end, and on its way the cursor goes forward and never passes that token. What keeps the
loops from turning for ever is that a round which is not the last one takes a token; calls and
rounds are nested at most six deep for each token. -/

namespace SceneScript

namespace Grammar.Walk

variable {α : Type} {ts : List Token}

/-- The index of the first end token. -/
def firstEnd (ts : List Token) : Nat := ts.findIdx (·.kind == .eof)

/-- How deep the calls and rounds of loops may be nested that read a list. -/
def depth (ts : List Token) : Nat := 6 * (firstEnd ts + 1)

/-- Started at a cursor up to the first end token, the run ends. Its cursor goes from token to token
and not behind the end token, and it takes a token if it gives a result that `moves` holds of. -/
def Progresses (ts : List Token) (x : Nat → Walk α) (moves : α → Prop) : Prop :=
  ∀ n, depth ts ≤ n → ∀ i, i ≤ firstEnd ts →
    ∃ r j, (x n).outcome i = some (r, trail j) ∧ i ≤ j ∧ j ≤ firstEnd ts ∧
      ∀ a, r = .ok a → moves a → i < j

/-- The readers of a list of tokens end, and do not leave it. -/
structure Contained (ts : List Token) : Prop where
  /-- Reading the list ends with the program of its tokens, or with their failure. On the way the
  cursor goes from token to token, and not behind the first end token. -/
  ends : ∀ n, depth ts ≤ n →
    ∃ j, (program ts n).outcome 0 = some (Program.ofTokens ts, trail j) ∧ j ≤ firstEnd ts
  /-- A program is read up to the first end token. -/
  whole : ∀ p, Program.ofTokens ts = .ok p → ∀ n, depth ts ≤ n →
    (program ts n).outcome 0 = some (.ok p, trail (firstEnd ts))
  /-- A failure is at a token up to the first end token. -/
  blamed : ∀ e, Program.ofTokens ts = .error e → ∃ n, n ≤ firstEnd ts ∧ ts[n]? = some e.token
  statement : Progresses ts (statement ts) fun _ => True
  operand : Progresses ts (operand ts) fun _ => True
  block : Progresses ts (block ts) fun _ => True
  -- The rounds of the loops. Some tell by their result that they are the last one.
  programRound : Progresses ts (programRound ts) fun next => next.isSome = true
  lineRound : Progresses ts (fun _ => tryIf ts (·.kind == .newline)) fun taken => taken = true
  blockRound : Progresses ts (blockRound ts) fun next => next.isSome = true
  elifRound : Progresses ts (elifRound ts) fun next => next.isSome = true
  operatorRound : ∀ level left,
    Progresses ts (operatorRound ts · level left) fun next => next.isSome = true
  argumentRound : Progresses ts (argumentRound ts) fun _ => True
  parameterRound : Progresses ts (fun _ => parameterRound ts) fun _ => True

theorem endsAt_firstEnd (h : ts.getLast?.map Token.kind = some .eof) :
    EndsAt ts (firstEnd ts) := by
  obtain ⟨stop, hstop, hkind⟩ := Option.map_eq_some_iff.mp h
  have hin : firstEnd ts < ts.length :=
    List.findIdx_lt_length_of_exists ⟨stop, List.mem_of_getLast? hstop, beq_iff_eq.mpr hkind⟩
  refine ⟨⟨ts[firstEnd ts], List.getElem?_eq_getElem hin, ?_⟩, fun i t ht heof => ?_⟩
  · exact beq_iff_eq.mp (List.findIdx_getElem (p := fun t : Token => t.kind == .eof) (w := hin))
  · refine Nat.le_of_not_lt fun hlt => ?_
    obtain ⟨_, rfl⟩ := List.getElem?_eq_some_iff.mp ht
    exact beq_eq_false_iff_ne.mp (List.not_of_lt_findIdx hlt) heof

theorem depth_le {n : Nat} (hn : depth ts ≤ n) (i : Nat) : 6 * (firstEnd ts - i) + 5 < n := by
  unfold depth at hn
  omega

section

variable (h : EndsAt ts (firstEnd ts))
include h

/-- A run that does what a reading of lists does makes progress where that shortens its list. -/
theorem Progresses.of_mirrors {x : Nat → Walk α} {y : List Token → Reading (α × List Token)}
    {moves : α → Prop}
    (hx : ∀ n i, i ≤ firstEnd ts → 6 * (firstEnd ts - i) + 5 < n →
      Mirrors ts (firstEnd ts) (x n) i (y (ts.drop i)))
    (hshort : ∀ us a rest, y us = .ok (a, rest) → moves a → rest.length < us.length) :
    Progresses ts x moves := by
  intro n hn i hi
  have hdepth : 6 * (firstEnd ts - i) + 5 < n := depth_le hn i
  have hrun := hx n i hi hdepth
  generalize hread : y (ts.drop i) = read at hrun
  cases hrun with
  | @ok a j hle hlimit hout =>
    refine ⟨.ok a, j, hout, hle, hlimit, fun b hb hmoves => ?_⟩
    cases hb
    exact h.lt_of_short (hshort _ _ _ hread hmoves) hlimit
  | @error e j n hle hlimit hn hat hout =>
    refine ⟨.error e, j, hout, hle, hlimit, fun b hb => ?_⟩
    cases hb

theorem Progresses.always {x : Nat → Walk α} {y : List Token → Reading (α × List Token)}
    (hx : ∀ n i, i ≤ firstEnd ts → 6 * (firstEnd ts - i) + 5 < n →
      Mirrors ts (firstEnd ts) (x n) i (y (ts.drop i)))
    (hshort : ∀ us a rest, y us = .ok (a, rest) → rest.length < us.length) :
    Progresses ts x fun _ => True :=
  of_mirrors h hx fun us a rest hread _ => hshort us a rest hread

theorem Progresses.unlessLast {x : Nat → Walk (Option α)}
    {y : List Token → Reading (Option α × List Token)}
    (hx : ∀ n i, i ≤ firstEnd ts → 6 * (firstEnd ts - i) + 5 < n →
      Mirrors ts (firstEnd ts) (x n) i (y (ts.drop i)))
    (hshort : ∀ us a rest, y us = .ok (some a, rest) → rest.length < us.length) :
    Progresses ts x fun next => next.isSome = true := by
  refine of_mirrors h hx fun us next rest hread hsome => ?_
  obtain ⟨a, rfl⟩ := Option.isSome_iff_exists.mp hsome
  exact hshort us a rest hread

/-- A program is read up to the first end token. -/
theorem outcome_program_ok {p : Program} (hp : Program.ofTokens ts = .ok p) {n : Nat}
    (hn : depth ts ≤ n) : (program ts n).outcome 0 = some (.ok p, trail (firstEnd ts)) := by
  have hread := mirrors_program h (Nat.zero_le _) (Nat.lt_of_succ_lt (depth_le hn 0))
  rw [List.drop_zero, show Grammar.statements ts = .ok p from hp] at hread
  exact hread.outcome_eq h (Nat.le_refl _)

theorem outcome_program_error {e : ParseError} (he : Program.ofTokens ts = .error e) {n : Nat}
    (hn : depth ts ≤ n) :
    ∃ j k, j ≤ firstEnd ts ∧ k ≤ firstEnd ts ∧ ts[k]? = some e.token ∧
      (program ts n).outcome 0 = some (.error e, trail j) := by
  have hread := mirrors_program h (Nat.zero_le _) (Nat.lt_of_succ_lt (depth_le hn 0))
  rw [List.drop_zero, show Grammar.statements ts = .error e from he] at hread
  cases hread with
  | @error _ j k _ hj hk hat hout => exact ⟨j, k, hj, hk, hat, hout⟩

end

end Grammar.Walk

open Grammar Grammar.Walk

/-- Reading a list of tokens that ends with an end token comes to an end, however the tokens of its
lines and blocks are placed. The cursor never goes back and never behind the first end token. Each
statement, operand and block takes a token, and so does each round of a loop before its last. -/
theorem Program.ofTokens_contained {ts : List Token}
    (hts : ts.getLast?.map Token.kind = some .eof) : Contained ts := by
  have h := endsAt_firstEnd hts
  exact
    { ends := fun n hn => by
        cases hread : Program.ofTokens ts with
        | ok p => exact ⟨firstEnd ts, outcome_program_ok h hread hn, Nat.le_refl _⟩
        | error e =>
          obtain ⟨j, k, hj, -, -, hout⟩ := outcome_program_error h hread hn
          exact ⟨j, hout, hj⟩
      whole := fun p hread n hn => outcome_program_ok h hread hn
      blamed := fun e hread => by
        obtain ⟨j, k, -, hk, hat, -⟩ := outcome_program_error h hread (Nat.le_refl _)
        exact ⟨k, hk, hat⟩
      statement := .always h (fun _ _ hi hn => mirrors_statement h hi (by omega))
        fun _ _ _ => length_lt_of_plain
      operand := .always h (fun _ _ hi hn => mirrors_operand h hi (by omega))
        fun _ _ _ => length_lt_of_plain
      block := .always h (fun _ _ hi hn => mirrors_block h hi (by omega))
        fun _ _ _ => length_lt_of_plain
      programRound := .unlessLast h (fun _ _ hi hn => mirrors_programRound h hi (by omega))
        fun _ _ _ => programStep_short
      lineRound := .of_mirrors h (fun _ _ hi _ => mirrors_tryStep h hi (ne_eof_of_kind (by decide)))
        fun _ _ _ hread => (tryStep_short hread).2
      blockRound := .unlessLast h (fun _ _ hi hn => mirrors_blockRound h hi (by omega))
        fun _ _ _ => blockStep_short
      elifRound := .unlessLast h (fun _ _ hi hn => mirrors_elifRound h hi (by omega))
        fun _ _ _ => elifStep_short
      operatorRound := fun level left =>
        .unlessLast h (fun _ _ hi hn => mirrors_operatorRound h hi (by omega) level left)
          fun _ _ _ => operatorStep_short
      argumentRound := .always h (fun _ _ hi hn => mirrors_argumentRound h hi (by omega))
        fun _ _ _ => argumentStep_short
      parameterRound := .always h (fun _ _ hi _ => mirrors_parameterRound h hi)
        fun _ _ _ => parameterStep_short }

/-- Blocks that are closed and opened in the wrong places, with tokens behind an end token. -/
theorem Program.ofTokens_contained_misplaced :
    let ts : List Token := [.newline ⟨1, 1⟩, ⟨.identifier, "x", ⟨2, 1⟩⟩, .dedent ⟨2, 2⟩,
      .indent ⟨3, 1⟩, .eof ⟨3, 1⟩, .dedent ⟨4, 1⟩, .eof ⟨4, 1⟩]
    ts.getLast?.map Token.kind = some .eof ∧ firstEnd ts = 4 ∧ Contained ts := by
  intro ts
  have hts : ts.getLast?.map Token.kind = some .eof := rfl
  exact ⟨hts, rfl, Program.ofTokens_contained hts⟩

end SceneScript
