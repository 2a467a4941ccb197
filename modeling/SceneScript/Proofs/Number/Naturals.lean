import Mathlib.Data.List.TakeWhile
import Mathlib.Tactic.NormNum.Ineq
import Mathlib.Tactic.NormNum.Pow
import Mathlib.Tactic.Ring
import SceneScript.Number.Numeral
import SceneScript.Number.Whole
import SceneScript.Number.Written

/-! Natural numbers among the numbers. Up to the largest safe integer every natural number is a
number of its own, and no larger one is rounded to a safe integer. Digits alone, however many, are
read as the number nearest to the natural number they stand for. -/

namespace SceneScript.Number

/-! The parts of a natural number. -/

@[simp] theorem power_eq (base n : Nat) : power base n = base ^ n := rfl

theorem roundDiv_one (n : Nat) : roundDiv n 1 = n := by
  unfold roundDiv
  simp [Nat.mod_one]

theorem floorLog2_one {n : Nat} (hn : n ≠ 0) : floorLog2 n 1 = n.log2 := by
  have hle : 2 ^ n.log2 ≤ n := Nat.log2_self_le hn
  have hone : Nat.log2 1 = 0 := by decide
  unfold floorLog2 scaled
  simp [hone, hle]

theorem log2_lt_of_safe {n : Nat} (hn : n ≠ 0) (h : n ≤ safeLimit) : n.log2 < 53 :=
  (Nat.log2_lt hn).mpr (Nat.lt_of_le_of_lt h (by decide))

/-- Shifted so that its leading one is in the fifty-second place, a natural number below the limit
fills the places of a double. -/
theorem shifted_bounds {n : Nat} (hn : n ≠ 0) (h : n ≤ safeLimit) :
    2 ^ 52 ≤ n * 2 ^ (52 - n.log2) ∧ n * 2 ^ (52 - n.log2) < 2 ^ 53 := by
  have hlog := log2_lt_of_safe hn h
  constructor
  · calc 2 ^ 52 = 2 ^ n.log2 * 2 ^ (52 - n.log2) := by rw [← Nat.pow_add]; congr 1; omega
      _ ≤ n * 2 ^ (52 - n.log2) := Nat.mul_le_mul_right _ (Nat.log2_self_le hn)
  · have hself : n < 2 ^ (n.log2 + 1) := Nat.lt_log2_self
    calc n * 2 ^ (52 - n.log2)
        < 2 ^ (n.log2 + 1) * 2 ^ (52 - n.log2) :=
          Nat.mul_lt_mul_of_pos_right hself (Nat.two_pow_pos _)
      _ = 2 ^ 53 := by rw [← Nat.pow_add]; congr 1; omega

theorem nearestBits_one {n : Nat} (hn : n ≠ 0) (h : n ≤ safeLimit) :
    nearestBits n 1 = (n.log2 + 1022) * 2 ^ 52 + n * 2 ^ (52 - n.log2) := by
  have hlog := log2_lt_of_safe hn h
  have hbounds := shifted_bounds hn h
  have hexponent : max ((n.log2 : Int) - 52) leastExponent = (n.log2 : Int) - 52 := by
    unfold leastExponent
    omega
  have hscaled : scaled 2 n 1 ((n.log2 : Int) - 52) = (n * 2 ^ (52 - n.log2), 1) := by
    unfold scaled
    simp only [power_eq]
    split
    · have hzero : 52 - n.log2 = 0 := by omega
      have hplaces : ((n.log2 : Int) - 52).toNat = 0 := by omega
      rw [hzero, hplaces, Nat.pow_zero, Nat.mul_one, Nat.mul_one]
    · have hplaces : (-((n.log2 : Int) - 52)).toNat = 52 - n.log2 := by omega
      rw [hplaces]
  have hbiased : ((n.log2 : Int) - 52 - leastExponent).toNat = n.log2 + 1022 := by
    unfold leastExponent
    omega
  unfold nearestBits
  rw [if_neg hn]
  simp only [power_eq]
  rw [floorLog2_one hn, hexponent, hscaled, hbiased, roundDiv_one]
  refine Nat.min_eq_right ?_
  unfold infinityBits
  rw [power_eq]
  omega

theorem bits_ofMagnitude (negative : Bool) {bits : Nat} (h : bits < 2 ^ 63) :
    (ofMagnitude negative bits).bits.toNat = (if negative then 2 ^ 63 else 0) + bits := by
  unfold ofMagnitude
  rw [UInt64.toNat_ofNat', power_eq]
  refine Nat.mod_eq_of_lt ?_
  split <;> omega

theorem nearestBits_le (num den : Nat) : nearestBits num den ≤ infinityBits := by
  unfold nearestBits
  split
  · exact Nat.zero_le _
  · exact Nat.min_le_left _ _

theorem nearestBits_lt (num den : Nat) : nearestBits num den < 2 ^ 63 :=
  Nat.lt_of_le_of_lt (nearestBits_le num den) (by decide)

theorem bits_ofNat (n : Nat) : (ofNat n).bits.toNat = nearestBits n 1 := by
  unfold ofNat ofRatio
  rw [bits_ofMagnitude false (nearestBits_lt n 1), if_neg Bool.false_ne_true, Nat.zero_add]

/-- A natural number below the limit, taken apart. -/
theorem exact_ofNat {n : Nat} (hn : n ≠ 0) (h : n ≤ safeLimit) :
    (ofNat n).exact = .finite false (n * 2 ^ (52 - n.log2)) ((n.log2 : Int) - 52) := by
  have hlog := log2_lt_of_safe hn h
  have hbounds := shifted_bounds hn h
  generalize hm : n * 2 ^ (52 - n.log2) = m at hbounds
  have hbits : (ofNat n).bits.toNat = (n.log2 + 1022) * 2 ^ 52 + m := by
    rw [bits_ofNat, nearestBits_one hn h, hm]
  have hbiased : ((n.log2 + 1022) * 2 ^ 52 + m) / power 2 52 % power 2 11 = n.log2 + 1023 := by
    simp only [power_eq]
    omega
  have hfraction : ((n.log2 + 1022) * 2 ^ 52 + m) % power 2 52 = m - 2 ^ 52 := by
    rw [power_eq]
    omega
  have hsign : decide (power 2 63 ≤ (n.log2 + 1022) * 2 ^ 52 + m) = false := by
    refine decide_eq_false ?_
    rw [power_eq]
    omega
  unfold exact Exact.ofBits
  rw [hbits]
  dsimp only
  rw [hbiased, hfraction, hsign, if_neg (by omega), if_neg (by omega)]
  have hmantissa : power 2 52 + (m - 2 ^ 52) = m := by
    rw [power_eq]
    omega
  have hexponent : leastExponent + ((n.log2 + 1023 - 1 : Nat) : Int) = (n.log2 : Int) - 52 := by
    unfold leastExponent
    omega
  rw [hmantissa, hexponent]

theorem integer?_ofNat {n : Nat} (h : n ≤ safeLimit) : (ofNat n).integer? = some (n : Int) := by
  by_cases hn : n = 0
  · subst hn
    have hzero : (ofNat 0).exact = .finite false 0 leastExponent := by decide
    have hwhole : isWhole 0 leastExponent = true := by
      unfold isWhole
      rw [Nat.zero_mod]
      rfl
    have hpart : wholePart 0 leastExponent = 0 := by
      unfold wholePart
      rw [if_neg (by decide), Nat.zero_div]
    unfold integer?
    rw [hzero]
    dsimp only
    rw [if_pos hwhole, hpart]
    rfl
  · have hlog := log2_lt_of_safe hn h
    have hplaces : (-((n.log2 : Int) - 52)).toNat = 52 - n.log2 := by omega
    unfold integer?
    rw [exact_ofNat hn h]
    dsimp only
    have hwhole : isWhole (n * 2 ^ (52 - n.log2)) ((n.log2 : Int) - 52) = true := by
      unfold isWhole
      rw [hplaces, power_eq, Nat.mul_mod_left]
      simp
    have hpart : wholePart (n * 2 ^ (52 - n.log2)) ((n.log2 : Int) - 52) = n := by
      unfold wholePart
      simp only [power_eq]
      split
      · have hzero : 52 - n.log2 = 0 := by omega
        have hzero' : ((n.log2 : Int) - 52).toNat = 0 := by omega
        rw [hzero, hzero', Nat.pow_zero, Nat.mul_one, Nat.mul_one]
      · rw [hplaces, Nat.mul_div_cancel _ (Nat.two_pow_pos _)]
    rw [if_pos hwhole, hpart]
    rfl

/-! Natural numbers above the limit. -/

theorem div_le_roundDiv (num den : Nat) : num / den ≤ roundDiv num den := by
  unfold roundDiv
  dsimp only
  split_ifs <;> omega

/-- The number nearest to a natural number is not below the power of two at its leading one. -/
theorem le_nearestBits {n : Nat} (h : 52 ≤ n.log2) :
    min infinityBits ((n.log2 + 1023) * 2 ^ 52) ≤ nearestBits n 1 := by
  have hn : n ≠ 0 := by
    rintro rfl
    exact absurd h (by decide)
  have hexponent : max (floorLog2 n 1 - 52) leastExponent = ((n.log2 - 52 : Nat) : Int) := by
    rw [floorLog2_one hn]
    unfold leastExponent
    omega
  have hscaled : scaled 2 n 1 ((n.log2 - 52 : Nat) : Int) = (n, 2 ^ (n.log2 - 52)) := by
    unfold scaled
    rw [if_pos (Int.natCast_nonneg _), Int.toNat_natCast, power_eq, Nat.one_mul]
  have hround : 2 ^ 52 ≤ roundDiv n (2 ^ (n.log2 - 52)) := by
    refine Nat.le_trans ?_ (div_le_roundDiv _ _)
    rw [Nat.le_div_iff_mul_le (Nat.two_pow_pos _), ← Nat.pow_add, Nat.add_sub_cancel' h]
    exact Nat.log2_self_le hn
  have hplaces : (((n.log2 - 52 : Nat) : Int) - leastExponent).toNat = n.log2 + 1022 := by
    unfold leastExponent
    omega
  unfold nearestBits
  rw [if_neg hn]
  dsimp only
  rw [hexponent, hscaled, hplaces]
  refine Nat.le_min.mpr ⟨Nat.min_le_left _ _, Nat.le_trans (Nat.min_le_right _ _) ?_⟩
  calc (n.log2 + 1023) * 2 ^ 52 = (n.log2 + 1022) * 2 ^ 52 + 2 ^ 52 := by ring
    _ ≤ (n.log2 + 1022) * power 2 52 + roundDiv n (2 ^ (n.log2 - 52)) :=
      Nat.add_le_add_left hround _

theorem le_nearestBits_of_lt {n : Nat} (h : safeLimit < n) :
    1076 * 2 ^ 52 ≤ nearestBits n 1 := by
  have hlog : 53 ≤ n.log2 := by
    refine (Nat.le_log2 (by omega)).mpr ?_
    unfold safeLimit at h
    rw [power_eq] at h
    omega
  refine Nat.le_trans (Nat.le_min.mpr ⟨by decide, ?_⟩) (le_nearestBits (by omega))
  exact Nat.mul_le_mul_right _ (by omega)

theorem mul_le_log2 {n a b : Nat} (hn : n ≠ 0) (h : (2 ^ a) ^ b ≤ n) : a * b ≤ n.log2 :=
  (Nat.le_log2 hn).mpr (by rwa [Nat.pow_mul])

theorem pow_pow_le_of_length {n a b : Nat} (hpos : 0 < a * b) (h : a * b < Decimal.length n) :
    (10 ^ a) ^ b ≤ n := by
  rw [← Nat.pow_mul]
  refine Nat.le_of_not_lt fun hlt => Nat.not_le.mpr h ?_
  exact (Nat.length_toDigits_le_iff (by decide) hpos).mpr hlt

/-- What has more digits than any double is infinite. -/
theorem nearestBits_eq_infinity {n : Nat} (h : (10 ^ 62) ^ 5 ≤ n) :
    nearestBits n 1 = infinityBits := by
  have hpower : (2 ^ 205) ^ 5 ≤ n := Nat.le_trans (Nat.pow_le_pow_left (by norm_num) 5) h
  have hn : n ≠ 0 := Nat.ne_of_gt (Nat.lt_of_lt_of_le (by norm_num) h)
  have hlog := mul_le_log2 hn hpower
  refine Nat.le_antisymm (nearestBits_le n 1) ?_
  refine Nat.le_trans (Nat.le_min.mpr ⟨Nat.le_refl _, ?_⟩) (le_nearestBits (by omega))
  exact Nat.mul_le_mul_right _ (by omega)

/-- The parts of a number whose last place counts `2 ^ k` or more. -/
theorem exact_of_le_bits {x : Number} {k : Nat} (h : (1075 + k) * 2 ^ 52 ≤ x.bits.toNat)
    (hsign : x.bits.toNat < 2 ^ 63) {negative : Bool} {m : Nat} {e : Int}
    (hx : x.exact = .finite negative m e) : 2 ^ 52 ≤ m ∧ (k : Int) ≤ e := by
  unfold exact Exact.ofBits at hx
  dsimp only at hx
  generalize hbiased : x.bits.toNat / power 2 52 % power 2 11 = biased at hx
  have hle : 1075 + k ≤ biased := by
    simp only [power_eq] at hbiased
    omega
  split_ifs at hx
  · omega
  · cases hx
    unfold leastExponent
    rw [power_eq]
    omega

theorem exact_ofNat_of_lt {n : Nat} (h : safeLimit < n) {negative : Bool} {m : Nat} {e : Int}
    (hx : (ofNat n).exact = .finite negative m e) : 2 ^ 52 ≤ m ∧ 1 ≤ e := by
  have hbits := le_nearestBits_of_lt h
  have hsign := nearestBits_lt n 1
  rw [← bits_ofNat] at hbits hsign
  exact exact_of_le_bits (k := 1) hbits hsign hx

/-! Fractions. Natural numbers have none, also those that are rounded. -/

theorem truncate_eq_self {x : Number}
    (h : ∀ negative m e, x.exact = .finite negative m e → isWhole m e = true) :
    x.truncate = x := by
  unfold truncate
  cases hx : x.exact with
  | nan => rfl
  | infinite => rfl
  | finite negative m e => exact if_pos (h negative m e hx)

theorem isWhole_of_integer? {x : Number} {i : Int} (h : x.integer? = some i) {negative : Bool}
    {m : Nat} {e : Int} (hx : x.exact = .finite negative m e) : isWhole m e = true := by
  unfold integer? at h
  rw [hx] at h
  dsimp only at h
  by_contra hwhole
  rw [if_neg hwhole] at h
  cases h

theorem truncate_ofNat (n : Nat) : (ofNat n).truncate = ofNat n := by
  refine truncate_eq_self fun negative m e hx => ?_
  by_cases h : n ≤ safeLimit
  · exact isWhole_of_integer? (integer?_ofNat h) hx
  · have he := (exact_ofNat_of_lt (Nat.lt_of_not_le h) hx).2
    unfold isWhole
    rw [decide_eq_true (by omega), Bool.true_or]

theorem mantissa_lt {x : Number} {negative : Bool} {m : Nat} {e : Int}
    (h : x.exact = .finite negative m e) : m < 2 ^ 53 := by
  have hfraction : x.bits.toNat % power 2 52 < 2 ^ 52 := Nat.mod_lt _ (by decide)
  unfold exact Exact.ofBits at h
  dsimp only at h
  split_ifs at h
  · cases h
    omega
  · cases h
    rw [power_eq]
    omega

/-- The parts of a number are those of the number without its sign. -/
theorem exact_ofMagnitude {bits : Nat} (h : bits < 2 ^ 63) {negative negative' : Bool} {m : Nat}
    {e : Int} (hx : (ofMagnitude negative bits).exact = .finite negative' m e) :
    (ofMagnitude false bits).exact = .finite false m e := by
  have hbiased : ((if negative then 2 ^ 63 else 0) + bits) / power 2 52 % power 2 11 =
      bits / power 2 52 % power 2 11 := by
    simp only [power_eq]
    split <;> omega
  have hfraction : ((if negative then 2 ^ 63 else 0) + bits) % power 2 52 =
      bits % power 2 52 := by
    simp only [power_eq]
    split <;> omega
  have hsign : decide (power 2 63 ≤ bits) = false := decide_eq_false (Nat.not_le.mpr h)
  unfold exact Exact.ofBits at hx ⊢
  rw [bits_ofMagnitude _ h] at hx ⊢
  dsimp only at hx ⊢
  rw [hbiased, hfraction] at hx
  rw [if_neg Bool.false_ne_true, Nat.zero_add, hsign]
  split_ifs at hx ⊢ <;> cases hx <;> rfl

/-- What is left without the fraction is small enough to be a number of its own. -/
theorem truncate_truncate (x : Number) : x.truncate.truncate = x.truncate := by
  by_cases hwhole : ∀ negative m e, x.exact = .finite negative m e → isWhole m e = true
  · rw [truncate_eq_self hwhole, truncate_eq_self hwhole]
  · simp only [not_forall] at hwhole
    obtain ⟨negative, m, e, hx, hpart⟩ := hwhole
    have htruncate : x.truncate = ofRatio negative (wholePart m e) 1 := by
      unfold truncate
      rw [hx]
      exact if_neg hpart
    have hsafe : wholePart m e ≤ safeLimit := by
      have hm := mantissa_lt hx
      have he : ¬ 0 ≤ e := fun he => hpart (by simp [isWhole, he])
      have hdiv : m / power 2 (-e).toNat ≤ m := Nat.div_le_self _ _
      unfold wholePart safeLimit
      rw [if_neg he, power_eq 2 53]
      omega
    rw [htruncate]
    refine truncate_eq_self fun negative' m' e' hx' => ?_
    exact isWhole_of_integer? (integer?_ofNat hsafe) (exact_ofMagnitude (nearestBits_lt _ _) hx')

/-! Safe integers. -/

theorem isSafeInteger_ofNat {n : Nat} (h : n ≤ safeLimit) : (ofNat n).isSafeInteger = true := by
  unfold isSafeInteger
  rw [integer?_ofNat h]
  simpa using h

theorem not_isSafeInteger_ofNat {n : Nat} (h : safeLimit < n) :
    (ofNat n).isSafeInteger = false := by
  unfold isSafeInteger integer?
  cases hx : (ofNat n).exact with
  | nan => rfl
  | infinite => rfl
  | finite negative m e =>
    obtain ⟨hm, he⟩ := exact_ofNat_of_lt h hx
    have hpart : safeLimit < wholePart m e := by
      unfold wholePart safeLimit
      rw [if_pos (by omega), power_eq, power_eq]
      calc 2 ^ 53 - 1 < 2 ^ 52 * 2 ^ 1 := by norm_num
        _ ≤ m * 2 ^ e.toNat := Nat.mul_le_mul hm (Nat.pow_le_pow_right (by decide) (by omega))
    dsimp only
    split_ifs
    · exact decide_eq_false (by omega)
    · exact decide_eq_false (by omega)
    · rfl

theorem isSafeInteger_ofNat_iff {n : Nat} : (ofNat n).isSafeInteger = true ↔ n ≤ safeLimit := by
  refine ⟨fun hsafe => Nat.not_lt.mp fun h => ?_, isSafeInteger_ofNat⟩
  rw [not_isSafeInteger_ofNat h] at hsafe
  cases hsafe

/-! Digits. -/

theorem digitValue?_of_isDigit {c : Char} (h : c.isDigit = true) :
    digitValue? 10 c = some (c.toNat - '0'.toNat) := by
  have hbounds : 0x30 ≤ c.toNat ∧ c.toNat ≤ 0x39 := by
    simpa [Char.isDigit, UInt32.le_iff_toNat_le] using h
  have hlt : c.toNat - 0x30 < 10 := by omega
  unfold digitValue?
  dsimp only
  rw [if_pos hbounds, if_pos hlt]
  rfl

theorem readDigits_eq_ofDigitChars {cs : List Char} (h : ∀ c ∈ cs, c.isDigit = true) :
    readDigits 10 cs = Nat.ofDigitChars 10 cs 0 := by
  have hfrom : ∀ acc, readFrom 10 acc cs = Nat.ofDigitChars 10 cs acc := by
    induction cs with
    | nil => exact fun acc => rfl
    | cons c cs ih =>
      intro acc
      rw [List.forall_mem_cons] at h
      rw [readFrom, digitValue?_of_isDigit h.1, Option.getD_some, ih h.2, Nat.ofDigitChars_cons,
        Nat.mul_comm]
  exact hfrom 0

theorem not_isBlank_of_isDigit {c : Char} (h : c.isDigit = true) : Text.isBlank c = false := by
  have hbounds : 0x30 ≤ c.toNat ∧ c.toNat ≤ 0x39 := by
    simpa [Char.isDigit, UInt32.le_iff_toNat_le] using h
  unfold Text.isBlank
  dsimp only
  simp only [Bool.or_eq_false_iff, Bool.and_eq_false_iff, decide_eq_false_iff_not,
    beq_eq_false_iff_ne]
  omega

theorem trim_of_digits {cs : List Char} (h : ∀ c ∈ cs, c.isDigit = true) : Text.trim cs = cs := by
  have hkeep : ∀ ds : List Char, (∀ c ∈ ds, c.isDigit = true) → ds.dropWhile Text.isBlank = ds := by
    intro ds hds
    cases ds with
    | nil => rfl
    | cons d ds =>
      exact List.dropWhile_cons_of_neg (by simp [not_isBlank_of_isDigit (hds d List.mem_cons_self)])
  unfold Text.trim Text.trimEnd
  rw [hkeep cs h, hkeep cs.reverse (fun c hc => h c (List.mem_reverse.mp hc)), List.reverse_reverse]

theorem readDecimal?_of_digits {cs : List Char} (hne : cs ≠ []) (h : ∀ c ∈ cs, c.isDigit = true) :
    readDecimal? cs = some ⟨readDigits 10 cs, 0⟩ := by
  unfold readDecimal?
  rw [List.takeWhile_eq_self_iff.mpr h, List.dropWhile_eq_nil_iff.mpr h]
  simp [hne]

theorem readUnsigned_of_digits {cs : List Char} (hne : cs ≠ []) (h : ∀ c ∈ cs, c.isDigit = true) :
    readUnsigned false cs = ofMagnitude false (Decimal.bits ⟨readDigits 10 cs, 0⟩) := by
  unfold readUnsigned
  split
  · exact absurd (h 'I' List.mem_cons_self) (by decide)
  · rw [readDecimal?_of_digits hne h]

/-- Digits alone are a numeral. -/
theorem read_of_digits {cs : List Char} (hne : cs ≠ []) (h : ∀ c ∈ cs, c.isDigit = true) :
    read (String.ofList cs) = ofMagnitude false (Decimal.bits ⟨readDigits 10 cs, 0⟩) := by
  have hnot : ∀ c ∈ cs, ∀ d : Char, d.isDigit = false → c ≠ d := by
    rintro c hc d hd rfl
    rw [h c hc] at hd
    cases hd
  unfold read
  rw [String.toList_ofList, trim_of_digits h]
  split
  · exact absurd rfl hne
  · rename_i c rest
    have hc : c ∈ '0' :: c :: rest := by simp
    rw [if_neg (not_or.mpr ⟨hnot c hc 'x' rfl, hnot c hc 'X' rfl⟩),
      if_neg (not_or.mpr ⟨hnot c hc 'o' rfl, hnot c hc 'O' rfl⟩),
      if_neg (not_or.mpr ⟨hnot c hc 'b' rfl, hnot c hc 'B' rfl⟩)]
    exact readUnsigned_of_digits hne h
  · exact absurd rfl (hnot '-' List.mem_cons_self '-' rfl)
  · exact absurd rfl (hnot '+' List.mem_cons_self '+' rfl)
  · exact readUnsigned_of_digits hne h

theorem isDigit_of_mem_digitsOf {n : Nat} {c : Char} (h : c ∈ digitsOf n) : c.isDigit = true :=
  Nat.isDigit_of_mem_toDigits (by decide) (by decide) h

/-- Digits alone are read as the number nearest to what they stand for. -/
theorem read_of_digits_eq {cs : List Char} (hne : cs ≠ []) (h : ∀ c ∈ cs, c.isDigit = true) :
    read (String.ofList cs) = ofNat (Nat.ofDigitChars 10 cs 0) := by
  rw [read_of_digits hne h, readDigits_eq_ofDigitChars h]
  generalize Nat.ofDigitChars 10 cs 0 = n
  have hbits : Decimal.bits ⟨n, 0⟩ = nearestBits n 1 := by
    unfold Decimal.bits
    dsimp only
    by_cases hn : n = 0
    · rw [if_pos hn, hn]
      rfl
    · rw [if_neg hn]
      split_ifs with hlong hshort
      · exact (nearestBits_eq_infinity (pow_pow_le_of_length (by decide) (by omega))).symm
      · omega
      · rfl
  rw [hbits]
  rfl

/-- A natural number is read back from its digits. -/
theorem read_digitsOf (n : Nat) : read (String.ofList (digitsOf n)) = ofNat n := by
  have hne : digitsOf n ≠ [] := Nat.toDigits_ne_nil
  rw [read_of_digits_eq hne fun c => isDigit_of_mem_digitsOf]
  exact congrArg ofNat (Nat.ofDigitChars_toDigits (by decide) (by decide))

end SceneScript.Number
