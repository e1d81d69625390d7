import QmlStubs.Proofs.Rounding

/-!
# The shortest decimal reads back

The printer looks for a decimal in the rounding interval of a number on grids of one to seventeen
digits. Two things are proved of it: a decimal in the interval is read as the number
(`ofDecimal_of_holds`), and on the grid of seventeen digits one of the two neighbours of the value
is in the interval (`holds_or_holds_next`), so that the search never comes back empty. Together:

> **the shortest decimal of a finite number is read as that number** (`ofDecimal_shortest`).

A decimal is compared with the interval over a common denominator `10 ^ n` (`holds_iff`), which
takes the case distinction on the sign of the exponent out of everything else.
-/

set_option autoImplicit false

namespace QmlStubs

namespace Binary64

/-! ## Decimals over a common denominator -/

/-- Multiplying both sides of a ratio does not move it. -/
theorem RoundingInterval.has_mul {i : RoundingInterval} {num den c : Nat} (hc : 0 < c) :
    i.Has (num * c) (den * c) ↔ i.Has num den := by
  constructor
  · rintro ⟨hl, hh, hin⟩
    rw [← Nat.mul_assoc] at hl hh
    refine ⟨Nat.le_of_mul_le_mul_right hl hc, Nat.le_of_mul_le_mul_right hh hc, fun h => ?_⟩
    have := hin h
    rw [← Nat.mul_assoc, ← Nat.mul_assoc] at this
    exact ⟨Nat.lt_of_mul_lt_mul_right this.1, Nat.lt_of_mul_lt_mul_right this.2⟩
  · rintro ⟨hl, hh, hin⟩
    refine ⟨?_, ?_, fun h => ?_⟩
    · rw [← Nat.mul_assoc]
      exact Nat.mul_le_mul_right c hl
    · rw [← Nat.mul_assoc]
      exact Nat.mul_le_mul_right c hh
    · rw [← Nat.mul_assoc, ← Nat.mul_assoc]
      exact ⟨Nat.mul_lt_mul_of_pos_right (hin h).1 hc, Nat.mul_lt_mul_of_pos_right (hin h).2 hc⟩

theorem RoundingInterval.holds_eq_true {i : RoundingInterval} {x : Decimal} :
    i.holds x = true ↔
      i.Has (scaleByTen (x.digits * quarterUnits) 1 x.exponent).1
        (scaleByTen (x.digits * quarterUnits) 1 x.exponent).2 := by
  unfold RoundingInterval.holds quarterUnits
  generalize scaleByTen _ _ _ = r
  obtain ⟨num, den⟩ := r
  dsimp only
  cases hc : i.closed with
  | true =>
    rw [if_pos rfl, Bool.and_eq_true, decide_eq_true_iff, decide_eq_true_iff]
    exact ⟨fun h => ⟨h.1, h.2, fun h' => by rw [hc] at h'; simp at h'⟩, fun h => ⟨h.low, h.high⟩⟩
  | false =>
    rw [if_neg (by simp), Bool.and_eq_true, decide_eq_true_iff, decide_eq_true_iff]
    exact ⟨fun h => ⟨Nat.le_of_lt h.1, Nat.le_of_lt h.2, fun _ => h⟩, fun h => h.inner hc⟩

/-- **A decimal in the interval, over a common denominator.** -/
theorem RoundingInterval.holds_iff {i : RoundingInterval} {a : Nat} {e : Int} {n j : Nat}
    (hj : e + n = j) : i.holds ⟨a, e⟩ = true ↔ i.Has (a * 10 ^ j * quarterUnits) (10 ^ n) := by
  rw [holds_eq_true]
  dsimp only
  generalize quarterUnits = u
  unfold scaleByTen
  by_cases he : 0 ≤ e
  · obtain ⟨k, rfl⟩ := Int.eq_ofNat_of_zero_le he
    obtain rfl : j = k + n := by omega
    rw [if_pos he, Int.toNat_natCast, ← has_mul (c := 10 ^ n) (Nat.pow_pos (by decide)),
      Nat.pow_add]
    have hnum : a * u * 10 ^ k * 10 ^ n = a * (10 ^ k * 10 ^ n) * u := by ring
    rw [hnum, Nat.one_mul]
  · obtain ⟨k, hk⟩ := Int.eq_ofNat_of_zero_le (show 0 ≤ -e by omega)
    obtain rfl : n = k + j := by omega
    rw [if_neg he, hk, Int.toNat_natCast, ← has_mul (c := 10 ^ j) (Nat.pow_pos (by decide)),
      Nat.pow_add]
    have hnum : a * u * 10 ^ j = a * 10 ^ j * u := by ring
    rw [hnum, Nat.one_mul]

/-- Zeros moved between digits and exponent change nothing. -/
theorem RoundingInterval.holds_shift (i : RoundingInterval) (a k : Nat) (e : Int) :
    i.holds ⟨a * 10 ^ k, e⟩ = i.holds ⟨a, e + k⟩ := by
  obtain ⟨n, j, hj⟩ : ∃ n j : Nat, e + n = j := ⟨e.natAbs, (e + e.natAbs).toNat, by omega⟩
  have hj' : e + k + n = (k + j : Nat) := by omega
  rw [Bool.eq_iff_iff, holds_iff hj, holds_iff hj', Nat.pow_add, Nat.mul_assoc a]

/-! ## Bounds of the interval -/

theorem significand_ne_zero {x : Binary64} (h : x.isZero = false) : x.significand ≠ 0 := by
  unfold isZero at h
  unfold significand
  split
  next he =>
    rw [he] at h
    intro hf
    have hz : x.fraction = 0 := Fin.ext hf
    rw [hz] at h
    simp at h
  next => omega

theorem units_ge {x : Binary64} (h : x.isZero = false) : 2 ^ x.scale ≤ x.units :=
  Nat.le_mul_of_pos_left _ (Nat.pos_of_ne_zero (significand_ne_zero h))

theorem value_pos {x : Binary64} (h : x.isZero = false) : 1 ≤ x.roundingInterval.value := by
  have hvalue : x.roundingInterval.value = 4 * x.units := rfl
  have hstep := Nat.two_pow_pos x.scale
  have hunits := units_ge h
  omega

theorem low_pos {x : Binary64} (h : x.isZero = false) : 2 ≤ x.roundingInterval.low := by
  have hstep := Nat.two_pow_pos x.scale
  have hunits := units_ge h
  rcases roundingInterval_cases x with ⟨hc, -⟩ | ⟨hc, -⟩ <;> omega

/-- The unit of a largest number. -/
def largestStep : Nat := 2 ^ 2045

theorem high_lt {x : Binary64} (h : x.isFinite = true) :
    x.roundingInterval.high < 2 ^ 56 * largestStep := by
  have hsig := significand_lt x
  have hexp := exponent_lt_of_isFinite h
  have hscale : x.scale ≤ 2045 := by
    unfold scale
    omega
  have hstep : 2 ^ x.scale ≤ largestStep := by
    obtain ⟨d, hd⟩ := Nat.exists_eq_add_of_le hscale
    unfold largestStep
    rw [hd, Nat.pow_add]
    exact Nat.le_mul_of_pos_right _ (Nat.two_pow_pos d)
  have hhigh : x.roundingInterval.high = 4 * (x.significand * 2 ^ x.scale) + 2 * 2 ^ x.scale := rfl
  rw [hhigh]
  have hpos := Nat.two_pow_pos x.scale
  generalize largestStep = u at *
  generalize 2 ^ x.scale = v at *
  nlinarith

/-! ## Reading a decimal of the interval -/

theorem length_toDigits_bounds {n : Nat} (h : n ≠ 0) :
    10 ^ ((Nat.toDigits 10 n).length - 1) ≤ n ∧ n < 10 ^ (Nat.toDigits 10 n).length := by
  have hpos : 0 < (Nat.toDigits 10 n).length := Nat.length_toDigits_pos
  refine ⟨?_, (Nat.length_toDigits_le_iff (by decide) hpos).1 (Nat.le_refl _)⟩
  by_contra hlt
  rw [Nat.not_le] at hlt
  by_cases hone : (Nat.toDigits 10 n).length - 1 = 0
  · rw [hone, Nat.pow_zero] at hlt
    omega
  · have := (Nat.length_toDigits_le_iff (by decide) (Nat.pos_of_ne_zero hone)).2 hlt
    omega

/-- How small and how large the unit is, next to powers of ten. -/
theorem quarterUnits_bounds : 0 < quarterUnits ∧ quarterUnits < 2 * 10 ^ 331 ∧
    quarterUnits ≤ 1 * 10 ^ (399 + 1) ∧ 2 ^ 56 * largestStep ≤ 10 ^ 310 * quarterUnits := by
  decide +kernel

theorem quarterUnits_pos : 0 < quarterUnits := quarterUnits_bounds.1

/-- A decimal of more than 310 places is above every interval. -/
theorem places_le {high a n j len : Nat} (hhigh : high < 2 ^ 56 * largestStep)
    (ha : 10 ^ (len - 1) ≤ a) (hplaces : 310 + n ≤ len - 1 + j) :
    high * 10 ^ n < a * 10 ^ j * quarterUnits := by
  obtain ⟨-, -, -, hconst⟩ := quarterUnits_bounds
  have hpow : 0 < 10 ^ n := Nat.pow_pos (by decide)
  calc high * 10 ^ n
      < 2 ^ 56 * largestStep * 10 ^ n := Nat.mul_lt_mul_of_pos_right hhigh hpow
    _ ≤ 10 ^ 310 * quarterUnits * 10 ^ n := Nat.mul_le_mul_right _ hconst
    _ = 10 ^ (310 + n) * quarterUnits := by rw [Nat.pow_add, Nat.mul_right_comm]
    _ ≤ 10 ^ (len - 1 + j) * quarterUnits :=
      Nat.mul_le_mul_right _ (Nat.pow_le_pow_right (by decide) hplaces)
    _ ≤ a * 10 ^ j * quarterUnits := by
      rw [Nat.pow_add]
      exact Nat.mul_le_mul_right _ (Nat.mul_le_mul_right _ ha)

/-- A decimal that begins below the place -330 is below every interval. -/
theorem le_places {low a n j len : Nat} (hlow : 2 ≤ low) (ha : a < 10 ^ len)
    (hplaces : len + j + 331 ≤ n) : a * 10 ^ j * quarterUnits < low * 10 ^ n := by
  obtain ⟨-, hconst, -⟩ := quarterUnits_bounds
  have hpow : 0 < 10 ^ (len + j) := Nat.pow_pos (by decide)
  calc a * 10 ^ j * quarterUnits
      ≤ 10 ^ (len + j) * quarterUnits := by
        rw [Nat.pow_add]
        exact Nat.mul_le_mul_right _ (Nat.mul_le_mul_right _ (Nat.le_of_lt ha))
    _ < 10 ^ (len + j) * (2 * 10 ^ 331) := Nat.mul_lt_mul_of_pos_left hconst hpow
    _ = 2 * 10 ^ (len + j + 331) := by rw [Nat.pow_add 10 (len + j), Nat.mul_left_comm]
    _ ≤ low * 10 ^ n := Nat.mul_le_mul hlow (Nat.pow_le_pow_right (by decide) hplaces)

/-- **A decimal in the interval of a number is read as the number.** -/
theorem ofDecimal_of_holds {x : Binary64} {a : Nat} {e : Int} (hfin : x.isFinite = true)
    (hz : x.isZero = false) (h : x.roundingInterval.holds ⟨a, e⟩ = true) :
    a ≠ 0 ∧ ofDecimal x.negative a e = x := by
  obtain ⟨n, j, hj⟩ : ∃ n j : Nat, e + n = j := ⟨e.natAbs, (e + e.natAbs).toNat, by omega⟩
  have hhas := (RoundingInterval.holds_iff hj).1 h
  have hlow := low_pos hz
  have hhigh := high_lt hfin
  have ha : a ≠ 0 := by
    rintro rfl
    have hle := hhas.low
    rw [Nat.zero_mul, Nat.zero_mul] at hle
    have hpow : 0 < 10 ^ n := Nat.pow_pos (by decide)
    have := Nat.mul_pos (show 0 < x.roundingInterval.low by omega) hpow
    omega
  obtain ⟨hdlow, hdhigh⟩ := length_toDigits_bounds ha
  refine ⟨ha, ?_⟩
  unfold ofDecimal
  rw [if_neg ha]
  dsimp only
  generalize (Nat.toDigits 10 a).length = len at *
  have hupper : ¬ 310 < (len : Int) + e := fun hlt =>
    absurd hhas.high (Nat.not_le_of_lt (places_le hhigh hdlow (by omega)))
  have hlower : ¬ (len : Int) + e < -330 := fun hlt =>
    absurd hhas.low (Nat.not_le_of_lt (le_places hlow hdhigh (by omega)))
  rw [if_neg hupper, if_neg hlower]
  rw [RoundingInterval.holds_eq_true] at h
  dsimp only at h
  by_cases he : 0 ≤ e
  · rw [if_pos he]
    unfold scaleByTen at h
    rw [if_pos he, Nat.mul_right_comm] at h
    exact ofRatio_of_has hfin (by decide) h
  · rw [if_neg he]
    unfold scaleByTen at h
    rw [if_neg he, Nat.one_mul] at h
    exact ofRatio_of_has hfin (Nat.pow_pos (by decide)) h

/-! ## Finding a decimal in the interval -/

/-- The leading exponent is not above the ratio. -/
theorem leadingExponent_le {num den : Nat} (hden : 0 < den)
    (h : ∃ k < 400, den ≤ num * 10 ^ (k + 1)) {n j : Nat} (hj : leadingExponent num den + n = j) : 10 ^ j * den ≤ num * 10 ^ n := by
  unfold leadingExponent at hj
  by_cases hle : den ≤ num
  · rw [if_pos hle] at hj
    have hq : num / den ≠ 0 := Nat.ne_of_gt (Nat.div_pos hle hden)
    have hlow := (length_toDigits_bounds hq).1
    have hlen : 0 < (Nat.toDigits 10 (num / den)).length := Nat.length_toDigits_pos
    obtain rfl : j = (Nat.toDigits 10 (num / den)).length - 1 + n := by omega
    rw [Nat.pow_add, Nat.mul_right_comm]
    exact Nat.mul_le_mul_right _ ((Nat.le_div_iff_mul_le hden).1 hlow)
  · rw [if_neg hle] at hj
    cases hk : (List.range 400).find? fun j => decide (den ≤ num * 10 ^ (j + 1)) with
    | none =>
      obtain ⟨k, hlt, hk'⟩ := h
      have hnone := List.find?_eq_none.1 hk k (List.mem_range.2 hlt)
      exact absurd (decide_eq_true hk') hnone
    | some k =>
      rw [hk] at hj
      dsimp only at hj
      have hle : den ≤ num * 10 ^ (k + 1) := by simpa using List.find?_some hk
      obtain rfl : n = k + 1 + j := by omega
      rw [Nat.pow_add 10 (k + 1), ← Nat.mul_assoc, Nat.mul_comm (10 ^ j)]
      exact Nat.mul_le_mul_right _ hle

/-- The lower neighbour of a value on a decimal grid, over a common denominator. -/
theorem neighbours (value : Nat) {u : Nat} (hu : 0 < u) {e : Int} {n j : Nat} (hj : e + n = j) :
    let q := (scaleByTen value u (-e)).1 / (scaleByTen value u (-e)).2
    q * 10 ^ j * u ≤ value * 10 ^ n ∧ value * 10 ^ n ≤ (q + 1) * 10 ^ j * u := by
  unfold scaleByTen
  by_cases he : 0 ≤ -e
  · obtain ⟨k, hk⟩ := Int.eq_ofNat_of_zero_le he
    obtain rfl : n = k + j := by omega
    rw [if_pos he, hk, Int.toNat_natCast]
    dsimp only
    have hlow := Nat.div_mul_le_self (value * 10 ^ k) u
    have hhigh := Nat.le_of_lt (Nat.lt_mul_of_div_lt (Nat.lt_succ_self (value * 10 ^ k / u)) hu)
    rw [Nat.pow_add, ← Nat.mul_assoc, Nat.mul_right_comm, Nat.mul_right_comm _ (10 ^ j) u]
    exact ⟨Nat.mul_le_mul_right _ hlow, Nat.mul_le_mul_right _ hhigh⟩
  · obtain ⟨k, hk⟩ := Int.eq_ofNat_of_zero_le (show 0 ≤ - -e by omega)
    obtain rfl : j = k + n := by omega
    rw [if_neg he, hk, Int.toNat_natCast]
    dsimp only
    have hpos : 0 < u * 10 ^ k := Nat.mul_pos hu (Nat.pow_pos (by decide))
    have hlow := Nat.div_mul_le_self value (u * 10 ^ k)
    have hhigh := Nat.le_of_lt (Nat.lt_mul_of_div_lt (Nat.lt_succ_self (value / (u * 10 ^ k))) hpos)
    have hsplit : ∀ q, q * 10 ^ (k + n) * u = q * (u * 10 ^ k) * 10 ^ n := fun q => by
      rw [Nat.pow_add]
      ring
    rw [hsplit, hsplit]
    exact ⟨Nat.mul_le_mul_right _ hlow, Nat.mul_le_mul_right _ hhigh⟩

/-- **The interval is wider than a grid of seventeen digits.** -/
theorem value_lt_width {x : Binary64} (hz : x.isZero = false) :
    10 ^ 16 * x.roundingInterval.low + x.roundingInterval.value < 10 ^ 16 * x.roundingInterval.high := by
  have hhigh : x.roundingInterval.high = 4 * x.units + 2 * 2 ^ x.scale := rfl
  have hvalue : x.roundingInterval.value = 4 * x.units := rfl
  have hunits : x.units = x.significand * 2 ^ x.scale := rfl
  have hsig := significand_lt x
  have hstep := Nat.two_pow_pos x.scale
  have hle := units_ge hz
  rw [hhigh, hvalue]
  rcases roundingInterval_cases x with ⟨hlow, -⟩ | ⟨hlow, hf, he⟩
  · have hlt : x.units < 2 ^ 53 * 2 ^ x.scale := by
      rw [hunits]
      exact Nat.mul_lt_mul_of_pos_right hsig hstep
    omega
  · have hpow : x.significand = 2 ^ 52 := by
      unfold significand
      rw [if_neg fun h0 => by rw [h0] at he; simp at he, hf]
      rfl
    rw [hpow] at hunits
    omega

/-- The decimal after another one on its grid is one digit more. -/
theorem holds_next (i : RoundingInterval) (x : Decimal) (count : Nat) :
    i.holds (x.next count) = i.holds ⟨x.digits + 1, x.exponent⟩ := by
  unfold Decimal.next
  split
  next h => rw [h, ← RoundingInterval.holds_shift, Nat.one_mul]
  next => rfl

theorem low_lt_value {x : Binary64} (h : x.isZero = false) :
    x.roundingInterval.low < x.roundingInterval.value ∧
      x.roundingInterval.value < x.roundingInterval.high := by
  have hhigh : x.roundingInterval.high = 4 * x.units + 2 * 2 ^ x.scale := rfl
  have hvalue : x.roundingInterval.value = 4 * x.units := rfl
  have hstep := Nat.two_pow_pos x.scale
  have hunits := units_ge h
  rcases roundingInterval_cases x with ⟨hc, -⟩ | ⟨hc, -⟩ <;> omega

/-- What is not above the value and not in the interval is not above its low end. -/
theorem le_low_of_not_has {i : RoundingInterval} (h : i.low < i.value ∧ i.value < i.high)
    {num den : Nat} (hle : num ≤ i.value * den) (hno : ¬ i.Has num den) : num ≤ i.low * den := by
  by_contra hlt
  rw [Nat.not_le] at hlt
  have hden : 0 < den := Nat.pos_of_ne_zero fun h0 => by
    rw [h0] at hlt hle
    omega
  have hhigh := Nat.lt_of_le_of_lt hle (Nat.mul_lt_mul_of_pos_right h.2 hden)
  exact hno ⟨Nat.le_of_lt hlt, Nat.le_of_lt hhigh, fun _ => ⟨hlt, hhigh⟩⟩

/-- What is not below the value and not in the interval is not below its high end. -/
theorem high_le_of_not_has {i : RoundingInterval} (h : i.low < i.value ∧ i.value < i.high)
    {num den : Nat} (hle : i.value * den ≤ num) (hno : ¬ i.Has num den) : i.high * den ≤ num := by
  by_contra hlt
  rw [Nat.not_le] at hlt
  have hden : 0 < den := Nat.pos_of_ne_zero fun h0 => by
    rw [h0] at hlt hle
    omega
  have hlow := Nat.lt_of_lt_of_le (Nat.mul_lt_mul_of_pos_right h.1 hden) hle
  exact hno ⟨Nat.le_of_lt hlow, Nat.le_of_lt hlt, fun _ => ⟨hlow, hlt⟩⟩

/-- **On the grid of seventeen digits a neighbour of the value is in the interval.** -/
theorem holds_or_holds_next {x : Binary64} (hz : x.isZero = false) {e : Int}
    (he : e = leadingExponent x.roundingInterval.value quarterUnits - 16) :
    let r := scaleByTen x.roundingInterval.value quarterUnits (-e)
    x.roundingInterval.holds ⟨r.1 / r.2, e⟩ = true ∨
      x.roundingInterval.holds ⟨r.1 / r.2 + 1, e⟩ = true := by
  obtain ⟨n, j, hj⟩ : ∃ n j : Nat, e + n = j := ⟨e.natAbs, (e + e.natAbs).toNat, by omega⟩
  obtain ⟨hq, hq'⟩ := neighbours x.roundingInterval.value quarterUnits_pos hj
  have hwidth := value_lt_width hz
  have hlead : 10 ^ (j + 16) * quarterUnits ≤ x.roundingInterval.value * 10 ^ n := by
    refine leadingExponent_le quarterUnits_pos ?_ (by omega)
    obtain ⟨-, -, hconst, -⟩ := quarterUnits_bounds
    exact ⟨399, by decide, Nat.le_trans hconst (Nat.mul_le_mul_right _ (value_pos hz))⟩
  dsimp only at hq hq' ⊢
  generalize (scaleByTen x.roundingInterval.value quarterUnits (-e)).1 /
    (scaleByTen x.roundingInterval.value quarterUnits (-e)).2 = q at *
  rw [RoundingInterval.holds_iff hj, RoundingInterval.holds_iff hj]
  by_contra hno
  rw [not_or] at hno
  have hpow : 0 < 10 ^ n := Nat.pow_pos (by decide)
  -- The lower neighbour is below the interval and the upper one above it.
  have hbelow := le_low_of_not_has (low_lt_value hz) hq hno.1
  have habove := high_le_of_not_has (low_lt_value hz) hq' hno.2
  rw [Nat.pow_add, Nat.mul_comm (10 ^ j)] at hlead
  have hmul := Nat.mul_lt_mul_of_pos_right hwidth hpow
  generalize quarterUnits = u at *
  generalize x.roundingInterval.low = low at *
  generalize x.roundingInterval.high = high at *
  generalize x.roundingInterval.value = value at *
  nlinarith

theorem holds_of_nearest? {i : RoundingInterval} {lead : Int} {count : Nat} {d : Decimal}
    (h : i.nearest? lead count = some d) : i.holds d = true := by
  unfold RoundingInterval.nearest? at h
  generalize 2 ^ 1076 = u at h
  dsimp only at h
  generalize scaleByTen i.value u (-(lead - count + 1)) = r at h
  obtain ⟨num, den⟩ := r
  dsimp only at h
  split at h
  next => exact absurd h (by simp)
  next hlow _ =>
    rw [Option.some.injEq] at h
    rwa [← h]
  next _ hhigh =>
    rw [Option.some.injEq] at h
    rwa [← h]
  next hlow hhigh =>
    rw [Option.some.injEq] at h
    rw [← h]
    split
    · exact hlow
    · exact hhigh

theorem exists_nearest? {i : RoundingInterval} {lead : Int} {count : Nat}
    (h : let r := scaleByTen i.value quarterUnits (-(lead - count + 1))
      i.holds ⟨r.1 / r.2, lead - count + 1⟩ = true ∨
        i.holds ⟨r.1 / r.2 + 1, lead - count + 1⟩ = true) :
    (i.nearest? lead count).isSome = true := by
  unfold RoundingInterval.nearest?
  unfold quarterUnits at h
  generalize 2 ^ 1076 = u at h ⊢
  dsimp only at h ⊢
  generalize scaleByTen i.value u (-(lead - count + 1)) = r at h ⊢
  obtain ⟨num, den⟩ := r
  dsimp only at h ⊢
  rw [← holds_next i ⟨num / den, lead - count + 1⟩ count] at h
  split
  next hlow hhigh =>
    rw [hlow, hhigh] at h
    simp at h
  next => rfl
  next => rfl
  next => rfl

/-- **The shortest decimal of a number is in its rounding interval.** -/
theorem holds_shortest {x : Binary64} (hz : x.isZero = false) :
    x.roundingInterval.holds x.shortest = true := by
  have hlast : (x.roundingInterval.nearest?
      (leadingExponent x.roundingInterval.value quarterUnits) (16 + 1)).isSome = true :=
    exists_nearest? (holds_or_holds_next hz (by omega))
  unfold shortest
  unfold quarterUnits at hlast
  generalize 2 ^ 1076 = u at hlast ⊢
  dsimp only
  generalize leadingExponent x.roundingInterval.value u = lead at hlast ⊢
  split
  next d hd =>
    obtain ⟨n, -, hn⟩ := List.exists_of_findSome?_eq_some hd
    exact holds_of_nearest? hn
  next hnone =>
    have := List.findSome?_eq_none_iff.1 hnone 16 (by simp)
    rw [this] at hlast
    exact absurd hlast (by simp)

/-- **The shortest decimal of a finite number is read as that number.** -/
theorem ofDecimal_shortest {x : Binary64} (hfin : x.isFinite = true) (hz : x.isZero = false) :
    ofDecimal x.negative x.shortest.digits x.shortest.exponent = x := by
  have h := holds_shortest hz
  generalize x.shortest = d at h ⊢
  exact (ofDecimal_of_holds hfin hz h).2

end Binary64

end QmlStubs
