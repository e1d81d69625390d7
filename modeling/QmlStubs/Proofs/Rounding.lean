import Mathlib.Tactic.Common
import Mathlib.Tactic.Ring
import Mathlib.Tactic.Linarith
import QmlStubs.Number.Shortest

/-!
# What rounds to a number

`Binary64.roundingInterval` gives, in quarters of the smallest positive number, the two halfway
points around a number; the printer looks for a decimal between them. This file proves that the
interval means what the printer takes it for:

> **a ratio that lies in the rounding interval of a number is rounded to that number**
> (`ofRatio_of_mem`).

Everything is natural numbers. A ratio of units `s / den` rounds to the significand `m` at the scale
`k` when `s` is within half of `den * 2 ^ k` of `m * den * 2 ^ k`, ends included if `m` is even. The
one place where scale and significand do not follow from each other is just below a power of two,
where the ratio has one binary digit less than the number and the rounding carries.
-/

set_option autoImplicit false

namespace QmlStubs

namespace Binary64

/-! ## Rounding to an integer -/

/-- A ratio is within a half of an integer; exactly a half only if the integer is even. -/
structure RoundsTo (m num den : Nat) : Prop where
  low : 2 * m * den ≤ 2 * num + den
  high : 2 * num ≤ (2 * m + 1) * den
  odd : m % 2 = 1 → 2 * m * den < 2 * num + den ∧ 2 * num < (2 * m + 1) * den

theorem roundRatio_eq {m num den : Nat} (hden : 0 < den) (h : RoundsTo m num den) :
    roundRatio num den = m := by
  obtain ⟨hlow, hhigh, hodd⟩ := h
  have hnum := Nat.div_add_mod num den
  have hmod := Nat.mod_lt num hden
  unfold roundRatio
  dsimp only
  generalize num / den = q at *
  generalize num % den = r at *
  -- The quotient is the integer or the one below it.
  have hmq : m ≤ q + 1 := by
    by_contra hlt
    have : den * (q + 2) ≤ den * m := Nat.mul_le_mul_left den (by omega)
    nlinarith
  have hqm : q ≤ m := by
    by_contra hlt
    have : den * (m + 1) ≤ den * q := Nat.mul_le_mul_left den (by omega)
    nlinarith
  obtain rfl | rfl : m = q ∨ m = q + 1 := by omega
  · have hr : 2 * r ≤ den := by nlinarith
    rw [if_neg (by omega : ¬ den < 2 * r)]
    split
    next => rfl
    next hge =>
      rcases Nat.mod_two_eq_zero_or_one m with he | ho
      · omega
      · have := (hodd ho).2
        nlinarith
  · have hr : den ≤ 2 * r := by nlinarith
    rw [if_neg (by omega : ¬ 2 * r < den)]
    split
    next => rfl
    next hge =>
      rcases Nat.mod_two_eq_zero_or_one q with he | ho
      · have := (hodd (by omega)).1
        nlinarith
      · omega

/-! ## Binary digits -/

theorem bitLength_eq {n f : Nat} (hlow : 2 ^ n ≤ f) (hhigh : f < 2 ^ (n + 1)) :
    bitLength f = n + 1 := by
  have hf : f ≠ 0 := by
    have := Nat.two_pow_pos n
    omega
  unfold bitLength
  rw [if_neg hf, (Nat.log2_eq_iff hf).2 ⟨hlow, hhigh⟩]

theorem bitLength_le {n f : Nat} (h : f < 2 ^ n) : bitLength f ≤ n := by
  unfold bitLength
  split
  next => exact Nat.zero_le _
  next hf => exact (Nat.log2_lt hf).2 h

/-! ## Rounding to a number -/

/-- The number nearest to a ratio of units. -/
def ofUnits (negative : Bool) (s den : Nat) : Binary64 :=
  ofScaled negative (roundRatio s (den * 2 ^ (bitLength (s / den) - 53)))
    (bitLength (s / den) - 53)

theorem ofRatio_eq_ofUnits (negative : Bool) {num den s : Nat} (h : s = num * 2 ^ 1074) :
    ofRatio negative num den = ofUnits negative s den := by
  unfold ofRatio ofUnits
  simp only [← h]

theorem ofUnits_eq {negative : Bool} {s den m k : Nat} (hden : 0 < den)
    (hk : bitLength (s / den) - 53 = k) (h : RoundsTo m s (den * 2 ^ k)) :
    ofUnits negative s den = ofScaled negative m k := by
  unfold ofUnits
  rw [hk, roundRatio_eq (Nat.mul_pos hden (Nat.two_pow_pos k)) h]

theorem ofScaled_carry (negative : Bool) (k : Nat) :
    ofScaled negative (2 ^ 53) k = ofScaled negative (2 ^ 52) (k + 1) := by
  unfold ofScaled
  rw [if_pos rfl, if_neg (by decide)]

theorem significand_lt (x : Binary64) : x.significand < 2 ^ 53 := by
  have := x.fraction.isLt
  unfold significand
  split <;> omega

theorem exponent_lt_of_isFinite {x : Binary64} (h : x.isFinite = true) : x.exponent.val < 2047 := by
  have hlt := x.exponent.isLt
  unfold isFinite at h
  have hne : x.exponent ≠ 2047 := by simpa using h
  have hval : x.exponent.val ≠ 2047 := fun he => hne (Fin.ext he)
  omega

/-- A finite number is the one of its significand and scale. -/
theorem ofScaled_significand {x : Binary64} (h : x.isFinite = true) :
    ofScaled x.negative x.significand x.scale = x := by
  have hexp := exponent_lt_of_isFinite h
  have hsig := significand_lt x
  have hfrac := x.fraction.isLt
  obtain ⟨negative, exponent, fraction⟩ := x
  unfold ofScaled
  rw [if_neg (by omega)]
  dsimp only
  unfold significand scale at *
  dsimp only at *
  by_cases he : exponent = 0
  · have hf : Fin.ofNat (2 ^ 52) fraction.val = fraction := Fin.ext (Nat.mod_eq_of_lt hfrac)
    rw [if_pos he, if_pos hfrac, hf, he]
  · have hpos : 0 < exponent.val := Nat.pos_of_ne_zero fun h0 => he (Fin.ext h0)
    have hadd : exponent.val - 1 + 1 = exponent.val := Nat.sub_add_cancel hpos
    have hx : Fin.ofNat 2048 exponent.val = exponent := Fin.ext (Nat.mod_eq_of_lt exponent.isLt)
    have hf : Fin.ofNat (2 ^ 52) fraction.val = fraction := Fin.ext (Nat.mod_eq_of_lt hfrac)
    rw [if_neg he, if_neg (by omega), hadd, if_pos (by omega), Nat.add_sub_cancel_left, hx, hf]

/-! ## The rounding interval -/

/-- A ratio of quarter units lies in an interval. -/
structure RoundingInterval.Has (i : RoundingInterval) (num den : Nat) : Prop where
  low : i.low * den ≤ num
  high : num ≤ i.high * den
  inner : i.closed = false → i.low * den < num ∧ num < i.high * den

/-- Below a number the interval reaches as far as above it, except below a power of two. -/
theorem roundingInterval_cases (x : Binary64) :
    (x.roundingInterval.low = 4 * x.units - 2 * 2 ^ x.scale ∧
      (x.fraction = 0 → x.exponent.val ≤ 1)) ∨
    (x.roundingInterval.low = 4 * x.units - 2 ^ x.scale ∧ x.fraction = 0 ∧ 1 < x.exponent.val) := by
  unfold roundingInterval
  dsimp only
  by_cases hf : x.fraction = 0
  · by_cases he : 1 < x.exponent.val
    · exact .inr ⟨by simp [hf, he], hf, he⟩
    · exact .inl ⟨by simp [he], fun _ => by omega⟩
  · exact .inl ⟨by simp [hf], fun h => absurd h hf⟩

/-- A ratio in the interval rounds to the significand at the scale of the number. -/
theorem roundsTo_significand {x : Binary64} {s den : Nat}
    (h : x.roundingInterval.Has (4 * s) den) :
    RoundsTo x.significand s (den * 2 ^ x.scale) := by
  have hlow : x.roundingInterval.low + 2 * 2 ^ x.scale ≥ 4 * x.units := by
    rcases roundingInterval_cases x with ⟨hc, -⟩ | ⟨hc, -⟩ <;> omega
  obtain ⟨hl, hh, hin⟩ := h
  have hhigh : x.roundingInterval.high = 4 * x.units + 2 * 2 ^ x.scale := rfl
  have hclosed : x.roundingInterval.closed = (x.significand % 2 == 0) := rfl
  rw [hhigh] at hh hin
  rw [hclosed] at hin
  have hunits : x.units = x.significand * 2 ^ x.scale := rfl
  rw [hunits] at hlow hh hin
  generalize x.roundingInterval.low = low at *
  generalize x.significand = m at *
  generalize 2 ^ x.scale = u at *
  have hlow' : (4 * (m * u)) * den ≤ (low + 2 * u) * den := Nat.mul_le_mul_right den hlow
  refine ⟨?_, ?_, fun hodd => ?_⟩
  · nlinarith
  · nlinarith
  · obtain ⟨h1, h2⟩ := hin (by simp [hodd])
    constructor <;> nlinarith

/-- A ratio that has one binary digit less than the number belongs to a power of two. -/
theorem below_power {x : Binary64} {s den : Nat} (hscale : 0 < x.scale)
    (h : x.roundingInterval.Has (4 * s) den) (hs : s < 2 ^ (52 + x.scale) * den) :
    x.significand = 2 ^ 52 ∧ 2 ^ 54 * (2 ^ x.scale * den) ≤ 4 * s + 2 ^ x.scale * den := by
  have hexp : 1 < x.exponent.val := by
    unfold scale at hscale
    omega
  have hsig : x.significand = 2 ^ 52 + x.fraction.val := by
    unfold significand
    rw [if_neg fun h0 => by rw [h0] at hexp; simp at hexp]
  have hround := (roundsTo_significand h).low
  have hfrac : x.fraction.val = 0 := by
    rw [Nat.pow_add] at hs
    rw [hsig] at hround
    by_contra hne
    have hpos : 2 ^ 52 + 1 ≤ 2 ^ 52 + x.fraction.val := by omega
    have := Nat.mul_le_mul_right (den * 2 ^ x.scale) hpos
    nlinarith
  have hsig' : x.significand = 2 ^ 52 := by omega
  refine ⟨hsig', ?_⟩
  rcases roundingInterval_cases x with ⟨-, hc⟩ | ⟨hc, -⟩
  · have := hc (Fin.ext hfrac)
    omega
  · have hlow := h.low
    have hunits : x.units = 2 ^ 52 * 2 ^ x.scale := by rw [units, hsig']
    rw [hc, hunits] at hlow
    have hsub : 4 * (2 ^ 52 * 2 ^ x.scale) - 2 ^ x.scale + 2 ^ x.scale = 2 ^ 54 * 2 ^ x.scale := by
      omega
    calc 2 ^ 54 * (2 ^ x.scale * den)
        = (4 * (2 ^ 52 * 2 ^ x.scale) - 2 ^ x.scale + 2 ^ x.scale) * den := by
          rw [hsub, Nat.mul_assoc]
      _ ≤ 4 * s + 2 ^ x.scale * den := by
          rw [Nat.add_mul]
          exact Nat.add_le_add_right hlow _

/-- **A ratio of units in the interval of a number rounds to it.** -/
theorem ofUnits_of_has {x : Binary64} {s den : Nat} (hfin : x.isFinite = true) (hden : 0 < den)
    (h : x.roundingInterval.Has (4 * s) den) : ofUnits x.negative s den = x := by
  have hround := roundsTo_significand h
  have hupper : s / den < 2 ^ (52 + x.scale + 1) := by
    rw [Nat.div_lt_iff_lt_mul hden, Nat.pow_add, Nat.pow_add]
    have hlt : 2 * x.significand + 1 < 2 * 2 ^ 53 := by
      have := significand_lt x
      omega
    have hmul := Nat.mul_le_mul_right (den * 2 ^ x.scale) (Nat.succ_le_of_lt hlt)
    have hpos := Nat.mul_pos hden (Nat.two_pow_pos x.scale)
    have hhigh := hround.high
    nlinarith
  by_cases hs : 2 ^ (52 + x.scale) * den ≤ s
  · have hlow : 2 ^ (52 + x.scale) ≤ s / den := (Nat.le_div_iff_mul_le hden).2 hs
    have hk : bitLength (s / den) - 53 = x.scale := by
      rw [bitLength_eq hlow hupper]
      omega
    rw [ofUnits_eq hden hk hround, ofScaled_significand hfin]
  · rw [Nat.not_le] at hs
    cases hscale : x.scale with
    | zero =>
      have hk : bitLength (s / den) - 53 = x.scale := by
        have hlt : s / den < 2 ^ (52 + x.scale) := (Nat.div_lt_iff_lt_mul hden).2 hs
        have := bitLength_le hlt
        omega
      rw [ofUnits_eq hden hk hround, ofScaled_significand hfin]
    | succ j =>
      -- One binary digit is missing, so the rounding carries into it.
      obtain ⟨hsig, hlow⟩ := below_power (by omega) h hs
      rw [hscale, show 2 ^ (j + 1) = 2 ^ j * 2 from rfl] at hlow
      rw [hscale, show 52 + (j + 1) = 52 + j + 1 from rfl] at hs
      have hge : 2 ^ (52 + j) ≤ s / den := by
        rw [Nat.le_div_iff_mul_le hden, Nat.pow_add]
        have := Nat.mul_pos (Nat.two_pow_pos j) hden
        nlinarith
      have hk : bitLength (s / den) - 53 = j := by
        rw [bitLength_eq hge ((Nat.div_lt_iff_lt_mul hden).2 hs)]
        omega
      have hcarry : RoundsTo (2 ^ 53) s (den * 2 ^ j) := by
        rw [Nat.pow_succ, Nat.pow_add] at hs
        refine ⟨?_, ?_, fun hodd => absurd hodd (by decide)⟩ <;> nlinarith
      rw [ofUnits_eq hden hk hcarry, ofScaled_carry, ← hsig, ← hscale, ofScaled_significand hfin]

/-- Quarters of the smallest positive number in one. -/
def quarterUnits : Nat := 2 ^ 1076

/-- **A ratio in the rounding interval of a number is rounded to that number.** -/
theorem ofRatio_of_has {x : Binary64} {num den : Nat} (hfin : x.isFinite = true) (hden : 0 < den)
    (h : x.roundingInterval.Has (num * quarterUnits) den) : ofRatio x.negative num den = x := by
  have hfour : ∀ n k, k = n + 2 → num * 2 ^ k = 4 * (num * 2 ^ n) := by
    rintro n _ rfl
    rw [Nat.pow_add]
    ring
  rw [ofRatio_eq_ofUnits _ rfl]
  unfold quarterUnits at h
  rw [hfour 1074 1076 rfl] at h
  exact ofUnits_of_has hfin hden h

end Binary64

end QmlStubs
