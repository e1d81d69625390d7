import QmlStubs.FileTree.Basic
import QmlStubs.Proofs.Rounding

/-!
# Times of files

The time of a file comes out of the one rounding function, which gives zero, a finite number or an
infinity but never the value of no number. So a time equals itself, and a record that was just made
from a file is not stale. The moments that a clock can show are far from the largest number, so
their times are finite (`FileTree.isFinite_modified?`).
-/

set_option autoImplicit false

namespace QmlStubs

namespace Binary64

/-- A scaled significand is a number. -/
theorem isNaN_ofScaled (negative : Bool) (m k : Nat) : (ofScaled negative m k).isNaN = false := by
  unfold ofScaled
  dsimp only
  generalize (if m = 2 ^ 53 then (2 ^ 52, k + 1) else (m, k)) = mk
  split
  next => rfl
  next =>
    split
    next hk =>
      unfold isNaN
      have hne : Fin.ofNat 2048 (mk.2 + 1) ≠ 2047 := by
        intro he
        have hv := congrArg Fin.val he
        rw [Fin.val_ofNat, Nat.mod_eq_of_lt (by omega)] at hv
        have h2047 : ((2047 : Fin 2048) : Nat) = 2047 := rfl
        omega
      dsimp only
      rw [beq_eq_false_iff_ne.2 hne, Bool.false_and]
    next => rfl

theorem isNaN_ofRatio (negative : Bool) (num den : Nat) :
    (ofRatio negative num den).isNaN = false := by
  unfold ofRatio
  dsimp only
  exact isNaN_ofScaled ..

theorem isNaN_ofSeconds (seconds nanoseconds : Nat) :
    (ofSeconds seconds nanoseconds).isNaN = false := by
  unfold ofSeconds addMagnitudes
  exact isNaN_ofRatio ..

theorem sameValue_self {x : Binary64} (h : x.isNaN = false) : x.sameValue x = true := by
  unfold sameValue
  simp [h]

/-- A finite number has the value of finite numbers only. -/
theorem isFinite_of_sameValue {x y : Binary64} (h : x.sameValue y = true)
    (hx : x.isFinite = true) : y.isFinite = true := by
  unfold sameValue at h
  rw [Bool.and_eq_true, Bool.or_eq_true] at h
  rcases h.2 with he | hz
  · rwa [← eq_of_beq he]
  · have hexp : y.exponent = 0 := by
      unfold isZero at hz
      simp only [Bool.and_eq_true, beq_iff_eq] at hz
      exact hz.2.1
    unfold isFinite
    rw [hexp]
    rfl

/-! ## Finite times -/

/-- At a small scale nothing becomes infinite. -/
theorem exponent_ofScaled_le (negative : Bool) (m : Nat) {k : Nat} (hk : k + 2 < 2047) :
    (ofScaled negative m k).exponent.val ≤ k + 2 := by
  unfold ofScaled
  dsimp only
  by_cases hm : m = 2 ^ 53
  · rw [if_pos hm]
    dsimp only
    rw [if_neg (by decide), if_pos (by omega), Fin.val_ofNat, Nat.mod_eq_of_lt (by omega)]
  · rw [if_neg hm]
    dsimp only
    split
    next => exact Nat.zero_le _
    next =>
      rw [if_pos (by omega)]
      dsimp only
      rw [Fin.val_ofNat, Nat.mod_eq_of_lt (by omega)]
      omega

theorem isFinite_of_exponent_lt {x : Binary64} (h : x.exponent.val < 2047) : x.isFinite = true := by
  unfold isFinite
  rw [bne_iff_ne]
  rintro he
  have hval : x.exponent.val = 2047 := by rw [he]; rfl
  omega

/-- What a ratio below a power of two is rounded to. -/
theorem exponent_ofRatio_le (negative : Bool) {num den n : Nat} (h : num < 2 ^ n * den)
    (hn : n ≤ 1000) : (ofRatio negative num den).exponent.val ≤ n + 1023 := by
  have hden : 0 < den := Nat.pos_of_ne_zero fun h0 => by simp [h0] at h
  rw [ofRatio_eq_ofUnits _ rfl]
  unfold ofUnits
  have hdigits : ∀ e, bitLength (num * 2 ^ e / den) ≤ n + e := by
    intro e
    refine bitLength_le ((Nat.div_lt_iff_lt_mul hden).2 ?_)
    rw [Nat.pow_add, Nat.mul_right_comm]
    exact Nat.mul_lt_mul_of_pos_right h (Nat.two_pow_pos _)
  have hlen := hdigits 1074
  generalize num * 2 ^ 1074 = s at hlen ⊢
  exact Nat.le_trans (exponent_ofScaled_le _ _ (by omega)) (by omega)

theorem isFinite_ofRatio (negative : Bool) {num den n : Nat} (h : num < 2 ^ n * den)
    (hn : n ≤ 1000) : (ofRatio negative num den).isFinite = true :=
  isFinite_of_exponent_lt (Nat.lt_of_le_of_lt (exponent_ofRatio_le negative h hn) (by omega))

theorem units_lt {x : Binary64} {n : Nat} (h : x.exponent.val ≤ n + 1) : x.units < 2 ^ (53 + n) := by
  have hscale : x.scale ≤ n := by
    unfold scale
    omega
  unfold units
  rw [Nat.pow_add]
  exact Nat.lt_of_lt_of_le
    (Nat.mul_lt_mul_of_pos_right (significand_lt x) (Nat.two_pow_pos _))
    (Nat.mul_le_mul_left _ (Nat.pow_le_pow_right (by decide) hscale))

theorem add_lt_two_pow {a b m n : Nat} (ha : a < 2 ^ m) (hb : b < 2 ^ n) (h : n ≤ m) :
    a + b < 2 ^ (m + 1) := by
  have hle : 2 ^ n ≤ 2 ^ m := Nat.pow_le_pow_right (by decide) h
  rw [Nat.pow_succ]
  omega

/-- **A span of a clock is a finite number of seconds.** -/
theorem isFinite_ofSeconds {seconds nanoseconds : Nat} (hs : seconds < 2 ^ 63)
    (hn : nanoseconds < 1000000000) : (ofSeconds seconds nanoseconds).isFinite = true := by
  have hseconds : (ofNat seconds).units < 2 ^ (53 + 1085) :=
    units_lt (exponent_ofRatio_le false (n := 63) (by omega) (by decide))
  have hnanos : (ofRatio false nanoseconds 1000000000).units < 2 ^ (53 + 1022) :=
    units_lt (exponent_ofRatio_le false (n := 0) (by omega) (by decide))
  have hsum := add_lt_two_pow hseconds hnanos (by decide)
  unfold ofSeconds addMagnitudes
  generalize hunit : 1074 = e
  refine isFinite_ofRatio (n := 65) false ?_ (by decide)
  rwa [← Nat.pow_add, ← hunit]

end Binary64

/-- A moment that a clock can show: 64 bits of seconds and a part of a second. -/
structure FileTime.OnClock (time : FileTime) : Prop where
  seconds : time.seconds < 2 ^ 63
  nanoseconds : time.nanoseconds < 1000000000

/-- The time of an entry; that of a link is never asked for. -/
def Entry.time? : Entry → Option FileTime
  | .directory time => some time
  | .file _ time _ => some time
  | .link _ => none

namespace FileTree

theorem isNaN_toBinary64? {time : FileTime} {x : Binary64} (h : time.toBinary64? = some x) :
    x.isNaN = false := by
  unfold FileTime.toBinary64? at h
  split at h
  next =>
    rw [Option.some.injEq] at h
    subst h
    exact Binary64.isNaN_ofSeconds ..
  next => exact absurd h (by simp)

/-- **A file time is never the value of no number.** -/
theorem isNaN_modified? {t : FileTree} {p : Path} {x : Binary64} (h : t.modified? p = some x) :
    x.isNaN = false := by
  unfold modified? at h
  split at h
  next =>
    split at h
    next => exact isNaN_toBinary64? h
    next => exact isNaN_toBinary64? h
    next => exact absurd h (by simp)
  next => exact absurd h (by simp)

/-- All times in a tree are moments that a clock can show. -/
def OnClock (t : FileTree) : Prop :=
  ∀ p e time, t.at? p = some e → e.time? = some time → time.OnClock

instance (time : FileTime) : Decidable time.OnClock :=
  decidable_of_iff (time.seconds < 2 ^ 63 ∧ time.nanoseconds < 1000000000)
    ⟨fun h => ⟨h.1, h.2⟩, fun h => ⟨h.1, h.2⟩⟩

/-- Only the entries have to be looked at. -/
theorem OnClock.of_entries {t : FileTree} (hclock : t.clock.OnClock)
    (h : ∀ e ∈ t.entries.entries, ∀ time ∈ e.2.time?, time.OnClock) : OnClock t := by
  intro p e time he htime
  unfold at? at he
  split at he
  next =>
    rw [Option.some.injEq] at he
    subst he
    rw [Entry.time?, Option.some.injEq] at htime
    exact htime ▸ hclock
  next => exact h _ (SortedMap.mem_entries.2 he) time htime

theorem isFinite_toBinary64? {time : FileTime} (h : time.OnClock) {x : Binary64}
    (hx : time.toBinary64? = some x) : x.isFinite = true := by
  unfold FileTime.toBinary64? at hx
  split at hx
  next hpos =>
    rw [Option.some.injEq] at hx
    subst hx
    have := h.seconds
    exact Binary64.isFinite_ofSeconds (by omega) h.nanoseconds
  next => exact absurd hx (by simp)

/-- **A file time is a finite number.** -/
theorem isFinite_modified? {t : FileTree} (ht : t.OnClock) {p : Path} {x : Binary64}
    (h : t.modified? p = some x) : x.isFinite = true := by
  unfold modified? at h
  split at h
  next place _ =>
    split at h
    next he => exact isFinite_toBinary64? (ht place _ _ he rfl) h
    next he => exact isFinite_toBinary64? (ht place _ _ he rfl) h
    next => exact absurd h (by simp)
  next => exact absurd h (by simp)

end FileTree

end QmlStubs
