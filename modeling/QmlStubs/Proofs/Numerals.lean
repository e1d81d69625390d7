import QmlStubs.Json.Parser
import QmlStubs.Proofs.ShortestDecimal

/-!
# Numerals read back

A number is printed from digits and read digit by digit. What is read is not always the numeral
that was printed: a decimal without places after the point is written with a zero after it, so it
comes back with more digits and a smaller exponent (`Numeral.reread`). The value is the same, and
so a number of 64 bits that is printed and read is the same number:

> `(Numeral.ofBinary64 x).reread.toBinary64? = some x` (`toBinary64?_reread`).

A numeral ends where neither a digit nor a point nor an exponent follows, which is all that a
reader needs to know of the text after it (`EndsNumber`).
-/

set_option autoImplicit false

namespace QmlStubs

namespace Json

open Text (Symbol)

/-! ## Rows of digits -/

/-- The text after a numeral does not continue it. -/
def EndsNumber : List Symbol → Prop
  | some c :: _ => c.isDigit = false ∧ c ≠ '.' ∧ c ≠ 'e' ∧ c ≠ 'E'
  | _ => True

/-- The text after a row of digits does not continue it. -/
def EndsRow : List Symbol → Prop
  | some c :: _ => c.isDigit = false
  | _ => True

theorem EndsNumber.endsRow {rest : List Symbol} (h : EndsNumber rest) : EndsRow rest := by
  match rest, h with
  | some _ :: _, h => exact h.1
  | none :: _, _ => trivial
  | [], _ => trivial

/-- All characters are digits, and there is at least one. -/
structure IsRow (ds : List Char) : Prop where
  digits : ∀ c ∈ ds, c.isDigit = true
  ne_nil : ds ≠ []

theorem digit?_of_isDigit {c : Char} (h : c.isDigit = true) :
    Text.digit? c = some (c.toNat - '0'.toNat) := by
  unfold Text.digit?
  rw [if_pos]
  exact h

theorem digit?_of_not_isDigit {c : Char} (h : c.isDigit = false) : Text.digit? c = none := by
  unfold Text.digit?
  rw [if_neg]
  rw [← Bool.not_eq_true] at h
  exact h

theorem digitRow_of_endsRow {rest : List Symbol} (h : EndsRow rest) :
    digitRow rest = (0, 0, rest) := by
  match rest, h with
  | some c :: rest, h =>
    unfold digitRow
    rw [digit?_of_not_isDigit h]
  | none :: rest, _ => rfl
  | [], _ => rfl

/-- **A row of digits is read up to its end.** -/
theorem digitRow_append {ds : List Char} (hds : ∀ c ∈ ds, c.isDigit = true) {rest : List Symbol}
    (hrest : EndsRow rest) :
    digitRow (ds.map some ++ rest) = (Nat.ofDigitChars 10 ds 0, ds.length, rest) := by
  induction ds with
  | nil => exact digitRow_of_endsRow hrest
  | cons c ds ih =>
    have hc := hds c (List.mem_cons_self ..)
    rw [List.map_cons, List.cons_append, digitRow, digit?_of_isDigit hc]
    dsimp only
    rw [ih fun d hd => hds d (List.mem_cons_of_mem _ hd)]
    dsimp only
    rw [Nat.ofDigitChars_cons, Nat.mul_zero, Nat.zero_add,
      @Nat.ofDigitChars_eq_ofDigitChars_zero ds (c.toNat - '0'.toNat), Nat.mul_comm, List.length_cons]

theorem isRow_toDigits (n : Nat) : IsRow (Nat.toDigits 10 n) :=
  ⟨fun _ hc => Nat.isDigit_of_mem_toDigits (by decide) (by decide) hc, Nat.toDigits_ne_nil⟩

theorem head?_append {l m : List Char} (h : l ≠ []) : (l ++ m).head? = l.head? := by
  cases l with
  | nil => exact absurd rfl h
  | cons c l => rfl

/-- The digits of a positive number do not begin with a zero. -/
theorem head?_toDigits_ne {n : Nat} (h : n ≠ 0) : (Nat.toDigits 10 n).head? ≠ some '0' := by
  induction n using Nat.strongRecOn with
  | ind n ih =>
    by_cases hlt : n < 10
    · rw [Nat.toDigits_of_lt_base hlt, List.head?_cons]
      intro hz
      have hn := Nat.toNat_digitChar_sub_48_of_lt_ten hlt
      rw [Option.some.injEq] at hz
      rw [hz] at hn
      exact h hn.symm
    · rw [Nat.toDigits_of_base_le (by decide) (by omega), head?_append Nat.toDigits_ne_nil]
      exact ih (n / 10) (by omega) (by omega)

/-! ## Numbers as text -/

/-- The text of a number from its whole digits, its places and its exponent. -/
def numberText (whole places : List Char) (exponent : Option (Bool × List Char)) : List Char :=
  whole ++ (if places = [] then [] else '.' :: places) ++
    match exponent with
    | none => []
    | some (negative, ds) => 'e' :: (if negative then '-' else '+') :: ds

/-- The value of an exponent part. -/
def exponentValue : Option (Bool × List Char) → Int
  | none => 0
  | some (negative, ds) =>
    if negative then -(Nat.ofDigitChars 10 ds 0 : Int) else (Nat.ofDigitChars 10 ds 0 : Int)

theorem exponentPart?_chars {negative : Bool} {ds : List Char} (hds : IsRow ds)
    {rest : List Symbol} (hrest : EndsRow rest) :
    exponentPart? (some 'e' :: some (if negative then '-' else '+') :: (ds.map some ++ rest)) =
      some (some (exponentValue (some (negative, ds))), rest) := by
  obtain ⟨n, hn⟩ : ∃ n, ds.length = n + 1 :=
    ⟨ds.length - 1, by have := List.length_pos_iff.2 hds.ne_nil; omega⟩
  have hrow := digitRow_append hds.digits hrest
  rw [hn] at hrow
  cases negative with
  | true =>
    simp only [if_true, exponentPart?, hrow]
    rfl
  | false =>
    simp only [Bool.false_eq_true, if_false, exponentPart?, hrow]
    rfl

theorem exponentPart?_of_endsNumber {rest : List Symbol} (h : EndsNumber rest) :
    exponentPart? rest = some (none, rest) := by
  unfold exponentPart?
  split
  next => exact absurd rfl h.2.2.1
  next => exact absurd rfl h.2.2.2
  next => rfl

/-- A number after its whole digits. -/
def afterWhole? (negative : Bool) (whole : Nat) (s : List Symbol) :
    Option (Numeral × List Symbol) := do
  let (fraction, places, rest) ←
    match s with
    | some '.' :: rest =>
      match digitRow rest with
      | (_, 0, _) => none
      | (value, places, rest) => some (value, places, rest)
    | rest => some (0, 0, rest)
  let (exponent, rest) ← exponentPart? rest
  return (⟨negative, whole * 10 ^ places + fraction, exponent.getD 0 - places,
    places == 0 && exponent.isNone⟩, rest)

theorem unsignedNumber?_eq {negative : Bool} {s rest : List Symbol} {whole count : Nat}
    (hrow : digitRow s = (whole, count, rest)) (hcount : count ≠ 0)
    (hzero : s.head? = some (some '0') → count = 1) :
    unsignedNumber? negative s = afterWhole? negative whole rest := by
  unfold unsignedNumber?
  rw [hrow]
  dsimp only
  rw [if_neg hcount]
  split
  next =>
    rw [if_neg (by simp [hzero rfl])]
    rfl
  next => rfl

theorem afterWhole?_exponent {negative : Bool} {whole : Nat} {s rest : List Symbol}
    {exponent : Option Int} (h : exponentPart? s = some (exponent, rest))
    (hpoint : s.head? ≠ some (some '.')) :
    afterWhole? negative whole s =
      some (⟨negative, whole, exponent.getD 0, exponent.isNone⟩, rest) := by
  unfold afterWhole?
  split
  next => exact absurd rfl hpoint
  next => simp [h]

theorem afterWhole?_places {negative : Bool} {whole : Nat} {places : List Char}
    (hp : IsRow places) {s rest : List Symbol} {exponent : Option Int}
    (h : exponentPart? s = some (exponent, rest)) (hends : EndsRow s) :
    afterWhole? negative whole (some '.' :: (places.map some ++ s)) =
      some (⟨negative, whole * 10 ^ places.length + Nat.ofDigitChars 10 places 0,
        exponent.getD 0 - places.length, false⟩, rest) := by
  obtain ⟨n, hn⟩ : ∃ n, places.length = n + 1 :=
    ⟨places.length - 1, by have := List.length_pos_iff.2 hp.ne_nil; omega⟩
  have hrow := digitRow_append hp.digits hends
  rw [hn] at hrow
  simp [afterWhole?, hrow, h, hn]

/-- **A number is read from its parts.** -/
theorem unsignedNumber?_numberText (negative : Bool) {whole places : List Char}
    {exponent : Option (Bool × List Char)} (hw : IsRow whole)
    (hz : whole.head? = some '0' → whole.length = 1) (hp : ∀ c ∈ places, c.isDigit = true)
    (he : ∀ negative ds, exponent = some (negative, ds) → IsRow ds) {rest : List Symbol}
    (hrest : EndsNumber rest) :
    unsignedNumber? negative ((numberText whole places exponent).map some ++ rest) =
      some (⟨negative, Nat.ofDigitChars 10 (whole ++ places) 0,
        exponentValue exponent - places.length, places.isEmpty && exponent.isNone⟩, rest) := by
  obtain ⟨tail, htail⟩ : ∃ tail : List Symbol, (match exponent with
    | none => []
    | some (negative, ds) => 'e' :: (if negative then '-' else '+') :: ds).map some ++ rest = tail :=
    ⟨_, rfl⟩
  have hexp : exponentPart? tail = some (exponent.map fun e => exponentValue (some e), rest) := by
    rw [← htail]
    cases exponent with
    | none => exact exponentPart?_of_endsNumber hrest
    | some e => exact exponentPart?_chars (he e.1 e.2 rfl) hrest.endsRow
  have hvalue : (exponent.map fun e => exponentValue (some e)).getD 0 = exponentValue exponent := by
    cases exponent <;> rfl
  have hends : EndsRow tail ∧ tail.head? ≠ some (some '.') := by
    rw [← htail]
    cases exponent with
    | none =>
      refine ⟨hrest.endsRow, fun h => ?_⟩
      match rest, hrest, h with
      | some _ :: _, hrest, h => exact hrest.2.1 (by simpa using h)
    | some e => exact ⟨(by decide : 'e'.isDigit = false), by simp⟩
  have hlen : whole.length ≠ 0 := fun h0 => hw.ne_nil (List.length_eq_zero_iff.1 h0)
  have hhead : ∀ s : List Symbol, (whole.map some ++ s).head? = some (some '0') →
      whole.length = 1 := by
    intro s h
    cases hcs : whole with
    | nil => exact absurd hcs hw.ne_nil
    | cons c cs =>
      rw [hcs] at h
      rw [← hcs]
      exact hz (by rw [hcs]; simpa using h)
  unfold numberText
  rw [List.map_append, List.append_assoc, htail]
  by_cases hpl : places = []
  · subst hpl
    have hrow := digitRow_append hw.digits hends.1
    rw [if_pos rfl, List.append_nil, unsignedNumber?_eq hrow hlen (hhead _),
      afterWhole?_exponent hexp hends.2, hvalue]
    simp
  · have hrow := digitRow_append hw.digits
      
      (show EndsRow (some '.' :: (places.map some ++ tail)) from (by decide : '.'.isDigit = false))
    rw [if_neg hpl, List.map_append, List.append_assoc, List.map_cons, List.cons_append,
      unsignedNumber?_eq hrow hlen (hhead _), afterWhole?_places ⟨hp, hpl⟩ hexp hends.1, hvalue,
      Nat.ofDigitChars_append, Nat.mul_comm, ← Nat.ofDigitChars_eq_ofDigitChars_zero]
    simp [hpl]

end Json

namespace Numeral

open Json Text

/-! ## Printed numerals -/

/-- The written form without its sign. -/
def body (n : Numeral) : List Char :=
  if n.whole then Nat.toDigits 10 n.digits
  else if n.digits = 0 then ['0', '.', '0']
  else (Binary64.layout.text ⟨n.digits, n.exponent⟩).toList

theorem text_eq (n : Numeral) : n.text = (if n.negative then ['-'] else []) ++ n.body := rfl

/-- The exponent of the leading digit. -/
def lead (n : Numeral) : Int := n.exponent + (Nat.toDigits 10 n.digits).length - 1

/-- A numeral that is written with zeros up to the point and one after it. -/
def IsPadded (n : Numeral) : Prop := -5 ≤ n.lead ∧ n.lead < 16 ∧ 0 ≤ n.exponent

instance (n : Numeral) : Decidable n.IsPadded := by
  unfold IsPadded
  infer_instance

/-- What a printed numeral is read as. -/
def reread (n : Numeral) : Numeral :=
  if n.whole then ⟨n.negative, n.digits, 0, true⟩
  else if n.digits = 0 then ⟨n.negative, 0, -1, false⟩
  else if n.IsPadded then ⟨n.negative, n.digits * 10 ^ (n.exponent.toNat + 1), -1, false⟩
  else ⟨n.negative, n.digits, n.exponent, false⟩

theorem isDigit_of_mem_zeros {k : Int} {c : Char} (h : c ∈ Binary64.zeros k) : c.isDigit = true := by
  rw [List.eq_of_mem_replicate h]
  decide

theorem isDigit_of_mem_append {l m : List Char} (hl : ∀ c ∈ l, c.isDigit = true)
    (hm : ∀ c ∈ m, c.isDigit = true) : ∀ c ∈ l ++ m, c.isDigit = true := by
  intro c hc
  rcases List.mem_append.1 hc with hc | hc
  · exact hl c hc
  · exact hm c hc

theorem reread_of_isPadded {negative : Bool} {digits : Nat} {exponent : Int} (hd : digits ≠ 0)
    (h : IsPadded ⟨negative, digits, exponent, false⟩) :
    reread ⟨negative, digits, exponent, false⟩ =
      ⟨negative, digits * 10 ^ (exponent.toNat + 1), -1, false⟩ := by
  unfold reread
  rw [if_neg (by simp), if_neg hd, if_pos h]

theorem reread_of_not_isPadded {negative : Bool} {digits : Nat} {exponent : Int} (hd : digits ≠ 0)
    (h : ¬ IsPadded ⟨negative, digits, exponent, false⟩) :
    reread ⟨negative, digits, exponent, false⟩ = ⟨negative, digits, exponent, false⟩ := by
  unfold reread
  rw [if_neg (by simp), if_neg hd, if_neg h]

/-- The four layouts of a decimal. -/
theorem layout_text {digits : Nat} {exponent lead : Int} {ds : List Char}
    (hds : Nat.toDigits 10 digits = ds) (hlead : exponent + ds.length - 1 = lead) :
    (Binary64.layout.text ⟨digits, exponent⟩).toList =
      if -5 ≤ lead ∧ lead < 16 then
        if 0 ≤ exponent then numberText (ds ++ Binary64.zeros exponent) ['0'] none
        else if 0 ≤ lead then
          numberText (ds.take (lead + 1).toNat) (ds.drop (lead + 1).toNat) none
        else numberText ['0'] (Binary64.zeros (-lead - 1) ++ ds) none
      else numberText (ds.take 1) (ds.drop 1) (some (decide (lead < 0), Nat.toDigits 10 lead.natAbs)) := by
  have hne : ds ≠ [] := hds ▸ Nat.toDigits_ne_nil
  unfold Binary64.Layout.text Binary64.layout
  dsimp only
  rw [hds, hlead]
  by_cases hpos : -5 ≤ lead ∧ lead < 16
  · rw [if_pos hpos, if_pos (by simpa using hpos)]
    by_cases he : 0 ≤ exponent
    · rw [if_pos he, if_pos he]
      simp [numberText]
    · rw [if_neg he, if_neg he]
      by_cases hl : 0 ≤ lead
      · have hdrop : ds.drop (lead + 1).toNat ≠ [] := by
          rw [Ne, List.drop_eq_nil_iff]
          omega
        rw [if_pos hl, if_pos hl]
        simp [numberText, hdrop]
      · rw [if_neg hl, if_neg hl]
        simp [numberText, hne]
  · rw [if_neg hpos, if_neg (by simpa using hpos)]
    have hone : ds.length = 1 ↔ ds.drop 1 = [] := by
      rw [List.drop_eq_nil_iff]
      have := List.length_pos_iff.2 hne
      omega
    by_cases h1 : ds.length = 1
    · rw [if_pos h1]
      simp [numberText, hone.1 h1, List.take_of_length_le (Nat.le_of_eq h1)]
    · have hdrop : ds.tail ≠ [] := fun h => h1 (hone.2 (by rw [List.drop_one, h]))
      rw [if_neg h1]
      simp [numberText, hdrop]

/-- **A printed decimal is read up to its end.** -/
theorem unsignedNumber?_layout (negative : Bool) {digits : Nat} (hd : digits ≠ 0) (exponent : Int)
    {rest : List Symbol} (hrest : EndsNumber rest) :
    unsignedNumber? negative
        ((Binary64.layout.text ⟨digits, exponent⟩).toList.map some ++ rest) =
      some (reread ⟨negative, digits, exponent, false⟩, rest) := by
  obtain ⟨ds, hds⟩ : ∃ ds, Nat.toDigits 10 digits = ds := ⟨_, rfl⟩
  obtain ⟨lead, hlead⟩ : ∃ lead, exponent + ds.length - 1 = lead := ⟨_, rfl⟩
  have hrow : IsRow ds := hds ▸ isRow_toDigits digits
  have hvalue : Nat.ofDigitChars 10 ds 0 = digits := hds ▸ Nat.ofDigitChars_ten_toDigits
  have hhead : ds.head? ≠ some '0' := hds ▸ head?_toDigits_ne hd
  have hlen : 0 < ds.length := List.length_pos_iff.2 hrow.ne_nil
  have hpadded : IsPadded ⟨negative, digits, exponent, false⟩ ↔
      -5 ≤ lead ∧ lead < 16 ∧ 0 ≤ exponent := by
    unfold IsPadded Numeral.lead
    rw [hds, hlead]
  rw [layout_text hds hlead]
  by_cases hpos : -5 ≤ lead ∧ lead < 16
  · rw [if_pos hpos]
    by_cases he : 0 ≤ exponent
    · -- Zeros up to the point and one after it.
      obtain ⟨k, rfl⟩ := Int.eq_ofNat_of_zero_le he
      have hrow' : IsRow (ds ++ Binary64.zeros k) :=
        ⟨isDigit_of_mem_append hrow.digits fun _ => isDigit_of_mem_zeros, by simp [hrow.ne_nil]⟩
      have hhead' : (ds ++ Binary64.zeros k).head? ≠ some '0' := by
        rw [head?_append hrow.ne_nil]
        exact hhead
      rw [if_pos he, reread_of_isPadded hd (hpadded.2 ⟨hpos.1, hpos.2, he⟩),
        unsignedNumber?_numberText negative hrow' (fun h => absurd h hhead') (by simp) (by simp) hrest]
      have hdigits : 10 * (10 ^ k * digits) = digits * 10 ^ (k + 1) := by
        rw [Nat.pow_succ]
        ring
      simp [Binary64.zeros, Nat.ofDigitChars_append, hvalue, exponentValue, Nat.ofDigitChars_cons,
        hdigits]
    · rw [if_neg he, reread_of_not_isPadded hd fun h => he (hpadded.1 h).2.2]
      by_cases hl : 0 ≤ lead
      · -- The point is inside the digits.
        obtain ⟨k, hk⟩ := Int.eq_ofNat_of_zero_le hl
        have hrow' : IsRow (ds.take (k + 1)) :=
          ⟨fun c hc => hrow.digits c (List.mem_of_mem_take hc), by simp [hrow.ne_nil]⟩
        have hhead' : (ds.take (k + 1)).head? ≠ some '0' := by
          rw [List.head?_take, if_neg (by omega)]
          exact hhead
        rw [if_pos hl, hk, show ((k : Int) + 1).toNat = k + 1 from rfl,
          unsignedNumber?_numberText negative hrow' (fun h => absurd h hhead')
            (fun c hc => hrow.digits c (List.mem_of_mem_drop hc)) (by simp) hrest,
          List.take_append_drop, hvalue]
        have hplaces : (ds.drop (k + 1)).length = ds.length - (k + 1) := List.length_drop
        have hempty : (ds.drop (k + 1)).isEmpty = false := by
          rw [List.isEmpty_eq_false_iff, Ne, List.drop_eq_nil_iff]
          omega
        have hexp : (0 : Int) - ((ds.length - (k + 1) : Nat) : Int) = exponent := by omega
        rw [hplaces, hempty, exponentValue, hexp]
        rfl
      · -- Zeros stand between the point and the digits.
        rw [if_neg hl, unsignedNumber?_numberText negative ⟨by simp, by simp⟩ (by simp)
          (isDigit_of_mem_append (fun _ => isDigit_of_mem_zeros) hrow.digits) (by simp) hrest]
        have hexp : -(ds.length : Int) + -(((-lead).toNat - 1 : Nat) : Int) = exponent := by omega
        simp [Binary64.zeros, Nat.ofDigitChars_append, hvalue, exponentValue, Nat.ofDigitChars_cons,
          hexp, hrow.ne_nil]
  · -- One digit before the point, and an exponent part.
    have hrow' : IsRow (ds.take 1) :=
      ⟨fun c hc => hrow.digits c (List.mem_of_mem_take hc), by simp [hrow.ne_nil]⟩
    rw [if_neg hpos, reread_of_not_isPadded hd fun h => hpos ⟨(hpadded.1 h).1, (hpadded.1 h).2.1⟩,
      unsignedNumber?_numberText negative hrow' (fun _ => by rw [List.length_take]; omega)
        (fun c hc => hrow.digits c (List.mem_of_mem_drop hc)) ?_ hrest,
      List.take_append_drop, hvalue]
    · have hplaces : (ds.drop 1).length = ds.length - 1 := List.length_drop
      have hexp : exponentValue (some (decide (lead < 0), Nat.toDigits 10 lead.natAbs)) -
          ((ds.length - 1 : Nat) : Int) = exponent := by
        unfold exponentValue
        dsimp only
        rw [Nat.ofDigitChars_ten_toDigits]
        by_cases hneg : lead < 0
        · rw [if_pos (decide_eq_true hneg)]
          omega
        · rw [if_neg (by simp [hneg])]
          omega
      rw [hplaces, hexp, Option.isNone_some, Bool.and_false]
    · intro negative ds' h
      rw [Option.some.injEq, Prod.mk.injEq] at h
      rw [← h.2]
      exact isRow_toDigits _

/-- **A printed numeral is read up to its end.** -/
theorem unsignedNumber?_body (n : Numeral) {rest : List Symbol} (hrest : EndsNumber rest) :
    unsignedNumber? n.negative (n.body.map some ++ rest) = some (n.reread, rest) := by
  obtain ⟨negative, digits, exponent, whole⟩ := n
  cases whole with
  | true =>
    have htext : Nat.toDigits 10 digits = numberText (Nat.toDigits 10 digits) [] none := by
      simp [numberText]
    have hhead : (Nat.toDigits 10 digits).head? = some '0' → (Nat.toDigits 10 digits).length = 1 := by
      intro h0
      by_cases hd : digits = 0
      · rw [hd, Nat.toDigits_zero]
        rfl
      · exact absurd h0 (head?_toDigits_ne hd)
    unfold body reread
    dsimp only
    rw [if_pos rfl, if_pos rfl, htext, unsignedNumber?_numberText negative (isRow_toDigits digits)
      hhead (by simp) (by simp) hrest]
    simp [exponentValue]
  | false =>
    by_cases hd : digits = 0
    · have htext : ['0', '.', '0'] = numberText ['0'] ['0'] none := rfl
      unfold body reread
      simp only [Bool.false_eq_true, if_false, hd, if_true]
      rw [htext, unsignedNumber?_numberText negative ⟨by simp, by simp⟩ (by simp) (by simp)
        (by simp) hrest]
      rfl
    · unfold body
      simp only [Bool.false_eq_true, if_false, hd]
      exact unsignedNumber?_layout negative hd exponent hrest

/-! ## Numbers of 64 bits -/

theorem toBinary64?_eq {n : Numeral} {x : Binary64} (hfin : x.isFinite = true)
    (h : Binary64.ofDecimal n.negative n.digits n.exponent = x) : n.toBinary64? = some x := by
  unfold toBinary64?
  dsimp only
  rw [h, if_pos hfin]

theorem eq_zero_of_isZero {x : Binary64} (h : x.isZero = true) : x = Binary64.zero x.negative := by
  obtain ⟨negative, exponent, fraction⟩ := x
  unfold Binary64.isZero at h
  rw [Bool.and_eq_true, beq_iff_eq, beq_iff_eq] at h
  obtain ⟨he, hf⟩ := h
  dsimp only at he hf
  rw [he, hf]
  rfl

/-- **A finite number that is printed and read is the same number.** -/
theorem toBinary64?_reread {x : Binary64} (hfin : x.isFinite = true) :
    (ofBinary64 x).reread.toBinary64? = some x := by
  unfold ofBinary64
  cases hz : x.isZero with
  | true =>
    rw [if_pos rfl]
    exact toBinary64?_eq hfin (eq_zero_of_isZero hz).symm
  | false =>
    have hholds := Binary64.holds_shortest hz
    rw [if_neg (by simp)]
    dsimp only
    generalize x.shortest = d at hholds ⊢
    obtain ⟨digits, exponent⟩ := d
    obtain ⟨hd, hread⟩ := Binary64.ofDecimal_of_holds hfin hz hholds
    by_cases hpad : IsPadded ⟨x.negative, digits, exponent, false⟩
    · have he : (-1 : Int) + (exponent.toNat + 1 : Nat) = exponent := by
        have := hpad.2.2
        dsimp only at this
        omega
      have hshift := Binary64.RoundingInterval.holds_shift x.roundingInterval digits
        (exponent.toNat + 1) (-1)
      rw [he, hholds] at hshift
      rw [reread_of_isPadded hd hpad]
      exact toBinary64?_eq hfin (Binary64.ofDecimal_of_holds hfin hz hshift).2
    · rw [reread_of_not_isPadded hd hpad]
      exact toBinary64?_eq hfin hread

end Numeral

end QmlStubs
