import Mathlib.Data.List.Basic
import Mathlib.Tactic.Common

/-!
# The order of texts

Tables are sorted by comparing texts character by character. UTF-8 keeps this order: the code of a
character starts with its leading digits, and longer codes start with larger bytes. So **what is
sorted is sorted by bytes** (`Text.isBefore_of_compare`).
-/

set_option autoImplicit false

namespace QmlStubs.Text

theorem toNat_ofNat_of_lt {n : Nat} (h : n < 256) : (UInt8.ofNat n).toNat = n := by
  rw [UInt8.toNat_ofNat', Nat.mod_eq_of_lt h]

/-- **The codes of characters are ordered as the characters are**, whatever follows them. -/
theorem utf8EncodeChar_append_lt {c c' : Char} (h : c < c') (x y : List UInt8) :
    String.utf8EncodeChar c ++ x < String.utf8EncodeChar c' ++ y := by
  have hlt : c.val.toNat < c'.val.toNat := h
  have hmax : c'.val.toNat < 0x110000 := by
    rcases c'.valid with h | h <;> omega
  generalize hv : c.val.toNat = v at hlt
  generalize hv' : c'.val.toNat = v' at hlt hmax
  have hsmall : v / 262144 % 8 = v / 262144 ∧ v' / 262144 % 8 = v' / 262144 := by omega
  unfold String.utf8EncodeChar
  rw [hv, hv']
  dsimp only
  -- A shorter code starts with a smaller byte; codes of one length differ in their six-bit digits.
  split <;> [skip; split <;> [skip; split]] <;> (split <;> [skip; split <;> [skip; split]]) <;>
    first
    | omega
    | simp (disch := omega) only [List.cons_append, List.nil_append, List.cons_lt_cons_iff,
        UInt8.lt_iff_toNat_lt, ← UInt8.toNat_inj, toNat_ofNat_of_lt, hsmall]
      omega

/-- One text comes before another one, byte by byte. -/
def IsBefore (a b : String) : Prop := a.toUTF8.data.toList < b.toUTF8.data.toList

/-- **Texts are ordered as their bytes are.** -/
theorem isBefore_of_compare {a b : String} (h : compare a b = .lt) : IsBefore a b := by
  have hbytes : ∀ s : String, s.toUTF8.data.toList = s.toList.flatMap String.utf8EncodeChar := by
    intro s
    have hencode : s.toUTF8 = s.toList.utf8Encode := String.utf8Encode_toList.symm
    rw [hencode]
    unfold List.utf8Encode
    simp
  have hlt : a.toList < b.toList := by
    refine String.lt_iff.1 ?_
    have h : compareOfLessAndEq a b = .lt := h
    exact compareOfLessAndEq_eq_lt.1 h
  unfold IsBefore
  rw [hbytes, hbytes]
  generalize a.toList = cs at hlt
  generalize b.toList = ds at hlt
  induction cs generalizing ds with
  | nil =>
    cases ds with
    | nil => exact absurd hlt (by simp)
    | cons d ds =>
      rw [List.flatMap_nil, List.flatMap_cons]
      have hne : String.utf8EncodeChar d ≠ [] := by simp
      obtain ⟨b, bs, hb⟩ := List.exists_cons_of_ne_nil hne
      rw [hb]
      exact List.nil_lt_cons ..
  | cons c cs ih =>
    cases ds with
    | nil => exact absurd hlt (by simp)
    | cons d ds =>
      rw [List.flatMap_cons, List.flatMap_cons]
      rcases List.cons_lt_cons_iff.1 hlt with hfirst | ⟨rfl, hrest⟩
      · exact utf8EncodeChar_append_lt hfirst _ _
      · exact List.append_left_lt (ih ds hrest)

end QmlStubs.Text
