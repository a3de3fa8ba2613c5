import LiveQuery.Numeral
import Mathlib.Data.Nat.Digits.Defs

/-! Numerals of one width compare like their numbers, character by character, and what follows
them decides only between equal numbers. -/

namespace LiveQuery

section

variable {a b x y : List Char} {w n m : Nat}

theorem append_lt_append_iff (h : a.length = b.length) :
    a ++ x < b ++ y ↔ a < b ∨ a = b ∧ x < y := by
  induction a generalizing b with
  | nil =>
    have hb : b = [] := List.length_eq_zero_iff.mp h.symm
    simp [hb]
  | cons c a ih =>
    cases b with
    | nil => simp at h
    | cons d b =>
      have hab : a.length = b.length := by simpa using h
      rw [List.cons_append, List.cons_append, List.cons_lt_cons_iff, List.cons_lt_cons_iff, ih hab,
        List.cons.injEq]
      tauto

theorem digitChar_lt_iff (hn : n < 10) (hm : m < 10) : n.digitChar < m.digitChar ↔ n < m := by
  have hchar : n.digitChar < m.digitChar ↔ n.digitChar.toNat < m.digitChar.toNat := Iff.rfl
  rw [hchar, Nat.toNat_digitChar_of_lt_ten hn, Nat.toNat_digitChar_of_lt_ten hm]
  omega

theorem digitChar_eq_iff (hn : n < 10) (hm : m < 10) : n.digitChar = m.digitChar ↔ n = m := by
  refine ⟨fun h => ?_, congrArg _⟩
  have hnat : n.digitChar.toNat = m.digitChar.toNat := congrArg _ h
  rw [Nat.toNat_digitChar_of_lt_ten hn, Nat.toNat_digitChar_of_lt_ten hm] at hnat
  omega

theorem padded_one (hn : n < 10) : padded 1 n = [n.digitChar] := by
  rw [padded, Nat.toDigits_of_lt_base hn]
  rfl

/-- The last digit of a numeral stands behind the numeral of the others. -/
theorem padded_succ (hw : 0 < w) :
    padded (w + 1) n = padded w (n / 10) ++ [(n % 10).digitChar] := by
  by_cases hn : n < 10
  · obtain ⟨k, rfl⟩ : ∃ k, w = k + 1 := ⟨w - 1, by omega⟩
    have hdiv : n / 10 = 0 := by omega
    have hmod : n % 10 = n := by omega
    simp only [padded, Nat.toDigits_of_lt_base hn, hdiv, hmod, Nat.toDigits_zero,
      List.length_singleton, Nat.add_sub_cancel, List.replicate_succ']
  · have hdigits : Nat.toDigits 10 n = Nat.toDigits 10 (n / 10) ++ [(n % 10).digitChar] :=
      Nat.toDigits_of_base_le (by decide) (by omega)
    have hlen : (Nat.toDigits 10 n).length = (Nat.toDigits 10 (n / 10)).length + 1 := by
      rw [hdigits, List.length_append, List.length_singleton]
    have hzeros : w + 1 - (Nat.toDigits 10 n).length = w - (Nat.toDigits 10 (n / 10)).length := by
      omega
    simp only [padded, hzeros]
    rw [hdigits, List.append_assoc]

theorem length_padded (hw : 0 < w) (hn : n < 10 ^ w) : (padded w n).length = w := by
  have hle : (Nat.toDigits 10 n).length ≤ w := (Nat.length_toDigits_le_iff (by decide) hw).mpr hn
  rw [padded, List.length_append, List.length_replicate]
  omega

theorem padded_inj (hw : 0 < w) (hn : n < 10 ^ w) (hm : m < 10 ^ w) :
    padded w n = padded w m ↔ n = m := by
  induction w, hw using Nat.le_induction generalizing n m with
  | base =>
    rw [padded_one hn, padded_one hm, List.singleton_inj, digitChar_eq_iff hn hm]
  | succ w hw ih =>
    have hn' : n / 10 < 10 ^ w := by rw [Nat.pow_succ] at hn; omega
    have hm' : m / 10 < 10 ^ w := by rw [Nat.pow_succ] at hm; omega
    have hlen : (padded w (n / 10)).length = (padded w (m / 10)).length := by
      rw [length_padded hw hn', length_padded hw hm']
    rw [padded_succ hw, padded_succ hw, List.append_eq_append_iff_of_size_eq_left hlen, ih hn' hm',
      List.singleton_inj, digitChar_eq_iff (by omega) (by omega)]
    omega

theorem padded_lt_iff (hw : 0 < w) (hn : n < 10 ^ w) (hm : m < 10 ^ w) :
    padded w n < padded w m ↔ n < m := by
  induction w, hw using Nat.le_induction generalizing n m with
  | base =>
    rw [padded_one hn, padded_one hm, List.cons_lt_cons_iff, digitChar_lt_iff hn hm]
    simp
  | succ w hw ih =>
    have hn' : n / 10 < 10 ^ w := by rw [Nat.pow_succ] at hn; omega
    have hm' : m / 10 < 10 ^ w := by rw [Nat.pow_succ] at hm; omega
    have hlen : (padded w (n / 10)).length = (padded w (m / 10)).length := by
      rw [length_padded hw hn', length_padded hw hm']
    rw [padded_succ hw, padded_succ hw, append_lt_append_iff hlen, ih hn' hm',
      padded_inj hw hn' hm', List.cons_lt_cons_iff, digitChar_lt_iff (by omega) (by omega)]
    simp only [List.not_lt_nil, and_false, or_false]
    omega

theorem padded_append_lt_iff (hw : 0 < w) (hn : n < 10 ^ w) (hm : m < 10 ^ w) :
    padded w n ++ x < padded w m ++ y ↔ n < m ∨ n = m ∧ x < y := by
  have hlen : (padded w n).length = (padded w m).length := by
    rw [length_padded hw hn, length_padded hw hm]
  rw [append_lt_append_iff hlen, padded_lt_iff hw hn hm, padded_inj hw hn hm]

/-- A separator that both texts have decides nothing. -/
theorem separator_lt_iff (c : Char) : c :: x < c :: y ↔ x < y := by
  rw [List.cons_lt_cons_iff]
  simp

end

end LiveQuery
