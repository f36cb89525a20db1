import Mathlib.Data.List.Basic
import PveMeta.Lib.Text

/-! # Decimal numerals

A run of digits is the numeral of the number it reads as exactly when it has no superfluous leading
zero. -/

namespace Decimal

variable {c : Char} {cs : List Char} {n acc : Nat}

theorem digitChar_sub (h : c.isDigit = true) : (c.toNat - '0'.toNat).digitChar = c := by
  simp only [Char.isDigit, Bool.and_eq_true, decide_eq_true_eq, UInt32.le_iff_toNat_le] at h
  have hlo : 48 ≤ c.toNat := h.1
  have hhi : c.toNat ≤ 57 := h.2
  show (c.toNat - 48).digitChar = c
  apply Char.toNat_inj.mp
  rw [Nat.toNat_digitChar_of_lt_ten (by omega)]
  omega

theorem sub_lt_ten (h : c.isDigit = true) : c.toNat - '0'.toNat < 10 := by
  simp only [Char.isDigit, Bool.and_eq_true, decide_eq_true_eq, UInt32.le_iff_toNat_le] at h
  have hhi : c.toNat ≤ 57 := h.2
  show c.toNat - 48 < 10
  omega

/-- Digits read after a positive number are the end of the numeral. -/
theorem toDigits_append (hacc : 0 < acc) (hcs : cs.all Char.isDigit = true) :
    Nat.toDigits 10 acc ++ cs = Nat.toDigits 10 (Nat.ofDigitChars 10 cs acc) := by
  induction cs generalizing acc with
  | nil => simp
  | cons c cs ih =>
    simp only [List.all_cons, Bool.and_eq_true] at hcs
    have hlt := sub_lt_ten hcs.1
    have hstep : Nat.toDigits 10 acc ++ [c] = Nat.toDigits 10 (10 * acc + (c.toNat - '0'.toNat)) := by
      rw [← Nat.toDigits_append_toDigits (by decide) hacc hlt, Nat.toDigits_of_lt_base hlt, digitChar_sub hcs.1]
    rw [Nat.ofDigitChars_cons, ← ih (by omega) hcs.2, ← hstep]
    simp

/-- Digits without a leading zero are the numeral of what they read as. -/
theorem toDigits_ofDigitChars (hne : cs ≠ []) (hcs : cs.all Char.isDigit = true)
    (hzero : cs.head? = some '0' → cs = ['0']) : Nat.toDigits 10 (Nat.ofDigitChars 10 cs 0) = cs := by
  cases cs with
  | nil => exact absurd rfl hne
  | cons c cs =>
    by_cases hc : c = '0'
    · subst hc
      obtain rfl : cs = [] := by simpa using hzero rfl
      rfl
    · simp only [List.all_cons, Bool.and_eq_true] at hcs
      have hlt := sub_lt_ten hcs.1
      have hpos : 0 < c.toNat - '0'.toNat := by
        by_contra h0
        have h := digitChar_sub hcs.1
        rw [Nat.eq_zero_of_not_pos h0] at h
        exact hc h.symm
      rw [Nat.ofDigitChars_cons, Nat.mul_zero, Nat.zero_add, ← toDigits_append hpos hcs.2,
        Nat.toDigits_of_lt_base hlt, digitChar_sub hcs.1]
      rfl

/-- Only the numeral of zero starts with a zero. -/
theorem eq_zero_of_head (h : (Nat.toDigits 10 n).head? = some '0') : n = 0 := by
  induction n using Nat.strongRecOn with
  | ind n ih =>
    by_cases hn : n < 10
    · rw [Nat.toDigits_of_lt_base hn] at h
      have hchar : n.digitChar = '0' := by simpa using h
      have := congrArg Char.toNat hchar
      rw [Nat.toNat_digitChar_of_lt_ten hn] at this
      have h48 : '0'.toNat = 48 := rfl
      omega
    · rw [Nat.toDigits_of_base_le (by decide) (by omega), List.head?_append,
        List.head?_eq_some_head Nat.toDigits_ne_nil, Option.some_or] at h
      have := ih (n / 10) (by omega) (by rw [List.head?_eq_some_head Nat.toDigits_ne_nil]; simpa using h)
      omega

theorem toDigits_injective {m : Nat} (h : Nat.toDigits 10 m = Nat.toDigits 10 n) : m = n := by
  have := congrArg (Nat.ofDigitChars 10 · 0) h
  simpa [Nat.ofDigitChars_ten_toDigits] using this

theorem all_isDigit_toDigits (n : Nat) : (Nat.toDigits 10 n).all Char.isDigit = true :=
  List.all_eq_true.mpr fun _ hc => Nat.isDigit_of_mem_toDigits (by decide) (by decide) hc

/-- A number below the limit is read back from its numeral. -/
theorem parseNat_toDigits {limit : Nat} (h : n < limit) : Text.parseNat limit (Nat.toDigits 10 n) = some n := by
  have hall := all_isDigit_toDigits n
  have hsign : Text.afterSign (Nat.toDigits 10 n) = Nat.toDigits 10 n := by
    rcases Text.eq_afterSign (Nat.toDigits 10 n) with h | h
    · exact h.symm
    · rw [h] at hall
      simp at hall
  simp only [Text.parseNat, hsign, hall]
  simp [h]

theorem parseU32_toDigits (n : UInt32) : Text.parseU32 (Nat.toDigits 10 n.toNat) = some n := by
  rw [Text.parseU32, parseNat_toDigits n.toNat_lt, Option.map_some, UInt32.ofNat_toNat]

/-- What `u32` parsing takes: digits, after an optional sign. -/
theorem parseU32_eq_some {u : Text} {v : UInt32} (h : Text.parseU32 u = some v) :
    ∃ ds, (u = ds ∨ u = '+' :: ds) ∧ ds ≠ [] ∧ ds.all Char.isDigit = true ∧ Nat.ofDigitChars 10 ds 0 = v.toNat := by
  obtain ⟨n, hn, rfl⟩ := Option.map_eq_some_iff.mp h
  refine ⟨Text.afterSign u, Text.eq_afterSign u, ?_⟩
  unfold Text.parseNat at hn
  dsimp only at hn
  split at hn
  · cases hn
  · next hok =>
    split at hn
    · next hlt =>
      cases hn
      rw [Bool.or_eq_true, not_or, Bool.not_eq_true', Bool.not_eq_false, List.isEmpty_iff] at hok
      exact ⟨hok.1, hok.2, (UInt32.toNat_ofNat_of_lt' hlt).symm⟩
    · cases hn

/-! ### The order of numerals -/

section Order

variable {as bs : List Char}

theorem ofDigitChars_bounds (acc : Nat) (h : as.all Char.isDigit = true) :
    10 ^ as.length * acc ≤ Nat.ofDigitChars 10 as acc ∧ Nat.ofDigitChars 10 as acc < 10 ^ as.length * (acc + 1) := by
  induction as generalizing acc with
  | nil => simp
  | cons a as ih =>
    simp only [List.all_cons, Bool.and_eq_true] at h
    have hlt := sub_lt_ten h.1
    obtain ⟨hlo, hhi⟩ := ih (10 * acc + (a.toNat - '0'.toNat)) h.2
    rw [Nat.ofDigitChars_cons, List.length_cons, Nat.pow_succ, Nat.mul_assoc, Nat.mul_assoc]
    exact ⟨hlo.trans' (Nat.mul_le_mul_left _ (by omega)), hhi.trans_le (Nat.mul_le_mul_left _ (by omega))⟩

/-- Digits of one length are in the order of the numbers they read as. -/
theorem lt_of_ofDigitChars_lt (has : as.all Char.isDigit = true) (hbs : bs.all Char.isDigit = true)
    (hlength : as.length = bs.length) (h : Nat.ofDigitChars 10 as acc < Nat.ofDigitChars 10 bs acc) : as < bs := by
  induction as generalizing bs acc with
  | nil =>
    obtain rfl := List.length_eq_zero_iff.mp hlength.symm
    exact absurd h (Nat.lt_irrefl _)
  | cons a as ih =>
    cases bs with
    | nil => cases hlength
    | cons b bs =>
      simp only [List.all_cons, Bool.and_eq_true] at has hbs
      rw [Nat.ofDigitChars_cons, Nat.ofDigitChars_cons] at h
      have hlength := Nat.succ.inj hlength
      rw [List.cons_lt_cons_iff]
      rcases Nat.lt_trichotomy (a.toNat - '0'.toNat) (b.toNat - '0'.toNat) with hlt | heq | hgt
      · left
        rw [Char.lt_def, UInt32.lt_iff_toNat_lt]
        show a.toNat < b.toNat
        omega
      · right
        rw [heq] at h
        refine ⟨?_, ih has.2 hbs.2 hlength h⟩
        rw [← digitChar_sub has.1, heq, digitChar_sub hbs.1]
      · -- The greater digit outweighs all that follow.
        have hhi := (ofDigitChars_bounds (10 * acc + (b.toNat - '0'.toNat)) hbs.2).2
        have hlo := (ofDigitChars_bounds (10 * acc + (a.toNat - '0'.toNat)) has.2).1
        have hmul : 10 ^ bs.length * (10 * acc + (b.toNat - '0'.toNat) + 1) ≤
            10 ^ as.length * (10 * acc + (a.toNat - '0'.toNat)) := by
          rw [hlength]
          exact Nat.mul_le_mul_left _ (by omega)
        omega

end Order

end Decimal
