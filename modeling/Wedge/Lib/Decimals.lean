-- Decimal texts: the digits of a natural number, padded digits, and numbers
-- with a fixed number of digits behind the point. What is written is read back.
import Mathlib

namespace decimals

/-- A character that ends a number. -/
def Ends (rest : List Char) : Prop := ∀ c ∈ rest.head?, c.isDigit = false

theorem ends_nil : Ends [] := fun _ h => nomatch h

theorem ends_cons {c : Char} {rest : List Char} : Ends (c :: rest) ↔ c.isDigit = false := by
  simp [Ends]

theorem ne_of_digit {c d : Char} (hc : c.isDigit = true) (hd : d.isDigit = false) : c ≠ d := by
  rintro rfl
  rw [hc] at hd
  cases hd

theorem digit_not_whitespace {c : Char} (hc : c.isDigit = true) : c.isWhitespace = false := by
  have hne (d : Char) (hd : d.isDigit = false) : ¬ c = d := ne_of_digit hc hd
  simp [Char.isWhitespace, hne ' ' (by decide), hne '\t' (by decide), hne '\r' (by decide),
    hne '\n' (by decide)]

/-- Digits in front of something else. -/
theorem span_digits {digits rest : List Char} (hdigits : ∀ c ∈ digits, c.isDigit = true)
    (hrest : Ends rest) : (digits ++ rest).span Char.isDigit = (digits, rest) := by
  rw [List.span_eq_takeWhile_dropWhile, List.takeWhile_append_of_pos hdigits,
    List.dropWhile_append_of_pos hdigits]
  cases rest with
  | nil => simp
  | cons c rest =>
    have hc := ends_cons.mp hrest
    simp [hc]

theorem digits_of_nat (n : ℕ) : ∀ c ∈ Nat.toDigits 10 n, c.isDigit = true := fun _ h =>
  Nat.isDigit_of_mem_toDigits (by decide) (by decide) h

/-- The digits of a number with zeros in front of them. -/
def pad (width n : ℕ) : List Char :=
  List.replicate (width - (Nat.toDigits 10 n).length) '0' ++ Nat.toDigits 10 n

theorem digits_of_pad (width n : ℕ) : ∀ c ∈ pad width n, c.isDigit = true := by
  intro c h
  rcases List.mem_append.mp h with h | h
  · rw [List.eq_of_mem_replicate h]
    rfl
  · exact digits_of_nat n c h

theorem value_pad (width n : ℕ) : Nat.ofDigitChars 10 (pad width n) 0 = n := by
  unfold pad
  rw [Nat.ofDigitChars_append, Nat.ofDigitChars_replicate_zero, Nat.mul_zero,
    Nat.ofDigitChars_ten_toDigits]

theorem length_pad {width n : ℕ} (hwidth : 0 < width) (h : n < 10 ^ width) :
    (pad width n).length = width := by
  have hle := (Nat.length_toDigits_le_iff (b := 10) (by decide) hwidth).mpr h
  unfold pad
  rw [List.length_append, List.length_replicate]
  exact Nat.sub_add_cancel hle

/-- A number that counts units of the last place behind the point. -/
def fixed (width units : ℕ) : List Char :=
  Nat.toDigits 10 (units / 10 ^ width) ++ '.' :: pad width (units % 10 ^ width)

/-- The digits in front of the point and behind it are the digits of the units. -/
theorem value_fixed {width : ℕ} (hwidth : 0 < width) (units : ℕ) :
    Nat.ofDigitChars 10 (Nat.toDigits 10 (units / 10 ^ width) ++ pad width (units % 10 ^ width)) 0 =
      units := by
  have hlength := length_pad hwidth (Nat.mod_lt units (Nat.pow_pos (n := width) (by decide : 0 < 10)))
  rw [Nat.ofDigitChars_append, Nat.ofDigitChars_ten_toDigits, Nat.ofDigitChars_eq_ofDigitChars_zero,
    hlength, value_pad]
  exact Nat.div_add_mod units (10 ^ width)

/-- The length of a number grows with its size only. -/
theorem length_fixed_le {width units size : ℕ} (hwidth : 0 < width) (hsize : 0 < size)
    (h : units < 10 ^ (size + width)) : (fixed width units).length ≤ size + 1 + width := by
  have hwhole : units / 10 ^ width < 10 ^ size := by
    rw [Nat.div_lt_iff_lt_mul (Nat.pow_pos (by decide))]
    rwa [← Nat.pow_add]
  have hle := (Nat.length_toDigits_le_iff (b := 10) (by decide) hsize).mpr hwhole
  have hlength := length_pad hwidth (Nat.mod_lt units (Nat.pow_pos (n := width) (by decide : 0 < 10)))
  unfold fixed
  rw [List.length_append, List.length_cons, hlength]
  omega

end decimals
