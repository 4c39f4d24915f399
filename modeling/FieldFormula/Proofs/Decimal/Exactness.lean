import FieldFormula.Proofs.Decimal.Digits
import Mathlib.Algebra.Order.Field.Rat
import Mathlib.Tactic.FieldSimp
import Mathlib.Tactic.Linarith
import Mathlib.Tactic.Positivity
import Mathlib.Tactic.Ring

/-!
Which literals keep their value. Reading a fraction goes on while the mantissa and the scale have
room, and what is left of it then is dropped or rounded. Main statement: a literal is read as the
number it denotes exactly if some mantissa and scale within the bounds denote it
(`value_ofDigits?_iff`).
-/
namespace FieldFormula.Decimal

def fractionValue (cs : List Char) : ℚ := Nat.ofDigitChars 10 cs 0 / 10 ^ cs.length

def literalValue (whole fraction : List Char) : ℚ :=
  Nat.ofDigitChars 10 whole 0 + fractionValue fraction

def value (d : Decimal) : ℚ :=
  if d.negative then -(d.mantissa / 10 ^ d.scale) else d.mantissa / 10 ^ d.scale

def Representable (v : ℚ) : Prop :=
  ∃ m s : ℕ, m < mantissaBound ∧ s ≤ maxScale ∧ v = m / 10 ^ s

variable {m s k : ℕ} {c : Char} {cs whole fraction : List Char} {d e : Decimal}

theorem value_of_unsigned (h : d.negative = false) : d.value = d.mantissa / 10 ^ d.scale := by
  simp [value, h]

theorem representable_value (h : d.negative = false) : Representable d.value :=
  ⟨d.mantissa, d.scale, d.mantissa_lt, d.scale_le, value_of_unsigned h⟩

theorem fractionValue_nil : fractionValue [] = 0 := by
  simp [fractionValue]

theorem fractionValue_cons (c : Char) (cs : List Char) :
    fractionValue (c :: cs) = (digitValue c + fractionValue cs) / 10 := by
  rw [fractionValue, fractionValue, Nat.ofDigitChars_cons, Nat.mul_zero, Nat.zero_add,
    Nat.ofDigitChars_eq_ofDigitChars_zero, ← digitValue, List.length_cons]
  push_cast
  field_simp
  ring

theorem fractionValue_nonneg (cs : List Char) : 0 ≤ fractionValue cs := by
  unfold fractionValue
  positivity

theorem fractionValue_lt_one (h : cs.all Char.isDigit = true) : fractionValue cs < 1 := by
  induction cs with
  | nil =>
    rw [fractionValue_nil]
    exact zero_lt_one
  | cons c cs ih =>
    obtain ⟨hc, hcs⟩ := Bool.and_eq_true_iff.1 ((List.all_cons ..).symm.trans h)
    have hdigit : (digitValue c : ℚ) ≤ 9 := by
      exact_mod_cast Nat.le_of_lt_succ (digitValue_lt hc)
    have hrest := ih hcs
    rw [fractionValue_cons]
    linarith

theorem literalValue_eq (whole fraction : List Char) : literalValue whole fraction =
    Nat.ofDigitChars 10 (whole ++ fraction) 0 / 10 ^ fraction.length := by
  rw [literalValue, fractionValue, Nat.ofDigitChars_append,
    @Nat.ofDigitChars_eq_ofDigitChars_zero fraction (Nat.ofDigitChars 10 whole 0)]
  push_cast
  field_simp

theorem literalValue_eq_div (whole fraction : List Char) : literalValue whole fraction =
    (Nat.ofDigitChars 10 whole 0 + fractionValue fraction) / 10 ^ 0 := by
  rw [pow_zero, div_one, literalValue]

/-- A digit that fits does not change the number denoted. -/
theorem value_step (m s : ℕ) (c : Char) (cs : List Char) :
    ((m + fractionValue (c :: cs)) / 10 ^ s : ℚ) =
      ((10 * m + digitValue c : ℕ) + fractionValue cs) / 10 ^ (s + 1) := by
  rw [fractionValue_cons]
  push_cast
  field_simp
  ring

/-- Where the next digit `k` does not fit, a number that can be represented has no fraction left. -/
theorem fraction_eq_zero {f : ℚ} (hrep : Representable ((m + f) / 10 ^ s)) (hnonneg : 0 ≤ f)
    (hlt : f < 1) (hk : (k : ℚ) ≤ 10 * f)
    (hfull : mantissaBound ≤ 10 * m + k ∨ maxScale < s + 1) : f = 0 := by
  obtain ⟨n, t, hn, ht, hv⟩ := hrep
  rw [div_eq_div_iff (by positivity) (by positivity)] at hv
  rcases Nat.lt_or_ge s t with hst | hts
  · -- with one more digit the mantissa would have to be at least what did not fit
    obtain ⟨j, rfl⟩ := Nat.exists_eq_add_of_lt hst
    have hmantissa : (m + f) * 10 * 10 ^ j = n := by
      have hpos : (10 : ℚ) ^ s ≠ 0 := by positivity
      apply mul_right_cancel₀ hpos
      rw [← hv]
      ring
    have hpow : (1 : ℚ) ≤ 10 ^ j := one_le_pow₀ (by norm_num)
    have hle : ((10 * m + k : ℕ) : ℚ) ≤ n := by
      push_cast
      nlinarith
    have hbound : mantissaBound ≤ 10 * m + k := by omega
    have hmantissa' : 10 * m + k ≤ n := by exact_mod_cast hle
    omega
  · -- with no more digits than were read, the number is a multiple of the last place
    obtain ⟨j, rfl⟩ := Nat.exists_eq_add_of_le hts
    have hmultiple : m + f = (n * 10 ^ j : ℕ) := by
      have hpos : (10 : ℚ) ^ t ≠ 0 := by positivity
      apply mul_right_cancel₀ hpos
      push_cast
      rw [hv]
      ring
    have hle : (m : ℚ) ≤ (n * 10 ^ j : ℕ) := by linarith
    have hge : ((n * 10 ^ j : ℕ) : ℚ) < (m + 1 : ℕ) := by
      rw [← hmultiple]
      push_cast
      linarith
    have heq : n * 10 ^ j = m :=
      Nat.le_antisymm (Nat.le_of_lt_succ (by exact_mod_cast hge)) (by exact_mod_cast hle)
    rw [heq] at hmultiple
    linarith

theorem value_round? (hd : d.negative = false) (h : d.round? 0 = some e) :
    e.value = d.mantissa / 10 ^ d.scale := by
  cases h
  exact value_of_unsigned hd

theorem value_readFraction? (hd : d.negative = false)
    (hrep : Representable ((d.mantissa + fractionValue cs) / 10 ^ d.scale))
    (hdigits : cs.all Char.isDigit = true) (h : readFraction? d cs = some e) :
    e.value = (d.mantissa + fractionValue cs) / 10 ^ d.scale := by
  induction cs generalizing d with
  | nil =>
    cases h
    rw [fractionValue_nil, add_zero]
    exact value_of_unsigned hd
  | cons c cs ih =>
    have hless := fractionValue_lt_one hdigits
    rw [List.all_cons, Bool.and_eq_true] at hdigits
    rcases readFraction?_cons d c cs with ⟨f, hsign, hmantissa, hscale, hread⟩ | ⟨hfull, hread⟩
    · rw [value_step, ← hmantissa, ← hscale] at hrep ⊢
      exact ih hsign hrep hdigits.2 (hread.symm.trans h)
    · have hnonneg := fractionValue_nonneg cs
      have hfraction : fractionValue (c :: cs) = 0 := by
        refine fraction_eq_zero hrep (fractionValue_nonneg _) hless ?_ hfull
        rw [fractionValue_cons]
        linarith
      have hzero : digitValue c = 0 := by
        rw [fractionValue_cons, div_eq_zero_iff] at hfraction
        have hsum : (digitValue c : ℚ) + fractionValue cs = 0 :=
          hfraction.resolve_right (by norm_num)
        have hk : (digitValue c : ℚ) ≤ (0 : ℕ) := by
          push_cast
          linarith
        exact Nat.le_zero.1 (by exact_mod_cast hk)
      rw [hread, hzero] at h
      rw [hfraction, add_zero]
      exact value_round? hd h

/-- A literal that is read keeps its value exactly if the value can be represented. -/
theorem value_ofDigits?_iff (h : ofDigits? whole fraction = some e)
    (hdigits : fraction.all Char.isDigit = true) :
    e.value = literalValue whole fraction ↔ Representable (literalValue whole fraction) := by
  obtain ⟨d, hsign, hmantissa, hscale, hfraction⟩ := ofDigits?_eq_some h
  constructor
  · intro heq
    rw [← heq]
    exact representable_value (unsigned_of_ofDigits? h)
  · intro hrep
    rw [literalValue_eq_div, ← hmantissa, ← hscale] at hrep ⊢
    exact value_readFraction? hsign hrep hdigits hfraction

end FieldFormula.Decimal
