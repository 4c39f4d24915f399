import FieldFormula.Proofs.Decimal.Exactness
import Mathlib.Algebra.Order.Field.Basic
import Mathlib.Tactic.NormNum

/-!
Literals that are rounded. Only the first digit without room is looked at, and rounding up may carry
into a digit more than the mantissa holds. Main statements: a literal is rejected exactly if it is
no less than half a unit below the bound of mantissas (`ofDigits?_eq_none_iff`), and what is read
is within half a unit of its own last place (`near_of_ofDigits?`).
-/
namespace FieldFormula.Decimal

/-- The number is within half a unit of the last place of the decimal. -/
def Near (d : Decimal) (v : ℚ) : Prop := |d.value - v| ≤ 1 / 10 ^ d.scale / 2

variable {k : ℕ} {f v : ℚ} {cs whole fraction : List Char} {d e : Decimal}

theorem cast_mantissaBound : (mantissaBound : ℚ) = 2 ^ 96 := by
  rw [mantissaBound]
  norm_num

theorem near_of_units {u : ℚ} (h : d.negative = false) (hv : v = u / 10 ^ d.scale)
    (hbelow : u - 1 / 2 ≤ d.mantissa) (habove : d.mantissa ≤ u + 1 / 2) : d.Near v := by
  have hunit : (0 : ℚ) < 10 ^ d.scale := by positivity
  rw [Near, value_of_unsigned h, hv, ← sub_div, abs_div, abs_of_pos hunit, div_right_comm]
  apply div_le_div_of_nonneg_right _ hunit.le
  rw [abs_le]
  constructor <;> linarith

/-- A mantissa that rounding makes too large gives up its last digit, which is rounded as well. -/
theorem near_of_carry (hfull : mantissaBound ≤ d.mantissa + 1) (hs : d.scale ≠ 0)
    (he : ofParts? ((d.mantissa + 1 + 4) / 10) (d.scale - 1) = some e) (hup : 1 / 2 ≤ f)
    (hlt : f < 1) : e.Near ((d.mantissa + f) / 10 ^ d.scale) := by
  obtain ⟨hsign, hmantissa, hscale⟩ := ofParts?_eq_some_iff.1 he
  -- only the largest mantissa comes here, so what it is rounded to is a fixed number
  have hlast : d.mantissa = mantissaBound - 1 := by
    have hm := d.mantissa_lt
    omega
  have hrounded : (e.mantissa : ℚ) = 7922816251426433759354395034 := by
    rw [hmantissa, hlast]
    rfl
  have hvalue : (d.mantissa : ℚ) = 79228162514264337593543950335 := by
    rw [hlast]
    rfl
  have hplaces : d.scale = e.scale + 1 := by omega
  refine near_of_units (u := (d.mantissa + f) / 10) hsign ?_ ?_ ?_
  · rw [div_div, ← pow_succ', hplaces]
  · rw [hrounded, hvalue]
    linarith
  · rw [hrounded, hvalue]
    linarith

theorem near_of_round? (hd : d.negative = false) (hk : k < 10) (hnonneg : 0 ≤ f) (hlt : f < 1)
    (h : d.round? k = some e) : e.Near ((d.mantissa + (k + f) / 10) / 10 ^ d.scale) := by
  have hdigit : (k : ℚ) ≤ 9 := by exact_mod_cast Nat.le_of_lt_succ hk
  rcases round?_cases h with ⟨hdown, rfl⟩ | ⟨hup, he⟩ | ⟨hup, hfull, hs, he⟩
  · have hdown' : (k : ℚ) ≤ 4 := by exact_mod_cast Nat.le_of_lt_succ hdown
    exact near_of_units hd rfl (by linarith) (by linarith)
  · have hup' : (5 : ℚ) ≤ k := by exact_mod_cast hup
    obtain ⟨hsign, hmantissa, hscale⟩ := ofParts?_eq_some_iff.1 he
    have hnext : (e.mantissa : ℚ) = d.mantissa + 1 := by exact_mod_cast hmantissa
    exact near_of_units hsign (by rw [hscale]) (by linarith) (by linarith)
  · have hup' : (5 : ℚ) ≤ k := by exact_mod_cast hup
    exact near_of_carry hfull hs he (by linarith) (by linarith)

theorem near_of_readFraction? (hd : d.negative = false) (hdigits : cs.all Char.isDigit = true)
    (h : readFraction? d cs = some e) :
    e.Near ((d.mantissa + fractionValue cs) / 10 ^ d.scale) := by
  induction cs generalizing d with
  | nil =>
    cases h
    rw [fractionValue_nil, add_zero]
    exact near_of_units hd rfl (by linarith) (by linarith)
  | cons c cs ih =>
    rw [List.all_cons, Bool.and_eq_true] at hdigits
    rcases readFraction?_cons d c cs with ⟨f, hsign, hmantissa, hscale, hread⟩ | ⟨-, hread⟩
    · rw [value_step, ← hmantissa, ← hscale]
      exact ih hsign hdigits.2 (hread.symm.trans h)
    · rw [fractionValue_cons]
      exact near_of_round? hd (digitValue_lt hdigits.1) (fractionValue_nonneg cs)
        (fractionValue_lt_one hdigits.2) (hread.symm.trans h)

theorem round?_eq_none_iff :
    d.round? k = none ↔ 5 ≤ k ∧ mantissaBound ≤ d.mantissa + 1 ∧ d.scale = 0 := by
  have hm := d.mantissa_lt
  have hs := d.scale_le
  have hbound : 1 < mantissaBound := by decide
  unfold round?
  split
  · simp only [reduceCtorEq, false_iff]
    omega
  · rw [Option.or_eq_none_iff, ofParts?_eq_none_iff]
    split
    · simp only [and_true]
      omega
    · rw [ofParts?_eq_none_iff]
      omega

theorem value_lt_bound (d : Decimal) (hlt : f < 1)
    (h : d.mantissa + 1 < mantissaBound ∨ d.scale ≠ 0 ∨ f < 1 / 2) :
    (d.mantissa + f) / 10 ^ d.scale < mantissaBound - 1 / 2 := by
  have hm : (d.mantissa : ℚ) ≤ mantissaBound - 1 := by
    rw [le_sub_iff_add_le]
    exact_mod_cast d.mantissa_lt
  have hbound : (1 : ℚ) < mantissaBound := by
    exact_mod_cast (show 1 < mantissaBound by decide)
  have hunit : (1 : ℚ) ≤ 10 ^ d.scale := one_le_pow₀ (by norm_num)
  rw [div_lt_iff₀ (by positivity)]
  rcases h with hsmall | hs | hf
  · have hsmall' : (d.mantissa : ℚ) + 1 ≤ mantissaBound - 1 := by
      rw [le_sub_iff_add_le]
      exact_mod_cast hsmall
    nlinarith
  · have hten : (10 : ℚ) ≤ 10 ^ d.scale := le_self_pow₀ (by norm_num) hs
    nlinarith
  · nlinarith

theorem readFraction?_eq_none_iff (hdigits : cs.all Char.isDigit = true) :
    readFraction? d cs = none ↔
      mantissaBound - 1 / 2 ≤ (d.mantissa + fractionValue cs) / 10 ^ d.scale := by
  induction cs generalizing d with
  | nil =>
    rw [fractionValue_nil]
    have hlt := value_lt_bound d zero_lt_one (.inr (.inr (by norm_num)))
    simp only [readFraction?, reduceCtorEq, false_iff, not_le]
    exact hlt
  | cons c cs ih =>
    have hless := fractionValue_lt_one hdigits
    rw [List.all_cons, Bool.and_eq_true] at hdigits
    rcases readFraction?_cons d c cs with ⟨f, -, hmantissa, hscale, hread⟩ | ⟨-, hread⟩
    · rw [hread, value_step, ← hmantissa, ← hscale]
      exact ih hdigits.2
    · have hnonneg := fractionValue_nonneg cs
      have hlt := fractionValue_lt_one hdigits.2
      rw [hread, round?_eq_none_iff]
      constructor
      · rintro ⟨hup, hlast, hs⟩
        have hup' : (5 : ℚ) ≤ digitValue c := by exact_mod_cast hup
        have hlast' : (mantissaBound : ℚ) ≤ d.mantissa + 1 := by exact_mod_cast hlast
        rw [fractionValue_cons, hs, pow_zero, div_one]
        linarith
      · -- what is not rejected has room left, a digit to give up, or is rounded down
        intro hlarge
        by_contra hsmall
        refine absurd hlarge (not_le.2 (value_lt_bound d hless ?_))
        by_cases hlast : mantissaBound ≤ d.mantissa + 1
        · by_cases hs : d.scale = 0
          · have hdown : digitValue c ≤ 4 := by
              by_contra hup
              exact hsmall ⟨by omega, hlast, hs⟩
            have hdown' : (digitValue c : ℚ) ≤ 4 := by exact_mod_cast hdown
            right; right
            rw [fractionValue_cons]
            linarith
          · exact .inr (.inl hs)
        · exact .inl (Nat.lt_of_not_le hlast)

/-- Only literals that would round to the bound of mantissas or more are rejected. -/
theorem ofDigits?_eq_none_iff (whole : List Char) (hdigits : fraction.all Char.isDigit = true) :
    ofDigits? whole fraction = none ↔ mantissaBound - 1 / 2 ≤ literalValue whole fraction := by
  rw [ofDigits?_eq]
  cases hparts : ofParts? (Nat.ofDigitChars 10 whole 0) 0 with
  | some d =>
    obtain ⟨-, hmantissa, hscale⟩ := ofParts?_eq_some_iff.1 hparts
    rw [Option.bind_some, readFraction?_eq_none_iff hdigits, literalValue_eq_div, hmantissa, hscale]
  | none =>
    have hwhole := mantissaBound_le_of_ofParts? (Nat.zero_le _) hparts
    have hlarge : (mantissaBound : ℚ) ≤ Nat.ofDigitChars 10 whole 0 := by exact_mod_cast hwhole
    have hnonneg := fractionValue_nonneg fraction
    rw [Option.bind_none, literalValue]
    simp only [true_iff]
    linarith

theorem near_of_ofDigits? (hdigits : fraction.all Char.isDigit = true)
    (h : ofDigits? whole fraction = some e) : e.Near (literalValue whole fraction) := by
  obtain ⟨d, hsign, hmantissa, hscale, hfraction⟩ := ofDigits?_eq_some h
  rw [literalValue_eq_div, ← hmantissa, ← hscale]
  exact near_of_readFraction? hsign hdigits hfraction

end FieldFormula.Decimal
