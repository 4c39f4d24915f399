import FieldFormula.Decimal

/-!
Digits of decimal numbers, read and written. Main statements: the digits before the point are read
as the number they denote if it fits the mantissa (`readWhole?_eq`), digits that have room are kept
as they are (`ofDigits?_of_fits`), and the text of a number has its mantissa for digits and its
scale for their number behind the point (`toChars_eq`).
-/
namespace FieldFormula.Decimal

section Reading
variable {m s k : Nat} {cs whole fraction : List Char} {d e : Decimal}

theorem ofParts?_eq_some_iff :
    ofParts? m s = some d ↔ d.negative = false ∧ d.mantissa = m ∧ d.scale = s := by
  unfold ofParts?
  constructor
  · intro h
    split at h
    · cases h
      exact ⟨rfl, rfl, rfl⟩
    · cases h
  · rintro ⟨hsign, rfl, rfl⟩
    rw [dif_pos ⟨d.mantissa_lt, d.scale_le⟩]
    cases d
    cases hsign
    rfl

theorem ofParts?_eq_none_iff : ofParts? m s = none ↔ mantissaBound ≤ m ∨ maxScale < s := by
  simp only [ofParts?, dite_eq_right_iff, reduceCtorEq, imp_false]
  omega

theorem mantissaBound_le_of_ofParts? (hs : s ≤ maxScale) (h : ofParts? m s = none) :
    mantissaBound ≤ m :=
  (ofParts?_eq_none_iff.1 h).resolve_right (Nat.not_lt.2 hs)

theorem ofParts?_self (h : d.negative = false) : ofParts? d.mantissa d.scale = some d :=
  ofParts?_eq_some_iff.2 ⟨h, rfl, rfl⟩

theorem digitValue_lt {c : Char} (h : c.isDigit = true) : digitValue c < 10 := by
  have hcode : 0x30 ≤ c.toNat ∧ c.toNat ≤ 0x39 := by
    simpa [Char.isDigit, UInt32.le_iff_toNat_le] using h
  have hzero : '0'.toNat = 0x30 := rfl
  rw [digitValue, hzero]
  omega

theorem le_ofDigitChars (m : Nat) (cs : List Char) : m ≤ Nat.ofDigitChars 10 cs m := by
  rw [Nat.ofDigitChars_eq_ofDigitChars_zero]
  exact Nat.le_add_right_of_le (Nat.le_mul_of_pos_left m (Nat.pow_pos (by decide)))

theorem readWhole?_eq (h : d.negative = false) :
    readWhole? d cs = ofParts? (Nat.ofDigitChars 10 cs d.mantissa) d.scale := by
  induction cs generalizing d with
  | nil => exact (ofParts?_self h).symm
  | cons c cs ih =>
    rw [readWhole?, Nat.ofDigitChars_cons]
    cases he : ofParts? (10 * d.mantissa + digitValue c) d.scale with
    | some e =>
      obtain ⟨hsign, hmantissa, hscale⟩ := ofParts?_eq_some_iff.1 he
      rw [Option.bind_some, ih hsign, hmantissa, hscale]
      rfl
    | none =>
      -- the digits that follow make the number no smaller
      have hfull := mantissaBound_le_of_ofParts? d.scale_le he
      have hle := le_ofDigitChars (10 * d.mantissa + digitValue c) cs
      exact (ofParts?_eq_none_iff.2 (.inl (Nat.le_trans hfull hle))).symm

theorem round?_cases (h : d.round? k = some e) :
    (k < 5 ∧ e = d) ∨ (5 ≤ k ∧ ofParts? (d.mantissa + 1) d.scale = some e) ∨
    (5 ≤ k ∧ mantissaBound ≤ d.mantissa + 1 ∧ d.scale ≠ 0 ∧
      ofParts? ((d.mantissa + 1 + 4) / 10) (d.scale - 1) = some e) := by
  unfold round? at h
  split at h
  · exact .inl ⟨‹_›, (Option.some.inj h).symm⟩
  · rename_i hup
    rcases Option.or_eq_some_iff.1 h with hfits | ⟨hnone, h⟩
    · exact .inr (.inl ⟨Nat.le_of_not_lt hup, hfits⟩)
    · have hfull := mantissaBound_le_of_ofParts? d.scale_le hnone
      split at h
      · cases h
      · exact .inr (.inr ⟨Nat.le_of_not_lt hup, hfull, ‹_›, h⟩)

theorem readFraction?_cons (d : Decimal) (c : Char) (cs : List Char) :
    (∃ e : Decimal, e.negative = false ∧ e.mantissa = 10 * d.mantissa + digitValue c ∧
      e.scale = d.scale + 1 ∧ readFraction? d (c :: cs) = readFraction? e cs) ∨
    ((mantissaBound ≤ 10 * d.mantissa + digitValue c ∨ maxScale < d.scale + 1) ∧
      readFraction? d (c :: cs) = d.round? (digitValue c)) := by
  rw [readFraction?]
  cases he : ofParts? (10 * d.mantissa + digitValue c) (d.scale + 1) with
  | some e =>
    obtain ⟨hsign, hmantissa, hscale⟩ := ofParts?_eq_some_iff.1 he
    exact .inl ⟨e, hsign, hmantissa, hscale, rfl⟩
  | none => exact .inr ⟨ofParts?_eq_none_iff.1 he, rfl⟩

theorem unsigned_of_round? (hd : d.negative = false) (h : d.round? k = some e) :
    e.negative = false := by
  rcases round?_cases h with ⟨-, rfl⟩ | ⟨-, he⟩ | ⟨-, -, -, he⟩
  · exact hd
  · exact (ofParts?_eq_some_iff.1 he).1
  · exact (ofParts?_eq_some_iff.1 he).1

theorem unsigned_of_readFraction? (hd : d.negative = false) (h : readFraction? d cs = some e) :
    e.negative = false := by
  induction cs generalizing d with
  | nil =>
    cases h
    exact hd
  | cons c cs ih =>
    rcases readFraction?_cons d c cs with ⟨f, hsign, -, -, hread⟩ | ⟨-, hread⟩
    · exact ih hsign (hread.symm.trans h)
    · exact unsigned_of_round? hd (hread.symm.trans h)

theorem ofDigits?_eq (whole fraction : List Char) : ofDigits? whole fraction =
    (ofParts? (Nat.ofDigitChars 10 whole 0) 0).bind fun d => readFraction? d fraction := by
  rw [ofDigits?, readWhole?_eq rfl]
  rfl

theorem ofDigits?_eq_some (h : ofDigits? whole fraction = some e) :
    ∃ d : Decimal, d.negative = false ∧ d.mantissa = Nat.ofDigitChars 10 whole 0 ∧ d.scale = 0 ∧
      readFraction? d fraction = some e := by
  rw [ofDigits?_eq] at h
  obtain ⟨d, hparts, hfraction⟩ := Option.bind_eq_some_iff.1 h
  obtain ⟨hsign, hmantissa, hscale⟩ := ofParts?_eq_some_iff.1 hparts
  exact ⟨d, hsign, hmantissa, hscale, hfraction⟩

theorem unsigned_of_ofDigits? (h : ofDigits? whole fraction = some e) : e.negative = false := by
  obtain ⟨d, hsign, -, -, hfraction⟩ := ofDigits?_eq_some h
  exact unsigned_of_readFraction? hsign hfraction

/-- Digits that all have room are kept as they are, trailing zeros included. -/
theorem readFraction?_of_fits (hd : d.negative = false)
    (h : ofParts? (Nat.ofDigitChars 10 cs d.mantissa) (d.scale + cs.length) = some e) :
    readFraction? d cs = some e := by
  induction cs generalizing d with
  | nil => exact (ofParts?_self hd).symm.trans h
  | cons c cs ih =>
    rw [Nat.ofDigitChars_cons, List.length_cons] at h
    rcases readFraction?_cons d c cs with ⟨f, hsign, hmantissa, hscale, hread⟩ | ⟨hfull, -⟩
    · rw [hread]
      apply ih hsign
      rw [hmantissa, hscale, Nat.add_right_comm]
      exact h
    · -- the number that is denoted has room, and so has every part of it
      obtain ⟨-, hmantissa, hscale⟩ := ofParts?_eq_some_iff.1 h
      have hle : 10 * d.mantissa + digitValue c ≤ _ := le_ofDigitChars _ cs
      have hlt := hmantissa ▸ e.mantissa_lt
      have hroom := hscale ▸ e.scale_le
      rcases hfull with hfull | hfull
      · exact absurd (Nat.lt_of_le_of_lt (Nat.le_trans hfull hle) hlt) (Nat.lt_irrefl _)
      · omega

theorem ofDigits?_of_fits (hd : d.negative = false)
    (hmantissa : Nat.ofDigitChars 10 (whole ++ fraction) 0 = d.mantissa)
    (hscale : fraction.length = d.scale) : ofDigits? whole fraction = some d := by
  rw [Nat.ofDigitChars_append] at hmantissa
  have hle := le_ofDigitChars (Nat.ofDigitChars 10 whole 0) fraction
  cases hparts : ofParts? (Nat.ofDigitChars 10 whole 0) 0 with
  | none =>
    have hlt := d.mantissa_lt
    have hfull := mantissaBound_le_of_ofParts? (Nat.zero_le _) hparts
    omega
  | some e =>
    obtain ⟨hsign, hwhole, hzero⟩ := ofParts?_eq_some_iff.1 hparts
    rw [ofDigits?_eq, hparts, Option.bind_some]
    apply readFraction?_of_fits hsign
    rw [hwhole, hzero, Nat.zero_add, hmantissa, hscale]
    exact ofParts?_self hd

end Reading

section Writing

theorem digits_all_isDigit (d : Decimal) : d.digits.all Char.isDigit = true := by
  rw [List.all_eq_true]
  intro c hc
  rw [Decimal.digits, List.leftpad, List.mem_append, List.mem_replicate] at hc
  rcases hc with ⟨-, rfl⟩ | hc
  · rfl
  · exact Nat.isDigit_of_mem_toDigits (by decide) (by decide) hc

theorem ofDigitChars_digits (d : Decimal) : Nat.ofDigitChars 10 d.digits 0 = d.mantissa := by
  rw [Decimal.digits, List.leftpad, Nat.ofDigitChars_append, Nat.ofDigitChars_replicate_zero,
    Nat.mul_zero, Nat.ofDigitChars_toDigits (by decide) (by decide)]

theorem scale_lt_length_digits (d : Decimal) : d.scale < d.digits.length := by
  rw [Decimal.digits, List.length_leftpad]
  omega

theorem toChars_eq {d : Decimal} (h : d.negative = false) : ∃ whole fraction,
    d.toChars = (if d.scale = 0 then whole else whole ++ '.' :: fraction) ∧
    whole ≠ [] ∧ whole.all Char.isDigit = true ∧ fraction.all Char.isDigit = true ∧
    fraction.length = d.scale ∧ Nat.ofDigitChars 10 (whole ++ fraction) 0 = d.mantissa := by
  have hlength := scale_lt_length_digits d
  have hall := List.all_eq_true.1 (digits_all_isDigit d)
  refine ⟨d.digits.take (d.digits.length - d.scale), d.digits.drop (d.digits.length - d.scale),
    ?_, ?_, ?_, ?_, ?_, ?_⟩
  · simp [Decimal.toChars, h]
  · apply List.ne_nil_of_length_pos
    rw [List.length_take]
    omega
  · exact List.all_eq_true.2 fun c hc => hall c (List.mem_of_mem_take hc)
  · exact List.all_eq_true.2 fun c hc => hall c (List.mem_of_mem_drop hc)
  · rw [List.length_drop]
    omega
  · rw [List.take_append_drop, ofDigitChars_digits]

end Writing

end FieldFormula.Decimal
