import FieldFormula.Proofs.Compilation.Stages
import FieldFormula.Proofs.Decimal.Rounding
import FieldFormula.Proofs.Token.Joining

/-!
Number literals, in their place and as formulas of their own. Main statements: a literal is rejected
only if it is too large, and otherwise rounded to the last digit that it keeps (`number_rounded`);
what is written for a number is read back as it is (`printed_number_read_back`); and the text of a
formula that is one number, in either target, denotes the number that is written exactly if some
mantissa and scale within the bounds denote it (`number_kept_iff`), for a longer fraction is rounded
without an error (`long_fraction_rounded`).
-/
namespace FieldFormula
open Token (numberText fractionDigits)

def numeralValue? (text : String) : Option ℚ :=
  let whole := text.toList.takeWhile Char.isDigit
  let rest := text.toList.dropWhile Char.isDigit
  if whole ≠ [] ∧ (rest = [] ∨ rest.head? = some '.' ∧ rest.tail ≠ []) ∧
      rest.tail.all Char.isDigit = true then
    some (Decimal.literalValue whole rest.tail)
  else none

structure Numeral (text : String) (whole fraction : List Char) : Prop where
  nonempty : whole ≠ []
  whole_digits : whole.all Char.isDigit = true
  fraction_digits : fraction.all Char.isDigit = true
  chars : text.toList = numberText whole fraction

/-- The number at the head of a text ends where `rest` begins. -/
structure EndsNumber (text : String) (rest : List Char) : Prop where
  digit : ∀ c ∈ rest.head?, c.isDigit = false
  point : '.' ∉ text.toList → fractionDigits rest = []

theorem endsNumber_nil (text : String) : EndsNumber text [] := by
  constructor
  · intro c hc
    cases hc
  · intro _
    rfl

theorem exists_numeral {text : String} {v : ℚ} (h : numeralValue? text = some v) :
    ∃ whole fraction, Numeral text whole fraction ∧ v = Decimal.literalValue whole fraction := by
  have hsplit := List.takeWhile_append_dropWhile (p := Char.isDigit) (l := text.toList)
  unfold numeralValue? at h
  dsimp only at h
  split at h
  · rename_i hform
    obtain ⟨hne, hrest, hdigits⟩ := hform
    refine ⟨_, _, ⟨hne, List.all_takeWhile, hdigits, ?_⟩, (Option.some.inj h).symm⟩
    rcases hrest with hnil | ⟨hpoint, htail⟩
    · rw [hnil, List.append_nil] at hsplit
      rw [hnil, hsplit]
      rfl
    · obtain ⟨tail, hcons⟩ := List.head?_eq_some_iff.1 hpoint
      rw [hcons, List.tail_cons] at htail
      rw [hcons, List.tail_cons, numberText, if_neg (by simpa using htail), ← hcons, hsplit]
  · cases h

namespace Numeral
variable {text : String} {whole fraction rest : List Char} {d : Decimal}

theorem split (h : Numeral text whole fraction) :
    text.toList.takeWhile Char.isDigit = whole ∧
      text.toList.dropWhile Char.isDigit = if fraction = [] then [] else '.' :: fraction := by
  have htext : text.toList = whole ++ if fraction = [] then [] else '.' :: fraction := by
    rw [h.chars, numberText]
    cases fraction with
    | nil => exact (List.append_nil whole).symm
    | cons c cs => rfl
  have hend : ∀ c ∈ (if fraction = [] then [] else '.' :: fraction).head?, c.isDigit = false := by
    intro c hc
    split at hc <;> cases hc
    rfl
  have htake := Text.takeWhile_append_eq_left.2 ⟨h.whole_digits, hend⟩
  rw [htext]
  exact ⟨htake, Text.dropWhile_of_takeWhile htake⟩

theorem value_eq (h : Numeral text whole fraction) :
    numeralValue? text = some (Decimal.literalValue whole fraction) := by
  obtain ⟨hwhole, hrest⟩ := h.split
  simp only [numeralValue?, hwhole, hrest]
  cases fraction with
  | nil => exact if_pos ⟨h.nonempty, .inl rfl, rfl⟩
  | cons c cs => exact if_pos ⟨h.nonempty, .inr ⟨rfl, List.cons_ne_nil c cs⟩, h.fraction_digits⟩

theorem head_digit (h : Numeral text whole fraction) :
    ∃ c cs, text.toList = c :: cs ∧ c.isDigit = true := by
  obtain ⟨c, cs, hwhole⟩ := List.exists_cons_of_ne_nil h.nonempty
  have hprefix := List.takeWhile_prefix Char.isDigit (l := text.toList)
  rw [h.split.1, hwhole] at hprefix
  obtain ⟨rest, hrest⟩ := hprefix
  exact ⟨c, cs ++ rest, hrest.symm, List.all_eq_true.1 h.whole_digits c (by simp [hwhole])⟩

theorem digits_append (h : Numeral text whole fraction) (hrest : EndsNumber text rest) :
    (text.toList ++ rest).takeWhile Char.isDigit = whole ∧
      fractionDigits ((text.toList ++ rest).dropWhile Char.isDigit) = fraction := by
  cases fraction with
  | nil =>
    have htext : text.toList = whole := h.chars
    have hpoint : '.' ∉ text.toList := by
      intro hmem
      cases List.all_eq_true.1 h.whole_digits '.' (htext ▸ hmem)
    have htake := Text.takeWhile_append_eq_left.2 ⟨h.whole_digits, hrest.digit⟩
    rw [htext, htake, Text.dropWhile_of_takeWhile htake]
    exact ⟨rfl, hrest.point hpoint⟩
  | cons c cs =>
    have htext : text.toList ++ rest = whole ++ '.' :: (c :: cs ++ rest) := by
      rw [h.chars, numberText, if_neg (by simp), List.append_assoc, List.cons_append]
    have htake : (whole ++ '.' :: (c :: cs ++ rest)).takeWhile Char.isDigit = whole :=
      Text.takeWhile_append_eq_left.2 ⟨h.whole_digits, fun c hc => by cases hc; rfl⟩
    rw [htext, htake, Text.dropWhile_of_takeWhile htake]
    exact ⟨rfl, Text.takeWhile_append_eq_left.2 ⟨h.fraction_digits, hrest.digit⟩⟩

theorem read_append (h : Numeral text whole fraction) (hrest : EndsNumber text rest) :
    Token.read (text.toList ++ rest) = (Decimal.ofDigits? whole fraction).elim
      (.fail (.invalidNumber text) text.toList.length)
      fun d => .ok (.literal (.number d)) text.toList.length := by
  obtain ⟨c, cs, htext, hdigit⟩ := h.head_digit
  obtain ⟨hwhole, hfraction⟩ := h.digits_append hrest
  have hread : Token.read (text.toList ++ rest) = Token.readNumber (text.toList ++ rest) := by
    rw [htext, List.cons_append, Token.read_number hdigit]
  rw [hread]
  simp only [Token.readNumber, hwhole, hfraction, ← h.chars, String.ofList_toList]
  cases Decimal.ofDigits? whole fraction <;> rfl

theorem next_eq (h : Numeral text whole fraction) (offset : Nat) (gap : List Char)
    (hgap : gap.all Text.isBlank = true) (hrest : EndsNumber text rest) :
    (⟨gap ++ (text.toList ++ rest), offset⟩ : Scanner).next.1 =
      (Decimal.ofDigits? whole fraction).elim
        (.error ⟨.invalidNumber text, offset + gap.length⟩)
        fun d => .ok ⟨.literal (.number d), text, offset + gap.length⟩ := by
  have hhead : ∀ c ∈ (text.toList ++ rest).head?, Text.isBlank c = false := by
    obtain ⟨c, cs, htext, hdigit⟩ := h.head_digit
    rw [htext]
    rintro _ ⟨⟩
    apply Bool.eq_false_iff.2
    intro hblank
    have hseparator : Text.isSeparator c = true := by simp [Text.isSeparator, hblank]
    rw [Text.isDigit_of_isSeparator hseparator] at hdigit
    cases hdigit
  rw [Scanner.next, Scanner.skipBlanks_gap offset hgap hhead]
  dsimp only
  rw [h.read_append hrest]
  cases Decimal.ofDigits? whole fraction with
  | none => rfl
  | some d => simp [Scanner.tokenAt, Reading.ok]

theorem tokenize_eq (h : Numeral text whole fraction) : tokenize text =
    (Decimal.ofDigits? whole fraction).elim (.error ⟨.invalidNumber text, 0⟩)
      fun d => .ok [⟨.literal (.number d), text, 0⟩, ⟨.eof, "", text.length⟩] := by
  have hread := h.read_append (endsNumber_nil text)
  have hnext := h.next_eq 0 [] rfl (endsNumber_nil text)
  rw [List.append_nil] at hread
  rw [List.append_nil, List.nil_append] at hnext
  cases hd : Decimal.ofDigits? whole fraction with
  | none =>
    rw [hd] at hnext
    exact Scanner.tokens_of_error hnext
  | some d =>
    rw [hd] at hread
    exact tokenize_of_read (by simp) hread

theorem tokenize_of_some (h : Numeral text whole fraction)
    (hd : Decimal.ofDigits? whole fraction = some d) : tokenize text =
      .ok [⟨.literal (.number d), text, 0⟩, ⟨.eof, "", text.length⟩] := by
  rw [h.tokenize_eq, hd]
  rfl

theorem exists_decimal (h : Numeral text whole fraction) {ts : List Token}
    (hts : tokenize text = .ok ts) : ∃ d, Decimal.ofDigits? whole fraction = some d := by
  rw [h.tokenize_eq] at hts
  cases hd : Decimal.ofDigits? whole fraction with
  | none =>
    rw [hd] at hts
    cases hts
  | some d => exact ⟨d, rfl⟩

end Numeral

theorem exists_numeral_toText {d : Decimal} (h : d.negative = false) :
    ∃ whole fraction, Numeral d.toText whole fraction ∧ fraction.length = d.scale ∧
      Nat.ofDigitChars 10 (whole ++ fraction) 0 = d.mantissa := by
  obtain ⟨whole, fraction, hchars, hne, hwhole, hfraction, hlength, hdigits⟩ :=
    Decimal.toChars_eq h
  have hempty : fraction.isEmpty = true ↔ d.scale = 0 := by
    rw [List.isEmpty_iff, ← List.length_eq_zero_iff, hlength]
  refine ⟨whole, fraction, ⟨hne, hwhole, hfraction, ?_⟩, hlength, hdigits⟩
  rw [Decimal.toText, String.toList_ofList, hchars, numberText]
  simp only [hempty]

theorem numeralValue?_toText {d : Decimal} (h : d.negative = false) :
    numeralValue? d.toText = some d.value := by
  obtain ⟨whole, fraction, hnumeral, hlength, hdigits⟩ := exists_numeral_toText h
  rw [hnumeral.value_eq, Decimal.value_of_unsigned h, Decimal.literalValue_eq, hdigits, hlength]

theorem tokenize_toText {d : Decimal} (h : d.negative = false) : tokenize d.toText =
    .ok [⟨.literal (.number d), d.toText, 0⟩, ⟨.eof, "", d.toText.length⟩] := by
  obtain ⟨whole, fraction, hnumeral, hlength, hdigits⟩ := exists_numeral_toText h
  exact hnumeral.tokenize_of_some (Decimal.ofDigits?_of_fits h hdigits hlength)

theorem compile_number (schema : Schema) (limit : Nat) (target : Target) {source : String}
    {d : Decimal} {position stop : Nat}
    (h : tokenize source = .ok [⟨.literal (.number d), source, position⟩, ⟨.eof, "", stop⟩]) :
    compile schema limit target source = .ok d.toText := by
  rw [compile_eq_map, analyze_of_tokenize h]
  cases target <;> rfl

/-- What is written for a number in either target is read back as the same number, with as many
digits behind the point, and written again as it is. -/
theorem printed_number_read_back {mantissa scale : Nat} (hmantissa : mantissa < 2 ^ 96)
    (hscale : scale ≤ 28) :
    let d : Decimal := ⟨false, mantissa, scale, hmantissa, hscale⟩
    tokenize d.toText =
        .ok [⟨.literal (.number d), d.toText, 0⟩, ⟨.eof, "", d.toText.length⟩] ∧
      ∀ (writer : Target) (types : TypeTable) (mark : Mark) (schema : Schema) (limit : Nat)
        (target : Target), let text := writer.generate types (.literal mark (.number d))
        compile schema limit target text = .ok text := by
  intro d
  have htokens : tokenize d.toText = _ := tokenize_toText rfl
  refine ⟨htokens, fun writer types mark schema limit target => ?_⟩
  have htext : writer.generate types (.literal mark (.number d)) = d.toText := by
    cases writer <;> rfl
  rw [htext]
  exact compile_number schema limit target htokens

theorem printed_number_read_back_largest :
    let text := "7.9228162514264337593543950335"
    let d : Decimal := ⟨false, 79228162514264337593543950335, 28, by decide, by decide⟩
    (d.mantissa < 2 ^ 96 ∧ d.scale ≤ 28) ∧ d.toText = text ∧
      tokenize text = .ok [⟨.literal (.number d), text, 0⟩, ⟨.eof, "", text.length⟩] ∧
      compile .empty 0 .script text = .ok text := by
  intro text d
  have hmantissa : d.mantissa < 2 ^ 96 := by decide
  have hscale : d.scale ≤ 28 := by decide
  have htext : d.toText = text := by decide +kernel
  obtain ⟨htokens, hcompile⟩ := printed_number_read_back hmantissa hscale
  rw [htext] at htokens
  have hscript : compile .empty 0 .script d.toText = .ok d.toText :=
    hcompile .sql .empty ⟨0, 0⟩ .empty 0 .script
  rw [htext] at hscript
  exact ⟨⟨hmantissa, hscale⟩, htext, htokens, hscript⟩

/-- A literal is rejected only if it is too large, and otherwise rounded to the nearest decimal of
the scale that it is given, wherever it stands. -/
theorem number_rounded (offset : Nat) {text : String} {v : ℚ} {gap rest : List Char}
    (hv : numeralValue? text = some v) (hgap : gap.all Text.isBlank = true)
    (hrest : EndsNumber text rest) :
    let answer := (⟨gap ++ (text.toList ++ rest), offset⟩ : Scanner).next.1
    (answer = .error ⟨.invalidNumber text, offset + gap.length⟩ ↔ 2 ^ 96 - 1 / 2 ≤ v) ∧
      (tokenize text = .error ⟨.invalidNumber text, 0⟩ ↔ 2 ^ 96 - 1 / 2 ≤ v) ∧
      (v < 2 ^ 96 - 1 / 2 → ∃ d : Decimal,
        answer = .ok ⟨.literal (.number d), text, offset + gap.length⟩ ∧
        tokenize text = .ok [⟨.literal (.number d), text, 0⟩, ⟨.eof, "", text.length⟩] ∧
        d.negative = false ∧ d.mantissa < 2 ^ 96 ∧ d.scale ≤ 28 ∧
        |d.value - v| ≤ 1 / 10 ^ d.scale / 2) := by
  intro answer
  obtain ⟨whole, fraction, hnumeral, rfl⟩ := exists_numeral hv
  have hanswer : answer = _ := hnumeral.next_eq offset gap hgap hrest
  have hlarge := Decimal.ofDigits?_eq_none_iff whole hnumeral.fraction_digits
  rw [Decimal.cast_mantissaBound] at hlarge
  rw [hanswer, hnumeral.tokenize_eq, ← hlarge, ← not_le, ← hlarge]
  cases hd : Decimal.ofDigits? whole fraction with
  | none => simp
  | some d =>
    have hsign := Decimal.unsigned_of_ofDigits? hd
    refine ⟨by simp, by simp, fun _ => ⟨d, rfl, rfl, hsign, d.mantissa_lt, d.scale_le,
      Decimal.near_of_ofDigits? hnumeral.fraction_digits hd⟩⟩

/-- Rounding up carries into a digit that has no room, so the scale is one less; and the first
number that would round to the bound of mantissas is rejected. -/
theorem number_rounded_carry :
    let text := "7.92281625142643375935439503359"
    let large := "79228162514264337593543950335.5"
    let v : ℚ := 792281625142643375935439503359 / 10 ^ 29
    numeralValue? text = some v ∧ numeralValue? large = some (2 ^ 96 - 1 / 2) ∧
      (∃ d : Decimal,
        (⟨" 7.92281625142643375935439503359 + 1".toList, 0⟩ : Scanner).next.1 =
          .ok ⟨.literal (.number d), text, 1⟩ ∧
        d.mantissa < 2 ^ 96 ∧ d.scale ≤ 28 ∧ |d.value - v| ≤ 1 / 10 ^ d.scale / 2) ∧
      tokenize large = .error ⟨.invalidNumber large, 0⟩ := by
  intro text large v
  have hv : numeralValue? text = some v := by decide +kernel
  have hlarge : numeralValue? large = some (2 ^ 96 - 1 / 2) := by decide +kernel
  have hends : EndsNumber text " + 1".toList := by
    constructor
    · rintro c ⟨⟩
      rfl
    · intro _
      rfl
  have hblank : [' '].all Text.isBlank = true := rfl
  have hsource : " 7.92281625142643375935439503359 + 1".toList =
      [' '] ++ (text.toList ++ " + 1".toList) := by
    decide +kernel
  have hfits : v < 2 ^ 96 - 1 / 2 := by norm_num [v]
  obtain ⟨-, -, hrounded⟩ := number_rounded 0 hv hblank hends
  obtain ⟨d, hanswer, -, -, hmantissa, hscale, hnear⟩ := hrounded hfits
  obtain ⟨-, hrejected, -⟩ := number_rounded 0 hlarge List.all_nil (endsNumber_nil large)
  rw [hsource]
  exact ⟨hv, hlarge, ⟨d, hanswer, hmantissa, hscale, hnear⟩, hrejected.2 le_rfl⟩

theorem number_kept_iff (schema : Schema) (limit : Nat) (target : Target) {source : String} {v : ℚ}
    {ts : List Token} (hv : numeralValue? source = some v) (hts : tokenize source = .ok ts) :
    ∃ text w, compile schema limit target source = .ok text ∧ numeralValue? text = some w ∧
      (w = v ↔ Decimal.Representable v) := by
  obtain ⟨whole, fraction, hnumeral, rfl⟩ := exists_numeral hv
  obtain ⟨d, hd⟩ := hnumeral.exists_decimal hts
  have hcompile := compile_number schema limit target (hnumeral.tokenize_of_some hd)
  exact ⟨d.toText, d.value, hcompile, numeralValue?_toText (Decimal.unsigned_of_ofDigits? hd),
    Decimal.value_ofDigits?_iff hd hnumeral.fraction_digits⟩

theorem number_kept_largest :
    let source := "79228162514264337593543950335.0"
    numeralValue? source = some 79228162514264337593543950335 ∧
      ∃ text, compile .empty 0 .script source = .ok text ∧
        numeralValue? text = some 79228162514264337593543950335 := by
  intro source
  have hv : numeralValue? source = some 79228162514264337593543950335 := by
    decide +kernel
  let d : Decimal := ⟨false, 79228162514264337593543950335, 0, by decide, by decide⟩
  have hts : tokenize source = .ok [⟨.literal (.number d), source, 0⟩, ⟨.eof, "", 31⟩] := by
    decide +kernel
  have hrepresentable : Decimal.Representable 79228162514264337593543950335 :=
    ⟨79228162514264337593543950335, 0, by decide, by decide, by norm_num⟩
  obtain ⟨text, w, hcompile, hw, hkept⟩ := number_kept_iff .empty 0 .script hv hts
  rw [hkept.2 hrepresentable] at hw
  exact ⟨hv, text, hcompile, hw⟩

/-- The twenty-ninth digit behind the point is lost, although the formula is accepted. -/
theorem long_fraction_rounded :
    let source := "0.00000000000000000000000000001"
    compile .empty 64 .sql source = .ok "0.0000000000000000000000000000" ∧
      compile .empty 64 .script source = .ok "0.0000000000000000000000000000" ∧
      numeralValue? "0.0000000000000000000000000000" ≠ numeralValue? source := by
  decide +kernel

end FieldFormula
