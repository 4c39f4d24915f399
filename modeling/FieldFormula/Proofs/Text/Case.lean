import FieldFormula.Text.Case
import FieldFormula.Text.Numeral

/-!
Names in another case. Texts that differ in ASCII case only have the same capitals, and the
characters of one can stand in a name where those of the other can.
-/
namespace FieldFormula.Text

/-- The codes of the only characters that have another case. -/
def casedCodes : List Nat := List.range' 0x41 26 ++ List.range' 0x61 26

theorem caseless_or_cased (c : Char) :
    c.toLower = c ∧ c.toUpper = c ∨ c.toNat ∈ casedCodes := by
  have hmem : c.toNat ∈ casedCodes ↔
      0x41 ≤ c.toNat ∧ c.toNat ≤ 0x5A ∨ 0x61 ≤ c.toNat ∧ c.toNat ≤ 0x7A := by
    rw [casedCodes, List.mem_append, List.mem_range'_1, List.mem_range'_1]
    omega
  by_cases h : c.toNat ∈ casedCodes
  · exact .inr h
  · rw [hmem] at h
    refine .inl ⟨dif_neg fun hc => h ?_, dif_neg fun hc => h ?_⟩
    · exact .inl ⟨UInt32.le_iff_toNat_le.1 hc.1, UInt32.le_iff_toNat_le.1 hc.2⟩
    · exact .inr ⟨UInt32.le_iff_toNat_le.1 hc.1, UInt32.le_iff_toNat_le.1 hc.2⟩

theorem case_of_mem {c : Char} (h : c.toNat ∈ casedCodes) :
    c.toUpper.toUpper = c.toUpper ∧ c.toLower.toUpper = c.toUpper ∧
      isLetter c.toLower = true ∧ isLetter c = true := by
  have hall : (casedCodes.map Char.ofNat).all (fun c => c.toUpper.toUpper = c.toUpper ∧
      c.toLower.toUpper = c.toUpper ∧ isLetter c.toLower = true ∧ isLetter c = true) = true := by
    decide +kernel
  have hc := List.all_eq_true.1 hall _ (List.mem_map_of_mem h)
  rw [Char.ofNat_toNat] at hc
  exact of_decide_eq_true hc

theorem toUpper_toUpper (c : Char) : c.toUpper.toUpper = c.toUpper := by
  rcases caseless_or_cased c with ⟨-, hupper⟩ | h
  · rw [hupper, hupper]
  · exact (case_of_mem h).1

theorem toUpper_toLower (c : Char) : c.toLower.toUpper = c.toUpper := by
  rcases caseless_or_cased c with ⟨hlower, -⟩ | h
  · rw [hlower]
  · exact (case_of_mem h).2.1

@[simp] theorem upper_upper (s : String) : upper (upper s) = upper s := by
  rw [upper, upper, String.toList_ofList, List.map_map]
  exact congrArg String.ofList (List.map_congr_left fun c _ => toUpper_toUpper c)

@[simp] theorem upper_lower (s : String) : upper (lower s) = upper s := by
  rw [upper, lower, String.toList_ofList, List.map_map, upper]
  exact congrArg String.ofList (List.map_congr_left fun c _ => toUpper_toLower c)

theorem upper_eq_of_lower_eq {s s' : String} (h : lower s = lower s') : upper s = upper s' := by
  rw [← upper_lower s, h, upper_lower]

theorem isNameStart_toLower (c : Char) : isNameStart c.toLower = isNameStart c := by
  rcases caseless_or_cased c with ⟨hlower, -⟩ | h
  · rw [hlower]
  · obtain ⟨-, -, hlower, hc⟩ := case_of_mem h
    simp [isNameStart, hlower, hc]

theorem isNamePart_toLower (c : Char) : isNamePart c.toLower = isNamePart c := by
  rcases caseless_or_cased c with ⟨hlower, -⟩ | h
  · rw [hlower]
  · obtain ⟨-, -, hlower, hc⟩ := case_of_mem h
    simp [isNamePart, hlower, hc]

theorem all_isNamePart_toLower (cs : List Char) :
    (cs.map Char.toLower).all isNamePart = cs.all isNamePart := by
  rw [List.all_map]
  exact congrArg cs.all (funext isNamePart_toLower)

end FieldFormula.Text
