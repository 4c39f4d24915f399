import FieldFormula.Proofs.Text.Case
import FieldFormula.Proofs.Token.Coverage
import Mathlib.Tactic.SplitIfs

/-!
A token does not see what a separator keeps apart from it. Main statement: a text reads as the same
token before any text that starts with a blank or a semicolon (`Token.read_after`).
-/
namespace FieldFormula

namespace Text

theorem exists_range {ranges : List (Nat × Nat)} {n : Nat} (h : inRanges ranges n = true) :
    ∃ r ∈ ranges, r.1 ≤ n ∧ n ≤ r.2 := by
  induction ranges with
  | nil => cases h
  | cons r ranges ih =>
    simp only [inRanges, Bool.and_eq_true, Bool.or_eq_true, decide_eq_true_eq] at h
    rcases h.2 with hlast | hothers
    · exact ⟨r, List.mem_cons_self, h.1, hlast⟩
    · obtain ⟨r', hr', hn⟩ := ih hothers
      exact ⟨r', List.mem_cons_of_mem r hr', hn⟩

theorem inRanges_eq_false {ranges others : List (Nat × Nat)} {n : Nat}
    (hapart : (ranges.all fun r => others.all fun r' => r.2 < r'.1 || r'.2 < r.1) = true)
    (h : inRanges ranges n = true) : inRanges others n = false := by
  apply Bool.eq_false_iff.2
  intro hothers
  obtain ⟨r, hr, hn⟩ := exists_range h
  obtain ⟨r', hr', hn'⟩ := exists_range hothers
  have hdisjoint := List.all_eq_true.1 (List.all_eq_true.1 hapart r hr) r' hr'
  simp only [Bool.or_eq_true, decide_eq_true_eq] at hdisjoint
  omega

/-- Blanks and semicolons end every token before them. -/
def isSeparator (c : Char) : Bool := isBlank c || c == ';'

theorem isNamePart_of_isSeparator {c : Char} (h : isSeparator c = true) : isNamePart c = false := by
  simp only [isSeparator, Bool.or_eq_true, beq_iff_eq] at h
  rcases h with h | rfl
  · have hletter : isLetter c = false := inRanges_eq_false (by decide +kernel) h
    have hnumeral : isNumeral c = false := inRanges_eq_false (by decide +kernel) h
    have hne : c ≠ '_' := by
      rintro rfl
      exact absurd h (by decide)
    simp [isNamePart, hletter, hnumeral, hne]
  · decide +kernel

theorem isNamePart_of_isDigit {c : Char} (h : c.isDigit = true) : isNamePart c = true := by
  have hranges : numeralRanges = (0x30, 0x39) :: numeralRanges.drop 1 := rfl
  have hcode : 0x30 ≤ c.toNat ∧ c.toNat ≤ 0x39 := by
    simpa [Char.isDigit, UInt32.le_iff_toNat_le] using h
  have hnumeral : isNumeral c = true := by
    rw [isNumeral, hranges, inRanges]
    simp only [Bool.and_eq_true, Bool.or_eq_true, decide_eq_true_eq]
    exact ⟨hcode.1, .inl hcode.2⟩
  simp [isNamePart, hnumeral]

theorem isDigit_of_isSeparator {c : Char} (h : isSeparator c = true) : c.isDigit = false := by
  apply Bool.eq_false_iff.2
  intro hdigit
  have hpart := isNamePart_of_isDigit hdigit
  rw [isNamePart_of_isSeparator h] at hpart
  cases hpart

def Parted (cs : List Char) : Prop := ∀ c ∈ cs.head?, isSeparator c = true

/-- No token that ends before `rest` can go on in `rest'`. -/
def Behind (rest rest' : List Char) : Prop :=
  Parted rest' ∨ ∃ more, rest' = rest ++ more ∧ Parted more

theorem Behind.head? {rest rest' : List Char} {p : Char → Bool} (h : Behind rest rest')
    (hp : ∀ c, isSeparator c = true → p c = false) (hrest : ∀ c ∈ rest.head?, p c = false) :
    ∀ c ∈ rest'.head?, p c = false := by
  rcases h with h | ⟨more, rfl, h⟩
  · exact fun c hc => hp c (h c hc)
  · cases rest with
    | nil => exact fun c hc => hp c (h c hc)
    | cons d ds => exact hrest

theorem Behind.head?_ne {rest rest' : List Char} {d : Char} (h : Behind rest rest')
    (hd : isSeparator d = false) (hrest : rest.head? ≠ some d) : rest'.head? ≠ some d := by
  intro heq
  have hfalse := h.head? (p := (· == d)) (fun c hc => beq_eq_false_iff_ne.2 fun hcd => by
    rw [hcd, hd] at hc
    cases hc) (fun c hc => beq_eq_false_iff_ne.2 fun hcd => hrest (hcd ▸ hc)) d heq
  simp at hfalse

theorem takeWhile_eq_nil {p : Char → Bool} {cs : List Char} :
    cs.takeWhile p = [] ↔ ∀ c ∈ cs.head?, p c = false := by
  cases cs with
  | nil => simp
  | cons c cs => by_cases hc : p c = true <;> simp [hc]

theorem takeWhile_append_eq_left {p : Char → Bool} {text rest : List Char} :
    (text ++ rest).takeWhile p = text ↔ text.all p = true ∧ ∀ c ∈ rest.head?, p c = false := by
  induction text with
  | nil => simpa using takeWhile_eq_nil
  | cons c cs ih =>
    by_cases hc : p c = true
    · simp only [List.cons_append, List.takeWhile_cons, hc, if_true, List.cons.injEq, true_and, ih,
        List.all_cons, Bool.true_and]
    · simp [hc]

theorem dropWhile_of_takeWhile {p : Char → Bool} {text rest : List Char}
    (h : (text ++ rest).takeWhile p = text) : (text ++ rest).dropWhile p = rest := by
  have hsplit := List.takeWhile_append_dropWhile (p := p) (l := text ++ rest)
  rw [h] at hsplit
  exact List.append_cancel_left hsplit

theorem takeWhile_eq_of_length {p : Char → Bool} {text rest : List Char}
    (h : ((text ++ rest).takeWhile p).length = text.length) :
    (text ++ rest).takeWhile p = text := by
  have hprefix : (text ++ rest).takeWhile p <+: text :=
    List.prefix_of_prefix_length_le (List.takeWhile_prefix p) (List.prefix_append text rest)
      (Nat.le_of_eq h)
  exact hprefix.eq_of_length h

end Text

namespace Token
open Text
variable {c : Char} {text rest rest' : List Char} {k : Kind}

theorem readName_after (text : List Char)
    (h : (readName (text ++ rest)).length = text.length) (hrest : Behind rest rest') :
    readName (text ++ rest') = readName (text ++ rest) := by
  have htext := takeWhile_eq_of_length h
  obtain ⟨hall, hend⟩ := takeWhile_append_eq_left.1 htext
  have hend' := hrest.head? (fun c => isNamePart_of_isSeparator) hend
  rw [readName, readName, htext, takeWhile_append_eq_left.2 ⟨hall, hend'⟩]

theorem fractionDigits_eq_nil {cs : List Char} :
    fractionDigits cs = [] ↔ ∀ ds, cs = '.' :: ds → ∀ c ∈ ds.head?, c.isDigit = false := by
  unfold fractionDigits
  split
  · rename_i ds
    rw [takeWhile_eq_nil]
    exact ⟨fun h _ heq => by cases heq; exact h, fun h => h ds rfl⟩
  · rename_i hne
    exact ⟨fun _ ds heq => absurd heq (hne ds), fun _ => rfl⟩

theorem exists_of_fractionDigits {cs : List Char} (h : fractionDigits cs ≠ []) :
    ∃ ds, cs = '.' :: ds ∧ fractionDigits cs = ds.takeWhile Char.isDigit := by
  unfold fractionDigits at h ⊢
  split at h
  · rename_i ds
    exact ⟨ds, rfl, rfl⟩
  · exact absurd rfl h

theorem fractionDigits_of_parted {cs : List Char} (h : Parted cs) : fractionDigits cs = [] := by
  refine fractionDigits_eq_nil.2 ?_
  rintro ds rfl
  exact absurd (h '.' rfl) (by decide)

theorem fractionDigits_behind (h : fractionDigits rest = []) (hrest : Behind rest rest') :
    fractionDigits rest' = [] := by
  rcases hrest with hparted | ⟨more, rfl, hparted⟩
  · exact fractionDigits_of_parted hparted
  · cases rest with
    | nil => exact fractionDigits_of_parted hparted
    | cons d ds =>
      refine fractionDigits_eq_nil.2 ?_
      rintro _ ⟨⟩
      have hbehind : Behind ds (ds ++ more) := .inr ⟨more, rfl, hparted⟩
      exact hbehind.head? (fun c => isDigit_of_isSeparator) (fractionDigits_eq_nil.1 h ds rfl)

theorem length_readNumber (cs : List Char) : (readNumber cs).length = (numberText
    (cs.takeWhile Char.isDigit) (fractionDigits (cs.dropWhile Char.isDigit))).length := by
  unfold readNumber
  dsimp only
  split <;> rfl

theorem digits_of_readNumber (h : (readNumber (text ++ rest)).length = text.length) :
    (text.all Char.isDigit = true ∧ (∀ c ∈ rest.head?, c.isDigit = false) ∧
      fractionDigits rest = []) ∨
    ∃ whole fraction, text = whole ++ '.' :: fraction ∧ whole.all Char.isDigit = true ∧
      fraction.all Char.isDigit = true ∧ ∀ c ∈ rest.head?, c.isDigit = false := by
  rw [length_readNumber, numberText] at h
  split at h
  · rename_i hfraction
    have htext := takeWhile_eq_of_length h
    rw [dropWhile_of_takeWhile htext, List.isEmpty_iff] at hfraction
    obtain ⟨hall, hend⟩ := takeWhile_append_eq_left.1 htext
    exact .inl ⟨hall, hend, hfraction⟩
  · -- behind the whole digits stands a point, and the fraction ends where the text does
    rename_i hfraction
    rw [List.isEmpty_iff] at hfraction
    obtain ⟨ds, hds, hdigits⟩ := exists_of_fractionDigits hfraction
    have hsplit := List.takeWhile_append_dropWhile (p := Char.isDigit) (l := text ++ rest)
    have hfractions := List.takeWhile_append_dropWhile (p := Char.isDigit) (l := ds)
    have htext : text ++ rest = ((text ++ rest).takeWhile Char.isDigit ++
        '.' :: ds.takeWhile Char.isDigit) ++ ds.dropWhile Char.isDigit := by
      rw [List.append_assoc, List.cons_append, hfractions, ← hds, hsplit]
    rw [hdigits] at h
    obtain ⟨htext, hrest⟩ := List.append_inj htext h.symm
    refine .inr ⟨_, _, htext, List.all_takeWhile, List.all_takeWhile, ?_⟩
    rw [← hrest] at hfractions
    exact (takeWhile_append_eq_left.1 (congrArg (List.takeWhile Char.isDigit) hfractions)).2

theorem readNumber_after (text : List Char)
    (h : (readNumber (text ++ rest)).length = text.length) (hrest : Behind rest rest') :
    readNumber (text ++ rest') = readNumber (text ++ rest) := by
  have hparts : (text ++ rest').takeWhile Char.isDigit = (text ++ rest).takeWhile Char.isDigit ∧
      fractionDigits ((text ++ rest').dropWhile Char.isDigit) =
        fractionDigits ((text ++ rest).dropWhile Char.isDigit) := by
    obtain ⟨hall, hend, hfraction⟩ | ⟨whole, fraction, rfl, hwhole, hfraction, hend⟩ :=
      digits_of_readNumber h
    · have hend' := hrest.head? (fun c => isDigit_of_isSeparator) hend
      have htext := takeWhile_append_eq_left.2 ⟨hall, hend⟩
      have htext' := takeWhile_append_eq_left.2 ⟨hall, hend'⟩
      rw [htext, htext', dropWhile_of_takeWhile htext, dropWhile_of_takeWhile htext', hfraction]
      exact ⟨rfl, fractionDigits_behind hfraction hrest⟩
    · have hend' := hrest.head? (fun c => isDigit_of_isSeparator) hend
      have hsplit {ds : List Char} (hds : ∀ c ∈ ds.head?, c.isDigit = false) :
          (whole ++ '.' :: fraction ++ ds).takeWhile Char.isDigit = whole ∧
            fractionDigits ((whole ++ '.' :: fraction ++ ds).dropWhile Char.isDigit) =
              fraction := by
        have htake : (whole ++ '.' :: (fraction ++ ds)).takeWhile Char.isDigit = whole :=
          takeWhile_append_eq_left.2 ⟨hwhole, fun c hc => by cases hc; rfl⟩
        rw [List.append_assoc, List.cons_append, htake, dropWhile_of_takeWhile htake]
        exact ⟨rfl, takeWhile_append_eq_left.2 ⟨hfraction, hds⟩⟩
      rw [(hsplit hend).1, (hsplit hend).2, (hsplit hend').1, (hsplit hend').2]
      exact ⟨rfl, rfl⟩
  rw [readNumber, readNumber, hparts.1, hparts.2]

theorem exists_ok_of_map {α β : Type} {r : Reading α} {f : α → β} {b : β}
    (h : (r.map f).outcome = .ok b) : ∃ a, r.outcome = .ok a := by
  unfold Reading.map at h
  cases hr : r.outcome with
  | ok a => exact ⟨a, rfl⟩
  | error err =>
    rw [hr] at h
    cases h

section Quoted
variable {quote : Char} {taken : Nat} {cs value : List Char}

theorem readQuoted_quote (quote : Char) (taken : Nat) (cs : List Char) :
    readQuoted quote taken (quote :: cs) = .ok [] (taken + 1) := by
  rw [readQuoted.eq_def]
  simp

theorem readQuoted_plain (hquote : c ≠ quote) (hescape : c ≠ '\\') :
    readQuoted quote taken (c :: cs) = (readQuoted quote (taken + 1) cs).map (c :: ·) := by
  rw [readQuoted.eq_def]
  simp [hquote, hescape]

theorem readQuoted_escape {e : Char} (hquote : '\\' ≠ quote) (he : escape? e = some c) :
    readQuoted quote taken ('\\' :: e :: cs) = (readQuoted quote (taken + 2) cs).map (c :: ·) := by
  rw [readQuoted.eq_def]
  simp [hquote, he]

theorem lt_readQuoted_length (h : (readQuoted quote taken cs).outcome = .ok value) :
    taken < (readQuoted quote taken cs).length := by
  fun_induction readQuoted quote taken cs with
  | case1 => cases h
  | case2 => exact Nat.lt_succ_self _
  | case3 => cases h
  | case4 =>
    exact Nat.lt_of_lt_of_le (Nat.lt_add_of_pos_right (by decide)) (le_readQuoted_length ..)
  | case5 => cases h
  | case6 => exact Nat.lt_of_lt_of_le (Nat.lt_succ_self _) (le_readQuoted_length ..)

theorem readQuoted_after (h : (readQuoted quote taken (cs ++ rest)).outcome = .ok value)
    (hlength : (readQuoted quote taken (cs ++ rest)).length ≤ taken + cs.length) :
    readQuoted quote taken (cs ++ rest') = readQuoted quote taken (cs ++ rest) := by
  fun_induction readQuoted quote taken cs generalizing value with
  | case1 taken => exact absurd hlength (Nat.not_le_of_lt (lt_readQuoted_length h))
  | case2 taken cs => rw [List.cons_append, List.cons_append, readQuoted_quote, readQuoted_quote]
  | case3 taken hquote =>
    -- the backslash would need a character of `rest`
    exfalso
    cases rest with
    | nil => simp [readQuoted, hquote, Reading.fail] at h
    | cons e ds =>
      cases he : escape? e with
      | none => simp [readQuoted, hquote, he] at h
      | some d =>
        have hle := le_readQuoted_length quote (taken + 2) ds
        rw [List.singleton_append, readQuoted_escape hquote he] at hlength
        simp only [Reading.map, List.length_singleton] at hlength
        omega
  | case4 taken e cs d he hquote ih =>
    rw [List.cons_append, List.cons_append, readQuoted_escape hquote he] at h hlength
    obtain ⟨tail, htail⟩ := exists_ok_of_map h
    simp only [Reading.map, List.length_cons] at hlength
    have hrest := ih htail (by omega)
    rw [List.cons_append, List.cons_append, List.cons_append, List.cons_append,
      readQuoted_escape hquote he, readQuoted_escape hquote he, hrest]
  | case5 taken e cs he hquote => simp [readQuoted, hquote, he] at h
  | case6 taken d cs hquote hescape ih =>
    rw [List.cons_append, readQuoted_plain hquote hescape] at h hlength
    obtain ⟨tail, htail⟩ := exists_ok_of_map h
    simp only [Reading.map, List.length_cons] at hlength
    have hrest := ih htail (by omega)
    rw [List.cons_append, List.cons_append, readQuoted_plain hquote hescape,
      readQuoted_plain hquote hescape, hrest]

end Quoted

theorem beforeBraces?_after {cs inner : List Char} (h : beforeBraces? (cs ++ rest) = some inner)
    (hlength : inner.length + 2 ≤ cs.length) : beforeBraces? (cs ++ rest') = some inner := by
  fun_induction beforeBraces? cs generalizing inner with
  | case1 => simp at hlength
  | case2 cs => exact h
  | case3 c cs hne ih =>
    cases cs with
    | nil =>
      simp at hlength
    | cons d ds =>
      have hcons (more : List Char) : beforeBraces? (c :: (d :: ds ++ more)) =
          (beforeBraces? (d :: ds ++ more)).map (c :: ·) :=
        beforeBraces?.eq_3 _ _ fun tail hc hd => hne ds hc (by cases hd; rfl)
      rw [List.cons_append, hcons] at h ⊢
      obtain ⟨tail, htail, rfl⟩ := Option.map_eq_some_iff.1 h
      rw [ih htail (by simpa using hlength), Option.map_some]

theorem readField_after {cs : List Char} (h : (readField (cs ++ rest)).outcome = .ok k)
    (hlength : (readField (cs ++ rest)).length = cs.length + 2) :
    readField (cs ++ rest') = readField (cs ++ rest) := by
  unfold readField at h hlength ⊢
  cases hinner : beforeBraces? (cs ++ rest) with
  | none =>
    rw [hinner] at h
    cases h
  | some inner =>
    simp only [hinner] at h hlength ⊢
    have hle : inner.length + 2 ≤ cs.length := by
      split at hlength <;> simp only [Reading.ok, Reading.fail] at hlength <;> omega
    rw [beforeBraces?_after hinner hle]

theorem readDate_after {cs : List Char} (h : (readDate (cs ++ rest)).outcome = .ok k)
    (hlength : (readDate (cs ++ rest)).length = cs.length + 1) :
    readDate (cs ++ rest') = readDate (cs ++ rest) := by
  have hlt : ((cs ++ rest).takeWhile (· != '#')).length < cs.length := by
    unfold readDate at h hlength
    dsimp only at h hlength
    split at h
    · cases h
    · rename_i hne
      rw [if_neg hne] at hlength
      split at hlength <;> simp only [Reading.ok, Reading.fail] at hlength <;> omega
  have hhash : (cs.takeWhile (· != '#')).length ≠ cs.length := by
    intro heq
    rw [List.takeWhile_append, if_pos heq, List.length_append] at hlt
    omega
  have htake (more : List Char) : (cs ++ more).takeWhile (· != '#') = cs.takeWhile (· != '#') := by
    rw [List.takeWhile_append, if_neg hhash]
  have hne (more : List Char) : (cs.takeWhile (· != '#')).length ≠ (cs ++ more).length := by
    rw [htake] at hlt
    rw [List.length_append]
    omega
  unfold readDate
  simp only [htake, hne, if_false]

theorem isSeparator_pair? {next : Char} {long short : Kind}
    (h : pair? c = some (next, long, short)) : isSeparator next = false := by
  unfold pair? at h
  split at h <;> cases h <;> decide

theorem readMark?_after {cs : List Char} {r : Reading Kind} (h : readMark? c (cs ++ rest) = some r)
    (hk : r.outcome = .ok k) (hlength : r.length = cs.length + 1) (hrest : Behind rest rest') :
    readMark? c (cs ++ rest') = some r := by
  cases cs with
  | cons d ds => exact h
  | nil =>
    -- a token of one character: the longer one does not stand here
    rw [List.nil_append] at h ⊢
    unfold readMark? at h ⊢
    split at h
    · exact h
    · split at h
      · rename_i next long short hpair
        cases h
        have hne : rest.head? ≠ some next := by
          intro heq
          rw [if_pos heq] at hlength
          cases hlength
        have hne' := hrest.head?_ne (isSeparator_pair? hpair) hne
        rw [if_neg hne, if_neg hne']
      · obtain ⟨kind, -, rfl⟩ := Option.map_eq_some_iff.1 h
        split at hlength
        · cases hlength
        · rename_i hne
          rw [if_neg hne] at hk
          cases hk

theorem two_le_readField_length (cs : List Char) : 2 ≤ (readField cs).length := by
  unfold readField
  split
  · exact Nat.le_add_left _ _
  · dsimp only
    split <;> simp only [Reading.ok, Reading.fail] <;> omega

def marks : List Char := ['+', '-', '*', '/', '%', '^', '(', ')', ',', ';', '&', '!', '>', '<', '=',
  '|', '\x7b', '#', '"', '\'']

theorem isNamePart_of_mem_marks (h : c ∈ marks) : isNamePart c = false := by
  have hall : (marks.all fun c => !isNamePart c) = true := by decide +kernel
  simpa using List.all_eq_true.1 hall c h

theorem isBlank_of_mem_marks (h : c ∈ marks) : isBlank c = false := by
  have hall : (marks.all fun c => !isBlank c) = true := by decide +kernel
  simpa using List.all_eq_true.1 hall c h

section Equations
variable {cs : List Char}

theorem mem_marks_of_readMark? {r : Reading Kind} (h : readMark? c cs = some r) : c ∈ marks := by
  unfold readMark? at h
  split at h
  · rename_i kind hkind
    unfold single? at hkind
    split at hkind <;> simp [marks] at hkind ⊢
  · split at h
    · rename_i next long short hpair
      unfold pair? at hpair
      split at hpair <;> simp [marks] at hpair ⊢
    · obtain ⟨kind, hkind, -⟩ := Option.map_eq_some_iff.1 h
      unfold doubled? at hkind
      split at hkind <;> simp [marks] at hkind ⊢

theorem read_mark {r : Reading Kind} (h : readMark? c cs = some r) : read (c :: cs) = r := by
  rw [read, h]

theorem read_field (cs : List Char) : read ('\x7b' :: '\x7b' :: cs) = readField cs := rfl

theorem read_date (cs : List Char) : read ('#' :: cs) = readDate cs := rfl

theorem read_quoted (h : c = '"' ∨ c = '\'') : read (c :: cs) =
    (readQuoted c 1 cs).map fun value => .literal (.text (String.ofList value)) := by
  rcases h with rfl | rfl <;> rfl

theorem read_of_not_mem_marks (h : c ∉ marks) : read (c :: cs) =
    if isNameStart c then readName (c :: cs)
    else if c.isDigit then readNumber (c :: cs) else .fail (.unexpectedChar c) 0 := by
  have hmark : readMark? c cs = none := by
    cases hr : readMark? c cs with
    | none => rfl
    | some r => exact absurd (mem_marks_of_readMark? hr) h
  have hne {d : Char} (hd : d ∈ marks) : c ≠ d := fun heq => h (heq ▸ hd)
  have hbrace : c ≠ '\x7b' := hne (by decide)
  have hhash : c ≠ '#' := hne (by decide)
  have hdouble : c ≠ '"' := hne (by decide)
  have hsingle : c ≠ '\'' := hne (by decide)
  simp only [read, hmark, hbrace, hhash, hdouble, hsingle, false_and, or_self, if_false]

theorem isNamePart_of_isNameStart (h : isNameStart c = true) : isNamePart c = true := by
  simp only [isNameStart, isNamePart, Bool.or_eq_true] at h ⊢
  rcases h with h | h
  · exact .inl (.inl h)
  · exact .inr h

theorem not_mem_marks (h : isNamePart c = true) : c ∉ marks := by
  intro hmem
  rw [isNamePart_of_mem_marks hmem] at h
  cases h

theorem read_name (h : isNameStart c = true) : read (c :: cs) = readName (c :: cs) := by
  rw [read_of_not_mem_marks (not_mem_marks (isNamePart_of_isNameStart h)), if_pos h]

theorem isNameStart_of_isDigit (h : c.isDigit = true) : isNameStart c = false := by
  have hranges : letterRanges = (0x41, 0x5A) :: letterRanges.drop 1 := rfl
  have hcode : c.toNat ≤ 0x39 := by
    have hbounds : 0x30 ≤ c.toNat ∧ c.toNat ≤ 0x39 := by
      simpa [Char.isDigit, UInt32.le_iff_toNat_le] using h
    exact hbounds.2
  have hletter : isLetter c = false := by
    rw [isLetter, hranges, inRanges, Bool.and_eq_false_iff]
    exact .inl (decide_eq_false (by omega))
  have hne : c ≠ '_' := by
    rintro rfl
    exact absurd h (by decide)
  simp [isNameStart, hletter, hne]

theorem read_number (h : c.isDigit = true) : read (c :: cs) = readNumber (c :: cs) := by
  rw [read_of_not_mem_marks (not_mem_marks (isNamePart_of_isDigit h)), isNameStart_of_isDigit h]
  simp [h]

theorem read_blank (h : isBlank c = true) : read (c :: cs) = .fail (.unexpectedChar c) 0 := by
  have hseparator : isSeparator c = true := by simp [isSeparator, h]
  have hmark : c ∉ marks := by
    intro hmem
    rw [isBlank_of_mem_marks hmem] at h
    cases h
  have hstart : isNameStart c = false := by
    apply Bool.eq_false_iff.2
    intro hstart
    have hpart := isNamePart_of_isNameStart hstart
    rw [isNamePart_of_isSeparator hseparator] at hpart
    cases hpart
  rw [read_of_not_mem_marks hmark, hstart, isDigit_of_isSeparator hseparator]
  rfl

theorem read_cons_cases (h : (read (c :: cs)).outcome = .ok k) :
    (∃ r, readMark? c cs = some r) ∨ (c = '\x7b' ∧ ∃ ds, cs = '\x7b' :: ds) ∨ c = '#' ∨
      (c = '"' ∨ c = '\'') ∨ isNameStart c = true ∨ c.isDigit = true := by
  cases hmark : readMark? c cs with
  | some r => exact .inl ⟨r, rfl⟩
  | none =>
    simp only [read, hmark] at h
    split at h
    · rename_i hbrace
      obtain ⟨ds, hds⟩ := List.head?_eq_some_iff.1 hbrace.2
      exact .inr (.inl ⟨hbrace.1, ds, hds⟩)
    · split at h
      · exact .inr (.inr (.inl ‹_›))
      · split at h
        · exact .inr (.inr (.inr (.inl ‹_›)))
        · split at h
          · exact .inr (.inr (.inr (.inr (.inl ‹_›))))
          · split at h
            · exact .inr (.inr (.inr (.inr (.inr ‹_›))))
            · cases h

end Equations

inductive Form where
  | mark | field | date | text | word | number | eof
  deriving DecidableEq, Repr

def Kind.form : Kind → Form
  | operator _ | bang | leftParen | rightParen | comma | semicolon => .mark
  | .field _ => .field
  | literal (.date _) => .date
  | literal (.text _) => .text
  | literal (.boolean _) | literal .null | conditional | identifier _ => .word
  | literal (.number _) => .number
  | .eof => .eof

def Form.Starts (c : Char) (cs : List Char) : Form → Prop
  | .mark => ∃ r, readMark? c cs = some r
  | .field => c = '\x7b' ∧ ∃ ds, cs = '\x7b' :: ds
  | .date => c = '#'
  | .text => c = '"' ∨ c = '\''
  | .word => isNameStart c = true
  | .number => c.isDigit = true
  | .eof => False

section Forms
variable {cs : List Char}

theorem form_readMark? {r : Reading Kind} (h : readMark? c cs = some r) (hr : r.outcome = .ok k) :
    k.form = .mark := by
  unfold readMark? at h
  split at h
  · rename_i kind hkind
    cases h
    cases hr
    unfold single? at hkind
    split at hkind <;> cases hkind <;> rfl
  · split at h
    · rename_i next long short hpair
      cases h
      unfold pair? at hpair
      split at hpair <;> cases hpair <;> split at hr <;> cases hr <;> rfl
    · obtain ⟨kind, hkind, rfl⟩ := Option.map_eq_some_iff.1 h
      unfold doubled? at hkind
      split at hkind <;> cases hkind <;> split at hr <;> cases hr <;> rfl

theorem form_readField (h : (readField cs).outcome = .ok k) : k.form = .field := by
  unfold readField at h
  split at h
  · cases h
  · dsimp only at h
    split at h <;> cases h
    rfl

theorem form_readDate (h : (readDate cs).outcome = .ok k) : k.form = .date := by
  unfold readDate at h
  dsimp only at h
  split at h
  · cases h
  · split at h <;> cases h
    rfl

theorem form_quoted {r : Reading (List Char)}
    (h : (r.map fun value => Kind.literal (.text (String.ofList value))).outcome = .ok k) :
    k.form = .text := by
  unfold Reading.map at h
  cases hr : r.outcome with
  | error err =>
    rw [hr] at h
    cases h
  | ok value =>
    rw [hr] at h
    cases h
    rfl

theorem form_readName (h : (readName cs).outcome = .ok k) : k.form = .word := by
  cases h
  unfold ofName
  dsimp only
  split_ifs <;> rfl

theorem form_readNumber (h : (readNumber cs).outcome = .ok k) : k.form = .number := by
  unfold readNumber at h
  dsimp only at h
  split at h <;> cases h
  rfl

theorem starts_of_read (h : (read (c :: cs)).outcome = .ok k) : k.form.Starts c cs := by
  obtain ⟨r, hr⟩ | ⟨rfl, ds, rfl⟩ | rfl | hquote | hname | hdigit := read_cons_cases h
  · rw [read_mark hr] at h
    rw [form_readMark? hr h]
    exact ⟨r, hr⟩
  · rw [read_field] at h
    rw [form_readField h]
    exact ⟨rfl, ds, rfl⟩
  · rw [read_date] at h
    rw [form_readDate h]
    rfl
  · rw [read_quoted hquote] at h
    rw [form_quoted h]
    exact hquote
  · rw [read_name hname] at h
    rw [form_readName h]
    exact hname
  · rw [read_number hdigit] at h
    rw [form_readNumber h]
    exact hdigit

end Forms

/-- A text reads as the same token before anything in which the token cannot go on. -/
theorem read_after (h : read (text ++ rest) = .ok k text.length) (hk : k ≠ .eof)
    (hrest : Behind rest rest') : read (text ++ rest') = .ok k text.length := by
  have hok : (read (text ++ rest)).outcome = .ok k := by rw [h]; rfl
  have hlength : (read (text ++ rest)).length = text.length := by rw [h]; rfl
  rw [← h]
  cases text with
  | nil => exact absurd hlength (Nat.ne_of_gt (read_length_pos hok hk))
  | cons c cs =>
    rw [List.length_cons] at hlength
    rw [List.cons_append] at hok hlength ⊢
    rw [List.cons_append]
    obtain ⟨r, hr⟩ | ⟨rfl, ds, hds⟩ | rfl | hquote | hname | hdigit := read_cons_cases hok
    · rw [read_mark hr] at hok hlength ⊢
      exact read_mark (readMark?_after hr hok hlength hrest)
    · cases cs with
      | nil =>
        rw [List.nil_append] at hds hlength
        rw [hds, read_field] at hlength
        exact absurd hlength (Nat.ne_of_gt (two_le_readField_length ds))
      | cons d cs =>
        cases hds
        rw [List.cons_append, read_field] at hok hlength ⊢
        exact readField_after hok hlength
    · rw [read_date] at hok hlength ⊢
      exact readDate_after hok hlength
    · rw [read_quoted hquote] at hok hlength ⊢
      rw [read_quoted hquote]
      obtain ⟨value, hvalue⟩ := exists_ok_of_map hok
      rw [readQuoted_after hvalue (by simpa [Reading.map, Nat.add_comm] using Nat.le_of_eq hlength)]
    · rw [read_name hname] at hlength ⊢
      rw [read_name hname]
      exact readName_after (c :: cs) hlength hrest
    · rw [read_number hdigit] at hlength ⊢
      rw [read_number hdigit]
      exact readNumber_after (c :: cs) hlength hrest

end Token

end FieldFormula
