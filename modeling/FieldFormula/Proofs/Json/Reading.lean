import FieldFormula.Json
import FieldFormula.Script
import Mathlib.Data.List.Forall2
import Mathlib.Data.List.TakeWhile
import Mathlib.Tactic.SplitIfs

/-!
Strings and objects are read back from JSON text. A text is a list of words with spaces between
them, and reading takes the words of a value and leaves the others. Main statements: a quoted string
is read as itself (`reads_text`), and an object is read when its values are (`reads_object`).
-/
namespace FieldFormula.Json

inductive Spaced : List (List Char) → List Char → Prop where
  | nil {gap : List Char} : gap.all isSpace = true → Spaced [] gap
  | cons {gap word rest : List Char} {words : List (List Char)} :
      gap.all isSpace = true → Spaced words rest → Spaced (word :: words) (gap ++ (word ++ rest))

def quoted (s : String) : List Char := (Script.quote s).toList

def member (m : String × List (List Char)) : List (List Char) := quoted m.1 :: [':'] :: m.2

def moreMembers : List (String × List (List Char)) → List (List Char)
  | [] => [['\x7d']]
  | m :: ms => [','] :: (member m ++ moreMembers ms)

def objectWords : List (String × List (List Char)) → List (List Char)
  | [] => [['\x7b'], ['\x7d']]
  | m :: ms => ['\x7b'] :: (member m ++ moreMembers ms)

section Strings

theorem hexValue?_hexDigit (n : Nat) : hexValue? (Text.hexDigit n) = some (n % 16) := by
  have hdigits : ∀ k < 16, hexValue? (Nat.digitChar k) = some k := by decide
  exact hdigits (n % 16) (Nat.mod_lt n (by decide))

theorem hex4?_hexDigit {n : Nat} (h : n < 65536) :
    hex4? (Text.hexDigit (n / 4096)) (Text.hexDigit (n / 256)) (Text.hexDigit (n / 16))
      (Text.hexDigit n) = some n := by
  simp only [hex4?, hexValue?_hexDigit, Option.pure_def, Option.bind_eq_bind, Option.bind_some,
    Option.some.injEq]
  omega

theorem codePoints?_cons {c : Char} {cs : List Char} (hquote : c ≠ '"') (hslash : c ≠ '\\')
    (hcontrol : ¬ c.toNat < 0x20) :
    codePoints? (c :: cs) = (do let (ns, rest) ← codePoints? cs; return (c.toNat :: ns, rest)) := by
  rw [codePoints?.eq_def]
  split
  · rename_i heq
    cases heq
  · rename_i heq
    exact absurd (List.head_eq_of_cons_eq heq) hquote
  · rename_i heq
    exact absurd (List.head_eq_of_cons_eq heq) hslash
  · rename_i heq
    exact absurd (List.head_eq_of_cons_eq heq) hslash
  · rename_i heq
    cases heq
    rw [if_neg (by simp [hcontrol, hslash])]

theorem codePoints?_escapeChar (c : Char) (cs : List Char) :
    codePoints? (Text.escapeChar c ++ cs) =
      (codePoints? cs).map fun x => (c.toNat :: x.1, x.2) := by
  have hbind (n : Nat) : (do let (ns, rest) ← codePoints? cs; return (n :: ns, rest)) =
      (codePoints? cs).map fun x => (n :: x.1, x.2) := by
    cases codePoints? cs <;> rfl
  unfold Text.escapeChar
  split_ifs with hquote hslash hback hfeed hline hreturn htab hcontrol
  · subst hquote; exact hbind _
  · subst hslash; exact hbind _
  · subst hback; exact hbind _
  · subst hfeed; exact hbind _
  · subst hline; exact hbind _
  · subst hreturn; exact hbind _
  · subst htab; exact hbind _
  · have hhex : hex4? (Text.hexDigit (c.toNat / 4096)) (Text.hexDigit (c.toNat / 256))
        (Text.hexDigit (c.toNat / 16)) (Text.hexDigit c.toNat) = some c.toNat :=
      hex4?_hexDigit (by omega)
    simp only [Text.hexDigits, List.cons_append, List.nil_append]
    rw [codePoints?, hhex]
    exact hbind _
  · rw [List.singleton_append, codePoints?_cons hquote hslash hcontrol]
    exact hbind _

theorem codePoints?_escaped (cs rest : List Char) :
    codePoints? (cs.flatMap Text.escapeChar ++ '"' :: rest) = some (cs.map Char.toNat, rest) := by
  induction cs with
  | nil => rfl
  | cons c cs ih =>
    rw [List.flatMap_cons, List.append_assoc, codePoints?_escapeChar, ih]
    rfl

theorem not_surrogate (c : Char) :
    isHighSurrogate c.toNat = false ∧ isLowSurrogate c.toNat = false := by
  have hvalid : c.toNat < 0xD800 ∨ 0xDFFF < c.toNat ∧ c.toNat < 0x110000 := c.valid
  simp only [isHighSurrogate, isLowSurrogate, Bool.and_eq_false_iff, decide_eq_false_iff_not]
  omega

theorem decode?_toNat (cs : List Char) : decode? (cs.map Char.toNat) = some cs := by
  induction cs with
  | nil => rfl
  | cons c cs ih =>
    obtain ⟨hhigh, hlow⟩ := not_surrogate c
    cases cs with
    | nil => simp [decode?, hhigh, hlow, Char.ofNat_toNat]
    | cons d cs =>
      rw [List.map_cons, List.map_cons, decode?, ← List.map_cons, ih]
      simp [hhigh, hlow, Char.ofNat_toNat]

theorem quoted_eq (s : String) :
    quoted s = '"' :: (s.toList.flatMap Text.escapeChar ++ ['"']) := by
  simp [quoted, Script.quote, Text.doubleQuoted]

theorem string?_quoted (s : String) (rest : List Char) :
    string? (s.toList.flatMap Text.escapeChar ++ ['"'] ++ rest) = some (some s, rest) := by
  rw [string?, List.append_assoc, List.singleton_append, codePoints?_escaped]
  simp [decode?_toNat]

end Strings

section Words
variable {c : Char} {word cs : List Char} {words others : List (List Char)}

theorem skip_append {gap : List Char} (h : gap.all isSpace = true) (cs : List Char) :
    skip (gap ++ cs) = skip cs :=
  List.dropWhile_append_of_pos (List.all_eq_true.1 h)

theorem skip_cons (hc : isSpace c = false) (cs : List Char) : skip (c :: cs) = c :: cs :=
  List.dropWhile_cons_of_neg (by simp [hc])

theorem Spaced.skip_eq (h : Spaced ((c :: word) :: words) cs) (hc : isSpace c = false) :
    ∃ rest, skip cs = c :: (word ++ rest) ∧ Spaced words rest := by
  cases h with
  | @cons gap _ rest _ hgap hrest =>
    refine ⟨rest, ?_, hrest⟩
    rw [skip_append hgap, List.cons_append, skip_cons hc]

theorem Spaced.skip_nil (h : Spaced [] cs) : skip cs = [] := by
  cases h with
  | nil hgap => exact List.dropWhile_eq_nil_iff.2 (List.all_eq_true.1 hgap)

theorem spaced_of_skip {rest : List Char} (hrest : Spaced words rest) (hcs : cs = word ++ rest) :
    Spaced (word :: words) cs := by
  rw [hcs]
  exact @Spaced.cons [] word rest words rfl hrest

theorem spaced_flatten (words : List (List Char)) : Spaced words words.flatten := by
  induction words with
  | nil => exact .nil rfl
  | cons word words ih => exact @Spaced.cons [] word words.flatten words rfl ih

theorem Spaced.length_le (h : Spaced words cs) : words.flatten.length ≤ cs.length := by
  induction h with
  | nil _ => exact Nat.zero_le _
  | cons _ _ ih =>
    simp only [List.flatten_cons, List.length_append]
    omega

def Reads (least : Nat) (words : List (List Char)) (j : Json) : Prop :=
  ∀ ⦃n : Nat⦄ ⦃others : List (List Char)⦄ ⦃cs : List Char⦄, least ≤ n →
    Spaced (words ++ others) cs → ∃ rest, value? n cs = some (j, rest) ∧ Spaced others rest

theorem reads_text (s : String) : Reads 1 [quoted s] (.text (some s)) := by
  intro n others cs hn hcs
  obtain ⟨n, rfl⟩ : ∃ k, n = k + 1 := ⟨n - 1, by omega⟩
  rw [quoted_eq] at hcs
  obtain ⟨rest, hskip, hrest⟩ := hcs.skip_eq rfl
  refine ⟨rest, ?_, hrest⟩
  rw [value?, hskip]
  simp only [string?_quoted, Option.map_some]

end Words

section Objects
variable {least n : Nat} {others : List (List Char)} {cs : List Char}
  {m : String × List (List Char)} {ms : List (String × List (List Char))} {j : Json}
  {js : List Json}

theorem key_of_spaced (hcs : Spaced (member m ++ others) cs) :
    ∃ rest rest' value, skip cs = '"' :: rest ∧ string? rest = some (some m.1, rest') ∧
      skip rest' = ':' :: value ∧ Spaced (m.2 ++ others) value := by
  rw [member, List.cons_append, List.cons_append, quoted_eq] at hcs
  obtain ⟨rest', hskip, hrest⟩ := hcs.skip_eq rfl
  obtain ⟨value, hcolon, hvalue⟩ := hrest.skip_eq rfl
  exact ⟨_, rest', value, hskip, string?_quoted m.1 rest', hcolon, hvalue⟩

theorem members?_of_reads (hj : Reads least m.2 j)
    (hjs : List.Forall₂ (fun m j => Reads least m.2 j) ms js) (hn : least + ms.length + 1 ≤ n)
    (hcs : Spaced (member m ++ (moreMembers ms ++ others)) cs) :
    ∃ rest, members? n cs =
      some ((some m.1, j) :: List.zipWith (fun m j => (some m.1, j)) ms js, rest) ∧
      Spaced others rest := by
  -- The member read first changes from step to step, so it is not among `ms`.
  induction hjs generalizing n m j cs with
  | nil =>
    obtain ⟨n, rfl⟩ : ∃ k, n = k + 1 := ⟨n - 1, by omega⟩
    obtain ⟨rest, rest', value, hskip, hkey, hcolon, hvalue⟩ := key_of_spaced hcs
    obtain ⟨end', hread, hend⟩ := hj (by simpa using hn) hvalue
    obtain ⟨last, hbrace, hlast⟩ := hend.skip_eq rfl
    refine ⟨last, ?_, hlast⟩
    rw [members?, hskip]
    simp [hkey, hcolon, hread, hbrace]
  | @cons m' j' ms js hj' _ ih =>
    obtain ⟨n, rfl⟩ : ∃ k, n = k + 1 := ⟨n - 1, by omega⟩
    rw [List.length_cons] at hn
    obtain ⟨rest, rest', value, hskip, hkey, hcolon, hvalue⟩ := key_of_spaced hcs
    have hle : least ≤ n := by omega
    have hothers : least + ms.length + 1 ≤ n := by omega
    obtain ⟨end', hread, hend⟩ := hj hle hvalue
    rw [moreMembers, List.cons_append, List.append_assoc] at hend
    obtain ⟨next, hcomma, hnext⟩ := hend.skip_eq rfl
    obtain ⟨last, hmembers, hlast⟩ := ih hj' hothers hnext
    refine ⟨last, ?_, hlast⟩
    rw [members?, hskip]
    simp [hkey, hcolon, hread, hcomma, hmembers]

theorem reads_object (h : List.Forall₂ (fun m j => Reads least m.2 j) ms js) :
    Reads (least + ms.length + 1) (objectWords ms)
      (.object (List.zipWith (fun m j => (some m.1, j)) ms js)) := by
  intro n others cs hn hcs
  obtain ⟨n, rfl⟩ : ∃ k, n = k + 1 := ⟨n - 1, by omega⟩
  cases h with
  | nil =>
    obtain ⟨rest, hopen, hrest⟩ := hcs.skip_eq rfl
    obtain ⟨last, hclose, hlast⟩ := hrest.skip_eq rfl
    refine ⟨last, ?_, hlast⟩
    rw [value?, hopen]
    simp [hclose]
  | @cons m j ms js hj hjs =>
    rw [List.length_cons] at hn
    rw [objectWords, List.cons_append, List.append_assoc] at hcs
    obtain ⟨rest, hopen, hrest⟩ := hcs.skip_eq rfl
    -- A quote comes first behind the brace, and not the brace that would close it.
    obtain ⟨rest', hskip, hrest'⟩ : ∃ rest', skip rest = '"' :: rest' ∧
        Spaced (member m ++ (moreMembers ms ++ others)) ('"' :: rest') := by
      rw [member, List.cons_append, quoted_eq] at hrest ⊢
      obtain ⟨rest', hskip, hrest'⟩ := hrest.skip_eq rfl
      exact ⟨_, hskip, spaced_of_skip hrest' rfl⟩
    have hle : least + ms.length + 1 ≤ n := by omega
    obtain ⟨last, hmembers, hlast⟩ := members?_of_reads hj hjs hle hrest'
    refine ⟨last, ?_, hlast⟩
    rw [value?, hopen]
    simp [hskip, hmembers]

theorem length_moreMembers (ms : List (String × List (List Char))) :
    ms.length + 1 ≤ (moreMembers ms).flatten.length := by
  induction ms with
  | nil => simp [moreMembers]
  | cons m ms ih =>
    simp only [moreMembers, List.flatten_cons, List.flatten_append, List.length_append,
      List.length_cons, List.length_nil]
    omega

theorem length_objectWords (ms : List (String × List (List Char))) :
    ms.length + 2 ≤ (objectWords ms).flatten.length := by
  cases ms with
  | nil => simp [objectWords]
  | cons m ms =>
    have hle := length_moreMembers ms
    simp only [objectWords, member, quoted_eq, List.cons_append, List.flatten_cons,
      List.flatten_append, List.length_append, List.length_cons, List.length_nil]
    omega

theorem parse?_of_reads {words : List (List Char)} {s : String} (h : Reads least words j)
    (hs : Spaced words s.toList) (hle : least ≤ 2 * s.toList.length + 1) :
    parse? s = some j := by
  rw [← List.append_nil words] at hs
  obtain ⟨rest, hread, hrest⟩ := h hle hs
  rw [parse?, hread]
  simp [hrest.skip_nil]

end Objects

end FieldFormula.Json
