import FieldFormula.Proofs.Json.Reading
import FieldFormula.Sql

/-!
Literals of text in either target, read by the rules of its language. SQL doubles a quote within a
literal. Scripts have escapes behind a backslash, and a literal does not go on behind the end of its
line. Main statement: a quoted text reads back as it was, and reading stops right behind it
(`quoting_exact`).
-/
namespace FieldFormula

namespace Sql

/-- The text up to the quote that ends a literal, and what follows that quote. Two quotes in a row
stand for one. -/
def literalBody? : List Char → Option (List Char × List Char)
  | [] => none
  | c :: cs =>
    if c = '\'' then
      match cs with
      | '\'' :: cs => (literalBody? cs).map (Prod.map ('\'' :: ·) id)
      | _ => some ([], cs)
    else (literalBody? cs).map (Prod.map (c :: ·) id)

def readLiteral? : List Char → Option (String × List Char)
  | '\'' :: cs => (literalBody? cs).map (Prod.map String.ofList id)
  | _ => none

theorem literalBody?_quoteChar (c : Char) (rest : List Char) :
    literalBody? (quoteChar c ++ rest) = (literalBody? rest).map (Prod.map (c :: ·) id) := by
  unfold quoteChar
  split
  · rename_i hc
    subst hc
    rfl
  · rename_i hc
    rw [List.singleton_append, literalBody?.eq_def]
    exact if_neg hc

theorem literalBody?_quoted (s rest : List Char) :
    literalBody? (s.flatMap quoteChar ++ rest) =
      (literalBody? rest).map (Prod.map (s ++ ·) id) := by
  induction s with
  | nil => exact Option.map_id.symm ▸ rfl
  | cons c s ih =>
    rw [List.flatMap_cons, List.append_assoc, literalBody?_quoteChar, ih, Option.map_map]
    rfl

theorem literalBody?_close {r : List Char} (h : r.head? ≠ some '\'') :
    literalBody? ('\'' :: r) = some ([], r) := by
  rw [literalBody?.eq_def]
  dsimp only
  rw [if_pos rfl]
  split
  · exact absurd rfl h
  · rfl

theorem readLiteral?_quote (s : String) (r : List Char) :
    readLiteral? ((quote s).toList ++ r) =
      (literalBody? ('\'' :: r)).map (Prod.map (fun cs => String.ofList (s.toList ++ cs)) id) := by
  have hquote : (quote s).toList ++ r = '\'' :: (s.toList.flatMap quoteChar ++ '\'' :: r) := by
    simp [quote]
  rw [hquote, readLiteral?, literalBody?_quoted, Option.map_map]
  rfl

theorem readLiteral?_quote_iff (s : String) (r : List Char) :
    readLiteral? ((quote s).toList ++ r) = some (s, r) ↔ r.head? ≠ some '\'' := by
  rw [readLiteral?_quote]
  constructor
  · -- with another quote behind the closing one, the value read is longer than `s`
    intro h hhead
    obtain ⟨r, rfl⟩ := List.head?_eq_some_iff.1 hhead
    obtain ⟨x, hx, hread⟩ := Option.map_eq_some_iff.1 h
    obtain ⟨y, -, rfl⟩ := Option.map_eq_some_iff.1 (hx : (literalBody? r).map _ = some x)
    have hvalue := congrArg (fun z => z.1.toList.length) hread
    simp at hvalue
  · intro h
    rw [literalBody?_close h]
    simp

end Sql

namespace Script

def hexNumber? (digits : List Char) : Option Nat :=
  digits.foldlM (fun n d => (Json.hexValue? d).map (n * 16 + ·)) 0

/-- The number behind `\u`, and how many characters it takes: four digits, or any between braces. -/
def unicodeEscape? (cs : List Char) : Option (Nat × Nat) :=
  if cs.head? = some '\x7b' then
    let digits := cs.tail.takeWhile (· != '\x7d')
    if digits = [] ∨ digits.length = cs.tail.length then none
    else (hexNumber? digits).bind fun n =>
      if n ≤ 0x10FFFF then some (n, digits.length + 2) else none
  else if cs.length < 4 then none
  else (hexNumber? (cs.take 4)).map (·, 4)

def letterEscape : Char → Char
  | 'b' => '\x08'
  | 'f' => '\x0c'
  | 'n' => '\n'
  | 'r' => '\r'
  | 't' => '\t'
  | 'v' => '\x0b'
  | c => c

def isLineEnd (c : Char) : Bool := c == '\n' || c == '\r' || c == '\u2028' || c == '\u2029'

/-- What stands behind a backslash: the code points it means and how many characters it takes. A
line end there means nothing, and of the digits only a zero that no digit follows is allowed. -/
def escape? : List Char → Option (List Nat × Nat)
  | [] => none
  | c :: cs =>
    if c = 'u' then (unicodeEscape? cs).map fun x => ([x.1], x.2 + 1)
    else if c = 'x' then
      if cs.length < 2 then none else (hexNumber? (cs.take 2)).map fun n => ([n], 3)
    else if c.isDigit then
      if c = '0' ∧ cs.head?.any Char.isDigit = false then some ([0], 1) else none
    else if isLineEnd c then some ([], if c = '\r' ∧ cs.head? = some '\n' then 2 else 1)
    else some ([(letterEscape c).toNat], 1)

/-- The code points up to the closing quote, and what follows it. Of the line ends, only the two
that are no control characters may stand there without a backslash. -/
def literalBody? (quote : Char) : List Char → Option (List Nat × List Char)
  | [] => none
  | c :: cs =>
    if c = quote then some ([], cs)
    else if c = '\\' then
      match escape? cs with
      | none => none
      | some (codes, taken) =>
        (literalBody? quote (cs.drop taken)).map (Prod.map (codes ++ ·) id)
    else if c = '\n' ∨ c = '\r' then none
    else (literalBody? quote cs).map (Prod.map (c.toNat :: ·) id)
termination_by cs => cs.length
decreasing_by
  · simp only [List.length_drop, List.length_cons]
    omega
  · exact Nat.lt_succ_self _

def readLiteral? : List Char → Option (String × List Char)
  | [] => none
  | quote :: cs =>
    if quote = '"' ∨ quote = '\'' then do
      let (codes, rest) ← literalBody? quote cs
      let value ← Json.decode? codes
      return (String.ofList value, rest)
    else none

section
variable {q c : Char} {cs rest : List Char}

theorem literalBody?_close (q : Char) (cs : List Char) :
    literalBody? q (q :: cs) = some ([], cs) := by
  rw [literalBody?, if_pos rfl]

theorem literalBody?_plain (hquote : c ≠ q) (hslash : c ≠ '\\') (hcontrol : ¬ c.toNat < 0x20) :
    literalBody? q (c :: cs) = (literalBody? q cs).map (Prod.map (c.toNat :: ·) id) := by
  have hline : ¬ (c = '\n' ∨ c = '\r') := by
    rintro (rfl | rfl) <;> exact hcontrol (by decide)
  rw [literalBody?, if_neg hquote, if_neg hslash, if_neg hline]

theorem literalBody?_escape {codes : List Nat} {taken : Nat} (hq : '\\' ≠ q)
    (h : escape? cs = some (codes, taken)) :
    literalBody? q ('\\' :: cs) =
      (literalBody? q (cs.drop taken)).map (Prod.map (codes ++ ·) id) := by
  rw [literalBody?, if_neg hq, if_pos rfl, h]

theorem literalBody?_letter {d : Char} (hq : '\\' ≠ q)
    (h : escape? (d :: cs) = some ([c.toNat], 1)) :
    literalBody? q ('\\' :: d :: cs) =
      (literalBody? q cs).map (Prod.map (c.toNat :: ·) id) :=
  literalBody?_escape hq h

theorem hexNumber?_hexDigits {n : Nat} (h : n < 65536) :
    hexNumber? (Text.hexDigits n) = some n := by
  simp only [hexNumber?, Text.hexDigits, List.foldlM_cons, List.foldlM_nil, Json.hexValue?_hexDigit,
    Option.map_some, Option.bind_eq_bind, Option.bind_some, Option.pure_def, Option.some.injEq]
  omega

theorem escape?_hexDigits {n : Nat} (h : n < 65536) (rest : List Char) :
    escape? ('u' :: (Text.hexDigits n ++ rest)) = some ([n], 5) := by
  have hbrace : (Text.hexDigits n ++ rest).head? ≠ some '\x7b' := by
    have hdigits : ∀ k < 16, Nat.digitChar k ≠ '\x7b' := by decide
    exact fun hhead => hdigits _ (Nat.mod_lt _ (by decide)) (Option.some.inj hhead)
  have htake : (Text.hexDigits n ++ rest).take 4 = Text.hexDigits n := rfl
  have hlength : ¬ (Text.hexDigits n ++ rest).length < 4 := by
    simp [Text.hexDigits]
  rw [escape?, if_pos rfl, unicodeEscape?, if_neg hbrace, if_neg hlength, htake,
    hexNumber?_hexDigits h]
  rfl

theorem literalBody?_escapeChar (hq : '\\' ≠ q) (hc : c = q → c = '"') (rest : List Char) :
    literalBody? q (Text.escapeChar c ++ rest) =
      (literalBody? q rest).map (Prod.map (c.toNat :: ·) id) := by
  -- seven characters have an escape of one letter; the other control characters have digits
  unfold Text.escapeChar
  split_ifs with hquote hslash hback hfeed hline hreturn htab hcontrol
  · subst hquote; exact literalBody?_letter hq rfl
  · subst hslash; exact literalBody?_letter hq rfl
  · subst hback; exact literalBody?_letter hq rfl
  · subst hfeed; exact literalBody?_letter hq rfl
  · subst hline; exact literalBody?_letter hq rfl
  · subst hreturn; exact literalBody?_letter hq rfl
  · subst htab; exact literalBody?_letter hq rfl
  · exact literalBody?_escape hq (escape?_hexDigits (by omega) rest)
  · exact literalBody?_plain (fun h => hquote (hc h)) hslash hcontrol

theorem literalBody?_escapeKeyChar (c : Char) (rest : List Char) :
    literalBody? '\'' (Text.escapeKeyChar c ++ rest) =
      (literalBody? '\'' rest).map (Prod.map (c.toNat :: ·) id) := by
  unfold Text.escapeKeyChar
  split
  · rename_i hc
    subst hc
    exact literalBody?_letter (by decide) rfl
  · rename_i hc
    exact literalBody?_escapeChar (by decide) (fun h => absurd h hc) rest

theorem readLiteral?_written {write : Char → List Char} (hq : q = '"' ∨ q = '\'')
    (h : ∀ c rest, literalBody? q (write c ++ rest) =
      (literalBody? q rest).map (Prod.map (c.toNat :: ·) id)) (s : String) (r : List Char) :
    readLiteral? (q :: (s.toList.flatMap write ++ q :: r)) = some (s, r) := by
  have hbody (cs : List Char) :
      literalBody? q (cs.flatMap write ++ q :: r) = some (cs.map Char.toNat, r) := by
    induction cs with
    | nil => exact literalBody?_close q r
    | cons c cs ih =>
      rw [List.flatMap_cons, List.append_assoc, h, ih]
      rfl
  rw [readLiteral?, if_pos hq, hbody]
  simp [Json.decode?_toNat]

end

def escapeApostrophe (c : Char) : List Char := if c = '\'' then ['\\', '\''] else [c]

theorem escapeApostrophe_eq {cs : List Char} (h : '\'' ∉ cs) :
    cs.flatMap escapeApostrophe = cs := by
  induction cs with
  | nil => rfl
  | cons c cs ih =>
    obtain ⟨hc, hcs⟩ := not_or.1 (mt List.mem_cons.2 h)
    rw [List.flatMap_cons, ih hcs, escapeApostrophe, if_neg (Ne.symm hc), List.singleton_append]

theorem escapeKeyChar_eq (c : Char) :
    Text.escapeKeyChar c = (Text.escapeChar c).flatMap escapeApostrophe := by
  unfold Text.escapeKeyChar
  split
  · rename_i hc
    subst hc
    rfl
  · rename_i hc
    have hdigits : ∀ k < 16, '\'' ≠ Nat.digitChar k := by decide
    have hdigit (n : Nat) : '\'' ≠ Text.hexDigit n := hdigits _ (Nat.mod_lt _ (by decide))
    refine (escapeApostrophe_eq ?_).symm
    unfold Text.escapeChar
    split_ifs <;> simp [Text.hexDigits, hdigit, Ne.symm hc]

theorem quoteKey_eq (s : String) :
    (quoteKey s).toList =
      '\'' :: ((quote s).toList.tail.dropLast.flatMap escapeApostrophe ++ ['\'']) := by
  have hinner : (quote s).toList.tail.dropLast = s.toList.flatMap Text.escapeChar := by
    simp [quote, Text.doubleQuoted]
  rw [hinner, List.flatMap_assoc, quoteKey, Text.singleQuoted, String.toList_ofList,
    funext escapeKeyChar_eq, List.cons_append]

end Script

/-- Only a quote right behind it makes an SQL literal read on. A key of a script is the quoted text
with apostrophes around it and its own apostrophes escaped. -/
theorem quoting_exact (s : String) (r : List Char) :
    (Sql.readLiteral? ((Sql.quote s).toList ++ r) = some (s, r) ↔ r.head? ≠ some '\'') ∧
    Script.readLiteral? ((Script.quote s).toList ++ r) = some (s, r) ∧
    Script.readLiteral? ((Script.quoteKey s).toList ++ r) = some (s, r) ∧
    (Script.quoteKey s).toList = '\'' ::
      ((Script.quote s).toList.tail.dropLast.flatMap Script.escapeApostrophe ++ ['\'']) := by
  refine ⟨Sql.readLiteral?_quote_iff s r, ?_, ?_, Script.quoteKey_eq s⟩
  · have hquote : (Script.quote s).toList ++ r =
        '"' :: (s.toList.flatMap Text.escapeChar ++ '"' :: r) := by
      simp [Script.quote, Text.doubleQuoted]
    rw [hquote]
    exact Script.readLiteral?_written (.inl rfl)
      (fun c rest => Script.literalBody?_escapeChar (by decide) id rest) s r
  · have hquote : (Script.quoteKey s).toList ++ r =
        '\'' :: (s.toList.flatMap Text.escapeKeyChar ++ '\'' :: r) := by
      simp [Script.quoteKey, Text.singleQuoted]
    rw [hquote]
    exact Script.readLiteral?_written (.inr rfl) Script.literalBody?_escapeKeyChar s r

end FieldFormula
