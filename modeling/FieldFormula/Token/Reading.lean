import FieldFormula.Text.Blank
import FieldFormula.Text.Case
import FieldFormula.Text.DateText
import FieldFormula.Token

/-!
Reading one token at the head of a text that does not start with a blank. A reading says what was
found and how many characters it took; a failed reading also takes some, from which the scanner
goes on.
-/
namespace FieldFormula

inductive LexError.Cause where
  | unexpectedChar (ch : Char)
  | singleOperator (ch : Char)
  | unterminatedString
  | invalidEscape (ch : Char)
  | unterminatedVariable
  | emptyVariable
  | invalidNumber (text : String)
  | invalidDate (text : String)
  deriving DecidableEq, Repr

structure LexError where
  cause : LexError.Cause
  position : Nat
  deriving DecidableEq, Repr

namespace LexError

def Cause.message : Cause → String
  | unexpectedChar c => "Unexpected character '" ++ c.toString ++ "'"
  | singleOperator c => "Unexpected '" ++ c.toString ++ "'"
  | unterminatedString => "Unterminated string starting"
  | invalidEscape c => "Invalid escape sequence '\\" ++ c.toString ++ "'"
  | unterminatedVariable => "Unterminated variable starting"
  | emptyVariable => "Empty variable name"
  | invalidNumber text => "Invalid number '" ++ text ++ "'"
  | invalidDate text => "Invalid date '" ++ text ++ "'"

def Cause.hint : Cause → String
  | singleOperator c => " (did you mean '" ++ c.toString ++ c.toString ++ "'?)"
  | _ => ""

def message (e : LexError) : String :=
  e.cause.message ++ " on the position " ++ toString e.position ++ e.cause.hint

def shift (offset : Nat) (e : LexError) : LexError := { e with position := offset + e.position }

end LexError

/-- What was read and how many characters it took. The position of an error counts from the first
of them. -/
structure Reading (α : Type) where
  outcome : Except LexError α
  length : Nat

namespace Reading

variable {α β : Type}

def ok (value : α) (length : Nat) : Reading α := ⟨.ok value, length⟩
def fail (cause : LexError.Cause) (length : Nat) : Reading α := ⟨.error ⟨cause, 0⟩, length⟩
def map (f : α → β) (r : Reading α) : Reading β := ⟨r.outcome.map f, r.length⟩

end Reading

namespace Token

def single? : Char → Option Kind
  | '+' => some (.operator .add)
  | '-' => some (.operator .subtract)
  | '*' => some (.operator .multiply)
  | '/' => some (.operator .divide)
  | '%' => some (.operator .modulo)
  | '^' => some (.operator .power)
  | '(' => some .leftParen
  | ')' => some .rightParen
  | ',' => some .comma
  | ';' => some .semicolon
  | _ => none

/-- Characters that are a token by themselves and another one before `=` or before themselves: the
second character, the longer token and the shorter one. -/
def pair? : Char → Option (Char × Kind × Kind)
  | '&' => some ('&', .operator .and, .operator .concat)
  | '!' => some ('=', .operator .notEqual, .bang)
  | '>' => some ('=', .operator .greaterEqual, .operator .greater)
  | '<' => some ('=', .operator .lessEqual, .operator .less)
  | _ => none

def doubled? : Char → Option Kind
  | '=' => some (.operator .equal)
  | '|' => some (.operator .or)
  | _ => none

def escape? : Char → Option Char
  | 'n' => some '\n'
  | 't' => some '\t'
  | 'r' => some '\r'
  | '"' => some '"'
  | '\'' => some '\''
  | '\\' => some '\\'
  | _ => none

/-- The text up to the closing quote, of which `taken` characters are read already. A backslash
with a character that is no escape is left with that character unread. -/
def readQuoted (quote : Char) : Nat → List Char → Reading (List Char)
  | taken, [] => .fail .unterminatedString taken
  | taken, c :: cs =>
    if c = quote then .ok [] (taken + 1)
    else if c = '\\' then
      match cs with
      | [] => .fail .unterminatedString (taken + 1)
      | e :: cs =>
        match escape? e with
        | some value => (readQuoted quote (taken + 2) cs).map (value :: ·)
        | none => ⟨.error ⟨.invalidEscape e, taken⟩, taken + 1⟩
    else (readQuoted quote (taken + 1) cs).map (c :: ·)

def beforeBraces? : List Char → Option (List Char)
  | [] => none
  | '\x7d' :: '\x7d' :: _ => some []
  | c :: cs => (beforeBraces? cs).map (c :: ·)

def readField (cs : List Char) : Reading Kind :=
  match beforeBraces? cs with
  | none => .fail .unterminatedVariable (cs.length + 2)
  | some inner =>
    let name := Text.trim inner
    if name.isEmpty then .fail .emptyVariable (inner.length + 4)
    else .ok (.field (String.ofList name)) (inner.length + 4)

def readDate (cs : List Char) : Reading Kind :=
  let date := cs.takeWhile (· != '#')
  if date.length = cs.length then .fail (.invalidDate (String.ofList date)) (date.length + 1)
  else if Text.isDateText date then .ok (.literal (.date (String.ofList date))) (date.length + 2)
  else .fail (.invalidDate (String.ofList date)) (date.length + 2)

def fractionDigits : List Char → List Char
  | '.' :: cs => cs.takeWhile Char.isDigit
  | _ => []

def numberText (whole fraction : List Char) : List Char :=
  if fraction.isEmpty then whole else whole ++ '.' :: fraction

def readNumber (cs : List Char) : Reading Kind :=
  let whole := cs.takeWhile Char.isDigit
  let fraction := fractionDigits (cs.dropWhile Char.isDigit)
  let text := numberText whole fraction
  match Decimal.ofDigits? whole fraction with
  | some d => .ok (.literal (.number d)) text.length
  | none => .fail (.invalidNumber (String.ofList text)) text.length

def ofName (name : String) : Kind :=
  let word := Text.lower name
  if word = "true" then .literal (.boolean true)
  else if word = "false" then .literal (.boolean false)
  else if word = "null" then .literal .null
  else if word = "if" then .conditional
  else .identifier name

def readName (cs : List Char) : Reading Kind :=
  let name := cs.takeWhile Text.isNamePart
  .ok (ofName (String.ofList name)) name.length

def readMark? (c : Char) (cs : List Char) : Option (Reading Kind) :=
  match single? c with
  | some kind => some (.ok kind 1)
  | none =>
    match pair? c with
    | some (next, long, short) => some (if cs.head? = some next then .ok long 2 else .ok short 1)
    | none =>
      (doubled? c).map fun kind =>
        if cs.head? = some c then .ok kind 2 else .fail (.singleOperator c) 0

/-- The token at the head of a text that starts with no blank. A character that starts no token is
not taken. -/
def read : List Char → Reading Kind
  | [] => .ok .eof 0
  | c :: cs =>
    match readMark? c cs with
    | some reading => reading
    | none =>
      if c = '\x7b' ∧ cs.head? = some '\x7b' then readField cs.tail
      else if c = '#' then readDate cs
      else if c = '"' ∨ c = '\'' then
        (readQuoted c 1 cs).map fun value => .literal (.text (String.ofList value))
      else if Text.isNameStart c then readName (c :: cs)
      else if c.isDigit then readNumber (c :: cs)
      else .fail (.unexpectedChar c) 0

theorem readMark?_length_pos {c : Char} {cs : List Char} {r : Reading Kind} {k : Kind}
    (h : readMark? c cs = some r) (hk : r.outcome = .ok k) : 0 < r.length := by
  unfold readMark? at h
  split at h
  · cases h
    exact Nat.one_pos
  · split at h
    · cases h
      split <;> simp [Reading.ok]
    · obtain ⟨kind, -, rfl⟩ := Option.map_eq_some_iff.1 h
      split at hk
      · rename_i hc
        simp [hc, Reading.ok]
      · simp [Reading.fail] at hk

theorem readField_length_pos (cs : List Char) : 0 < (readField cs).length := by
  unfold readField
  split
  · simp [Reading.fail]
  · dsimp only
    split <;> simp [Reading.fail, Reading.ok]

theorem readDate_length_pos (cs : List Char) : 0 < (readDate cs).length := by
  unfold readDate
  dsimp only
  split
  · simp [Reading.fail]
  · split <;> simp [Reading.fail, Reading.ok]

theorem le_readQuoted_length (quote : Char) (taken : Nat) (cs : List Char) :
    taken ≤ (readQuoted quote taken cs).length := by
  fun_induction readQuoted quote taken cs with
  | case1 => simp [Reading.fail]
  | case2 => simp [Reading.ok]
  | case3 => simp [Reading.fail]
  | case4 _ _ _ _ _ _ ih => exact Nat.le_trans (Nat.le_add_right _ _) ih
  | case5 => simp
  | case6 _ _ _ _ _ ih => exact Nat.le_trans (Nat.le_add_right _ _) ih

theorem readName_length_pos {c : Char} (cs : List Char) (h : Text.isNameStart c) :
    0 < (readName (c :: cs)).length := by
  have hp : Text.isNamePart c = true := by
    simp only [Text.isNameStart, Text.isNamePart, Bool.or_eq_true] at h ⊢
    rcases h with h | h
    · exact .inl (.inl h)
    · exact .inr h
  simp [readName, Reading.ok, hp]

theorem length_le_numberText (whole fraction : List Char) :
    whole.length ≤ (numberText whole fraction).length := by
  unfold numberText
  split
  · exact Nat.le_refl _
  · simp

theorem readNumber_length_pos {c : Char} (cs : List Char) (h : c.isDigit) :
    0 < (readNumber (c :: cs)).length := by
  have hw : 0 < ((c :: cs).takeWhile Char.isDigit).length := by simp [h]
  unfold readNumber
  dsimp only
  split
  · exact Nat.lt_of_lt_of_le hw (length_le_numberText _ _)
  · exact Nat.lt_of_lt_of_le hw (length_le_numberText _ _)

theorem read_length_pos {cs : List Char} {k : Kind} (h : (read cs).outcome = .ok k)
    (hk : k ≠ .eof) : 0 < (read cs).length := by
  cases cs with
  | nil =>
    simp only [read, Reading.ok, Except.ok.injEq] at h
    exact absurd h.symm hk
  | cons c cs =>
    revert h
    simp only [read]
    split
    · exact fun h => readMark?_length_pos ‹_› h
    · split
      · exact fun _ => readField_length_pos _
      · split
        · exact fun _ => readDate_length_pos _
        · split
          · exact fun _ => le_readQuoted_length c 1 cs
          · split
            · exact fun _ => readName_length_pos _ ‹_›
            · split
              · exact fun _ => readNumber_length_pos _ ‹_›
              · intro h
                cases h

end Token
end FieldFormula
