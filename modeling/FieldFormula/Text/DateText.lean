import FieldFormula.Text.Numeral

/-!
The text between the hashes of a date literal: `yyyy-mm-dd`, or that followed by `Thh:mm`, by
optional seconds with an optional fraction of one to three digits, and by an optional `Z`. Only
the shape is checked; any decimal digit of Unicode counts.
-/
namespace FieldFormula.Text

def dropDigits? : Nat → List Char → Option (List Char)
  | 0, cs => some cs
  | _ + 1, [] => none
  | n + 1, c :: cs => if isDecimalDigit c then dropDigits? n cs else none

def dropChar? (expected : Char) : List Char → Option (List Char)
  | [] => none
  | c :: cs => if c = expected then some cs else none

def dropUpTo : Nat → List Char → List Char
  | 0, cs => cs
  | _ + 1, [] => []
  | n + 1, c :: cs => if isDecimalDigit c then dropUpTo n cs else c :: cs

def dropFraction? (cs : List Char) : Option (List Char) :=
  match dropChar? '.' cs with
  | some cs => (dropDigits? 1 cs).map (dropUpTo 2)
  | none => some cs

def dropSeconds? (cs : List Char) : Option (List Char) :=
  match dropChar? ':' cs with
  | some cs => (dropDigits? 2 cs).bind dropFraction?
  | none => some cs

def isTimeText (cs : List Char) : Bool :=
  let rest := do
    let cs ← dropChar? 'T' cs
    let cs ← dropDigits? 2 cs
    let cs ← dropChar? ':' cs
    let cs ← dropDigits? 2 cs
    dropSeconds? cs
  rest == some [] || rest == some ['Z']

def isDateText (cs : List Char) : Bool :=
  let rest := do
    let cs ← dropDigits? 4 cs
    let cs ← dropChar? '-' cs
    let cs ← dropDigits? 2 cs
    let cs ← dropChar? '-' cs
    dropDigits? 2 cs
  match rest with
  | some [] => true
  | some time => isTimeText time
  | none => false

end FieldFormula.Text
