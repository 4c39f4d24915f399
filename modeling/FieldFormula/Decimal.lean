/-!
Decimal numbers with a 96-bit mantissa and a scale of at most 28. A literal keeps every digit it
was written with, trailing zeros included, as long as it fits; the first fraction digit that does
not fit rounds the ones before it, and all later digits are ignored.
-/
namespace FieldFormula

def Decimal.mantissaBound : Nat := Nat.pow 2 96
def Decimal.maxScale : Nat := 28

/-- The number `mantissa / 10 ^ scale`, negated if `negative`. -/
structure Decimal where
  negative : Bool
  mantissa : Nat
  scale : Nat
  mantissa_lt : mantissa < Decimal.mantissaBound
  scale_le : scale ≤ Decimal.maxScale
  deriving DecidableEq, Repr

namespace Decimal

def ofDigit (n : Fin 10) : Decimal := ⟨false, n, 0, Nat.lt_trans n.isLt (by decide), by decide⟩

def zero : Decimal := ofDigit 0

def ofParts? (mantissa scale : Nat) : Option Decimal :=
  if h : mantissa < mantissaBound ∧ scale ≤ maxScale then
    some ⟨false, mantissa, scale, h.1, h.2⟩
  else none

def digitValue (c : Char) : Nat := c.toNat - '0'.toNat

def readWhole? : Decimal → List Char → Option Decimal
  | d, [] => some d
  | d, c :: cs => (ofParts? (10 * d.mantissa + digitValue c) d.scale).bind fun e => readWhole? e cs

/-- The number rounded by the digit `k` that follows. A mantissa that becomes too large gives up its
last digit; without a fraction there is none to give up. -/
def round? (d : Decimal) (k : Nat) : Option Decimal :=
  if k < 5 then some d
  else (ofParts? (d.mantissa + 1) d.scale).or
    (if d.scale = 0 then none else ofParts? ((d.mantissa + 1 + 4) / 10) (d.scale - 1))

def readFraction? : Decimal → List Char → Option Decimal
  | d, [] => some d
  | d, c :: cs =>
    (ofParts? (10 * d.mantissa + digitValue c) (d.scale + 1)).elim (d.round? (digitValue c))
      fun e => readFraction? e cs

def ofDigits? (whole fraction : List Char) : Option Decimal :=
  (readWhole? zero whole).bind fun d => readFraction? d fraction

def ofUnsigned? (cs : List Char) : Option Decimal :=
  let whole := cs.takeWhile Char.isDigit
  match cs.dropWhile Char.isDigit with
  | [] => ofDigits? whole []
  | '.' :: fraction => if fraction.all Char.isDigit then ofDigits? whole fraction else none
  | _ => none

def ofText? (s : String) : Option Decimal :=
  match s.toList with
  | '-' :: cs => (ofUnsigned? cs).map fun d => { d with negative := true }
  | '+' :: cs => ofUnsigned? cs
  | cs => ofUnsigned? cs

def digits (d : Decimal) : List Char := (Nat.toDigits 10 d.mantissa).leftpad (d.scale + 1) '0'

/-- All digits of the scale are written, and zero has no sign. -/
def toChars (d : Decimal) : List Char :=
  let whole := d.digits.take (d.digits.length - d.scale)
  let fraction := d.digits.drop (d.digits.length - d.scale)
  let number := if d.scale = 0 then whole else whole ++ '.' :: fraction
  if d.negative && d.mantissa != 0 then '-' :: number else number

def toText (d : Decimal) : String := String.ofList d.toChars

end Decimal
end FieldFormula
