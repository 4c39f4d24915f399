/-!
Strict JSON text. A string keeps whether its escapes spell a text at all: half of a surrogate pair
may be written, but it is no character.
-/
namespace FieldFormula

inductive Json where
  | null
  | boolean (value : Bool)
  | number (spelling : String)
  | text (content : Option String)
  | array (items : List Json)
  | object (members : List (Option String × Json))
  deriving Repr

namespace Json

def isSpace (c : Char) : Bool := c == ' ' || c == '\t' || c == '\n' || c == '\r'

def skip (cs : List Char) : List Char := cs.dropWhile isSpace

def hexValue? (c : Char) : Option Nat :=
  if '0' ≤ c ∧ c ≤ '9' then some (c.toNat - '0'.toNat)
  else if 'a' ≤ c ∧ c ≤ 'f' then some (c.toNat - 'a'.toNat + 10)
  else if 'A' ≤ c ∧ c ≤ 'F' then some (c.toNat - 'A'.toNat + 10)
  else none

def hex4? (a b c d : Char) : Option Nat := do
  let a ← hexValue? a
  let b ← hexValue? b
  let c ← hexValue? c
  let d ← hexValue? d
  return ((a * 16 + b) * 16 + c) * 16 + d

def escape? : Char → Option Char
  | '"' => some '"'
  | '\\' => some '\\'
  | '/' => some '/'
  | 'b' => some '\x08'
  | 'f' => some '\x0c'
  | 'n' => some '\n'
  | 'r' => some '\r'
  | 't' => some '\t'
  | _ => none

def codePoints? : List Char → Option (List Nat × List Char)
  | [] => none
  | '"' :: cs => some ([], cs)
  | '\\' :: 'u' :: a :: b :: c :: d :: cs => do
    let n ← hex4? a b c d
    let (ns, rest) ← codePoints? cs
    return (n :: ns, rest)
  | '\\' :: e :: cs => do
    let c ← escape? e
    let (ns, rest) ← codePoints? cs
    return (c.toNat :: ns, rest)
  | c :: cs =>
    if c.toNat < 0x20 ∨ c = '\\' then none
    else do
      let (ns, rest) ← codePoints? cs
      return (c.toNat :: ns, rest)

def isHighSurrogate (n : Nat) : Bool := decide (0xD800 ≤ n) && decide (n < 0xDC00)
def isLowSurrogate (n : Nat) : Bool := decide (0xDC00 ≤ n) && decide (n < 0xE000)

def decode? : List Nat → Option (List Char)
  | [] => some []
  | high :: low :: ns =>
    if isHighSurrogate high && isLowSurrogate low then
      (decode? ns).map (Char.ofNat (0x10000 + (high - 0xD800) * 0x400 + (low - 0xDC00)) :: ·)
    else if isHighSurrogate high || isLowSurrogate high then none
    else (decode? (low :: ns)).map (Char.ofNat high :: ·)
  | [n] => if isHighSurrogate n || isLowSurrogate n then none else some [Char.ofNat n]

def string? (cs : List Char) : Option (Option String × List Char) := do
  let (ns, rest) ← codePoints? cs
  return ((decode? ns).map String.ofList, rest)

def digits? (cs : List Char) : Option (List Char) :=
  if (cs.head?.any Char.isDigit) then some (cs.dropWhile Char.isDigit) else none

def integer? : List Char → Option (List Char)
  | '0' :: cs => some cs
  | cs => digits? cs

def fraction? : List Char → Option (List Char)
  | '.' :: cs => digits? cs
  | cs => some cs

def exponent? : List Char → Option (List Char)
  | [] => some []
  | c :: cs =>
    if c = 'e' ∨ c = 'E' then
      match cs with
      | '+' :: cs => digits? cs
      | '-' :: cs => digits? cs
      | cs => digits? cs
    else some (c :: cs)

def number? (cs : List Char) : Option (Json × List Char) := do
  let unsigned := match cs with
    | '-' :: cs => cs
    | cs => cs
  let rest ← integer? unsigned
  let rest ← fraction? rest
  let rest ← exponent? rest
  return (number (String.ofList (cs.take (cs.length - rest.length))), rest)

def word? : List Char → List Char → Option (List Char)
  | [], cs => some cs
  | w :: ws, c :: cs => if w = c then word? ws cs else none
  | _ :: _, [] => none

mutual

def value? : Nat → List Char → Option (Json × List Char)
  | 0, _ => none
  | n + 1, cs =>
    match skip cs with
    | [] => none
    | '"' :: rest => (string? rest).map fun (s, rest) => (text s, rest)
    | '[' :: rest =>
      match skip rest with
      | ']' :: rest => some (array [], rest)
      | rest => (items? n rest).map fun (items, rest) => (array items, rest)
    | '\x7b' :: rest =>
      match skip rest with
      | '\x7d' :: rest => some (object [], rest)
      | rest => (members? n rest).map fun (members, rest) => (object members, rest)
    | 'n' :: rest => (word? "ull".toList rest).map fun rest => (null, rest)
    | 't' :: rest => (word? "rue".toList rest).map fun rest => (boolean true, rest)
    | 'f' :: rest => (word? "alse".toList rest).map fun rest => (boolean false, rest)
    | rest => number? rest

def items? : Nat → List Char → Option (List Json × List Char)
  | 0, _ => none
  | n + 1, cs => do
    let (item, rest) ← value? n cs
    match skip rest with
    | ',' :: rest =>
      let (items, rest) ← items? n rest
      return (item :: items, rest)
    | ']' :: rest => return ([item], rest)
    | _ => none

def members? : Nat → List Char → Option (List (Option String × Json) × List Char)
  | 0, _ => none
  | n + 1, cs =>
    match skip cs with
    | '"' :: rest => do
      let (key, rest) ← string? rest
      match skip rest with
      | ':' :: rest =>
        let (value, rest) ← value? n rest
        match skip rest with
        | ',' :: rest =>
          let (members, rest) ← members? n rest
          return ((key, value) :: members, rest)
        | '\x7d' :: rest => return ([(key, value)], rest)
        | _ => none
      | _ => none
    | _ => none

end

/-- The value a whole text spells. Each value, item or member takes a character, so twice as many
steps as characters are enough. -/
def parse? (s : String) : Option Json := do
  let (value, rest) ← value? (2 * s.toList.length + 1) s.toList
  if (skip rest).isEmpty then some value else none

end Json
end FieldFormula
