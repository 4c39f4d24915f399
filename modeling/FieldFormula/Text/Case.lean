/-!
Case of names. Keywords and function names ignore ASCII case only; category names ignore case in
all of Unicode.
-/
namespace FieldFormula.Text

def upper (s : String) : String := String.ofList (s.toList.map Char.toUpper)
def lower (s : String) : String := String.ofList (s.toList.map Char.toLower)

/-- Lower case for comparison with an ASCII word. Besides the ASCII capitals, the Kelvin sign is
the only character whose lower case is ASCII, so no other character needs to change. -/
def foldChar (c : Char) : Char := if c = '\u212a' then 'k' else c.toLower

def fold (s : String) : String := String.ofList (s.toList.map foldChar)

end FieldFormula.Text
