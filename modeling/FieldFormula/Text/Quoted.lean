/-!
Text between double quotes with the escapes of JSON: a quote and a backslash are preceded by a
backslash, control characters have a letter or four hexadecimal digits, all else stands for itself.
-/
namespace FieldFormula.Text

def hexDigit (n : Nat) : Char := Nat.digitChar (n % 16)

def hexDigits (n : Nat) : List Char :=
  [hexDigit (n / 4096), hexDigit (n / 256), hexDigit (n / 16), hexDigit n]

def escapeChar (c : Char) : List Char :=
  if c = '"' then ['\\', '"']
  else if c = '\\' then ['\\', '\\']
  else if c = '\x08' then ['\\', 'b']
  else if c = '\x0c' then ['\\', 'f']
  else if c = '\n' then ['\\', 'n']
  else if c = '\r' then ['\\', 'r']
  else if c = '\t' then ['\\', 't']
  else if c.toNat < 0x20 then '\\' :: 'u' :: hexDigits c.toNat
  else [c]

/-- The escapes between single quotes, where a single quote needs one itself. -/
def escapeKeyChar (c : Char) : List Char := if c = '\'' then ['\\', '\''] else escapeChar c

def doubleQuoted (s : String) : String :=
  String.ofList ('"' :: s.toList.flatMap escapeChar ++ ['"'])

def singleQuoted (s : String) : String :=
  String.ofList ('\'' :: s.toList.flatMap escapeKeyChar ++ ['\''])

end FieldFormula.Text
