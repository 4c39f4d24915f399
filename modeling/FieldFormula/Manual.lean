import FieldFormula.Builtin.Registry

/-!
The manual that the command line shows: an overview of the language and one page per category of
functions.
-/
namespace FieldFormula.Manual

def pad (width : Nat) (s : String) : String := String.ofList (s.toList.rightpad width ' ')

def introduction : List String :=
  ["FORMULA LANGUAGE",
   "",
   "Formulas define computed fields. They compile to a SQL expression for the",
   "server and a JavaScript expression for the client.",
   "",
   "SYNTAX",
   "",
   "  \x7b\x7bField name\x7d\x7d      Field reference (declared in the field schema)",
   "  42  3.5             Numbers",
   "  \"text\"  'text'      Text, with \\n \\t \\r \\\" \\' \\\\ escapes",
   "  #2024-01-31#        Date",
   "  true  false  null   Constants",
   "  IF(cond, a, b)      Conditional; both branches must have the same type",
   "  NAME(args)          Function call",
   "",
   "OPERATORS (loosest first)",
   "",
   "  ||                  Logical or",
   "  &&                  Logical and",
   "  == != > >= < <=     Comparison (== and != compare as text across types)",
   "  &                   Text concatenation",
   "  + -                 Addition (text concatenation with a text literal)",
   "  * / %               Multiplication, division, remainder",
   "  ^                   Power",
   "  - !                 Negation, logical not",
   "",
   "FUNCTION CATEGORIES"]

def categoryLine (category : Category) : String :=
  "  " ++ pad 10 category.name ++ " ".intercalate (category.functions.map Builtin.name)

def overview : String :=
  "\n".intercalate (introduction ++ [""] ++ Category.all.map categoryLine ++
    ["", "Run 'formula functions <category>' for details.", ""])

def functionLine (f : Builtin) : String :=
  "  " ++ pad 16 f.name ++ pad 22 f.arity.display ++ "-> " ++ pad 8 f.returns.name ++ f.summary

def page (category : Category) : String :=
  "\n".intercalate ([Text.upper category.name ++ " FUNCTIONS", ""] ++
    category.functions.map functionLine ++ [""])

end FieldFormula.Manual
