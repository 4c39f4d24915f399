import FieldFormula.Builtin.Arithmetic
import FieldFormula.Builtin.Calendar
import FieldFormula.Builtin.Logic
import FieldFormula.Builtin.Text
import FieldFormula.Text.Case

/-!
The registry of all built-in functions, by category, and how they are found by name.
-/
namespace FieldFormula

namespace Category

def all : List Category := [date, text, number, keyword]

def functions : Category → List Builtin
  | date => Builtin.dateFunctions
  | text => Builtin.textFunctions
  | number => Builtin.numberFunctions
  | keyword => Builtin.keywordFunctions

def aliases : Category → List String
  | date => ["date", "dates", "datetime"]
  | text => ["text", "string", "strings"]
  | number => ["number", "numbers", "math"]
  | keyword => ["keyword", "keywords", "logical"]

def ofName? (name : String) : Option Category :=
  all.find? fun category => category.aliases.contains (Text.fold name)

end Category

namespace Builtin

def all : List Builtin := Category.all.flatMap Category.functions

def find? (name : String) : Option Builtin := all.find? fun f => f.name == Text.upper name

end Builtin
end FieldFormula
