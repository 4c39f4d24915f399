import FieldFormula.Builtin

/-!
A built-in function on one line, for logs.
-/
namespace FieldFormula

def Category.label : Category → String
  | date => "Date"
  | text => "Text"
  | number => "Number"
  | keyword => "Keyword"

def ValueType.label : ValueType → String
  | number => "Number"
  | string => "String"
  | date => "Date"
  | boolean => "Boolean"
  | null => "Null"

def Arity.label : Arity → String
  | exact n => "Exact(" ++ toString n ++ ")"
  | range min none => "Range \x7b min: " ++ toString min ++ ", max: None \x7d"
  | range min (some max) =>
    "Range \x7b min: " ++ toString min ++ ", max: Some(" ++ toString max ++ ") \x7d"

def Builtin.signature (f : Builtin) : String :=
  "FunctionSpec \x7b name: \"" ++ f.name ++ "\", category: " ++ f.category.label ++ ", arity: " ++
    f.arity.label ++ ", returns: " ++ f.returns.label ++ " \x7d"

end FieldFormula
