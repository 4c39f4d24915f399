/-!
Types of values. `null` is the type of the null literal; it goes with every other type.
-/
namespace FieldFormula

inductive ValueType where
  | number | string | date | boolean | null
  deriving DecidableEq, Repr

namespace ValueType

def name : ValueType → String
  | number => "number"
  | string => "string"
  | date => "date"
  | boolean => "boolean"
  | null => "null"

def unify? : ValueType → ValueType → Option ValueType
  | null, t => some t
  | t, null => some t
  | a, b => if a = b then some a else none

def fits (t expected : ValueType) : Bool := t == expected || t == null

end ValueType
end FieldFormula
