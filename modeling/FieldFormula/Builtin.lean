import FieldFormula.Builtin.Template
import FieldFormula.ValueType

/-!
Built-in functions: how many arguments each takes, what it gives, and one template per target.
-/
namespace FieldFormula

inductive Category where
  | date | text | number | keyword
  deriving DecidableEq, Repr

def Category.name : Category → String
  | date => "date"
  | text => "text"
  | number => "number"
  | keyword => "keyword"

inductive Arity where
  | exact (count : Nat)
  | range (min : Nat) (max : Option Nat)
  deriving DecidableEq, Repr

namespace Arity

def accepts : Arity → Nat → Bool
  | exact n, count => count == n
  | range min max, count => decide (min ≤ count) && max.all (fun m => decide (count ≤ m))

def display : Arity → String
  | exact 1 => "1 argument"
  | exact n => toString n ++ " arguments"
  | range min none => "at least " ++ toString min ++ " arguments"
  | range min (some max) => toString min ++ " to " ++ toString max ++ " arguments"

end Arity

structure Builtin where
  name : String
  category : Category
  arity : Arity
  returns : ValueType
  summary : String
  sql : Template
  script : Template
  deriving DecidableEq, Repr

end FieldFormula
