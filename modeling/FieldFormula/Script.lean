import FieldFormula.Builtin.Template
import FieldFormula.Text.Quoted
import FieldFormula.Token

/-!
Script expressions as trees and their text. Dates are ISO text; they are compared through
`DateTime`.
-/
namespace FieldFormula

inductive Script where
  | text (value : String)
  | number (value : Decimal)
  | boolean (value : Bool)
  | null
  | field (name zero : String)
  | group (inner : Script)
  | negate (operand : Script)
  | not (operand : Script)
  | isNull (subject : Script) (negated : Bool)
  | binary (op : BinaryOp) (left right : Script)
  | power (base exponent : Script)
  | interpolate (left right : Script)
  | orEmpty (inner : Script)
  | stringOf (inner : Script)
  | instant (date : Script)
  | isoText (instant : Script)
  | millis (instant : Script)
  | choose (condition yes no : Script)
  | call (template : Template) (args : List Script)
  | sequence (items : List Script)
  deriving Repr

namespace Script

def quote (s : String) : String := Text.doubleQuoted s
def quoteKey (s : String) : String := Text.singleQuoted s

def operator : BinaryOp → String
  | .equal => "==="
  | .notEqual => "!=="
  | op => op.symbol

mutual

def render : Script → String
  | text s => quote s
  | number d => d.toText
  | boolean b => boolText b
  | null => "null"
  | field name zero => "($$VARIABLES[" ++ quoteKey name ++ "] ?? " ++ zero ++ ")"
  | group e => "(" ++ e.render ++ ")"
  | negate e => "-" ++ e.render
  | not e => "!" ++ e.render
  | isNull e negated => e.render ++ (if negated then " != null" else " == null")
  | binary op l r => l.render ++ " " ++ operator op ++ " " ++ r.render
  | power b e => "Math.pow(" ++ b.render ++ ", " ++ e.render ++ ")"
  | interpolate l r => "`$\x7b" ++ l.render ++ "\x7d$\x7b" ++ r.render ++ "\x7d`"
  | orEmpty e => e.render ++ " ?? ''"
  | stringOf e => "String(" ++ e.render ++ ")"
  | instant e => "DateTime.fromISO(" ++ e.render ++ ", \x7b zone: 'utc'\x7d)"
  | isoText e => e.render ++ ".toString()"
  | millis e => e.render ++ ".toMillis()"
  | choose c y n => "(" ++ c.render ++ " ? " ++ y.render ++ " : " ++ n.render ++ ")"
  | call template args => template.fill (renderAll args)
  | sequence items => "; ".intercalate (renderAll items)

def renderAll : List Script → List String
  | [] => []
  | e :: es => e.render :: renderAll es

end

end Script
end FieldFormula
