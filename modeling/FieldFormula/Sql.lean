import FieldFormula.Builtin.Template
import FieldFormula.Token

/-!
SQL expressions as trees and their text. Text is written in single quotes with each quote doubled.
-/
namespace FieldFormula

inductive Sql where
  | text (value : String)
  | number (value : Decimal)
  | boolean (value : Bool)
  | timestamp (value : String)
  | null
  | field (name zero : String)
  | group (inner : Sql)
  | asText (inner : Sql)
  | negate (operand : Sql)
  | not (operand : Sql)
  | isNull (subject : Sql) (negated : Bool)
  | binary (op : BinaryOp) (left right : Sql)
  | concat (left right : Sql)
  | choose (condition yes no : Sql)
  | call (template : Template) (args : List Sql)
  | sequence (items : List Sql)
  deriving Repr

namespace Sql

def quoteChar (c : Char) : List Char := if c = '\'' then ['\'', '\''] else [c]

def quote (s : String) : String := String.ofList ('\'' :: s.toList.flatMap quoteChar ++ ['\''])

def operator : BinaryOp → String
  | .equal => "="
  | .and => "AND"
  | .or => "OR"
  | op => op.symbol

mutual

def render : Sql → String
  | text s => quote s
  | number d => d.toText
  | boolean b => boolText b
  | timestamp s => quote s ++ "::timestamp"
  | null => "NULL"
  | field name zero => "COALESCE($$VARIABLES[" ++ quote name ++ "], " ++ zero ++ ")"
  | group e => "(" ++ e.render ++ ")"
  | asText e => e.render ++ "::text"
  | negate e => "-" ++ e.render
  | not e => "NOT " ++ e.render
  | isNull e negated => e.render ++ (if negated then " IS NOT NULL" else " IS NULL")
  | binary op l r => l.render ++ " " ++ operator op ++ " " ++ r.render
  | concat l r => "CONCAT(" ++ l.render ++ ", " ++ r.render ++ ")"
  | choose c y n =>
    "CASE WHEN " ++ c.render ++ " THEN " ++ y.render ++ " ELSE " ++ n.render ++ " END"
  | call template args => template.fill (renderAll args)
  | sequence items => "; ".intercalate (renderAll items)

def renderAll : List Sql → List String
  | [] => []
  | e :: es => e.render :: renderAll es

end

end Sql
end FieldFormula
