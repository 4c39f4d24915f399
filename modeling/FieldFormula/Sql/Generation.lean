import FieldFormula.Sql
import FieldFormula.Typing

/-!
The SQL expression of a typed formula. Groups of the formula stay; others are added only where SQL
would read the text differently: around `NOT` as an operand, around an operation before a cast, and
around a negated operand that starts with a minus sign.
-/
namespace FieldFormula.Sql

def zero : ValueType → String
  | .number => "0"
  | .string => "''"
  | .boolean => "false"
  | .date | .null => "NULL"

/-- Two minus signs in a row would start a comment. -/
def negated (operand : Sql) : Sql :=
  if operand.render.toList.head? = some '-' then negate (group operand) else negate operand

/-- `sql` as the operand that the expression `e` stands for; `NOT` binds looser than comparisons. -/
def operand (e : Expr) (sql : Sql) : Sql := if e.isNot then group sql else sql

def castText (e : Expr) (sql : Sql) : Sql := asText (if e.isOperation then group sql else sql)

def ofLiteral : Literal → Sql
  | .text s => text s
  | .number d => number d
  | .boolean b => boolean b
  | .date s => timestamp s
  | .null => null

/-- The operation `op` of type `type` on the expressions `left` and `right`, with their SQL.
Equality with a null is a test of the other operand, and equality of values of different types
compares their texts. -/
def ofBinary (types : TypeTable) (op : BinaryOp) (type : ValueType) (left right : Expr)
    (sl sr : Sql) : Sql :=
  let l := types.typeOf left
  let r := types.typeOf right
  if op = .add ∧ type = .string then concat (castText left sl) (castText right sr)
  else if op.isEquality then
    if l = .null then isNull (operand right sr) (op == .notEqual)
    else if r = .null then isNull (operand left sl) (op == .notEqual)
    else if l ≠ r then binary op (castText left sl) (castText right sr)
    else binary op (operand left sl) (operand right sr)
  else if op = .concat then concat sl sr
  else binary op (operand left sl) (operand right sr)

mutual

def ofExpr (types : TypeTable) : Expr → Sql
  | .literal _ value => ofLiteral value
  | .field m name => field name (zero (types.typeOf (.field m name)))
  | .binary m op left right =>
    ofBinary types op (types.typeOf (.binary m op left right)) left right (ofExpr types left)
      (ofExpr types right)
  | .unary _ .negate e => negated (ofExpr types e)
  | .unary _ .not e => not (operand e (ofExpr types e))
  | .group _ e => group (ofExpr types e)
  | .conditional _ c y n => choose (ofExpr types c) (ofExpr types y) (ofExpr types n)
  | .call _ name args =>
    call ((Builtin.find? name).elim (.plain (Template.call name)) Builtin.sql) (ofExprs types args)
  | .sequence _ items => sequence (ofExprs types items)

def ofExprs (types : TypeTable) : List Expr → List Sql
  | [] => []
  | e :: es => ofExpr types e :: ofExprs types es

end

end FieldFormula.Sql
