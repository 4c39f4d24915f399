import FieldFormula.Script
import FieldFormula.Typing

/-!
The script expression of a typed formula. Groups of the formula stay; one is added around a negated
operand that starts with a minus sign. Text that may be null is interpolated as empty text.
-/
namespace FieldFormula.Script

def zero : ValueType → String
  | .number => "0"
  | .string => "''"
  | .boolean => "false"
  | .date | .null => "null"

/-- Two minus signs in a row would be a decrement. -/
def negated (operand : Script) : Script :=
  if operand.render.toList.head? = some '-' then negate (group operand) else negate operand

def ofLiteral : Literal → Script
  | .text s => text s
  | .number d => number d
  | .boolean b => boolean b
  | .date s => isoText (instant (text s))
  | .null => null

def mayBeNull : ValueType → Bool
  | .date | .null => true
  | _ => false

def nullable (types : TypeTable) : Expr → Bool
  | .literal _ value => value == .null
  | .group _ inner => nullable types inner
  | .conditional _ _ yes no => nullable types yes || nullable types no
  | .field m name => mayBeNull (types.typeOf (.field m name))
  | .call m name args => mayBeNull (types.typeOf (.call m name args))
  | _ => false

def interpolated (types : TypeTable) (e : Expr) (script : Script) : Script :=
  if nullable types e then orEmpty script else script

def instantOf (e : Expr) (script : Script) : Script :=
  match e with
  | .literal _ (.date s) => instant (text s)
  | _ => instant script

/-- The operation `op` of type `type` on the expressions `left` and `right`, with their script.
Equality with a null is a test of the other operand, dates are compared as instants, and equality
of values of different types compares their texts. -/
def ofBinary (types : TypeTable) (op : BinaryOp) (type : ValueType) (left right : Expr)
    (sl sr : Script) : Script :=
  let l := types.typeOf left
  let r := types.typeOf right
  if op = .concat ∨ op = .add ∧ type = .string then
    interpolate (interpolated types left sl) (interpolated types right sr)
  else if op.isEquality then
    if l = .null then isNull sr (op == .notEqual)
    else if r = .null then isNull sl (op == .notEqual)
    else if l ≠ r then binary op (stringOf sl) (stringOf sr)
    else if l = .date then
      binary op (isoText (instantOf left sl)) (isoText (instantOf right sr))
    else binary op sl sr
  else if op.isOrder ∧ (l = .date ∨ r = .date) then
    binary op (millis (instantOf left sl)) (millis (instantOf right sr))
  else if op = .power then power sl sr
  else binary op sl sr

mutual

def ofExpr (types : TypeTable) : Expr → Script
  | .literal _ value => ofLiteral value
  | .field m name => field name (zero (types.typeOf (.field m name)))
  | .binary m op left right =>
    ofBinary types op (types.typeOf (.binary m op left right)) left right (ofExpr types left)
      (ofExpr types right)
  | .unary _ .negate e => negated (ofExpr types e)
  | .unary _ .not e => not (ofExpr types e)
  | .group _ e => group (ofExpr types e)
  | .conditional _ c y n => choose (ofExpr types c) (ofExpr types y) (ofExpr types n)
  | .call _ name args =>
    call ((Builtin.find? name).elim (.plain (Template.call name)) Builtin.script)
      (ofExprs types args)
  | .sequence _ items => sequence (ofExprs types items)

def ofExprs (types : TypeTable) : List Expr → List Script
  | [] => []
  | e :: es => ofExpr types e :: ofExprs types es

end

end FieldFormula.Script
