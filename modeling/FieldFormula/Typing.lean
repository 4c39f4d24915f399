import FieldFormula.Builtin.Registry
import FieldFormula.Expr
import FieldFormula.Schema

/-!
Types of expressions. Every node of known type is entered in a table under its number. A
conditional whose branches disagree has no type of its own: an operator that takes it as operand is
blamed for it, and everything else blames the conditional.
-/
namespace FieldFormula

inductive TypeError.Culprit where
  | binary (op : BinaryOp)
  | unary (op : UnaryOp)
  | conditional
  deriving DecidableEq, Repr

inductive TypeError.Cause where
  | mismatch (culprit : TypeError.Culprit)
  | unknownField (name : String)
  deriving DecidableEq, Repr

structure TypeError where
  cause : TypeError.Cause
  position : Nat
  deriving DecidableEq, Repr

namespace TypeError

def Culprit.symbol : Culprit → String
  | binary op => op.symbol
  | unary op => op.symbol
  | conditional => "IF"

def Cause.message : Cause → String
  | mismatch culprit => "Unexpected type of data when " ++ culprit.symbol
  | unknownField name => "Unknown variable \x7b\x7b" ++ name ++ "\x7d\x7d"

def message (e : TypeError) : String :=
  e.cause.message ++ " on the position " ++ toString e.position

end TypeError

structure TypeTable where
  entries : List (Nat × ValueType)
  deriving DecidableEq, Repr

namespace TypeTable

def empty : TypeTable := ⟨[]⟩
def get? (table : TypeTable) (id : Nat) : Option ValueType := table.entries.lookup id
def record (table : TypeTable) (id : Nat) (t : ValueType) : TypeTable := ⟨(id, t) :: table.entries⟩

/-- A node without an entry counts as null. -/
def typeOf (table : TypeTable) (e : Expr) : ValueType := (table.get? e.id).getD .null

end TypeTable

def Literal.type : Literal → ValueType
  | text _ => .string
  | number _ => .number
  | boolean _ => .boolean
  | date _ => .date
  | null => .null

/-- The type that an operand must fit, which is also the type of the result. -/
def UnaryOp.type : UnaryOp → ValueType
  | negate => .number
  | not => .boolean

/-- The type of `left op right` by the types of the operands. Text and a value of another type add
up to text only if one operand is a constant. -/
def BinaryOp.type? (op : BinaryOp) (constant : Bool) (l r : ValueType) : Option ValueType :=
  match op with
  | add =>
    match l.unify? r with
    | some .number | some .null => some .number
    | some .string => some .string
    | some _ => none
    | none => if (l == .string || r == .string) && constant then some .string else none
  | subtract | multiply | divide | modulo | power =>
    if l.fits .number && r.fits .number then some .number else none
  | equal | notEqual => some .boolean
  | less | greater | lessEqual | greaterEqual =>
    match l.unify? r with
    | some .number | some .date | some .null => some .boolean
    | _ => none
  | and | or => if l.fits .boolean && r.fits .boolean then some .boolean else none
  | concat => some .string

namespace Typing

inductive Resolved where
  | known (t : ValueType)
  | mixed (position : Nat)
  deriving DecidableEq, Repr

/-- A step of typing: entries made before an error stay. -/
abbrev TypeM := EStateM TypeError TypeTable

def mismatch {α : Type} (culprit : TypeError.Culprit) (position : Nat) : TypeM α :=
  throw ⟨.mismatch culprit, position⟩

def settle : Resolved → TypeM ValueType
  | .known t => return t
  | .mixed position => mismatch .conditional position

def conclude (m : Mark) (r : Resolved) : TypeM Resolved := do
  match r with
  | .known t => modify (·.record m.id t)
  | .mixed _ => pure ()
  return r

/-- What a conditional at `position` gives; the first disagreement within counts. -/
def merge (position : Nat) : Resolved → Resolved → Resolved
  | .known a, .known b =>
    match a.unify? b with
    | some t => .known t
    | none => .mixed position
  | .mixed p, _ => .mixed p
  | _, .mixed p => .mixed p

mutual

def resolveNode (schema : Schema) : Expr → TypeM Resolved
  | .literal m value => conclude m (.known value.type)
  | .field m name =>
    match schema.get? name with
    | none => throw ⟨.unknownField name, m.position⟩
    | some field => conclude m (.known field.type)
  | .binary m op left right => do
    let l ← resolveNode schema left
    let r ← resolveNode schema right
    match l, r with
    | .known a, .known b =>
      match op.type? (left.isConstant || right.isConstant) a b with
      | some t => conclude m (.known t)
      | none => mismatch (.binary op) m.position
    | _, _ => mismatch (.binary op) m.position
  | .unary m op operand => do
    let r ← resolveNode schema operand
    match r with
    | .known t =>
      if t.fits op.type then conclude m (.known op.type) else mismatch (.unary op) m.position
    | .mixed _ => mismatch (.unary op) m.position
  | .group m inner => do
    let r ← resolveNode schema inner
    conclude m r
  | .conditional m condition yes no => do
    let c ← resolveNode schema condition
    let t ← settle c
    if t.fits .boolean then
      let a ← resolveNode schema yes
      let b ← resolveNode schema no
      conclude m (merge m.position a b)
    else mismatch .conditional m.position
  | .call m name args => do
    let _ ← resolveItems schema .null args
    conclude m (.known ((Builtin.find? name).elim .null Builtin.returns))
  | .sequence m items => do
    let last ← resolveItems schema .null items
    conclude m (.known last)

def resolveItems (schema : Schema) : ValueType → List Expr → TypeM ValueType
  | last, [] => return last
  | _, item :: items => do
    let r ← resolveNode schema item
    let t ← settle r
    resolveItems schema t items

end

def resolve (schema : Schema) (e : Expr) : TypeM ValueType := do
  let r ← resolveNode schema e
  settle r

def infer (schema : Schema) (e : Expr) : Except TypeError (ValueType × TypeTable) :=
  match resolve schema e .empty with
  | .ok t table => .ok (t, table)
  | .error err _ => .error err

end Typing
end FieldFormula
