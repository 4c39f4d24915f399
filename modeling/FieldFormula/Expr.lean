import FieldFormula.Token

/-!
Expressions of formulas. Every node carries its number within the formula and the position it is
reported at: the operator of an operation, the opening parenthesis of a group, the name of a call.
-/
namespace FieldFormula

structure Mark where
  id : Nat
  position : Nat
  deriving DecidableEq, Repr

inductive Expr where
  | literal (mark : Mark) (value : Literal)
  | field (mark : Mark) (name : String)
  | binary (mark : Mark) (op : BinaryOp) (left right : Expr)
  | unary (mark : Mark) (op : UnaryOp) (operand : Expr)
  | group (mark : Mark) (inner : Expr)
  | conditional (mark : Mark) (condition yes no : Expr)
  | call (mark : Mark) (name : String) (args : List Expr)
  | sequence (mark : Mark) (items : List Expr)
  deriving Repr

namespace Expr

def mark : Expr → Mark
  | literal m _ | field m _ | binary m _ _ _ | unary m _ _ | group m _ | conditional m _ _ _
  | call m _ _ | sequence m _ => m

def id (e : Expr) : Nat := e.mark.id
def position (e : Expr) : Nat := e.mark.position

/-- A literal, also within parentheses. Only these become text when added to text. -/
def isConstant : Expr → Bool
  | literal _ _ => true
  | group _ inner => inner.isConstant
  | _ => false

def isOperation : Expr → Bool
  | binary _ _ _ _ | unary _ _ _ => true
  | _ => false

def isNot : Expr → Bool
  | unary _ .not _ => true
  | _ => false

mutual

def nodes : Expr → List Expr
  | literal m v => [literal m v]
  | field m name => [field m name]
  | binary m op l r => l.nodes ++ r.nodes ++ [binary m op l r]
  | unary m op e => e.nodes ++ [unary m op e]
  | group m e => e.nodes ++ [group m e]
  | conditional m c y n => c.nodes ++ y.nodes ++ n.nodes ++ [conditional m c y n]
  | call m name args => nodesOf args ++ [call m name args]
  | sequence m items => nodesOf items ++ [sequence m items]

def nodesOf : List Expr → List Expr
  | [] => []
  | e :: es => e.nodes ++ nodesOf es

end

end Expr
end FieldFormula
