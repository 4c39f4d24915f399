/-!
Operators of formulas and how tightly they bind.
-/
namespace FieldFormula

inductive BinaryOp where
  | equal | notEqual | less | greater | lessEqual | greaterEqual
  | add | subtract | multiply | divide | modulo | power
  | and | or
  | concat
  deriving DecidableEq, Repr

namespace BinaryOp

def symbol : BinaryOp → String
  | equal => "=="
  | notEqual => "!="
  | less => "<"
  | greater => ">"
  | lessEqual => "<="
  | greaterEqual => ">="
  | add => "+"
  | subtract => "-"
  | multiply => "*"
  | divide => "/"
  | modulo => "%"
  | power => "^"
  | and => "&&"
  | or => "||"
  | concat => "&"

def strength : BinaryOp → Nat
  | or => 1
  | and => 2
  | equal | notEqual | less | greater | lessEqual | greaterEqual => 3
  | concat => 4
  | add | subtract => 5
  | multiply | divide | modulo => 6
  | power => 7

def isComparison (op : BinaryOp) : Bool := op.strength == 3

def isEquality (op : BinaryOp) : Bool := op == equal || op == notEqual

def isOrder (op : BinaryOp) : Bool := op.isComparison && !op.isEquality

end BinaryOp

inductive UnaryOp where
  | negate | not
  deriving DecidableEq, Repr

def UnaryOp.symbol : UnaryOp → String
  | negate => "-"
  | not => "!"

end FieldFormula
