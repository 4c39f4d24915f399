import FieldFormula.Decimal
import FieldFormula.Operator

/-!
Tokens of a formula. A token keeps the text it was read from and the offset of its first
character, counted in characters from the start of the formula.
-/
namespace FieldFormula

inductive Literal where
  | text (value : String)
  | number (value : Decimal)
  | boolean (value : Bool)
  | date (value : String)
  | null
  deriving DecidableEq, Repr

/-- `conditional` is the keyword `IF`, and `bang` the operator `!`; a minus sign is the operator
`subtract` wherever it stands. -/
inductive Token.Kind where
  | literal (value : Literal)
  | field (name : String)
  | identifier (name : String)
  | conditional
  | operator (op : BinaryOp)
  | bang
  | leftParen
  | rightParen
  | comma
  | semicolon
  | eof
  deriving DecidableEq, Repr

structure Token where
  kind : Token.Kind
  text : String
  position : Nat
  deriving DecidableEq, Repr

def boolText (b : Bool) : String := if b then "true" else "false"

def Literal.display : Literal → String
  | text s => "\"" ++ s ++ "\""
  | number d => d.toText
  | boolean b => boolText b
  | date s => "#" ++ s ++ "#"
  | null => "null"

namespace Token

def Kind.display : Kind → String
  | literal v => v.display
  | field name => "\x7b\x7b" ++ name ++ "\x7d\x7d"
  | identifier name => name
  | conditional => "IF"
  | operator op => op.symbol
  | bang => "!"
  | leftParen => "("
  | rightParen => ")"
  | comma => ","
  | semicolon => ";"
  | eof => "end of formula"

def describe (t : Token) : String :=
  if t.kind = .eof then "end of formula" else "'" ++ t.text ++ "'"

end Token
end FieldFormula
