import FieldFormula.Builtin.Registry
import FieldFormula.Expr

/-!
Parsing tokens into expressions. Operators bind left to right by their strength, and comparisons
do not chain. Nesting is bounded by a limit to which groups, calls, prefixed operators and every
operator of a chain count. A parser may be asked again after it has answered or failed; the tokens
read, the numbers given to nodes and the depth reached at a failure carry over.
-/
namespace FieldFormula

inductive ParseError.Cause where
  | unexpected (found : String)
  | expected (wanted found : String)
  | unknownFunction (name : String)
  | wrongArity (name : String) (arity : Arity) (given : Nat)
  | tooDeep (limit : Nat)
  deriving DecidableEq, Repr

structure ParseError where
  cause : ParseError.Cause
  position : Nat
  deriving DecidableEq, Repr

namespace ParseError

def Cause.message : Cause → String
  | unexpected found => "Unexpected " ++ found
  | expected wanted found => "Expected " ++ wanted ++ " but found " ++ found
  | unknownFunction name => "Unknown function " ++ name
  | wrongArity name arity given =>
    "Function " ++ name ++ " expects " ++ arity.display ++ " but got " ++ toString given
  | tooDeep limit => "Formula is nested deeper than " ++ toString limit ++ " levels"

def message (e : ParseError) : String :=
  e.cause.message ++ " on the position " ++ toString e.position

end ParseError

/-- A parser stands on the token `current`, before those `ahead`. The last token is never left.
`origin` is the position of the formula's first token. -/
structure Parser where
  current : Token
  ahead : List Token
  origin : Nat
  nextId : Nat
  depth : Nat
  limit : Nat
  deriving DecidableEq, Repr

abbrev ParseM := EStateM ParseError Parser

namespace Parser

def defaultLimit : Nat := 64

def closing (last : Token) : List Token :=
  if last.kind = .eof then [] else [⟨.eof, "", last.position + last.text.length⟩]

def ofTokens (limit : Nat) : List Token → Parser
  | [] => ⟨⟨.eof, "", 0⟩, [], 0, 0, 0, limit⟩
  | t :: ts => ⟨t, ts ++ closing (ts.getLastD t), t.position, 0, 0, limit⟩

def step (p : Parser) : Parser :=
  match p.ahead with
  | [] => p
  | t :: ts => { p with current := t, ahead := ts }

def peek : ParseM Token := fun p => .ok p.current p
def advance : ParseM Unit := fun p => .ok () p.step

def expect (kind : Token.Kind) (wanted : String) : ParseM Unit := do
  let t ← peek
  if t.kind = kind then advance else throw ⟨.expected wanted t.describe, t.position⟩

/-- One level deeper. The level counts also when it is one too many. -/
def enter (position : Nat) : ParseM Unit := fun p =>
  let deeper := { p with depth := p.depth + 1 }
  if p.depth < p.limit then .ok () deeper else .error ⟨.tooDeep p.limit, position⟩ deeper

def leave (levels : Nat) : ParseM Unit := fun p => .ok () { p with depth := p.depth - levels }

def mark (position : Nat) : ParseM Mark := fun p =>
  .ok ⟨p.nextId, position⟩ { p with nextId := p.nextId + 1 }

/-- The answer when the allotted steps run out, which they never do. -/
def exhausted {α : Type} : ParseM α := fun p =>
  .error ⟨.tooDeep p.limit, p.current.position⟩ p

/-- The operator that goes on a chain of operands. It binds at least as tightly as `least`, and is
no comparison when the chain has just been compared. -/
def infixOp? (least : Nat) (compared : Bool) : Token.Kind → Option BinaryOp
  | .operator op =>
    if op.strength < least || (compared && op.isComparison) then none else some op
  | _ => none

def prefixOp? : Token.Kind → Option UnaryOp
  | .operator .subtract => some .negate
  | .bang => some .not
  | _ => none

mutual

def binary : Nat → Nat → ParseM Expr
  | 0, _ => exhausted
  | n + 1, least => do
    let left ← unary n
    chain n least left 0 false
termination_by structural n => n

def chain : Nat → Nat → Expr → Nat → Bool → ParseM Expr
  | 0, _, _, _, _ => exhausted
  | n + 1, least, left, length, compared => do
    let t ← peek
    match infixOp? least compared t.kind with
    | none =>
      leave length
      return left
    | some op =>
      advance
      enter t.position
      let right ← binary n (op.strength + 1)
      let m ← mark t.position
      chain n least (.binary m op left right) (length + 1) op.isComparison
termination_by structural n => n

def unary : Nat → ParseM Expr
  | 0 => exhausted
  | n + 1 => do
    let t ← peek
    match prefixOp? t.kind with
    | none => primary n
    | some op =>
      advance
      enter t.position
      let operand ← unary n
      leave 1
      let m ← mark t.position
      return .unary m op operand
termination_by structural n => n

def primary : Nat → ParseM Expr
  | 0 => exhausted
  | n + 1 => do
    let t ← peek
    match t.kind with
    | .literal value =>
      advance
      let m ← mark t.position
      return .literal m value
    | .field name =>
      advance
      let m ← mark t.position
      return .field m name
    | .leftParen =>
      advance
      enter t.position
      let inner ← binary n 0
      expect .rightParen "')'"
      leave 1
      let m ← mark t.position
      return .group m inner
    | .conditional =>
      advance
      expect .leftParen "'(' after IF"
      enter t.position
      let condition ← binary n 0
      expect .comma "','"
      let yes ← binary n 0
      expect .comma "','"
      let no ← binary n 0
      expect .rightParen "')'"
      leave 1
      let m ← mark t.position
      return .conditional m condition yes no
    | .identifier name =>
      advance
      call n name t.position
    | _ => throw ⟨.unexpected t.describe, t.position⟩
termination_by structural n => n

def call : Nat → String → Nat → ParseM Expr
  | 0, _, _ => exhausted
  | n + 1, name, position => do
    let t ← peek
    if t.kind = .leftParen then
      match Builtin.find? name with
      | none => throw ⟨.unknownFunction name, position⟩
      | some f =>
        advance
        enter position
        let args ← arguments n
        expect .rightParen "')'"
        leave 1
        if f.arity.accepts args.length then
          let m ← mark position
          return .call m f.name args
        else throw ⟨.wrongArity f.name f.arity args.length, position⟩
    else throw ⟨.unexpected ("'" ++ name ++ "'"), position⟩
termination_by structural n => n

def arguments : Nat → ParseM (List Expr)
  | 0 => exhausted
  | n + 1 => do
    let t ← peek
    if t.kind = .rightParen then return [] else argumentsFrom n
termination_by structural n => n

def argumentsFrom : Nat → ParseM (List Expr)
  | 0 => exhausted
  | n + 1 => do
    let first ← binary n 0
    let t ← peek
    if t.kind = .comma then
      advance
      let others ← argumentsFrom n
      return first :: others
    else return [first]
termination_by structural n => n

end

/-- Steps enough for the tokens left: at most six calls are made from one token to the next. -/
def steps (p : Parser) : Nat := 6 * (p.ahead.length + 1)

def expression : ParseM Expr := fun p => binary p.steps 0 p

def statements : Nat → ParseM (List Expr)
  | 0 => exhausted
  | n + 1 => do
    let first ← expression
    let t ← peek
    if t.kind = .semicolon then
      advance
      let next ← peek
      if next.kind = .eof then return [first]
      else
        let others ← statements n
        return first :: others
    else return [first]

def formula : ParseM Expr := do
  let p ← get
  let items ← statements p.steps
  expect .eof "end of formula"
  match items with
  | [item] => return item
  | _ =>
    let m ← mark p.origin
    return .sequence m items

end Parser
end FieldFormula
