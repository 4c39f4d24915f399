import FieldFormula.Expr.Parser
import FieldFormula.Script.Generation
import FieldFormula.Sql.Generation
import FieldFormula.Token.Scanner

/-!
From the source of a formula to its type and to the text of either target.
-/
namespace FieldFormula

inductive CompileError where
  | lex (e : LexError)
  | parse (e : ParseError)
  | type (e : TypeError)
  deriving DecidableEq, Repr

namespace CompileError

inductive Kind where
  | lex | parse | unknownVariable | typeMismatch | tooDeep
  deriving DecidableEq, Repr

def kind : CompileError → Kind
  | lex _ => .lex
  | parse ⟨.tooDeep _, _⟩ => .tooDeep
  | parse _ => .parse
  | type ⟨.unknownField _, _⟩ => .unknownVariable
  | type ⟨.mismatch _, _⟩ => .typeMismatch

def position : CompileError → Nat
  | lex e => e.position
  | parse e => e.position
  | type e => e.position

def message : CompileError → String
  | lex e => e.message
  | parse e => e.message
  | type e => e.message

end CompileError

inductive Target where
  | sql | script
  deriving DecidableEq, Repr

namespace Target

def default : Target := sql

def name : Target → String
  | sql => "sql"
  | script => "script"

def generate (target : Target) (types : TypeTable) (e : Expr) : String :=
  match target with
  | sql => (Sql.ofExpr types e).render
  | script => (Script.ofExpr types e).render

end Target

def parseTokens (limit : Nat) (tokens : List Token) : Except ParseError Expr :=
  match Parser.formula (.ofTokens limit tokens) with
  | .ok e _ => .ok e
  | .error err _ => .error err

def parse (limit : Nat) (source : String) : Except CompileError Expr := do
  let tokens ← (tokenize source).mapError .lex
  (parseTokens limit tokens).mapError .parse

def check (schema : Schema) (limit : Nat) (source : String) : Except CompileError ValueType := do
  let e ← parse limit source
  let (t, _) ← (Typing.infer schema e).mapError .type
  return t

def compile (schema : Schema) (limit : Nat) (target : Target) (source : String) :
    Except CompileError String := do
  let e ← parse limit source
  let (_, types) ← (Typing.infer schema e).mapError .type
  return target.generate types e

end FieldFormula
