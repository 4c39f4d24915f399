import FieldFormula.Compilation
import FieldFormula.Manual
import FieldFormula.Schema.Json
import FieldFormula.Text.Blank

/-!
Requests to the compiler with the schema given as JSON text, and requests for the manual.
-/
namespace FieldFormula

inductive RequestError where
  | compile (e : CompileError)
  | schema
  | input
  | unknownCategory (name : String)
  deriving DecidableEq, Repr

/-- What is wrong with a schema is not told. -/
def RequestError.message : RequestError → String
  | compile e => "Compile error: " ++ e.message
  | schema => "Invalid field schema: "
  | input => "IO error: stream did not contain valid UTF-8"
  | unknownCategory name => "Unknown category: '" ++ name ++
      "'\nRun 'formula functions' to see available categories."

/-- Blank text is an empty schema, as is none. -/
def Schema.ofText? (text : Option String) : Option Schema :=
  match text with
  | none => some .empty
  | some s => if (Text.trim s.toList).isEmpty then some .empty else parse? s

structure Request where
  formula : String
  schema : Option String
  target : Target
  checkOnly : Bool
  limit : Nat
  deriving DecidableEq, Repr

namespace Request

inductive Answer where
  | compiled (text : String)
  | checked (type : ValueType)
  deriving DecidableEq, Repr

def Answer.text : Answer → String
  | compiled text => text
  | checked type => type.name

def readSchema (r : Request) : Except RequestError Schema :=
  match Schema.ofText? r.schema with
  | some s => .ok s
  | none => .error .schema

/-- The target does not matter to a request that only asks for the type. -/
def execute (r : Request) : Except RequestError Answer := do
  let schema ← r.readSchema
  if r.checkOnly then
    let type ← (check schema r.limit r.formula).mapError .compile
    return .checked type
  else
    let text ← (compile schema r.limit r.target r.formula).mapError .compile
    return .compiled text

end Request

def Manual.pageOf (name : String) : Except RequestError String :=
  match Category.ofName? name with
  | some category => .ok (page category)
  | none => .error (.unknownCategory name)

end FieldFormula
