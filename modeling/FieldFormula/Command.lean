import FieldFormula.Command.Arguments
import FieldFormula.Request

/-!
The commands of the program and what each prints.
-/
namespace FieldFormula

inductive Command where
  | formula (request : Request)
  | manual (category : Option String)
  deriving DecidableEq, Repr

structure Outcome where
  code : Nat
  stdout : String
  stderr : String
  deriving DecidableEq, Repr

namespace Command

def version : String := "formula 0.1.0\n"

def usage : String :=
  "Usage: formula [-v] sql|script|check FORMULA [-f JSON] [--max-depth N]\n" ++
  "       formula [-v] functions [CATEGORY]\n"

def ofFormulaWords (target : Target) (checkOnly : Bool) (words : List String) :
    Except Stop Command := do
  let a ← Arguments.readWords .formula {} none words
  match a.plain with
  | [text] =>
    return formula ⟨text, a.fields, target, checkOnly, a.limit.getD Parser.defaultLimit⟩
  | _ => throw .misuse

def ofManualWords (words : List String) : Except Stop Command := do
  let a ← Arguments.readWords .manual {} none words
  return .manual a.plain.head?

def names : List String := ["sql", "script", "check", "functions", "help"]

def ofHelpWords : List String → Stop
  | [] => .help
  | [name] => if names.contains name then .help else .misuse
  | _ => .misuse

def ofName (name : String) (words : List String) : Except Stop Command :=
  match name with
  | "sql" => ofFormulaWords .sql false words
  | "script" => ofFormulaWords .script false words
  | "check" => ofFormulaWords .sql true words
  | "functions" => ofManualWords words
  | "help" => .error (ofHelpWords words)
  | _ => .error .misuse

def ofWords : Arguments → List String → Except Stop Command
  | _, [] => .error .misuse
  | a, word :: words =>
    match Word.ofText word with
    | .separator => .error .misuse
    | .plain name => ofName name words
    | w => do
      let (a, _) ← a.readWord .program w
      ofWords a words

def readsInput : Command → Bool
  | formula request => request.schema.isNone
  | manual _ => false

/-- The schema text of a command: given with it, or else the standard input, if there is one. -/
def schemaText (fields : Option String) (input : Option ByteArray) :
    Except RequestError (Option String) :=
  match fields, input with
  | some text, _ => .ok (some text)
  | none, none => .ok none
  | none, some bytes =>
    match String.fromUTF8? bytes with
    | some text => .ok (some text)
    | none => .error .input

def output (input : Option ByteArray) : Command → Except RequestError String
  | formula request => do
    let schema ← schemaText request.schema input
    let answer ← { request with schema := schema }.execute
    return answer.text ++ "\n"
  | manual none => return Manual.overview
  | manual (some name) => Manual.pageOf name

def run (input : Option ByteArray) (c : Command) : Outcome :=
  match c.output input with
  | .ok text => ⟨0, text, ""⟩
  | .error e => ⟨1, "", e.message ++ "\n"⟩

def Stop.outcome : Stop → Outcome
  | misuse => ⟨2, "", usage⟩
  | help => ⟨0, usage, ""⟩
  | version => ⟨0, Command.version, ""⟩

def runWords (words : List String) (input : Option ByteArray) : Outcome :=
  match ofWords {} words with
  | .ok c => c.run input
  | .error stop => stop.outcome

end Command
end FieldFormula
