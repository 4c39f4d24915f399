import FieldFormula.Json
import FieldFormula.Schema

/-!
Schemas as JSON text: an object from display names to fields. A field is an object with an `id` and
a `type`, each given once, among members that do not matter, or an array of the two. A type is the
name of one, or an object whose only member has that name and is null.
-/
namespace FieldFormula

def ValueType.ofName? (name : String) : Option ValueType :=
  [ValueType.number, .string, .date, .boolean].find? (·.name == name)

def ValueType.ofJson? : Json → Option ValueType
  | .text name => name.bind ofName?
  | .object [(name, .null)] => name.bind ofName?
  | _ => none

namespace Field

def ofParts? (id type : Json) : Option Field := do
  let .text (some id) := id | none
  let type ← ValueType.ofJson? type
  return ⟨id, type⟩

/-- The only member of that name. -/
def member? (name : String) (members : List (String × Json)) : Option Json :=
  match members.filter (·.1 == name) with
  | [(_, value)] => some value
  | _ => none

def ofJson? : Json → Option Field
  | .array [id, type] => ofParts? id type
  | .object members => do
    let members ← members.mapM fun (key, value) => key.map (·, value)
    let id ← member? "id" members
    let type ← member? "type" members
    ofParts? id type
  | _ => none

end Field

namespace Schema

def insertJson? (s : Schema) (member : Option String × Json) : Option Schema := do
  let name ← member.1
  let field ← Field.ofJson? member.2
  return s.insert name field

def ofJson? : Json → Option Schema
  | .object members => members.foldlM insertJson? empty
  | _ => none

def parse? (s : String) : Option Schema := (Json.parse? s).bind ofJson?

end Schema
end FieldFormula
