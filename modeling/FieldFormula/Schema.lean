import FieldFormula.ValueType

/-!
The schema a formula is compiled against: each field's display name with its identifier and type.
A name has one field; the one entered last counts.
-/
namespace FieldFormula

structure Field where
  id : String
  type : ValueType
  deriving DecidableEq, Repr

structure Schema where
  entries : List (String × Field)
  nodup : (entries.map Prod.fst).Nodup
  deriving DecidableEq, Repr

namespace Schema

def empty : Schema := ⟨[], .nil⟩

def get? (s : Schema) (name : String) : Option Field := s.entries.lookup name

theorem nodup_insert (s : Schema) (name : String) :
    (name :: (s.entries.filter (·.1 != name)).map Prod.fst).Nodup := by
  refine List.nodup_cons.2 ⟨fun hmem => ?_, s.nodup.sublist (List.filter_sublist.map _)⟩
  obtain ⟨x, hx, rfl⟩ := List.mem_map.1 hmem
  simp at hx

def insert (s : Schema) (name : String) (field : Field) : Schema :=
  ⟨(name, field) :: s.entries.filter (·.1 != name), s.nodup_insert name⟩

end Schema
end FieldFormula
