import FieldFormula.Builtin

/-!
Functions on truth values and on empty values.
-/
namespace FieldFormula.Builtin

open Template (chain)

def keywordFunctions : List Builtin :=
  [⟨"AND", .keyword, .range 1 none, .boolean, "AND(a, b, ...) is true when every argument is true",
      .plain (chain "AND"), .plain (chain "&&")⟩,
   ⟨"OR", .keyword, .range 1 none, .boolean, "OR(a, b, ...) is true when any argument is true",
      .plain (chain "OR"), .plain (chain "||")⟩,
   ⟨"NOT", .keyword, .exact 1, .boolean, "NOT(value) negates a boolean",
      .plain ["(NOT (", 0, "))"], .plain ["!(", 0, ")"]⟩,
   ⟨"BLANK", .keyword, .exact 0, .null, "BLANK() is an empty value",
      .plain ["NULL"], .plain ["null"]⟩,
   ⟨"IS_BLANK", .keyword, .exact 1, .boolean,
      "IS_BLANK(value) is true for empty values and empty text",
      .plain ["((", 0, ") IS NULL OR (", 0, ")::text = '')"],
      .plain ["((", 0, ") == null || (", 0, ") === '')"]⟩]

end FieldFormula.Builtin
