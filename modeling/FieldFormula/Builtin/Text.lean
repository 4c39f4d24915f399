import FieldFormula.Builtin

/-!
Functions on text. Script converts an argument to text before it calls a method on it.
-/
namespace FieldFormula.Builtin

open Template (call)

def stringOf (arg : Piece) : List Piece := ["String(", arg, ")"]

def textFunctions : List Builtin :=
  [⟨"CONCAT", .text, .range 1 none, .string, "CONCAT(a, b, ...) joins values as text",
      .plain (call "CONCAT"), .plain ["[", .args 0 ", ", "].join('')"]⟩,
   ⟨"TRIM", .text, .exact 1, .string, "TRIM(text) strips leading and trailing whitespace",
      .plain (call "TRIM"), .parts [stringOf 0, [".trim()"]]⟩,
   ⟨"SEARCH", .text, .range 2 (some 3), .number,
      "SEARCH(needle, text, [start]) is the 1-based position of needle, or 0",
      .optional 2 ["STRPOS(", 1, ", ", 0, ")"]
        ["(CASE WHEN STRPOS(SUBSTRING(", 1, " FROM ", 2, "), ", 0,
          ") = 0 THEN 0 ELSE STRPOS(SUBSTRING(", 1, " FROM ", 2, "), ", 0, ") + (", 2,
          ") - 1 END)"],
      .optional 2 (.flatten [["("], stringOf 1, [".indexOf("], stringOf 0, [", 0) + 1)"]])
        (.flatten [["("], stringOf 1, [".indexOf("], stringOf 0, [", (", 2, ") - 1) + 1)"]])⟩,
   ⟨"REPLACE", .text, .exact 3, .string, "REPLACE(text, old, new) replaces every occurrence of old",
      .plain (call "REPLACE"),
      .parts [stringOf 0, [".split("], stringOf 1, [").join("], stringOf 2, [")"]]⟩,
   ⟨"LOWER", .text, .exact 1, .string, "LOWER(text) converts to lower case",
      .plain (call "LOWER"), .parts [stringOf 0, [".toLowerCase()"]]⟩,
   ⟨"UPPER", .text, .exact 1, .string, "UPPER(text) converts to upper case",
      .plain (call "UPPER"), .parts [stringOf 0, [".toUpperCase()"]]⟩,
   ⟨"REPEAT", .text, .exact 2, .string, "REPEAT(text, count) repeats text count times",
      .plain ["REPEAT(", 0, ", (", 1, ")::int)"], .parts [stringOf 0, [".repeat(", 1, ")"]]⟩,
   ⟨"SUBSTRING", .text, .range 2 (some 3), .string,
      "SUBSTRING(text, start, [length]) takes characters from a 1-based start",
      .optional 2 ["SUBSTRING(", 0, " FROM (", 1, ")::int)"]
        ["SUBSTRING(", 0, " FROM (", 1, ")::int FOR (", 2, ")::int)"],
      .optional 2 (.flatten [stringOf 0, [".slice((", 1, ") - 1)"]])
        (.flatten [stringOf 0, [".slice((", 1, ") - 1, (", 1, ") - 1 + (", 2, "))"]])⟩,
   ⟨"LEFT", .text, .exact 2, .string, "LEFT(text, count) takes the first count characters",
      .plain ["LEFT(", 0, ", (", 1, ")::int)"], .parts [stringOf 0, [".slice(0, ", 1, ")"]]⟩,
   ⟨"RIGHT", .text, .exact 2, .string, "RIGHT(text, count) takes the last count characters",
      .plain ["RIGHT(", 0, ", (", 1, ")::int)"],
      .parts [stringOf 0, [".slice(Math.max("], stringOf 0, [".length - (", 1, "), 0))"]]⟩,
   ⟨"LEN", .text, .exact 1, .number, "LEN(text) is the number of characters",
      .plain (call "LENGTH"), .parts [stringOf 0, [".length"]]⟩,
   ⟨"JOIN", .text, .range 2 none, .string,
      "JOIN(separator, a, b, ...) joins values with a separator",
      .plain (call "CONCAT_WS"), .plain ["[", .args 1 ", ", "].join(", 0, ")"]⟩,
   ⟨"TO_STRING", .text, .exact 1, .string, "TO_STRING(value) converts any value to text",
      .plain ["(", 0, ")::text"], .plain (stringOf 0)⟩]

end FieldFormula.Builtin
