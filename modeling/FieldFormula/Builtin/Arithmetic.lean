import FieldFormula.Builtin

/-!
Functions on numbers. Most are calls in both targets.
-/
namespace FieldFormula.Builtin

open Template (call)

def math (name : String) (arity : Arity) (summary sql method : String) : Builtin :=
  ⟨name, .number, arity, .number, summary, .plain (call sql), .plain (call ("Math." ++ method))⟩

def numberFunctions : List Builtin :=
  [math "ABS" (.exact 1) "ABS(number) is the absolute value" "ABS" "abs",
   math "CEIL" (.exact 1) "CEIL(number) rounds up to an integer" "CEIL" "ceil",
   math "FLOOR" (.exact 1) "FLOOR(number) rounds down to an integer" "FLOOR" "floor",
   ⟨"ROUND", .number, .range 1 (some 2), .number,
      "ROUND(number, [digits]) rounds half away from zero",
      .optional 1 (call "ROUND") ["ROUND((", 0, ")::numeric, (", 1, ")::int)"],
      .optional 1 ["(Math.sign(", 0, ") * Math.round(Math.abs(", 0, ")))"]
        ["(Math.sign(", 0, ") * Math.round(Math.abs(", 0, ") * Math.pow(10, ", 1,
          ")) / Math.pow(10, ", 1, "))"]⟩,
   math "SQRT" (.exact 1) "SQRT(number) is the square root" "SQRT" "sqrt",
   math "POWER" (.exact 2) "POWER(base, exponent) is base raised to exponent" "POWER" "pow",
   ⟨"MOD", .number, .exact 2, .number, "MOD(number, divisor) is the remainder of the division",
      .plain (call "MOD"), .plain ["((", 0, ") % (", 1, "))"]⟩,
   math "MIN" (.range 1 none) "MIN(a, b, ...) is the smallest value" "LEAST" "min",
   math "MAX" (.range 1 none) "MAX(a, b, ...) is the largest value" "GREATEST" "max",
   math "EXP" (.exact 1) "EXP(number) is e raised to number" "EXP" "exp",
   math "LN" (.exact 1) "LN(number) is the natural logarithm" "LN" "log",
   math "SIGN" (.exact 1) "SIGN(number) is -1, 0 or 1" "SIGN" "sign",
   ⟨"VALUE", .number, .exact 1, .number, "VALUE(text) reads a number from text",
      .plain ["(", 0, ")::numeric"], .plain ["Number(", 0, ")"]⟩]

end FieldFormula.Builtin
