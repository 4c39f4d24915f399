import FieldFormula.Builtin

/-!
Functions on dates. In SQL a date is a `timestamp`; in script it is ISO text that goes through
`DateTime`.
-/
namespace FieldFormula.Builtin

def timestamp (arg : Piece) : List Piece := ["(", arg, ")::timestamp"]
def extract (part : String) : List Piece :=
  .flatten [["EXTRACT(", part, " FROM "], timestamp 0, [")"]]
def fromIso (arg : Piece) : List Piece := ["DateTime.fromISO(", arg, ", \x7b zone: 'utc'\x7d)"]
def compareTimestamps (op : String) : List Piece :=
  .flatten [["("], timestamp 0, [" ", op, " "], timestamp 1, [")"]]
def compareInstants (op : String) : List Piece :=
  .flatten [["("], fromIso 0, [" ", op, " "], fromIso 1, [")"]]

def component (name summary part property : String) : Builtin :=
  ⟨name, .date, .exact 1, .number, summary, .plain (extract part),
    .parts [fromIso 0, [".", property]]⟩

def dateFunctions : List Builtin :=
  [⟨"DATE", .date, .exact 3, .date, "DATE(year, month, day) builds a date",
      .plain ["make_timestamp((", 0, ")::int, (", 1, ")::int, (", 2, ")::int, 0, 0, 0)"],
      .plain ["DateTime.fromObject(\x7b year: Number(", 0, "), month: Number(", 1,
        "), day: Number(", 2, ") \x7d, \x7b zone: 'utc'\x7d).toString()"]⟩,
   ⟨"DATEADD", .date, .exact 3, .date,
      "DATEADD(date, amount, unit) shifts a date, e.g. DATEADD(\x7b\x7bDue\x7d\x7d, 2, \"days\")",
      .parts [["("], timestamp 0, [" + (", 1, ") * ('1 ' || ", 2, ")::interval)"]],
      .parts [fromIso 0, [".plus(\x7b [", 2, "]: Number(", 1, ") \x7d).toString()"]]⟩,
   ⟨"DATETIME_DIFF", .date, .exact 3, .number,
      "DATETIME_DIFF(end, start, unit) is the distance between two dates in unit",
      .parts [["(EXTRACT(EPOCH FROM "], timestamp 0, [" - "], timestamp 1,
        [") / EXTRACT(EPOCH FROM ('1 ' || ", 2, ")::interval))"]],
      .parts [fromIso 0, [".diff("], fromIso 1, [", ", 2, ").as(", 2, ")"]]⟩,
   ⟨"DATETIME_FORMAT", .date, .exact 2, .string,
      "DATETIME_FORMAT(date, pattern) renders a date as text",
      .parts [["to_char("], timestamp 0, [", ", 1, ")"]],
      .parts [fromIso 0, [".toFormat(", 1, ")"]]⟩,
   ⟨"DATETIME_PARSE", .date, .exact 2, .date,
      "DATETIME_PARSE(text, pattern) reads a date from text",
      .plain ["to_timestamp(", 0, ", ", 1, ")::timestamp"],
      .plain ["DateTime.fromFormat(", 0, ", ", 1, ", \x7b zone: 'utc'\x7d).toString()"]⟩,
   component "DAY" "DAY(date) is the day of the month" "DAY" "day",
   component "HOUR" "HOUR(date) is the hour (0-23)" "HOUR" "hour",
   component "MINUTE" "MINUTE(date) is the minute (0-59)" "MINUTE" "minute",
   ⟨"SECOND", .date, .exact 1, .number, "SECOND(date) is the whole second (0-59)",
      .parts [["FLOOR("], extract "SECOND", [")"]],
      .parts [fromIso 0, [".second"]]⟩,
   component "MONTH" "MONTH(date) is the month (1-12)" "MONTH" "month",
   component "YEAR" "YEAR(date) is the four digit year" "YEAR" "year",
   component "WEEKDAY" "WEEKDAY(date) is the ISO weekday (1 = Monday, 7 = Sunday)" "ISODOW"
      "weekday",
   component "WEEKNUM" "WEEKNUM(date) is the ISO week number" "WEEK" "weekNumber",
   ⟨"IS_AFTER", .date, .exact 2, .boolean, "IS_AFTER(a, b) is true when a is later than b",
      .plain (compareTimestamps ">"), .plain (compareInstants ">")⟩,
   ⟨"IS_BEFORE", .date, .exact 2, .boolean, "IS_BEFORE(a, b) is true when a is earlier than b",
      .plain (compareTimestamps "<"), .plain (compareInstants "<")⟩,
   ⟨"IS_SAME", .date, .exact 2, .boolean,
      "IS_SAME(a, b) is true when both dates are the same instant",
      .plain (compareTimestamps "="),
      .parts [["("], fromIso 0, [".toString() === "], fromIso 1, [".toString())"]]⟩,
   ⟨"NOW", .date, .exact 0, .date, "NOW() is the current instant in UTC",
      .plain ["(now() AT TIME ZONE 'utc')"], .plain ["DateTime.utc().toString()"]⟩,
   ⟨"TODAY", .date, .exact 0, .date, "TODAY() is the start of the current UTC day",
      .plain ["date_trunc('day', now() AT TIME ZONE 'utc')"],
      .plain ["DateTime.utc().startOf('day').toString()"]⟩]

end FieldFormula.Builtin
