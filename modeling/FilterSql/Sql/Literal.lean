import FilterSql.Json.Basic

/-!
Literals in SQL text. A string stands in single quotes, and its quotes of both kinds are escaped; its
backslashes are not, so a backslash at its end takes the closing quote with it.
-/

namespace FilterSql

namespace Scalar

/-- Backslashes stand before both kinds of quotes. A backslash of the text itself gets none. -/
def escapeQuotes (s : String) : String :=
  String.ofList (s.toList.flatMap fun c => if c = '\'' ∨ c = '"' then ['\\', c] else [c])

/-- A literal in SQL. -/
def sql : Scalar → String
  | .null => "NULL"
  | .bool true => "true"
  | .bool false => "false"
  | .num n => n.text
  | .str s => "'" ++ escapeQuotes s ++ "'"

end Scalar

end FilterSql
