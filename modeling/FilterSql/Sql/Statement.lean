import FilterSql.Query
import FilterSql.Sql.Dialect
import FilterSql.Sql.Render

/-!
Statements. A query selects every column of one table; its condition follows the table, and its limit
stands where the style puts it.
-/

namespace FilterSql

namespace Expr

/-- The WHERE clause of a condition; one that always holds needs none. -/
def whereClause (style : Style) (x : Expr) : String :=
  match x.render style with
  | .constant true => ""
  | r => " WHERE " ++ r.condition

def limitClause (style : Style) (x : Expr) : String :=
  match style.rowLimit with
  | .suffix => " LIMIT " ++ (x.render style).operand
  | .top => " TOP " ++ (x.render style).operand

/-- An expression by itself is printed as a condition. -/
def sql (dialect : Dialect) (x : Expr) : String := (x.render dialect.style).condition

end Expr

namespace Query

/-- The table of a statement unless settings say otherwise. -/
def defaultTable : String := "data"

/-- The limit clause, if it stands at the given place. -/
def limitAt (place : RowLimit) (style : Style) (limit : Option Expr) : String :=
  if style.rowLimit = place then (limit.map (Expr.limitClause style)).getD "" else ""

/-- The statement of a query. -/
def statement (style : Style) (table : String) (query : Query) : String :=
  "SELECT" ++ limitAt .top style query.limit ++ " * FROM " ++ style.identifier table
    ++ (query.condition.map (Expr.whereClause style)).getD ""
    ++ limitAt .suffix style query.limit ++ ";"

/-- The statement of a query in a dialect. -/
def sql (dialect : Dialect) (table : String) (query : Query) : String :=
  query.statement dialect.style table

end Query

end FilterSql
