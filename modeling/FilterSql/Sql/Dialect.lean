import FilterSql.Sql.Style

/-!
The three dialects, their names and their styles. A name given by hand is taken in any case, a name
in a settings file only in the spellings of `Dialect.spellings`.
-/

namespace FilterSql

inductive Dialect where
  | mySql
  | postgreSql
  | sqlServer
deriving DecidableEq

namespace Dialect

def all : List Dialect := [.mySql, .postgreSql, .sqlServer]

def name : Dialect → String
  | .mySql => "MySQL"
  | .postgreSql => "PostgreSQL"
  | .sqlServer => "SQLServer"

/-- The short names of a dialect, in lower case. -/
def aliases : Dialect → List String
  | .mySql => ["mysql"]
  | .postgreSql => ["postgresql", "postgres"]
  | .sqlServer => ["sqlserver", "mssql"]

/-- The spellings of a dialect in settings. -/
def spellings (dialect : Dialect) : List String := dialect.name :: dialect.aliases

/-- The dialect that a settings file names. -/
def ofSpelling? (text : String) : Option Dialect :=
  all.find? fun dialect => dialect.spellings.contains text

/-- The dialect that a person names, in any case of the ASCII letters. -/
def ofName? (text : String) : Option Dialect :=
  all.find? fun dialect => dialect.aliases.contains (String.ofList (text.toList.map Char.toLower))

def unknownMessage (text : String) : String :=
  "unknown dialect: " ++ text ++ " (expected MySQL, PostgreSQL or SQLServer)"

/-- MySQL has backquotes, though not inside comparisons; the others have double quotes. SQL Server
limits rows at the head of the statement. -/
def style : Dialect → Style
  | .mySql => ⟨quoteWith "`" "`", quoteWith "\"" "\"", .suffix⟩
  | .postgreSql => .uniform (quoteWith "\"" "\"") .suffix
  | .sqlServer => .uniform (quoteWith "\"" "\"") .top

end Dialect

end FilterSql
