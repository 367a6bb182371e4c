import FilterSql.Json.Document
import FilterSql.Query
import FilterSql.Sql.Statement

/-!
Settings from JSON text: the column names by id, the table, the depth limit and the dialect. They are
an object with any of four keys, none of them twice, or an array of the same values in the order of
`Settings.keys`, short at its end if need be. What is not given has its default.
-/

namespace FilterSql

open Json (Document Key)

structure Settings where
  columns : Columns
  table : String
  maxDepth : Nat
  /-- The one dialect to print, if not all of them. -/
  dialect : Option Dialect

namespace Settings

def default : Settings := ⟨.empty, Query.defaultTable, Query.defaultMaxDepth, none⟩

def keys : List String := ["fields", "table", "max_depth", "dialect"]

/-- The id that a key spells. It is a plain numeral, escapes are not replaced in it. -/
def columnId? (key : Key) : Option Int := (Number.read? key.raw.toList).bind Number.toInt64?

def columnEntry? : Key × Document → Option (Int × String)
  | (key, .scalar (.str name)) => (columnId? key).map fun id => (id, name)
  | _ => none

/-- Column names by id; the last of several names for an id wins. -/
def columns? : Document → Option Columns
  | .obj members => (members.mapM columnEntry?).map Columns.ofList
  | _ => none

def table? : Document → Option String
  | .scalar (.str name) => some name
  | _ => none

/-- An integer of 64 bits without sign. -/
def maxDepth? : Document → Option Nat
  | .scalar (.num (.int n)) => if 0 ≤ n ∧ n < Nat.pow 2 64 then some n.toNat else none
  | _ => none

/-- Nothing, a spelling, or an object with a spelling as its only key and nothing under it. -/
def dialect? : Document → Option (Option Dialect)
  | .scalar .null => some none
  | .scalar (.str text) => (Dialect.ofSpelling? text).map some
  | .obj [(key, .scalar .null)] => (Dialect.ofSpelling? key.text).map some
  | _ => none

/-- Settings with the value of one key set. -/
def set? (settings : Settings) (key : String) (value : Document) : Option Settings :=
  match key with
  | "fields" => (columns? value).map fun columns => { settings with columns }
  | "table" => (table? value).map fun table => { settings with table }
  | "max_depth" => (maxDepth? value).map fun maxDepth => { settings with maxDepth }
  | "dialect" => (dialect? value).map fun dialect => { settings with dialect }
  | _ => none

/-- The settings of a list of entries with different keys. -/
def ofEntries? (entries : List (String × Document)) : Option Settings :=
  if (entries.map Prod.fst).Nodup then
    entries.foldlM (fun settings entry => settings.set? entry.1 entry.2) default
  else none

def ofDocument? : Document → Option Settings
  | .obj members => ofEntries? (members.map fun member => (member.1.text, member.2))
  | .arr values => if values.length ≤ keys.length then ofEntries? (keys.zip values) else none
  | .scalar _ => none

/-- Reads settings from text. -/
def read? (text : String) : Option Settings := (Document.read? text).bind ofDocument?

end Settings

end FilterSql
