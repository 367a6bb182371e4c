import FilterSql.Text.Blank

/-!
What a dialect decides about SQL text: how a name is quoted, how names inside `<` and `>` are quoted,
and where the row limit stands. A name is quoted only if it holds a character that SQL would misread,
and the quotes go around it as it is.
-/

namespace FilterSql

/-- The place of the row limit in a statement. -/
inductive RowLimit where
  /-- At the end: `SELECT * FROM t LIMIT n`. -/
  | suffix
  /-- After the verb: `SELECT TOP n * FROM t`. -/
  | top
deriving DecidableEq

structure Style where
  quote : String → String
  /-- The quotes for names anywhere below `<` or `>`. -/
  comparisonQuote : String → String
  rowLimit : RowLimit

/-- The characters that force a name to be quoted. -/
def breaksName (c : Char) : Bool :=
  Text.isBlank c || c == '-' || c == '.' || c == '+' || c == '~' || c == '|'

def needsQuotes (name : String) : Bool := name.toList.any breaksName

/-- Puts fixed texts around a name. -/
def quoteWith (opening closing name : String) : String := opening ++ name ++ closing

namespace Style

/-- A style with the same quotes everywhere. -/
def uniform (quote : String → String) (rowLimit : RowLimit) : Style := ⟨quote, quote, rowLimit⟩

/-- The style for what stands below `<` or `>`. -/
def inComparison (style : Style) : Style := { style with quote := style.comparisonQuote }

/-- A column or table name, quoted if it needs to be. -/
def identifier (style : Style) (name : String) : String :=
  if needsQuotes name then style.quote name else name

end Style

end FilterSql
