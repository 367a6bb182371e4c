import FilterSql.Text.Blank
import FilterSql.Text.Lines
import FilterSql.Text.Terminal
import FilterSql.Decimal.Binary64
import FilterSql.Decimal.Shortest
import FilterSql.Decimal.Layout
import FilterSql.Json.Number
import FilterSql.Json.Basic
import FilterSql.Json.Token
import FilterSql.Json.Document
import FilterSql.Columns
import FilterSql.Expr.Basic
import FilterSql.Expr.Simplify
import FilterSql.Expr.Decode
import FilterSql.Query
import FilterSql.Sql.Style
import FilterSql.Sql.Dialect
import FilterSql.Sql.Literal
import FilterSql.Sql.Rendered
import FilterSql.Sql.Render
import FilterSql.Sql.Statement
import FilterSql.Settings
import FilterSql.CommandLine.Arguments
import FilterSql.CommandLine.Run
import FilterSql.Main
import FilterSql.Proofs.Induction
import FilterSql.Proofs.Evaluation
import FilterSql.Proofs.Folding
import FilterSql.Proofs.Condition
import FilterSql.Proofs.FilterTree
import FilterSql.Proofs.Encoding
import FilterSql.Proofs.Decoding
import FilterSql.Proofs.Defects
import FilterSql.Proofs.Skeleton
import FilterSql.Proofs.Rounding
import FilterSql.Proofs.NumberText
import FilterSql.Proofs.Statement
import FilterSql.Proofs.Spelling
import FilterSql.Proofs.Precedence
import FilterSql.Proofs.Grouping
import FilterSql.Proofs.StringLiteral
import FilterSql.Proofs.Renaming
import FilterSql.Proofs.Batch
import FilterSql.Proofs.Nesting
import FilterSql.Proofs.Connectives
import FilterSql.Proofs.DepthLimit
import FilterSql.Proofs.Record
import FilterSql.Proofs.Distinct
import FilterSql.Proofs.IntegerText
import FilterSql.Proofs.Settings
