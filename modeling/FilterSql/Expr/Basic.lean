import FilterSql.Json.Basic

/-!
Filter expressions. Literals and columns at the leaves, null checks and negation, the two order
comparisons, equality of one main operand with a list, and the connectives over lists. Operand lists
may be empty: a filter can also be built in other ways than from a record.
-/

namespace FilterSql

inductive UnaryOp where
  | not
  | isNull
  | isNotNull
deriving DecidableEq

inductive Comparison where
  | less
  | greater
deriving DecidableEq

inductive EqualityOp where
  | equal
  | notEqual
deriving DecidableEq

inductive Connective where
  | and
  | or
deriving DecidableEq

inductive Expr where
  | literal (value : Scalar)
  | column (name : String)
  | unary (op : UnaryOp) (operand : Expr)
  | compare (op : Comparison) (left right : Expr)
  | equality (op : EqualityOp) (main : Expr) (operands : List Expr)
  | logical (op : Connective) (operands : List Expr)

/-- The null check that says the opposite. Negation itself has none. -/
def UnaryOp.opposite? : UnaryOp → Option UnaryOp
  | .not => none
  | .isNull => some .isNotNull
  | .isNotNull => some .isNull

namespace Expr

def literal? : Expr → Option Scalar
  | .literal value => some value
  | _ => none

/-- Whether the root is the given connective. -/
def isLogical (op : Connective) : Expr → Bool
  | .logical other _ => other == op
  | _ => false

end Expr

end FilterSql
