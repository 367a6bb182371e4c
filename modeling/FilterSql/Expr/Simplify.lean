import FilterSql.Expr.Basic

/-!
What can be decided about a node from its form: double negations, negated null checks, null checks
of literals and equalities between literals. Columns are never decided, whatever their names.
-/

namespace FilterSql

/-- What becomes of a unary node. -/
inductive UnaryForm where
  | kept
  | operand (x : Expr)
  | unary (op : UnaryOp) (x : Expr)
  | constant (value : Bool)

/-- The answer of a null check on a literal. Negation asks nothing about null. -/
def UnaryOp.ofScalar? (op : UnaryOp) (value : Scalar) : Option Bool :=
  match op with
  | .not => none
  | .isNull => some value.isNull
  | .isNotNull => some (!value.isNull)

/-- The form of a unary node. A negated null check becomes its opposite, which may be decidable in
turn. -/
def UnaryOp.form (op : UnaryOp) : Expr → UnaryForm
  | .unary inner x =>
    if op = .not then
      match inner.opposite? with
      | none => .operand x
      | some opposite => .unary opposite x
    else .kept
  | .literal value =>
    match op.ofScalar? value with
    | some decided => .constant decided
    | none => .kept
  | _ => .kept

/-- Whether an equality holds on every row because its operands are literals: for `=` one literal
equal to the main one is enough, for `≠` all operands have to be literals that differ from it. -/
def EqualityOp.alwaysHolds (op : EqualityOp) (main : Expr) (operands : List Expr) : Bool :=
  match main.literal? with
  | none => false
  | some value =>
    match op with
    | .equal => operands.any fun x => x.literal?.any (·.same value)
    | .notEqual => operands.all fun x => x.literal?.any fun other => !other.same value

end FilterSql
