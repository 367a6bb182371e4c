import FilterSql.Expr.Simplify
import FilterSql.Sql.Literal
import FilterSql.Sql.Rendered
import FilterSql.Sql.Style

/-!
Conditions as SQL. Rendering simplifies on its way: what is decided by form alone gives a constant,
and the connectives drop or absorb constants. The only parentheses are around an OR that stands
directly in an AND, and the tree as given decides that, not what it simplifies to.
-/

namespace FilterSql

/-- A unary node over the text of its operand. -/
def UnaryOp.sql (op : UnaryOp) (operand : String) : String :=
  match op with
  | .not => "NOT " ++ operand
  | .isNull => operand ++ " IS NULL"
  | .isNotNull => operand ++ " IS NOT NULL"

def Comparison.sql (op : Comparison) (left right : String) : String :=
  match op with
  | .less => left ++ " < " ++ right
  | .greater => left ++ " > " ++ right

def EqualityOp.symbol : EqualityOp → String
  | .equal => "="
  | .notEqual => "<>"

def EqualityOp.listKeyword : EqualityOp → String
  | .equal => "IN"
  | .notEqual => "NOT IN"

/-- One operand is compared, any other number of them is a list. -/
def EqualityOp.sql (op : EqualityOp) (main : String) : List String → String
  | [operand] => main ++ " " ++ op.symbol ++ " " ++ operand
  | operands => main ++ " " ++ op.listKeyword ++ " (" ++ ", ".intercalate operands ++ ")"

/-- A unary node over a rendered operand; a null check on a literal is decided. -/
def UnaryOp.rendered (op : UnaryOp) (x : Expr) (r : Rendered String) : Rendered String :=
  match x.literal?.bind op.ofScalar? with
  | some value => .constant value
  | none => .sql (op.sql r.operand)

namespace Expr

mutual

/-- The condition that an expression stands for, in a style. -/
def render (style : Style) : Expr → Rendered String
  | .literal value => .sql value.sql
  | .column name => .sql (style.identifier name)
  | .unary .not (.unary inner x) =>
    match inner.opposite? with
    | none => render style x
    | some opposite => opposite.rendered x (render style x)
  | .unary op x => op.rendered x (render style x)
  | .compare op left right =>
    .sql (op.sql (render style.inComparison left).operand (render style.inComparison right).operand)
  | .equality op main operands =>
    if op.alwaysHolds main operands then .constant true
    else .sql (op.sql (render style main).operand ((renderAll style operands).map Rendered.operand))
  | .logical op operands =>
    op.joinLoop "" true (List.zipWith op.placed operands (renderAll style operands))

def renderAll (style : Style) : List Expr → List (Rendered String)
  | [] => []
  | x :: rest => render style x :: renderAll style rest

end

theorem renderAll_eq_map (style : Style) (xs : List Expr) :
    renderAll style xs = xs.map (render style) := by
  induction xs with
  | nil => rfl
  | cons x xs ih => simp [renderAll, ih]

/-- A unary node is rendered by its form. -/
theorem render_unary (style : Style) (op : UnaryOp) (x : Expr) :
    render style (.unary op x) =
      match op.form x with
      | .kept => .sql (op.sql (render style x).operand)
      | .operand y => render style y
      | .unary opposite y => render style (.unary opposite y)
      | .constant value => .constant value := by
  cases x with
  | unary inner y => cases op <;> cases inner <;>
      simp [render, UnaryOp.form, UnaryOp.opposite?, UnaryOp.rendered, literal?]
  | literal v => cases op <;>
      simp [render, UnaryOp.form, UnaryOp.rendered, UnaryOp.ofScalar?, literal?]
  | _ => cases op <;> simp [render, UnaryOp.form, UnaryOp.rendered, literal?]

/-- The operands of a connective are rendered, placed and joined one by one. -/
theorem render_logical (style : Style) (op : Connective) (xs : List Expr) :
    render style (.logical op xs) =
      op.joinAll (xs.map fun x => op.placed x (render style x)) := by
  rw [render, renderAll_eq_map, Connective.joinLoop_eq_joinAll, List.zipWith_map_right,
    List.zipWith_self]

end Expr

end FilterSql
