import FilterSql.Proofs.Induction
import FilterSql.Expr.Simplify
import FilterSql.Sql.Rendered

/-!
What an expression means on a row. A literal or a column gives a scalar and every other node a truth
value of Kleene's logic. Where a scalar is asked for, a truth value counts as a boolean and unknown as
null. What `<` and `>` say, and how a value that is no boolean counts as a condition, is left open.
-/

namespace FilterSql

inductive Truth where
  | yes
  | no
  | unknown
deriving DecidableEq

namespace Truth

def ofBool : Bool → Truth
  | true => .yes
  | false => .no

def not : Truth → Truth
  | .yes => .no
  | .no => .yes
  | .unknown => .unknown

/-- A truth value where a scalar is asked for. -/
def toScalar : Truth → Scalar
  | .yes => .bool true
  | .no => .bool false
  | .unknown => .null

@[simp] theorem not_not (t : Truth) : t.not.not = t := by cases t <;> rfl

@[simp] theorem not_ofBool (b : Bool) : (ofBool b).not = ofBool !b := by cases b <;> rfl

@[simp] theorem toScalar_ofBool (b : Bool) : (ofBool b).toScalar = .bool b := by cases b <;> rfl

end Truth

namespace Connective

/-- The strong connectives of Kleene's logic. -/
def truth : Connective → Truth → Truth → Truth
  | .and, .yes, t => t
  | .and, .no, _ => .no
  | .and, .unknown, .no => .no
  | .and, .unknown, _ => .unknown
  | .or, .no, t => t
  | .or, .yes, _ => .yes
  | .or, .unknown, .yes => .yes
  | .or, .unknown, _ => .unknown

/-- A connective over a list; over no operands it is the unit. -/
def truthAll (op : Connective) (ts : List Truth) : Truth := ts.foldr op.truth (.ofBool op.unit)

@[simp] theorem truthAll_nil (op : Connective) : op.truthAll [] = .ofBool op.unit := rfl

@[simp] theorem truthAll_cons (op : Connective) (t : Truth) (ts : List Truth) :
    op.truthAll (t :: ts) = op.truth t (op.truthAll ts) := rfl

@[simp] theorem unit_truth (op : Connective) (t : Truth) : op.truth (.ofBool op.unit) t = t := by
  cases op <;> rfl

@[simp] theorem truth_unit (op : Connective) (t : Truth) : op.truth t (.ofBool op.unit) = t := by
  cases op <;> cases t <;> rfl

theorem truth_assoc (op : Connective) (s t u : Truth) :
    op.truth (op.truth s t) u = op.truth s (op.truth t u) := by
  cases op <;> cases s <;> cases t <;> cases u <;> rfl

/-- A constant that is not the unit absorbs everything to its right. -/
theorem absorbing_truth {op : Connective} {b : Bool} (hb : b ≠ op.unit) (t : Truth) :
    op.truth (.ofBool b) t = .ofBool b := by
  cases op <;> cases b <;> first | rfl | exact absurd rfl hb

theorem truth_absorbing {op : Connective} {b : Bool} (hb : b ≠ op.unit) (t : Truth) :
    op.truth t (.ofBool b) = .ofBool b := by
  cases op <;> cases b <;> cases t <;> first | rfl | exact absurd rfl hb

end Connective

/-- A row, the order of its values, and how a value that is no boolean counts as a condition. -/
structure Valuation where
  column : String → Scalar
  compare : Comparison → Scalar → Scalar → Truth
  reading : Scalar → Truth

def Valuation.truthOf (v : Valuation) : Scalar → Truth
  | .bool b => .ofBool b
  | s => v.reading s

/-- What an expression evaluates to. -/
inductive Value where
  | scalar (value : Scalar)
  | truth (value : Truth)

namespace Value

def toScalar : Value → Scalar
  | .scalar s => s
  | .truth t => t.toScalar

def toTruth (v : Valuation) : Value → Truth
  | .scalar s => v.truthOf s
  | .truth t => t

@[simp] theorem toScalar_truth (t : Truth) : (truth t).toScalar = t.toScalar := rfl

@[simp] theorem toTruth_truth (v : Valuation) (t : Truth) : (truth t).toTruth v = t := rfl

end Value

/-- Equality holds if the main value equals one of the others, inequality if it equals none. -/
def EqualityOp.holds (op : EqualityOp) (main : Scalar) (others : List Scalar) : Bool :=
  match op with
  | .equal => others.any main.same
  | .notEqual => !others.any main.same

theorem Scalar.isNull_eq_decide (s : Scalar) : s.isNull = decide (s = .null) := by
  cases s <;> rfl

namespace Expr

mutual

def eval (v : Valuation) : Expr → Value
  | .literal s => .scalar s
  | .column name => .scalar (v.column name)
  | .unary .not x => .truth ((eval v x).toTruth v).not
  | .unary .isNull x => .truth (.ofBool (decide ((eval v x).toScalar = .null)))
  | .unary .isNotNull x => .truth (.ofBool (decide ((eval v x).toScalar ≠ .null)))
  | .compare op left right =>
    .truth (v.compare op (eval v left).toScalar (eval v right).toScalar)
  | .equality op main operands =>
    .truth (.ofBool (op.holds (eval v main).toScalar ((evalAll v operands).map Value.toScalar)))
  | .logical op operands => .truth (op.truthAll ((evalAll v operands).map (Value.toTruth v)))

def evalAll (v : Valuation) : List Expr → List Value
  | [] => []
  | x :: rest => eval v x :: evalAll v rest

end

theorem evalAll_eq_map (v : Valuation) (xs : List Expr) : evalAll v xs = xs.map (eval v) := by
  induction xs with
  | nil => rfl
  | cons x xs ih => simp [evalAll, ih]

/-- The value of an expression as a scalar. -/
def value (v : Valuation) (x : Expr) : Scalar := (x.eval v).toScalar

/-- The value of an expression as a condition. -/
def truth (v : Valuation) (x : Expr) : Truth := (x.eval v).toTruth v

@[simp] theorem value_literal (v : Valuation) (s : Scalar) : value v (.literal s) = s := rfl

theorem eval_not (v : Valuation) (x : Expr) :
    eval v (.unary .not x) = .truth (x.truth v).not := by
  simp [eval, truth]

/-- Negation has no answer about a single value, so `op` is a null check here. -/
theorem eval_nullCheck (v : Valuation) {op : UnaryOp} {x : Expr} {b : Bool}
    (h : op.ofScalar? (x.value v) = some b) : eval v (.unary op x) = .truth (.ofBool b) := by
  cases op with
  | not => simp [UnaryOp.ofScalar?] at h
  | isNull =>
    obtain rfl : (x.value v).isNull = b := Option.some.inj h
    rw [eval, Scalar.isNull_eq_decide]
    rfl
  | isNotNull =>
    obtain rfl : (!(x.value v).isNull) = b := Option.some.inj h
    rw [eval, Scalar.isNull_eq_decide, ← decide_not]
    rfl

/-- A negated null check says what its opposite says. -/
theorem eval_not_nullCheck (v : Valuation) {op opposite : UnaryOp} (x : Expr)
    (h : op.opposite? = some opposite) :
    eval v (.unary .not (.unary op x)) = eval v (.unary opposite x) := by
  cases op with
  | not => simp [UnaryOp.opposite?] at h
  | _ =>
    obtain rfl : _ = opposite := by simpa [UnaryOp.opposite?] using h
    simp [eval]

theorem eval_compare (v : Valuation) (op : Comparison) (left right : Expr) :
    eval v (.compare op left right) = .truth (v.compare op (left.value v) (right.value v)) := by
  simp [eval, value]

theorem eval_equality (v : Valuation) (op : EqualityOp) (main : Expr) (operands : List Expr) :
    eval v (.equality op main operands) =
      .truth (.ofBool (op.holds (main.value v) (operands.map (value v)))) := by
  rw [eval, evalAll_eq_map, List.map_map]
  rfl

theorem eval_logical (v : Valuation) (op : Connective) (operands : List Expr) :
    eval v (.logical op operands) = .truth (op.truthAll (operands.map (truth v))) := by
  rw [eval, evalAll_eq_map, List.map_map]
  rfl

end Expr

end FilterSql
