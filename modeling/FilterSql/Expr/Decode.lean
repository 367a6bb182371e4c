import FilterSql.Columns
import FilterSql.Expr.Basic

/-!
Filters from JSON. A scalar is a literal, and an array headed by a tag is an operator or a column.
Nodes are numbered by level, the root at 1, and none may be deeper than the limit. The first fault
in reading order is reported: a node's own before its operands', and these from left to right.
-/

namespace FilterSql

/-- Why a record is refused. -/
inductive DecodeError where
  | operandCount (tag : String) (count : Nat)
  | unknownOperator (tag : String)
  | unknownColumn (id : Int)
  | unnamedColumn (id : Int)
  | notColumnId (id : Json)
  | notExpression (node : Json)
  | tooDeep (limit : Nat)
  | notRecord (value : Json)
  | notLiteralLimit (value : Json)

def DecodeError.message : DecodeError → String
  | .operandCount tag count =>
    "operator `" ++ tag ++ "` called with an incorrect number of operands (got "
      ++ Number.intText count ++ ")"
  | .unknownOperator tag => "unknown operator: " ++ tag
  | .unknownColumn id => "no field with id " ++ Number.intText id
  | .unnamedColumn id => "field " ++ Number.intText id ++ " maps to an empty column name"
  | .notColumnId id => "field id must be an integer, got " ++ id.text
  | .notExpression node => "not a valid expression: " ++ node.text
  | .tooDeep limit => "expression is nested deeper than " ++ Number.intText limit ++ " levels"
  | .notRecord value => "query must be an object, got " ++ value.text
  | .notLiteralLimit value => "limit must be a literal value, got " ++ value.text

/-- The tagged nodes that have expressions as operands. -/
inductive Operator where
  | unary (op : UnaryOp)
  | compare (op : Comparison)
  | equality (op : EqualityOp)
  | logical (op : Connective)
deriving DecidableEq

namespace Operator

def ofTag? (tag : String) : Option Operator :=
  match tag with
  | "not" => some (.unary .not)
  | "is-empty" => some (.unary .isNull)
  | "not-empty" => some (.unary .isNotNull)
  | "<" => some (.compare .less)
  | ">" => some (.compare .greater)
  | "=" => some (.equality .equal)
  | "!=" => some (.equality .notEqual)
  | "and" => some (.logical .and)
  | "or" => some (.logical .or)
  | _ => none

/-- The operand counts that an operator takes. -/
def admits : Operator → Nat → Bool
  | .unary _, count => count == 1
  | .compare _, count => count == 2
  | .equality _, count => 2 ≤ count
  | .logical _, count => 1 ≤ count

/-- The expression of an operator and its operands. -/
def build? : Operator → List Expr → Option Expr
  | .unary op, [x] => some (.unary op x)
  | .compare op, [left, right] => some (.compare op left right)
  | .equality op, main :: x :: rest => some (.equality op main (x :: rest))
  | .logical op, x :: rest => some (.logical op (x :: rest))
  | _, _ => none

theorem build?_isSome (op : Operator) (xs : List Expr) :
    (op.build? xs).isSome = op.admits xs.length := by
  rcases op with op | op | op | op <;> rcases xs with _ | ⟨x, _ | ⟨y, _ | ⟨z, rest⟩⟩⟩ <;>
    simp [build?, admits]

end Operator

/-- The tag of a column node, whose one operand is an id and no expression. -/
def columnTag : String := "field"

/-- The column of an id. -/
def Columns.resolve (columns : Columns) : List Json → Except DecodeError Expr
  | [id] =>
    match id with
    | .scalar (.num n) =>
      match n.toInt64? with
      | none => .error (.notColumnId id)
      | some i =>
        match columns.get? i with
        | none => .error (.unknownColumn i)
        | some name => if name.isEmpty then .error (.unnamedColumn i) else .ok (.column name)
    | _ => .error (.notColumnId id)
  | operands => .error (.operandCount columnTag operands.length)

namespace Expr

mutual

/-- Decodes a node at a level. -/
def decodeAt (columns : Columns) (limit level : Nat) : Json → Except DecodeError Expr
  | .scalar value => if limit < level then .error (.tooDeep limit) else .ok (.literal value)
  | .arr (.scalar (.str tag) :: operands) =>
    if limit < level then .error (.tooDeep limit)
    else if tag = columnTag then columns.resolve operands
    else
      match Operator.ofTag? tag with
      | none => .error (.unknownOperator tag)
      | some op =>
        if op.admits operands.length then
          match decodeAll columns limit (level + 1) operands with
          | .error e => .error e
          | .ok xs =>
            match op.build? xs with
            | none => .error (.operandCount tag operands.length)
            | some x => .ok x
        else .error (.operandCount tag operands.length)
  | node => if limit < level then .error (.tooDeep limit) else .error (.notExpression node)

/-- Decodes the operands of a node, from left to right. -/
def decodeAll (columns : Columns) (limit level : Nat) : List Json → Except DecodeError (List Expr)
  | [] => .ok []
  | node :: rest =>
    match decodeAt columns limit level node with
    | .error e => .error e
    | .ok x =>
      match decodeAll columns limit level rest with
      | .error e => .error e
      | .ok xs => .ok (x :: xs)

end

/-- Decodes a node whose levels are at most `limit`. -/
def decode (columns : Columns) (limit : Nat) (node : Json) : Except DecodeError Expr :=
  decodeAt columns limit 1 node

end Expr

end FilterSql
