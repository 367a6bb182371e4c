import FilterSql.Expr.Decode

/-!
Query records. A record is an object with an optional condition under `where` and an optional literal
under `limit`; other keys are ignored. The condition is decoded first, so its fault is the one
reported.
-/

namespace FilterSql

structure Query where
  condition : Option Expr
  limit : Option Expr

namespace Query

/-- The deepest level of an expression unless settings say otherwise. -/
def defaultMaxDepth : Nat := 256

def decodeCondition (columns : Columns) (maxDepth : Nat) :
    Option Json → Except DecodeError (Option Expr)
  | none => .ok none
  | some node => (Expr.decode columns maxDepth node).map some

/-- A limit is decoded like any expression, and has to be a literal then. -/
def decodeLimit (columns : Columns) (maxDepth : Nat) :
    Option Json → Except DecodeError (Option Expr)
  | none => .ok none
  | some node =>
    match Expr.decode columns maxDepth node with
    | .error e => .error e
    | .ok x => if x.literal?.isSome then .ok (some x) else .error (.notLiteralLimit node)

/-- Decodes a record. -/
def decode (columns : Columns) (maxDepth : Nat) : Json → Except DecodeError Query
  | .obj members => do
    let condition ← decodeCondition columns maxDepth (Json.member? "where" members)
    let limit ← decodeLimit columns maxDepth (Json.member? "limit" members)
    return ⟨condition, limit⟩
  | value => .error (.notRecord value)

end Query

end FilterSql
