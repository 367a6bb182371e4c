import FilterSql.Proofs.Induction
import FilterSql.Expr.Decode

/-!
Decoding by kinds of nodes: a scalar, a column, an operator, an array with another tag, and anything
else. There is one equation for each kind, and a node that is too deep is refused whatever its kind.
-/

namespace FilterSql

/-- The ids that a node can hold. -/
def Columns.IsId (id : Int) : Prop := -(Nat.pow 2 63 : Int) ≤ id ∧ id < Nat.pow 2 63

instance (id : Int) : Decidable (Columns.IsId id) := inferInstanceAs (Decidable (_ ∧ _))

theorem Number.toInt64?_eq_some {n : Number} {id : Int} :
    n.toInt64? = some id ↔ n = .int id ∧ Columns.IsId id := by
  cases n with
  | float x => simp [Number.toInt64?]
  | int i =>
    simp only [Number.toInt64?, Option.ite_none_right_eq_some, Option.some.injEq, Number.int.injEq,
      Columns.IsId]
    constructor
    · rintro ⟨h, rfl⟩
      exact ⟨rfl, h⟩
    · rintro ⟨rfl, h⟩
      exact ⟨h, rfl⟩

namespace Operator

def tag : Operator → String
  | .unary .not => "not"
  | .unary .isNull => "is-empty"
  | .unary .isNotNull => "not-empty"
  | .compare .less => "<"
  | .compare .greater => ">"
  | .equality .equal => "="
  | .equality .notEqual => "!="
  | .logical .and => "and"
  | .logical .or => "or"

theorem ofTag?_eq_some {tag : String} {op : Operator} : ofTag? tag = some op ↔ tag = op.tag := by
  constructor
  · intro h
    unfold ofTag? at h
    split at h <;> first | contradiction | (obtain rfl := Option.some.inj h; rfl)
  · rintro rfl
    rcases op with (_ | _ | _) | (_ | _) | (_ | _) | (_ | _) <;> rfl

@[simp] theorem ofTag?_tag (op : Operator) : ofTag? op.tag = some op := ofTag?_eq_some.mpr rfl

theorem tag_ne_columnTag (op : Operator) : op.tag ≠ columnTag := by
  rcases op with (_ | _ | _) | (_ | _) | (_ | _) | (_ | _) <;> decide

end Operator

namespace Json

/-- An array with a tag at its head. -/
def tagged (tag : String) (operands : List Json) : Json := .arr (.scalar (.str tag) :: operands)

/-- Neither a scalar nor an array with a tag. -/
def Untagged : Json → Prop
  | .scalar _ => False
  | .arr (.scalar (.str _) :: _) => False
  | _ => True

@[elab_as_elim]
theorem node_induction {motive : Json → Prop}
    (scalar : ∀ value, motive (.scalar value))
    (column : ∀ operands, motive (tagged columnTag operands))
    (operator : ∀ (op : Operator) operands, (∀ node ∈ operands, motive node) →
      motive (tagged op.tag operands))
    (unknown : ∀ tag operands, tag ≠ columnTag → Operator.ofTag? tag = none →
      motive (tagged tag operands))
    (untagged : ∀ node, Untagged node → motive node) (node : Json) : motive node := by
  induction node using operand_induction with
  | scalar value => exact scalar value
  | obj fields => exact untagged _ trivial
  | arr items ih =>
    match items with
    | .scalar (.str tag) :: operands =>
      by_cases hcolumn : tag = columnTag
      · exact hcolumn ▸ column operands
      · cases hop : Operator.ofTag? tag with
        | none => exact unknown tag operands hcolumn hop
        | some op =>
          obtain rfl := Operator.ofTag?_eq_some.mp hop
          exact operator op operands fun node hnode => ih node (List.mem_cons_of_mem _ hnode)
    | [] => exact untagged _ trivial
    | .scalar .null :: _ => exact untagged _ trivial
    | .scalar (.bool _) :: _ => exact untagged _ trivial
    | .scalar (.num _) :: _ => exact untagged _ trivial
    | .arr _ :: _ => exact untagged _ trivial
    | .obj _ :: _ => exact untagged _ trivial

end Json

namespace Expr

section Equations

variable (columns : Columns) {limit level : Nat}

theorem decodeAt_of_lt (h : limit < level) (node : Json) :
    decodeAt columns limit level node = .error (.tooDeep limit) := by
  unfold decodeAt
  split <;> exact if_pos h

theorem decodeAt_scalar (h : level ≤ limit) (value : Scalar) :
    decodeAt columns limit level (.scalar value) = .ok (.literal value) := by
  rw [decodeAt, if_neg (Nat.not_lt.mpr h)]

theorem decodeAt_column (h : level ≤ limit) (operands : List Json) :
    decodeAt columns limit level (.tagged columnTag operands) = columns.resolve operands := by
  rw [Json.tagged, decodeAt, if_neg (Nat.not_lt.mpr h), if_pos rfl]

theorem decodeAt_unknown (h : level ≤ limit) {tag : String} (operands : List Json)
    (hcolumn : tag ≠ columnTag) (htag : Operator.ofTag? tag = none) :
    decodeAt columns limit level (.tagged tag operands) = .error (.unknownOperator tag) := by
  rw [Json.tagged, decodeAt, if_neg (Nat.not_lt.mpr h), if_neg hcolumn, htag]

theorem decodeAt_untagged (h : level ≤ limit) {node : Json} (hnode : node.Untagged) :
    decodeAt columns limit level node = .error (.notExpression node) := by
  unfold decodeAt
  split
  · exact hnode.elim
  · exact hnode.elim
  · exact if_neg (Nat.not_lt.mpr h)

theorem decodeAt_operator (h : level ≤ limit) (op : Operator) (operands : List Json) :
    decodeAt columns limit level (.tagged op.tag operands) =
      if op.admits operands.length then
        match decodeAll columns limit (level + 1) operands with
        | .error e => .error e
        | .ok xs =>
          match op.build? xs with
          | none => .error (.operandCount op.tag operands.length)
          | some x => .ok x
      else .error (.operandCount op.tag operands.length) := by
  rw [Json.tagged, decodeAt, if_neg (Nat.not_lt.mpr h), if_neg op.tag_ne_columnTag]
  cases hop : Operator.ofTag? op.tag with
  | none => simp at hop
  | some other =>
    obtain rfl : op = other := by simpa using hop
    rfl

variable (op : Operator) {operands : List Json}

theorem decodeAt_count (h : level ≤ limit) (hcount : op.admits operands.length = false) :
    decodeAt columns limit level (.tagged op.tag operands) =
      .error (.operandCount op.tag operands.length) := by
  simp [decodeAt_operator columns h, hcount]

theorem decodeAt_operator_error (h : level ≤ limit) {e : DecodeError}
    (hcount : op.admits operands.length = true)
    (hall : decodeAll columns limit (level + 1) operands = .error e) :
    decodeAt columns limit level (.tagged op.tag operands) = .error e := by
  simp [decodeAt_operator columns h, hcount, hall]

theorem decodeAt_operator_ok (h : level ≤ limit) {xs : List Expr} {x : Expr}
    (hcount : op.admits operands.length = true)
    (hall : decodeAll columns limit (level + 1) operands = .ok xs) (hx : op.build? xs = some x) :
    decodeAt columns limit level (.tagged op.tag operands) = .ok x := by
  simp [decodeAt_operator columns h, hcount, hall, hx]

end Equations

variable {columns : Columns} {limit level : Nat}

theorem decodeAll_eq_nil {nodes : List Json} :
    decodeAll columns limit level nodes = .ok [] ↔ nodes = [] := by
  cases nodes with
  | nil => simp [decodeAll]
  | cons node rest =>
    rw [decodeAll]
    cases decodeAt columns limit level node with
    | error e => simp
    | ok y => cases decodeAll columns limit level rest <;> simp

theorem decodeAll_eq_cons {nodes : List Json} {x : Expr} {xs : List Expr} :
    decodeAll columns limit level nodes = .ok (x :: xs) ↔
      ∃ node rest, decodeAt columns limit level node = .ok x ∧
        decodeAll columns limit level rest = .ok xs ∧ nodes = node :: rest := by
  constructor
  · intro h
    cases nodes with
    | nil => simp [decodeAll] at h
    | cons node rest =>
      rw [decodeAll] at h
      split at h
      · contradiction
      · next y hy =>
        split at h
        · contradiction
        · next ys hys =>
          obtain ⟨rfl, rfl⟩ := List.cons.inj (Except.ok.inj h)
          exact ⟨node, rest, hy, hys, rfl⟩
  · rintro ⟨node, rest, hx, hxs, rfl⟩
    simp [decodeAll, hx, hxs]

theorem length_of_decodeAll {nodes : List Json} {xs : List Expr}
    (h : decodeAll columns limit level nodes = .ok xs) : xs.length = nodes.length := by
  induction xs generalizing nodes with
  | nil => simp [decodeAll_eq_nil.mp h]
  | cons x xs ih =>
    obtain ⟨node, rest, -, hrest, rfl⟩ := decodeAll_eq_cons.mp h
    rw [List.length_cons, List.length_cons, ih hrest]

/-- The operands of an admitted count can always be put together. -/
theorem exists_build? {op : Operator} {operands : List Json} {xs : List Expr}
    (hcount : op.admits operands.length = true)
    (hall : decodeAll columns limit level operands = .ok xs) : ∃ x, op.build? xs = some x := by
  rw [← length_of_decodeAll hall, ← Operator.build?_isSome] at hcount
  exact Option.isSome_iff_exists.mp hcount

theorem decodeAt_eq_ok {node : Json} {x : Expr} :
    decodeAt columns limit level node = .ok x ↔
      level ≤ limit ∧
        ((∃ value, node = .scalar value ∧ x = .literal value) ∨
          (∃ operands, node = .tagged columnTag operands ∧ columns.resolve operands = .ok x) ∨
          ∃ op operands xs, node = .tagged (Operator.tag op) operands ∧
            op.admits operands.length = true ∧
            decodeAll columns limit (level + 1) operands = .ok xs ∧ op.build? xs = some x) := by
  constructor
  · intro h
    -- the level is checked before anything else, so it is settled for all kinds of nodes
    have hlevel : level ≤ limit := by
      apply Nat.le_of_not_lt
      intro hlt
      rw [decodeAt_of_lt columns hlt] at h
      contradiction
    refine ⟨hlevel, ?_⟩
    induction node using Json.node_induction with
    | scalar value =>
      rw [decodeAt_scalar columns hlevel] at h
      exact .inl ⟨value, rfl, (Except.ok.inj h).symm⟩
    | column operands =>
      rw [decodeAt_column columns hlevel] at h
      exact .inr (.inl ⟨operands, rfl, h⟩)
    | operator op operands _ =>
      cases hcount : op.admits operands.length with
      | false =>
        rw [decodeAt_count columns op hlevel hcount] at h
        contradiction
      | true =>
        cases hall : decodeAll columns limit (level + 1) operands with
        | error e =>
          rw [decodeAt_operator_error columns op hlevel hcount hall] at h
          contradiction
        | ok xs =>
          obtain ⟨y, hy⟩ := exists_build? hcount hall
          rw [decodeAt_operator_ok columns op hlevel hcount hall hy] at h
          obtain rfl := Except.ok.inj h
          exact .inr (.inr ⟨op, operands, xs, rfl, hcount, hall, hy⟩)
    | unknown tag operands hcolumn htag =>
      rw [decodeAt_unknown columns hlevel operands hcolumn htag] at h
      contradiction
    | untagged node hnode =>
      rw [decodeAt_untagged columns hlevel hnode] at h
      contradiction
  · rintro ⟨hlevel, ⟨value, rfl, rfl⟩ | ⟨operands, rfl, h⟩ | ⟨op, operands, xs, rfl, hcount, hall, hx⟩⟩
    · exact decodeAt_scalar columns hlevel value
    · exact (decodeAt_column columns hlevel operands).trans h
    · exact decodeAt_operator_ok columns op hlevel hcount hall hx

end Expr

end FilterSql
