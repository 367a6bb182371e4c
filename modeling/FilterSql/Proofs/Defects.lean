import FilterSql.Proofs.Decoding

/-!
Decoding fails with the first defect of a node. What can be wrong with one node is said without looking
into its operands, the nodes that stand for expressions are listed in pre-order, and the error of
decoding is the first defect along that list.
-/

namespace FilterSql

/-- How many operands a tag may have. -/
inductive Arity where
  | exactly (count : Nat)
  | atLeast (count : Nat)

def Arity.admits : Arity → Nat → Bool
  | .exactly n, count => count == n
  | .atLeast n, count => n ≤ count

/-- The arity of a known tag. -/
def Arity.ofTag? (tag : String) : Option Arity :=
  match tag with
  | "field" | "not" | "is-empty" | "not-empty" => some (.exactly 1)
  | "<" | ">" => some (.exactly 2)
  | "=" | "!=" => some (.atLeast 2)
  | "and" | "or" => some (.atLeast 1)
  | _ => none

/-- What is wrong with the operand of a column node. -/
def Columns.idDefect (columns : Columns) (id : Json) : Option DecodeError :=
  match id with
  | .scalar (.num (.int i)) =>
    if IsId i then
      match columns.get? i with
      | none => some (.unknownColumn i)
      | some name => if name = "" then some (.unnamedColumn i) else none
    else some (.notColumnId id)
  | _ => some (.notColumnId id)

/-- What is wrong with a node at its level, its operands apart. -/
def Json.defect (columns : Columns) (limit : Nat) : Nat × Json → Option DecodeError
  | (level, node) =>
    -- the checks stand in their order, each made where all earlier ones passed
    if limit < level then some (.tooDeep limit)
    else
      match node with
      | .scalar _ => none
      | .arr (.scalar (.str tag) :: operands) =>
        match Arity.ofTag? tag with
        | none => some (.unknownOperator tag)
        | some arity =>
          if arity.admits operands.length then
            if tag = columnTag then operands.findSome? columns.idDefect else none
          else some (.operandCount tag operands.length)
      | node => some (.notExpression node)

/-- The operands of a known tag, columns apart, are expressions if their count is right. -/
def Arity.opens (tag : String) (count : Nat) : Bool :=
  tag != columnTag && (Arity.ofTag? tag).any (·.admits count)

namespace Json

mutual

/-- The nodes that stand for expressions, with their levels, in pre-order. -/
def expressions (level : Nat) : Json → List (Nat × Json)
  | .arr (.scalar (.str tag) :: operands) =>
    (level, .tagged tag operands) ::
      if Arity.opens tag operands.length then expressionsAll (level + 1) operands else []
  | node => [(level, node)]

def expressionsAll (level : Nat) : List Json → List (Nat × Json)
  | [] => []
  | node :: rest => expressions level node ++ expressionsAll level rest

end

end Json

namespace Arity

theorem ofTag?_columnTag : ofTag? columnTag = some (.exactly 1) := rfl

theorem ofTag?_operator (op : Operator) :
    ∃ arity, ofTag? op.tag = some arity ∧ ∀ count, arity.admits count = op.admits count := by
  rcases op with (_ | _ | _) | (_ | _) | (_ | _) | (_ | _) <;> exact ⟨_, rfl, fun _ => rfl⟩

theorem ofTag?_unknown {tag : String} (hcolumn : tag ≠ columnTag)
    (htag : Operator.ofTag? tag = none) : ofTag? tag = none := by
  unfold Operator.ofTag? at htag
  unfold ofTag?
  split at htag <;> simp_all [columnTag]

theorem opens_operator (op : Operator) (count : Nat) :
    opens op.tag count = op.admits count := by
  obtain ⟨arity, harity, hadmits⟩ := ofTag?_operator op
  simp [opens, harity, hadmits, op.tag_ne_columnTag]

end Arity

namespace Json

variable (columns : Columns) {limit level : Nat}

theorem defect_of_lt (h : limit < level) (node : Json) :
    defect columns limit (level, node) = some (.tooDeep limit) := by
  exact if_pos h

theorem defect_scalar (h : level ≤ limit) (value : Scalar) :
    defect columns limit (level, .scalar value) = none := by
  rw [defect, if_neg (Nat.not_lt.mpr h)]

theorem defect_tagged (h : level ≤ limit) {tag : String} {arity : Arity} (operands : List Json)
    (htag : Arity.ofTag? tag = some arity) :
    defect columns limit (level, .tagged tag operands) =
      if arity.admits operands.length then
        if tag = columnTag then operands.findSome? columns.idDefect else none
      else some (.operandCount tag operands.length) := by
  simp only [defect, tagged, if_neg (Nat.not_lt.mpr h), htag]

theorem defect_unknown (h : level ≤ limit) {tag : String} (operands : List Json)
    (htag : Arity.ofTag? tag = none) :
    defect columns limit (level, .tagged tag operands) = some (.unknownOperator tag) := by
  simp only [defect, tagged, if_neg (Nat.not_lt.mpr h), htag]

theorem defect_untagged (h : level ≤ limit) {node : Json} (hnode : node.Untagged) :
    defect columns limit (level, node) = some (.notExpression node) := by
  refine (if_neg (Nat.not_lt.mpr h)).trans ?_
  split
  · exact hnode.elim
  · exact hnode.elim
  · rfl

theorem defect_operator (h : level ≤ limit) (op : Operator) (operands : List Json) :
    defect columns limit (level, .tagged op.tag operands) =
      if op.admits operands.length then none else some (.operandCount op.tag operands.length) := by
  obtain ⟨arity, harity, hadmits⟩ := Arity.ofTag?_operator op
  rw [defect_tagged columns h operands harity, hadmits, if_neg op.tag_ne_columnTag]

theorem expressions_tagged (level : Nat) (tag : String) (operands : List Json) :
    expressions level (.tagged tag operands) =
      (level, .tagged tag operands) ::
        if Arity.opens tag operands.length then expressionsAll (level + 1) operands else [] := by
  rw [tagged, expressions]
  rfl

theorem expressions_scalar (level : Nat) (value : Scalar) :
    expressions level (.scalar value) = [(level, .scalar value)] := rfl

theorem expressions_untagged (level : Nat) {node : Json} (hnode : node.Untagged) :
    expressions level node = [(level, node)] := by
  unfold expressions
  split
  · exact hnode.elim
  · rfl

theorem mem_expressionsAll {level : Nat} {nodes : List Json} {place : Nat × Json} :
    place ∈ expressionsAll level nodes ↔ ∃ node ∈ nodes, place ∈ node.expressions level := by
  induction nodes with
  | nil => simp [expressionsAll]
  | cons node rest ih => simp [expressionsAll, ih]

/-- Pre-order begins with the node itself. -/
theorem expressions_eq_cons (level : Nat) (node : Json) :
    ∃ rest, expressions level node = (level, node) :: rest := by
  unfold expressions
  split
  · exact ⟨_, rfl⟩
  · exact ⟨[], rfl⟩

end Json

/-- The error of a result, if it is one. -/
def DecodeError.raised {α : Type} : Except DecodeError α → Option DecodeError
  | .error e => some e
  | .ok _ => none

namespace DecodeError

variable {α : Type}

@[simp] theorem raised_error (e : DecodeError) : raised (.error e : Except DecodeError α) = some e := rfl

@[simp] theorem raised_ok (a : α) : raised (.ok a) = none := rfl

theorem raised_eq_some {result : Except DecodeError α} {e : DecodeError} :
    raised result = some e ↔ result = .error e := by
  cases result <;> simp

end DecodeError

open DecodeError

namespace Expr

variable (columns : Columns) {limit level : Nat}

theorem raised_resolve (id : Json) : raised (columns.resolve [id]) = columns.idDefect id := by
  match id with
  | .arr _ => rfl
  | .obj _ => rfl
  | .scalar .null => rfl
  | .scalar (.bool _) => rfl
  | .scalar (.str _) => rfl
  | .scalar (.num (.float _)) => rfl
  | .scalar (.num (.int i)) =>
    by_cases hid : Columns.IsId i
    · have hint : (Number.int i).toInt64? = some i := Number.toInt64?_eq_some.mpr ⟨rfl, hid⟩
      simp only [Columns.resolve, Columns.idDefect, hint, if_pos hid]
      cases columns.get? i with
      | none => rfl
      | some name =>
        by_cases hname : name = ""
        · simp [hname]
        · simp [hname]
    · have hint : (Number.int i).toInt64? = none := if_neg hid
      simp only [Columns.resolve, Columns.idDefect, hint, if_neg hid, raised_error]

/-- The operands are read from left to right, each to its end. -/
theorem raised_decodeAll {nodes : List Json}
    (ih : ∀ node ∈ nodes, raised (decodeAt columns limit level node) =
      (node.expressions level).findSome? (Json.defect columns limit)) :
    raised (decodeAll columns limit level nodes) =
      (Json.expressionsAll level nodes).findSome? (Json.defect columns limit) := by
  induction nodes with
  | nil => rfl
  | cons node rest ihrest =>
    rw [List.forall_mem_cons] at ih
    rw [Json.expressionsAll, List.findSome?_append, ← ih.1, ← ihrest ih.2, decodeAll]
    cases decodeAt columns limit level node with
    | error e => rfl
    | ok x => cases decodeAll columns limit level rest <;> rfl

theorem raised_decodeAt_of_lt (h : limit < level) (node : Json) :
    raised (decodeAt columns limit level node) =
      (node.expressions level).findSome? (Json.defect columns limit) := by
  obtain ⟨rest, hrest⟩ := Json.expressions_eq_cons level node
  rw [decodeAt_of_lt columns h, raised_error, hrest, List.findSome?_cons,
    Json.defect_of_lt columns h]

theorem raised_decodeAt_of_le (h : level ≤ limit) (node : Json) :
    raised (decodeAt columns limit level node) =
      (node.expressions level).findSome? (Json.defect columns limit) := by
  induction node using Json.node_induction generalizing level with
  | scalar value =>
    rw [decodeAt_scalar columns h, raised_ok, Json.expressions_scalar, List.findSome?_cons,
      Json.defect_scalar columns h, List.findSome?_nil]
  | column operands =>
    rw [decodeAt_column columns h, Json.expressions_tagged, List.findSome?_cons,
      Json.defect_tagged columns h operands Arity.ofTag?_columnTag, if_pos rfl]
    -- the operand of a column is an id and no expression, so the list ends with the node
    match operands with
    | [] => rfl
    | _ :: _ :: _ => rfl
    | [id] =>
      rw [raised_resolve]
      cases hid : columns.idDefect id with
      | none => simp [Arity.admits, Arity.opens, hid]
      | some e => simp [Arity.admits, hid]
  | operator op operands ih =>
    rw [Json.expressions_tagged, Arity.opens_operator, List.findSome?_cons,
      Json.defect_operator columns h]
    cases hcount : op.admits operands.length with
    | false =>
      rw [decodeAt_count columns op h hcount]
      rfl
    | true =>
      have hoperands : raised (decodeAll columns limit (level + 1) operands) =
          (Json.expressionsAll (level + 1) operands).findSome? (Json.defect columns limit) := by
        refine raised_decodeAll columns fun node hnode => ?_
        -- the limit may be passed between a node and its operands
        rcases Nat.lt_or_ge limit (level + 1) with hlt | hle
        · exact raised_decodeAt_of_lt columns hlt node
        · exact ih node hnode hle
      simp only [if_true, ← hoperands]
      cases hall : decodeAll columns limit (level + 1) operands with
      | error e => rw [decodeAt_operator_error columns op h hcount hall, raised_error, raised_error]
      | ok xs =>
        obtain ⟨x, hx⟩ := exists_build? hcount hall
        rw [decodeAt_operator_ok columns op h hcount hall hx, raised_ok, raised_ok]
  | unknown tag operands hcolumn htag =>
    rw [decodeAt_unknown columns h operands hcolumn htag, raised_error, Json.expressions_tagged,
      List.findSome?_cons, Json.defect_unknown columns h operands (Arity.ofTag?_unknown hcolumn htag)]
  | untagged node hnode =>
    rw [decodeAt_untagged columns h hnode, raised_error, Json.expressions_untagged level hnode,
      List.findSome?_cons, Json.defect_untagged columns h hnode]

theorem raised_decode (limit : Nat) (node : Json) :
    raised (decode columns limit node) =
      (node.expressions 1).findSome? (Json.defect columns limit) := by
  rcases Nat.lt_or_ge limit 1 with hlt | hle
  · exact raised_decodeAt_of_lt columns hlt node
  · exact raised_decodeAt_of_le columns hle node

end Expr

/-- Decoding reports the defect of the first expression that has one, in the order in which they are
written, and fails only if there is one. -/
theorem decode_error_first_defect (columns : Columns) (limit : Nat) (node : Json) :
    (∀ e, Expr.decode columns limit node = .error e ↔
      ∃ before place after, node.expressions 1 = before ++ place :: after ∧
        (∀ earlier ∈ before, Json.defect columns limit earlier = none) ∧
        Json.defect columns limit place = some e) ∧
      ((∃ e, Expr.decode columns limit node = .error e) ↔
        ∃ place ∈ node.expressions 1, Json.defect columns limit place ≠ none) := by
  have hfirst (e : DecodeError) : Expr.decode columns limit node = .error e ↔
      (node.expressions 1).findSome? (Json.defect columns limit) = some e := by
    rw [← Expr.raised_decode, raised_eq_some]
  refine ⟨fun e => ?_, ?_⟩
  · rw [hfirst, List.findSome?_eq_some_iff]
    constructor
    · rintro ⟨before, place, after, hnodes, hplace, hbefore⟩
      exact ⟨before, place, after, hnodes, hbefore, hplace⟩
    · rintro ⟨before, place, after, hnodes, hbefore, hplace⟩
      exact ⟨before, place, after, hnodes, hplace, hbefore⟩
  · simp only [hfirst]
    rw [← Option.isSome_iff_exists, List.findSome?_isSome_iff]
    simp only [Option.isSome_iff_ne_none]

end FilterSql
