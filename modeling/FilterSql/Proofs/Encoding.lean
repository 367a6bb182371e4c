import FilterSql.Proofs.Decoding

/-!
Which expressions have an encoding, and which nodes encode an expression. An operator node is seen as
its operator with all its operands in one list, the main operand of an equality first; that is how it
stands in JSON. A column may be encoded by any id that has its name.
-/

namespace FilterSql

namespace Expr

/-- A node as its operator with all its operands. -/
inductive OperatorNode : Expr → Operator → List Expr → Prop where
  | unary (op : UnaryOp) (x : Expr) : OperatorNode (.unary op x) (.unary op) [x]
  | compare (op : Comparison) (left right : Expr) :
      OperatorNode (.compare op left right) (.compare op) [left, right]
  | equality (op : EqualityOp) (main : Expr) (operands : List Expr) :
      OperatorNode (.equality op main operands) (.equality op) (main :: operands)
  | logical (op : Connective) (operands : List Expr) :
      OperatorNode (.logical op operands) (.logical op) operands

theorem OperatorNode.unique {x : Expr} {op op' : Operator} {xs xs' : List Expr}
    (h : OperatorNode x op xs) (h' : OperatorNode x op' xs') : op = op' ∧ xs = xs' := by
  cases h <;> cases h' <;> exact ⟨rfl, rfl⟩

@[elab_as_elim]
theorem operator_induction {motive : Expr → Prop}
    (literal : ∀ value, motive (.literal value))
    (column : ∀ name, motive (.column name))
    (operator : ∀ x op xs, OperatorNode x op xs → (∀ y ∈ xs, motive y) → motive x)
    (x : Expr) : motive x := by
  induction x using operand_induction with
  | literal value => exact literal value
  | column name => exact column name
  | unary op x ih _ => exact operator _ _ _ (.unary op x) (by simpa using ih)
  | compare op left right ihl ihr =>
    exact operator _ _ _ (.compare op left right) (by simpa using ⟨ihl, ihr⟩)
  | equality op main operands ihm ih =>
    exact operator _ _ _ (.equality op main operands) (by simpa using ⟨ihm, ih⟩)
  | logical op operands ih => exact operator _ _ _ (.logical op operands) ih

mutual

/-- Literals and columns count 1, an operator one more than its highest operand. -/
def height : Expr → Nat
  | .literal _ => 1
  | .column _ => 1
  | .unary _ x => 1 + height x
  | .compare _ left right => 1 + max (height left) (height right)
  | .equality _ main operands => 1 + max (height main) (heightAll operands)
  | .logical _ operands => 1 + heightAll operands

def heightAll : List Expr → Nat
  | [] => 0
  | x :: rest => max (height x) (heightAll rest)

end

mutual

/-- An expression and everything in it. -/
def nodes : Expr → List Expr
  | .literal value => [.literal value]
  | .column name => [.column name]
  | .unary op x => .unary op x :: nodes x
  | .compare op left right => .compare op left right :: (nodes left ++ nodes right)
  | .equality op main operands => .equality op main operands :: (nodes main ++ nodesAll operands)
  | .logical op operands => .logical op operands :: nodesAll operands

def nodesAll : List Expr → List Expr
  | [] => []
  | x :: rest => nodes x ++ nodesAll rest

end

/-- A column has a name that is not empty and belongs to an id, and an equality or a connective has an
operand. -/
def Admissible (columns : Columns) : Expr → Prop
  | .column name => name ≠ "" ∧ ∃ id, Columns.IsId id ∧ columns.get? id = some name
  | .equality _ _ operands => operands ≠ []
  | .logical _ operands => operands ≠ []
  | _ => True

def WellFormed (columns : Columns) (x : Expr) : Prop := ∀ y ∈ x.nodes, y.Admissible columns

theorem wellFormed_literal (columns : Columns) (value : Scalar) :
    (literal value).WellFormed columns := by
  intro y hy
  rw [nodes, List.mem_singleton] at hy
  exact hy ▸ trivial

theorem wellFormed_column {columns : Columns} {name : String} :
    (column name).WellFormed columns ↔
      name ≠ "" ∧ ∃ id, Columns.IsId id ∧ columns.get? id = some name := by
  simp [WellFormed, nodes, Admissible]

theorem heightAll_le_iff {xs : List Expr} {n : Nat} :
    heightAll xs ≤ n ↔ ∀ x ∈ xs, x.height ≤ n := by
  induction xs with
  | nil => simp [heightAll]
  | cons x xs ih => rw [heightAll, Nat.max_le, ih, List.forall_mem_cons]

theorem mem_nodesAll {xs : List Expr} {y : Expr} : y ∈ nodesAll xs ↔ ∃ x ∈ xs, y ∈ x.nodes := by
  induction xs with
  | nil => simp [nodesAll]
  | cons x xs ih => simp [nodesAll, ih]

section Operator

variable {x : Expr} {op : Operator} {xs : List Expr}

theorem height_of_operator (h : OperatorNode x op xs) : x.height = 1 + heightAll xs := by
  cases h <;> simp [height, heightAll]

theorem nodes_of_operator (h : OperatorNode x op xs) : x.nodes = x :: nodesAll xs := by
  cases h <;> simp [nodes, nodesAll]

theorem admissible_of_operator (columns : Columns) (h : OperatorNode x op xs) :
    x.Admissible columns ↔ op.admits xs.length = true := by
  cases h <;>
    simp [Admissible, Operator.admits, Nat.one_le_iff_ne_zero, List.length_eq_zero_iff]

theorem wellFormed_of_operator (columns : Columns) (h : OperatorNode x op xs) :
    x.WellFormed columns ↔ op.admits xs.length = true ∧ ∀ y ∈ xs, y.WellFormed columns := by
  unfold WellFormed
  rw [nodes_of_operator h, ← admissible_of_operator columns h]
  constructor
  · intro hall
    refine ⟨hall x List.mem_cons_self, fun y hy z hz => hall z (List.mem_cons_of_mem x ?_)⟩
    exact mem_nodesAll.mpr ⟨y, hy, hz⟩
  · rintro ⟨hx, hxs⟩ z hz
    rcases List.mem_cons.mp hz with rfl | hz
    · exact hx
    · obtain ⟨y, hy, hzy⟩ := mem_nodesAll.mp hz
      exact hxs y hy z hzy

/-- An operator takes one level, and its operands have what is left. -/
theorem height_fits_of_operator {level limit : Nat} (h : OperatorNode x op xs) :
    level + x.height ≤ limit + 1 ↔
      level ≤ limit ∧ ∀ y ∈ xs, level + 1 + y.height ≤ limit + 1 := by
  rw [height_of_operator h]
  constructor
  · intro hle
    refine ⟨by omega, fun y hy => ?_⟩
    have hy := heightAll_le_iff.mp (Nat.le_refl (heightAll xs)) y hy
    omega
  · rintro ⟨hlevel, hxs⟩
    have hall : heightAll xs ≤ limit - level := by
      refine heightAll_le_iff.mpr fun y hy => ?_
      have hy := hxs y hy
      omega
    omega

theorem build?_eq_some :
    op.build? xs = some x ↔ OperatorNode x op xs ∧ op.admits xs.length = true := by
  constructor
  · intro h
    have hadmits : op.admits xs.length = true := by
      rw [← Operator.build?_isSome, h]
      rfl
    refine ⟨?_, hadmits⟩
    unfold Operator.build? at h
    split at h <;> first | contradiction | (obtain rfl := Option.some.inj h; constructor)
  · rintro ⟨h, hadmits⟩
    cases h with
    | unary => rfl
    | compare => rfl
    | equality op main operands =>
      cases operands with
      | nil => simp [Operator.admits] at hadmits
      | cons => rfl
    | logical =>
      cases xs with
      | nil => simp [Operator.admits] at hadmits
      | cons => rfl

end Operator

end Expr

/-- The node of a column. -/
def Json.column (id : Int) : Json := .tagged columnTag [.scalar (.num (.int id))]

mutual

/-- A scalar encodes its literal, and an array with a tag at its head a column or an operator. -/
inductive Encodes (columns : Columns) : Expr → Json → Prop where
  | literal (value : Scalar) : Encodes columns (.literal value) (.scalar value)
  | column {name : String} {id : Int} : Columns.IsId id → columns.get? id = some name →
      Encodes columns (.column name) (Json.column id)
  | operator {x : Expr} {op : Operator} {xs : List Expr} {operands : List Json} :
      x.OperatorNode op xs → EncodesAll columns xs operands →
      Encodes columns x (.tagged op.tag operands)

inductive EncodesAll (columns : Columns) : List Expr → List Json → Prop where
  | nil : EncodesAll columns [] []
  | cons {x : Expr} {xs : List Expr} {node : Json} {rest : List Json} :
      Encodes columns x node → EncodesAll columns xs rest →
      EncodesAll columns (x :: xs) (node :: rest)

end

mutual

/-- Equal, but for the ids of columns, which have the same names. -/
inductive SameUpToIds (columns : Columns) : Json → Json → Prop where
  | scalar (value : Scalar) : SameUpToIds columns (.scalar value) (.scalar value)
  | column {id other : Int} {name : String} : columns.get? id = some name →
      columns.get? other = some name → SameUpToIds columns (Json.column id) (Json.column other)
  | arr {items others : List Json} : SameAllUpToIds columns items others →
      SameUpToIds columns (.arr items) (.arr others)

inductive SameAllUpToIds (columns : Columns) : List Json → List Json → Prop where
  | nil : SameAllUpToIds columns [] []
  | cons {item other : Json} {items others : List Json} : SameUpToIds columns item other →
      SameAllUpToIds columns items others →
      SameAllUpToIds columns (item :: items) (other :: others)

end

section Encodes

variable {columns : Columns}

theorem encodes_literal {value : Scalar} {node : Json} :
    Encodes columns (.literal value) node ↔ node = .scalar value := by
  constructor
  · intro h
    cases h with
    | literal => rfl
    | operator hx => cases hx
  · rintro rfl
    exact .literal value

theorem encodes_column {name : String} {node : Json} :
    Encodes columns (.column name) node ↔
      ∃ id, Columns.IsId id ∧ columns.get? id = some name ∧ node = Json.column id := by
  constructor
  · intro h
    cases h with
    | column hid hname => exact ⟨_, hid, hname, rfl⟩
    | operator hx => cases hx
  · rintro ⟨id, hid, hname, rfl⟩
    exact .column hid hname

theorem encodes_operator {x : Expr} {op : Operator} {xs : List Expr} {node : Json}
    (hx : x.OperatorNode op xs) :
    Encodes columns x node ↔
      ∃ operands, EncodesAll columns xs operands ∧ node = .tagged op.tag operands := by
  constructor
  · intro h
    cases h with
    | literal => cases hx
    | column => cases hx
    | operator hx' hall =>
      obtain ⟨rfl, rfl⟩ := hx.unique hx'
      exact ⟨_, hall, rfl⟩
  · rintro ⟨operands, hall, rfl⟩
    exact .operator hx hall

theorem encodesAll_nil {nodes : List Json} : EncodesAll columns [] nodes ↔ nodes = [] := by
  constructor
  · rintro ⟨⟩
    rfl
  · rintro rfl
    exact .nil

theorem encodesAll_cons {x : Expr} {xs : List Expr} {nodes : List Json} :
    EncodesAll columns (x :: xs) nodes ↔
      ∃ node rest, Encodes columns x node ∧ EncodesAll columns xs rest ∧ nodes = node :: rest := by
  constructor
  · rintro ⟨⟩
    exact ⟨_, _, ‹_›, ‹_›, rfl⟩
  · rintro ⟨node, rest, hnode, hrest, rfl⟩
    exact .cons hnode hrest

theorem EncodesAll.sameAllUpToIds {xs : List Expr} {as bs : List Json}
    (ih : ∀ x ∈ xs, ∀ a b, Encodes columns x a → Encodes columns x b → SameUpToIds columns a b)
    (ha : EncodesAll columns xs as) (hb : EncodesAll columns xs bs) :
    SameAllUpToIds columns as bs := by
  induction xs generalizing as bs with
  | nil =>
    rw [encodesAll_nil.mp ha, encodesAll_nil.mp hb]
    exact .nil
  | cons x xs ihxs =>
    obtain ⟨a, as, hnode, has, rfl⟩ := encodesAll_cons.mp ha
    obtain ⟨b, bs, hother, hbs, rfl⟩ := encodesAll_cons.mp hb
    rw [List.forall_mem_cons] at ih
    exact .cons (ih.1 a b hnode hother) (ihxs ih.2 has hbs)

theorem Encodes.sameUpToIds (x : Expr) :
    ∀ a b, Encodes columns x a → Encodes columns x b → SameUpToIds columns a b := by
  induction x using Expr.operator_induction with
  | literal value =>
    intro a b ha hb
    rw [encodes_literal.mp ha, encodes_literal.mp hb]
    exact .scalar value
  | column name =>
    intro a b ha hb
    obtain ⟨id, _, hid, rfl⟩ := encodes_column.mp ha
    obtain ⟨other, _, hother, rfl⟩ := encodes_column.mp hb
    exact .column hid hother
  | operator x op xs hx ih =>
    intro a b ha hb
    obtain ⟨as, has, rfl⟩ := (encodes_operator hx).mp ha
    obtain ⟨bs, hbs, rfl⟩ := (encodes_operator hx).mp hb
    exact .arr (.cons (.scalar _) (has.sameAllUpToIds ih hbs))

theorem EncodesAll.exists {xs : List Expr} (h : ∀ x ∈ xs, ∃ node, Encodes columns x node) :
    ∃ nodes, EncodesAll columns xs nodes := by
  induction xs with
  | nil => exact ⟨[], .nil⟩
  | cons x xs ih =>
    obtain ⟨node, hnode⟩ := h x List.mem_cons_self
    obtain ⟨nodes, hnodes⟩ := ih fun y hy => h y (List.mem_cons_of_mem x hy)
    exact ⟨node :: nodes, .cons hnode hnodes⟩

theorem Encodes.exists (x : Expr) (h : x.WellFormed columns) : ∃ node, Encodes columns x node := by
  induction x using Expr.operator_induction with
  | literal value => exact ⟨_, .literal value⟩
  | column name =>
    obtain ⟨_, id, hid, hname⟩ := Expr.wellFormed_column.mp h
    exact ⟨_, .column hid hname⟩
  | operator x op xs hx ih =>
    have hxs := ((Expr.wellFormed_of_operator columns hx).mp h).2
    obtain ⟨operands, hall⟩ := EncodesAll.exists fun y hy => ih y hy (hxs y hy)
    exact ⟨_, .operator hx hall⟩

end Encodes

theorem Columns.resolve_eq_ok {columns : Columns} {operands : List Json} {x : Expr} :
    columns.resolve operands = .ok x ↔
      ∃ id name, Columns.IsId id ∧ columns.get? id = some name ∧ name ≠ "" ∧
        operands = [.scalar (.num (.int id))] ∧ x = .column name := by
  constructor
  · intro h
    unfold Columns.resolve at h
    split at h
    · split at h
      · split at h
        · contradiction
        · next id hn =>
          obtain ⟨rfl, hid⟩ := Number.toInt64?_eq_some.mp hn
          split at h
          · contradiction
          · next name hname =>
            split at h
            · contradiction
            · next hne =>
              refine ⟨id, name, hid, hname, ?_, rfl, (Except.ok.inj h).symm⟩
              rintro rfl
              exact hne rfl
      · contradiction
    · contradiction
  · rintro ⟨id, name, hid, hname, hne, rfl, rfl⟩
    simp [Columns.resolve, Number.toInt64?_eq_some.mpr ⟨rfl, hid⟩, hname, hne]

namespace Expr

variable {columns : Columns} {limit level : Nat} {node : Json}

theorem decodeAt_eq_literal {value : Scalar} :
    decodeAt columns limit level node = .ok (.literal value) ↔
      level ≤ limit ∧ node = .scalar value := by
  rw [decodeAt_eq_ok]
  refine and_congr_right fun _ => ⟨?_, ?_⟩
  · rintro (⟨value', rfl, h⟩ | ⟨operands, rfl, h⟩ | ⟨op, operands, xs, rfl, _, _, h⟩)
    · rw [literal.inj h]
    · obtain ⟨_, _, _, _, _, _, h⟩ := Columns.resolve_eq_ok.mp h
      contradiction
    · cases (build?_eq_some.mp h).1
  · intro h
    exact .inl ⟨value, h, rfl⟩

theorem decodeAt_eq_column {name : String} :
    decodeAt columns limit level node = .ok (.column name) ↔
      level ≤ limit ∧ name ≠ "" ∧
        ∃ id, Columns.IsId id ∧ columns.get? id = some name ∧ node = Json.column id := by
  rw [decodeAt_eq_ok]
  refine and_congr_right fun _ => ⟨?_, ?_⟩
  · rintro (⟨value, rfl, h⟩ | ⟨operands, rfl, h⟩ | ⟨op, operands, xs, rfl, _, _, h⟩)
    · contradiction
    · obtain ⟨id, name', hid, hname, hne, rfl, hx⟩ := Columns.resolve_eq_ok.mp h
      obtain rfl := column.inj hx
      exact ⟨hne, id, hid, hname, rfl⟩
    · cases (build?_eq_some.mp h).1
  · rintro ⟨hne, id, hid, hname, rfl⟩
    exact .inr (.inl ⟨_, rfl, Columns.resolve_eq_ok.mpr ⟨id, name, hid, hname, hne, rfl, rfl⟩⟩)

theorem decodeAt_eq_operator {x : Expr} {op : Operator} {xs : List Expr}
    (hx : x.OperatorNode op xs) :
    decodeAt columns limit level node = .ok x ↔
      level ≤ limit ∧ op.admits xs.length = true ∧
        ∃ operands, decodeAll columns limit (level + 1) operands = .ok xs ∧
          node = .tagged op.tag operands := by
  rw [decodeAt_eq_ok]
  refine and_congr_right fun _ => ⟨?_, ?_⟩
  · rintro (⟨value, rfl, rfl⟩ | ⟨operands, rfl, h⟩ | ⟨op', operands, xs', rfl, hcount, hall, h⟩)
    · cases hx
    · obtain ⟨_, _, _, _, _, _, rfl⟩ := Columns.resolve_eq_ok.mp h
      cases hx
    · -- an expression is an operator with its operands in one way only
      obtain ⟨rfl, rfl⟩ := hx.unique (build?_eq_some.mp h).1
      exact ⟨length_of_decodeAll hall ▸ hcount, operands, hall, rfl⟩
  · rintro ⟨hcount, operands, hall, rfl⟩
    refine .inr (.inr ⟨op, operands, xs, rfl, ?_, hall, build?_eq_some.mpr ⟨hx, hcount⟩⟩)
    exact length_of_decodeAll hall ▸ hcount

theorem decodeAll_exact {xs : List Expr} {nodes : List Json}
    (ih : ∀ x ∈ xs, ∀ node, decodeAt columns limit level node = .ok x ↔
      Encodes columns x node ∧ x.WellFormed columns ∧ level + x.height ≤ limit + 1) :
    decodeAll columns limit level nodes = .ok xs ↔
      EncodesAll columns xs nodes ∧ (∀ x ∈ xs, x.WellFormed columns) ∧
        ∀ x ∈ xs, level + x.height ≤ limit + 1 := by
  induction xs generalizing nodes with
  | nil =>
    rw [decodeAll_eq_nil, encodesAll_nil]
    simp
  | cons x xs ihxs =>
    rw [List.forall_mem_cons] at ih
    simp only [decodeAll_eq_cons, encodesAll_cons, List.forall_mem_cons, ih.1, ihxs ih.2]
    constructor
    · rintro ⟨node, rest, ⟨hnode, hwf, hfits⟩, ⟨hrest, hwfs, hfitss⟩, rfl⟩
      exact ⟨⟨node, rest, hnode, hrest, rfl⟩, ⟨hwf, hwfs⟩, hfits, hfitss⟩
    · rintro ⟨⟨node, rest, hnode, hrest, rfl⟩, ⟨hwf, hwfs⟩, hfits, hfitss⟩
      exact ⟨node, rest, ⟨hnode, hwf, hfits⟩, ⟨hrest, hwfs, hfitss⟩, rfl⟩

theorem decodeAt_exact (x : Expr) : ∀ level node,
    decodeAt columns limit level node = .ok x ↔
      Encodes columns x node ∧ x.WellFormed columns ∧ level + x.height ≤ limit + 1 := by
  -- the decoder and the encoding open by the same cases, and what is left is to regroup them
  induction x using operator_induction with
  | literal value =>
    intro level node
    rw [decodeAt_eq_literal, encodes_literal, height]
    have hvalue := wellFormed_literal columns value
    constructor
    · rintro ⟨hlevel, rfl⟩
      exact ⟨rfl, hvalue, by omega⟩
    · rintro ⟨rfl, _, hlevel⟩
      exact ⟨by omega, rfl⟩
  | column name =>
    intro level node
    rw [decodeAt_eq_column, encodes_column, wellFormed_column, height]
    constructor
    · rintro ⟨hlevel, hne, id, hid, hname, rfl⟩
      exact ⟨⟨id, hid, hname, rfl⟩, ⟨hne, id, hid, hname⟩, by omega⟩
    · rintro ⟨hnode, ⟨hne, _⟩, hlevel⟩
      exact ⟨by omega, hne, hnode⟩
  | operator x op xs hx ih =>
    intro level node
    rw [decodeAt_eq_operator hx, encodes_operator hx, wellFormed_of_operator columns hx,
      height_fits_of_operator hx]
    simp only [decodeAll_exact fun y hy => ih y hy (level + 1)]
    constructor
    · rintro ⟨hlevel, hcount, operands, ⟨hall, hwf, hfits⟩, rfl⟩
      exact ⟨⟨operands, hall, rfl⟩, ⟨hcount, hwf⟩, hlevel, hfits⟩
    · rintro ⟨⟨operands, hall, rfl⟩, ⟨hcount, hwf⟩, hlevel, hfits⟩
      exact ⟨hlevel, hcount, operands, ⟨hall, hwf, hfits⟩, rfl⟩

end Expr

/-- The expressions that decoding can give, the nodes that give each one, and how far these agree. -/
theorem decode_exact (columns : Columns) (limit : Nat) (x : Expr) :
    ((∃ node, Expr.decode columns limit node = .ok x) ↔
        x.WellFormed columns ∧ x.height ≤ limit) ∧
      (∀ node, Expr.decode columns limit node = .ok x ↔
        Encodes columns x node ∧ x.WellFormed columns ∧ x.height ≤ limit) ∧
      ∀ a b, Expr.decode columns limit a = .ok x → Expr.decode columns limit b = .ok x →
        SameUpToIds columns a b := by
  have hdecode (node : Json) : Expr.decode columns limit node = .ok x ↔
      Encodes columns x node ∧ x.WellFormed columns ∧ x.height ≤ limit := by
    rw [Expr.decode, Expr.decodeAt_exact x 1 node, Nat.add_comm 1, Nat.add_le_add_iff_right]
  refine ⟨⟨?_, ?_⟩, hdecode, ?_⟩
  · rintro ⟨node, hnode⟩
    exact ((hdecode node).mp hnode).2
  · rintro ⟨hwf, hheight⟩
    obtain ⟨node, hnode⟩ := Encodes.exists x hwf
    exact ⟨node, (hdecode node).mpr ⟨hnode, hwf, hheight⟩⟩
  · intro a b ha hb
    exact Encodes.sameUpToIds x a b ((hdecode a).mp ha).1 ((hdecode b).mp hb).1

end FilterSql
