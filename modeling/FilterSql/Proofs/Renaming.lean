import FilterSql.Proofs.Defects
import FilterSql.Proofs.Statement

/-!
Names of columns decide nothing. Two maps that leave the same ids out, and give the same ids no name,
refuse a node for the same reason, or decode it to two expressions that differ in the names of their
columns only. And what is rendered to a constant stays one under any other names: a context that renames
before it renders is a context like any other, and all contexts agree on constants.
-/

namespace FilterSql

/-- Two maps both leave an id out, both give it an empty name, or both give it another one. -/
def Columns.AgreeAt (a b : Columns) (id : Int) : Prop :=
  (a.get? id = none ∧ b.get? id = none) ∨ (a.get? id = some "" ∧ b.get? id = some "") ∨
    ∃ name other, name ≠ "" ∧ other ≠ "" ∧ a.get? id = some name ∧ b.get? id = some other

/-- Two names that the maps give to an id, which is one of some ids. -/
def Columns.Pair (a b : Columns) (ids : Int → Prop) (id : Int) (name other : String) : Prop :=
  ids id ∧ a.get? id = some name ∧ b.get? id = some other

/-- The ids of the column nodes among the expressions of a node. -/
def Json.UsesId (node : Json) (id : Int) : Prop :=
  Columns.IsId id ∧ ∃ level, (level, Json.column id) ∈ node.expressions 1

mutual

/-- Two expressions with the form of a node, equal but for the names of columns. The names in one place
are related through the id that the node has there. -/
inductive Alike (names : Int → String → String → Prop) : Json → Expr → Expr → Prop where
  | literal (value : Scalar) : Alike names (.scalar value) (.literal value) (.literal value)
  | column {id : Int} {name other : String} : names id name other →
      Alike names (.column id) (.column name) (.column other)
  | operator {op : Operator} {nodes : List Json} {x y : Expr} {xs ys : List Expr} :
      x.OperatorNode op xs → y.OperatorNode op ys → AlikeAll names nodes xs ys →
      Alike names (.tagged op.tag nodes) x y

inductive AlikeAll (names : Int → String → String → Prop) :
    List Json → List Expr → List Expr → Prop where
  | nil : AlikeAll names [] [] []
  | cons {node : Json} {nodes : List Json} {x y : Expr} {xs ys : List Expr} : Alike names node x y →
      AlikeAll names nodes xs ys → AlikeAll names (node :: nodes) (x :: xs) (y :: ys)

end

namespace Expr

mutual

/-- An expression with other names for its columns. -/
def rename (f : String → String) : Expr → Expr
  | .literal value => .literal value
  | .column name => .column (f name)
  | .unary op x => .unary op (rename f x)
  | .compare op left right => .compare op (rename f left) (rename f right)
  | .equality op main operands => .equality op (rename f main) (renameAll f operands)
  | .logical op operands => .logical op (renameAll f operands)

def renameAll (f : String → String) : List Expr → List Expr
  | [] => []
  | x :: rest => rename f x :: renameAll f rest

end

variable (f : String → String)

theorem renameAll_eq_map (xs : List Expr) : renameAll f xs = xs.map (rename f) := by
  induction xs with
  | nil => rfl
  | cons x xs ih => rw [renameAll, ih, List.map_cons]

theorem literal?_rename (x : Expr) : (x.rename f).literal? = x.literal? := by
  cases x <;> rfl

theorem isLogical_rename (op : Connective) (x : Expr) :
    (x.rename f).isLogical op = x.isLogical op := by
  cases x <;> rfl

/-- Equalities are decided by their literals, and a column is none whatever its name. -/
theorem alwaysHolds_rename (op : EqualityOp) (main : Expr) (operands : List Expr) :
    op.alwaysHolds (main.rename f) (operands.map (rename f)) = op.alwaysHolds main operands := by
  unfold EqualityOp.alwaysHolds
  rw [literal?_rename]
  cases main.literal? with
  | none => rfl
  | some value => cases op <;> simp [List.any_map, List.all_map, Function.comp_def, literal?_rename]

theorem operatorNode_rename {x : Expr} {op : Operator} {xs : List Expr} (h : x.OperatorNode op xs) :
    (x.rename f).OperatorNode op (xs.map (rename f)) := by
  cases h with
  | unary op x => exact .unary op _
  | compare op left right => exact .compare op _ _
  | equality op main operands =>
    rw [rename, renameAll_eq_map]
    exact .equality op _ _
  | logical op operands =>
    rw [rename, renameAll_eq_map]
    exact .logical op _

theorem OperatorNode.eq {x y : Expr} {op : Operator} {xs : List Expr} (hx : x.OperatorNode op xs)
    (hy : y.OperatorNode op xs) : x = y := by
  cases hx <;> cases hy <;> rfl

end Expr

namespace Context

/-- The context that renames columns before it renders them. -/
def renamed (f : String → String) (cx : Context) : Context where
  identifier name := cx.identifier (f name)
  compare op left right := cx.compare op (left.rename f) (right.rename f)
  render x := cx.render (x.rename f)

theorem Delegates.renamed {cx : Context} (hcx : cx.Delegates) (f : String → String) :
    (cx.renamed f).Delegates := by
  refine ⟨fun x => ?_, fun op left right => ?_⟩
  · have hnode : (cx.renamed f).render x = cx.node (x.rename f) := hcx.render_eq (x.rename f)
    rw [hnode]
    cases x with
    | literal value => rfl
    | column name => rfl
    | unary op x =>
      have hrendered (op : UnaryOp) (x : Expr) :
          op.rendered (x.rename f) (cx.render (x.rename f)) =
            op.rendered x (cx.render (x.rename f)) := by
        unfold UnaryOp.rendered
        rw [Expr.literal?_rename]
      by_cases hnot : op = .not ∧ ∃ inner y, x = .unary inner y
      · obtain ⟨rfl, inner, y, rfl⟩ := hnot
        rw [Expr.rename, Expr.rename, node, node]
        cases inner.opposite? with
        | none => rfl
        | some opposite => exact hrendered opposite y
      · have hnot' : ¬ (op = .not ∧ ∃ inner y, x.rename f = .unary inner y) := by
          rintro ⟨hop, inner, y, hy⟩
          cases x with
          | unary inner x => exact hnot ⟨hop, inner, x, rfl⟩
          | _ => contradiction
        rw [Expr.rename, node_unary cx hnot', node_unary _ hnot]
        exact hrendered op x
    | compare op left right => rfl
    | equality op main operands =>
      rw [Expr.rename, Expr.renameAll_eq_map, node, node, Expr.alwaysHolds_rename, List.map_map]
      rfl
    | logical op operands =>
      rw [Expr.rename, Expr.renameAll_eq_map, node, node, List.map_map]
      congr 1
      apply List.map_congr_left
      intro x hx
      simp only [Function.comp_apply, Connective.placed, Expr.isLogical_rename]
      rfl
  · exact hcx.compare_eq op (left.rename f) (right.rename f)

end Context

/-- Whether an expression is constant, and which constant it is, does not hang on names. -/
theorem Expr.constant?_rename (style : Style) (f : String → String) (x : Expr) :
    ((x.rename f).render style).constant? = (x.render style).constant? := by
  have hstyle := style.context_delegates
  exact (hstyle.renamed f).constant?_eq hstyle x

section Alike

variable {names : Int → String → String → Prop} {f g : String → String}

theorem AlikeAll.map_rename_eq {nodes : List Json} {xs ys : List Expr}
    (ih : ∀ x ∈ xs, ∀ node y, Alike names node x y → x.rename f = y.rename g)
    (h : AlikeAll names nodes xs ys) : xs.map (Expr.rename f) = ys.map (Expr.rename g) := by
  induction xs generalizing nodes ys with
  | nil =>
    cases h
    rfl
  | cons x xs ihxs =>
    cases h with
    | cons hx hxs =>
      rw [List.forall_mem_cons] at ih
      rw [List.map_cons, List.map_cons, ih.1 _ _ hx, ihxs ih.2 hxs]

/-- Alike expressions become equal where their names do. -/
theorem Alike.rename_eq (hnames : ∀ id name other, names id name other → f name = g other) (x : Expr) :
    ∀ node y, Alike names node x y → x.rename f = y.rename g := by
  induction x using Expr.operator_induction with
  | literal value =>
    intro node y h
    cases h with
    | literal => rfl
    | operator hx => cases hx
  | column name =>
    intro node y h
    cases h with
    | column hname => rw [Expr.rename, Expr.rename, hnames _ _ _ hname]
    | operator hx => cases hx
  | operator x op xs hx ih =>
    intro node y h
    cases h with
    | literal => cases hx
    | column => cases hx
    | operator hx' hy hall =>
      obtain ⟨rfl, rfl⟩ := hx.unique hx'
      have hy' := Expr.operatorNode_rename g hy
      rw [← hall.map_rename_eq ih] at hy'
      exact (Expr.operatorNode_rename f hx).eq hy'

theorem Alike.constant?_eq {node : Json} {x y : Expr} (h : Alike names node x y) (style : Style) :
    (x.render style).constant? = (y.render style).constant? := by
  have hunnamed : x.rename (fun _ => "") = y.rename fun _ => "" :=
    Alike.rename_eq (fun _ _ _ _ => rfl) x node y h
  rw [← Expr.constant?_rename style (fun _ => "") x, hunnamed, Expr.constant?_rename]

end Alike

/-- Two results are one error, or values that are related. -/
def SameOutcome {α : Type} (related : α → α → Prop) (p q : Except DecodeError α) : Prop :=
  (∃ e, p = .error e ∧ q = .error e) ∨ ∃ x y, p = .ok x ∧ q = .ok y ∧ related x y

section Outcome

variable {α : Type} {related : α → α → Prop}

theorem SameOutcome.error (e : DecodeError) : SameOutcome related (.error e) (.error e) :=
  .inl ⟨e, rfl, rfl⟩

theorem SameOutcome.ok {x y : α} (h : related x y) : SameOutcome related (.ok x) (.ok y) :=
  .inr ⟨x, y, rfl, rfl, h⟩

end Outcome

namespace Expr

variable {a b : Columns} {ids : Int → Prop}

theorem resolve_sameOutcome (hagree : ∀ id, ids id → a.AgreeAt b id) {operands : List Json}
    (hids : ∀ id, Columns.IsId id → operands = [.scalar (.num (.int id))] → ids id) :
    SameOutcome (Alike (a.Pair b ids) (.tagged columnTag operands)) (a.resolve operands)
      (b.resolve operands) := by
  match operands with
  | [] => exact .error _
  | _ :: _ :: _ => exact .error _
  | [.arr _] => exact .error _
  | [.obj _] => exact .error _
  | [.scalar .null] => exact .error _
  | [.scalar (.bool _)] => exact .error _
  | [.scalar (.str _)] => exact .error _
  | [.scalar (.num n)] =>
    cases hn : n.toInt64? with
    | none =>
      simp only [Columns.resolve, hn]
      exact .error _
    | some id =>
      obtain ⟨rfl, hid⟩ := Number.toInt64?_eq_some.mp hn
      have huses : ids id := hids id hid rfl
      simp only [Columns.resolve, hn]
      rcases hagree id huses with ⟨ha, hb⟩ | ⟨ha, hb⟩ | ⟨name, other, hname, hother, ha, hb⟩
      · rw [ha, hb]
        exact .error _
      · rw [ha, hb]
        exact .error _
      · have hpair : a.Pair b ids id name other := ⟨huses, ha, hb⟩
        simp only [ha, hb, String.isEmpty_iff, hname, hother, if_false]
        exact .ok (.column hpair)

theorem decodeAll_sameOutcome {limit level : Nat} {nodes : List Json}
    (ih : ∀ node ∈ nodes, SameOutcome (Alike (a.Pair b ids) node) (decodeAt a limit level node)
      (decodeAt b limit level node)) :
    SameOutcome (AlikeAll (a.Pair b ids) nodes) (decodeAll a limit level nodes)
      (decodeAll b limit level nodes) := by
  induction nodes with
  | nil => exact .ok .nil
  | cons node rest ihrest =>
    rw [List.forall_mem_cons] at ih
    rw [decodeAll, decodeAll]
    -- the first operand decides unless both maps decode it
    rcases ih.1 with ⟨e, ha, hb⟩ | ⟨x, y, ha, hb, hx⟩
    · rw [ha, hb]
      exact .error e
    · rcases ihrest ih.2 with ⟨e, has, hbs⟩ | ⟨xs, ys, has, hbs, hxs⟩
      · rw [ha, hb, has, hbs]
        exact .error e
      · rw [ha, hb, has, hbs]
        exact .ok (.cons hx hxs)

theorem decodeAt_sameOutcome_of_le (hagree : ∀ id, ids id → a.AgreeAt b id) {limit : Nat}
    (node : Json) : ∀ level, level ≤ limit →
      (∀ id place, Columns.IsId id → (place, Json.column id) ∈ node.expressions level → ids id) →
      SameOutcome (Alike (a.Pair b ids) node) (decodeAt a limit level node)
        (decodeAt b limit level node) := by
  induction node using Json.node_induction with
  | scalar value =>
    intro level h _
    rw [decodeAt_scalar a h, decodeAt_scalar b h]
    exact .ok (.literal value)
  | column operands =>
    intro level h hids
    rw [decodeAt_column a h, decodeAt_column b h]
    refine resolve_sameOutcome hagree fun id hid hoperands => hids id level hid ?_
    rw [Json.expressions_tagged, hoperands]
    exact List.mem_cons_self
  | operator op operands ih =>
    intro level h hids
    cases hcount : op.admits operands.length with
    | false =>
      rw [decodeAt_count a op h hcount, decodeAt_count b op h hcount]
      exact .error _
    | true =>
      have hall : SameOutcome (AlikeAll (a.Pair b ids) operands)
          (decodeAll a limit (level + 1) operands) (decodeAll b limit (level + 1) operands) := by
        refine decodeAll_sameOutcome fun node hnode => ?_
        rcases Nat.lt_or_ge limit (level + 1) with hlt | hle
        · rw [decodeAt_of_lt a hlt, decodeAt_of_lt b hlt]
          exact .error _
        · refine ih node hnode (level + 1) hle fun id place hid hplace => hids id place hid ?_
          rw [Json.expressions_tagged, Arity.opens_operator, hcount, if_pos rfl]
          exact List.mem_cons_of_mem _ (Json.mem_expressionsAll.mpr ⟨node, hnode, hplace⟩)
      rcases hall with ⟨e, ha, hb⟩ | ⟨xs, ys, ha, hb, hxs⟩
      · rw [decodeAt_operator_error a op h hcount ha, decodeAt_operator_error b op h hcount hb]
        exact .error e
      · obtain ⟨x, hx⟩ := exists_build? hcount ha
        obtain ⟨y, hy⟩ := exists_build? hcount hb
        rw [decodeAt_operator_ok a op h hcount ha hx, decodeAt_operator_ok b op h hcount hb hy]
        exact .ok (.operator (build?_eq_some.mp hx).1 (build?_eq_some.mp hy).1 hxs)
  | unknown tag operands hcolumn htag =>
    intro level h _
    rw [decodeAt_unknown a h operands hcolumn htag, decodeAt_unknown b h operands hcolumn htag]
    exact .error _
  | untagged node hnode =>
    intro level h _
    rw [decodeAt_untagged a h hnode, decodeAt_untagged b h hnode]
    exact .error _

theorem decode_sameOutcome {node : Json} (hagree : ∀ id, node.UsesId id → a.AgreeAt b id)
    (limit : Nat) :
    SameOutcome (Alike (a.Pair b node.UsesId) node) (decode a limit node) (decode b limit node) := by
  rcases Nat.lt_or_ge limit 1 with hlt | hle
  · rw [decode, decode, decodeAt_of_lt a hlt, decodeAt_of_lt b hlt]
    exact .error _
  · exact decodeAt_sameOutcome_of_le hagree node 1 hle fun id place hid hplace => ⟨hid, place, hplace⟩

theorem rename_id (x : Expr) : x.rename id = x := by
  induction x using operator_induction with
  | literal value => rfl
  | column name => rfl
  | operator x op xs hx ih =>
    have hrenamed := operatorNode_rename id hx
    have hxs : xs.map (rename id) = xs := (List.map_congr_left ih).trans (List.map_id xs)
    rw [hxs] at hrenamed
    exact hrenamed.eq hx

end Expr

theorem Columns.agreeAt_of_eq {a b : Columns} {id : Int} (h : a.get? id = b.get? id) :
    a.AgreeAt b id := by
  cases hb : b.get? id with
  | none => exact .inl ⟨h.trans hb, hb⟩
  | some name =>
    by_cases hname : name = ""
    · exact .inr (.inl ⟨hname ▸ h.trans hb, hname ▸ hb⟩)
    · exact .inr (.inr ⟨name, name, hname, hname, h.trans hb, hb⟩)

/-- Two maps that agree on which of the ids in a node have names refuse it with one error, or decode it to
expressions that differ in names only, each place having the names of its id, and are rendered to the same
constants. Ids outside the node do not matter at all. -/
theorem names_decide_nothing (a b : Columns) (limit : Nat) (node : Json) :
    ((∀ id, node.UsesId id → a.AgreeAt b id) →
      (∃ e, Expr.decode a limit node = .error e ∧ Expr.decode b limit node = .error e) ∨
        ∃ x y, Expr.decode a limit node = .ok x ∧ Expr.decode b limit node = .ok y ∧
          Alike (a.Pair b node.UsesId) node x y ∧
          ∀ dialect : Dialect,
            (x.render dialect.style).constant? = (y.render dialect.style).constant? ∧
              (x.whereClause dialect.style = "" ↔ y.whereClause dialect.style = "")) ∧
      ((∀ id, node.UsesId id → a.get? id = b.get? id) →
        Expr.decode a limit node = Expr.decode b limit node) := by
  refine ⟨fun hagree => ?_, fun hequal => ?_⟩
  · rcases Expr.decode_sameOutcome hagree limit with herror | ⟨x, y, hx, hy, halike⟩
    · exact .inl herror
    · refine .inr ⟨x, y, hx, hy, halike, fun dialect => ?_⟩
      have hkind := halike.constant?_eq dialect.style
      refine ⟨hkind, ?_⟩
      rw [Expr.whereClause_eq_empty, Expr.whereClause_eq_empty, ← Rendered.constant?_eq_some, hkind,
        Rendered.constant?_eq_some]
  · have hagree (id : Int) (hid : node.UsesId id) : a.AgreeAt b id :=
      Columns.agreeAt_of_eq (hequal id hid)
    rcases Expr.decode_sameOutcome hagree limit with ⟨e, ha, hb⟩ | ⟨x, y, hx, hy, halike⟩
    · rw [ha, hb]
    · have hnames (i : Int) (name other : String) (h : a.Pair b node.UsesId i name other) :
          id name = id other := by
        obtain ⟨hi, ha, hb⟩ := h
        exact Option.some.inj (ha.symm.trans ((hequal i hi).trans hb))
      have hxy := Alike.rename_eq hnames x node y halike
      rw [Expr.rename_id, Expr.rename_id] at hxy
      rw [hx, hy, hxy]

/-- One name for two ids, against two names of which one needs quotes. The OR is constant whatever the
names are, and a text is left. -/
theorem names_decide_nothing_shared :
    let less : Json := .tagged "<" [.column 1, .column 2]
    let node : Json := .tagged "and" [.tagged "or" [less, .tagged "is-empty" [.scalar .null]], less]
    let a := Columns.ofList [(1, "age"), (2, "age")]
    let b := Columns.ofList [(2, "year"), (1, "joined at"), (3, "")]
    let always : Expr := .unary .isNull (.literal .null)
    let x : Expr := .compare .less (.column "age") (.column "age")
    let y : Expr := .compare .less (.column "joined at") (.column "year")
    let either (z : Expr) : Expr := .logical .and [.logical .or [z, always], z]
    (∀ id, node.UsesId id → a.AgreeAt b id) ∧
      Expr.decode a 4 node = .ok (either x) ∧ Expr.decode b 4 node = .ok (either y) ∧
      Alike (a.Pair b node.UsesId) node (either x) (either y) ∧
      (either x).render Dialect.mySql.style = .sql "age < age" ∧
      (either y).render Dialect.mySql.style = .sql "\"joined at\" < year" ∧
      ((either y).render Dialect.mySql.style).constant? = none := by
  intro less node a b always x y either
  have hagree : ∀ id, node.UsesId id → a.AgreeAt b id := by
    rintro id ⟨-, level, hid⟩
    have hused : id = 1 ∨ id = 2 := by
      have hlist : node.expressions 1 = [(1, node),
          (2, .tagged "or" [less, .tagged "is-empty" [.scalar .null]]), (3, less), (4, .column 1),
          (4, .column 2), (3, .tagged "is-empty" [.scalar .null]), (4, .scalar .null), (2, less),
          (3, .column 1), (3, .column 2)] := rfl
      rw [hlist] at hid
      simp [node, less, Json.column, Json.tagged, columnTag] at hid
      omega
    rcases hused with rfl | rfl
    · exact .inr (.inr ⟨"age", "joined at", by decide, by decide, rfl, rfl⟩)
    · exact .inr (.inr ⟨"age", "year", by decide, by decide, rfl, rfl⟩)
  have hx : Expr.decode a 4 node = .ok (either x) := rfl
  have hy : Expr.decode b 4 node = .ok (either y) := rfl
  rcases (names_decide_nothing a b 4 node).1 hagree with
    ⟨e, he, -⟩ | ⟨x', y', hx', hy', halike, hrender⟩
  · rw [hx] at he
    contradiction
  · obtain rfl : either x = x' := Except.ok.inj (hx.symm.trans hx')
    obtain rfl : either y = y' := Except.ok.inj (hy.symm.trans hy')
    exact ⟨hagree, hx, hy, halike, rfl, rfl, (hrender .mySql).1.symm.trans rfl⟩

end FilterSql
