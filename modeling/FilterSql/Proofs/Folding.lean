import FilterSql.Proofs.Evaluation
import FilterSql.Sql.Dialect
import FilterSql.Sql.Render

/-!
Constants are sound: an expression that is rendered to a constant has that value on every row. It is
proved for every context that renders its nodes as `Expr.render` does. A context is open where
dialects differ, in how it writes names and in what it makes of `<` and `>`. If it takes a comparison for
a constant, this has to be right, and nothing else is asked of it.
-/

namespace FilterSql

/-- A way to render expressions: names, the two comparisons, and all else. -/
structure Context where
  identifier : String → String
  compare : Comparison → Expr → Expr → Rendered String
  render : Expr → Rendered String

namespace Context

/-- One node, its operands rendered by the context. -/
def node (cx : Context) : Expr → Rendered String
  | .literal value => .sql value.sql
  | .column name => .sql (cx.identifier name)
  | .unary .not (.unary inner x) =>
    match inner.opposite? with
    | none => cx.render x
    | some opposite => opposite.rendered x (cx.render x)
  | .unary op x => op.rendered x (cx.render x)
  | .compare op left right => cx.compare op left right
  | .equality op main operands =>
    if op.alwaysHolds main operands then .constant true
    else .sql (op.sql (cx.render main).operand (operands.map fun y => (cx.render y).operand))
  | .logical op operands => op.joinLoop "" true (operands.map fun x => op.placed x (cx.render x))

/-- A context leaves every node to the common rendering, and writes a text for every comparison. -/
structure Delegates (cx : Context) : Prop where
  render_eq : ∀ x, cx.render x = cx.node x
  compare_eq : ∀ op left right, ∃ text, cx.compare op left right = .sql text

/-- The comparisons that a context takes for constants are these constants on a row. -/
def ComparesSoundly (cx : Context) (v : Valuation) : Prop :=
  ∀ op left right b, cx.compare op left right = .constant b →
    v.compare op (left.value v) (right.value v) = .ofBool b

theorem Delegates.comparesSoundly {cx : Context} (hcx : cx.Delegates) (v : Valuation) :
    cx.ComparesSoundly v := by
  intro op left right b h
  obtain ⟨text, htext⟩ := hcx.compare_eq op left right
  rw [htext] at h
  contradiction

theorem node_unary (cx : Context) {op : UnaryOp} {x : Expr}
    (h : ¬ (op = .not ∧ ∃ inner y, x = .unary inner y)) :
    cx.node (.unary op x) = op.rendered x (cx.render x) := by
  cases x with
  | unary inner y =>
    cases op with
    | not => exact absurd ⟨rfl, inner, y, rfl⟩ h
    | _ => rfl
  | _ => cases op <;> rfl

theorem node_logical_eq_joinAll (cx : Context) (op : Connective) (xs : List Expr) :
    cx.node (.logical op xs) = op.joinAll (xs.map fun x => op.placed x (cx.render x)) :=
  op.joinLoop_eq_joinAll _

end Context

/-- A style as a context. -/
def Style.context (style : Style) : Context where
  identifier := style.identifier
  compare op left right := .sql (op.sql (left.render style.inComparison).operand
    (right.render style.inComparison).operand)
  render := Expr.render style

theorem Style.context_delegates (style : Style) : style.context.Delegates := by
  refine ⟨fun x => ?_, fun op left right => ⟨_, rfl⟩⟩
  cases x with
  | unary op x =>
    cases x with
    | unary inner y => cases op <;> rfl
    | _ => cases op <;> rfl
  | equality op main operands =>
    simp [Style.context, Context.node, Expr.render, Expr.renderAll_eq_map, Function.comp_def]
  | logical op operands =>
    rw [Context.node_logical_eq_joinAll]
    exact Expr.render_logical style op operands
  | _ => rfl

@[simp] theorem UnaryOp.opposite?_eq_none {op : UnaryOp} : op.opposite? = none ↔ op = .not := by
  cases op <;> simp [UnaryOp.opposite?]

theorem UnaryOp.ne_not_of_opposite? {op opposite : UnaryOp} (h : op.opposite? = some opposite) :
    op ≠ .not ∧ opposite ≠ .not := by
  cases op with
  | not => simp [UnaryOp.opposite?] at h
  | _ =>
    obtain rfl : _ = opposite := by simpa [UnaryOp.opposite?] using h
    simp

theorem Expr.eq_literal_of_literal? {x : Expr} {s : Scalar} (h : x.literal? = some s) :
    x = .literal s := by
  cases x <;> simp_all [Expr.literal?]

section Constants

variable {α : Type}

def Rendered.constant? : Rendered α → Option Bool
  | .sql _ => none
  | .constant b => some b

@[simp] theorem Rendered.constant?_eq_some {r : Rendered α} {b : Bool} :
    r.constant? = some b ↔ r = .constant b := by
  cases r <;> simp [Rendered.constant?]

variable [Phrase α]

theorem Connective.constant?_placed (op : Connective) (x : Expr) (r : Rendered α) :
    (op.placed x r).constant? = r.constant? := by
  unfold Connective.placed
  cases r <;> split <;> rfl

/-- Parentheses go around text only. -/
@[simp] theorem Connective.placed_eq_constant {op : Connective} {x : Expr} {r : Rendered α} {b : Bool} :
    op.placed x r = .constant b ↔ r = .constant b := by
  rw [← Rendered.constant?_eq_some, Connective.constant?_placed, Rendered.constant?_eq_some]

end Constants

theorem UnaryOp.constant?_rendered (op : UnaryOp) (x : Expr) (r : Rendered String) :
    (op.rendered x r).constant? = x.literal?.bind op.ofScalar? := by
  unfold UnaryOp.rendered
  cases x.literal?.bind op.ofScalar? <;> rfl

theorem Connective.constant?_join (op : Connective) (a r : Rendered String) :
    (op.join a r).constant? =
      match a.constant?, r.constant? with
      | some b, c => if b = op.unit then c else some b
      | none, some b => if b = op.unit then none else some b
      | none, none => none := by
  cases a with
  | constant b => by_cases hb : b = op.unit <;> simp [Connective.join, Rendered.constant?, hb]
  | sql text =>
    cases r with
    | constant b => by_cases hb : b = op.unit <;> simp [Connective.join, Rendered.constant?, hb]
    | sql other => rfl

theorem UnaryOp.rendered_eq_constant {op : UnaryOp} {x : Expr} {r : Rendered String} {b : Bool}
    (h : op.rendered x r = .constant b) : ∃ s, x = .literal s ∧ op.ofScalar? s = some b := by
  have hliteral : x.literal?.bind op.ofScalar? = some b := by
    rw [← UnaryOp.constant?_rendered op x r, Rendered.constant?_eq_some]
    exact h
  obtain ⟨s, hs, hb⟩ := Option.bind_eq_some_iff.mp hliteral
  exact ⟨s, Expr.eq_literal_of_literal? hs, hb⟩

theorem Binary64.same_comm (x y : Binary64) : x.same y = y.same x := by
  rw [Binary64.same, Binary64.same, Bool.and_comm, BEq.comm]

theorem Scalar.same_comm (s t : Scalar) : s.same t = t.same s := by
  cases s <;> cases t <;> try rfl
  case bool.bool a b => exact BEq.comm
  case str.str a b => exact BEq.comm
  case num.num m n =>
    cases m <;> cases n <;> try rfl
    case int.int a b => exact BEq.comm
    case float.float x y => exact Binary64.same_comm x y

/-- What is decided about an equality by its literals holds on every row. -/
theorem EqualityOp.holds_of_alwaysHolds (v : Valuation) {op : EqualityOp} {main : Expr}
    {operands : List Expr} (h : op.alwaysHolds main operands = true) :
    op.holds (main.value v) (operands.map (Expr.value v)) = true := by
  cases hm : main.literal? with
  | none => simp [EqualityOp.alwaysHolds, hm] at h
  | some s =>
    obtain rfl := Expr.eq_literal_of_literal? hm
    cases op with
    | equal =>
      simp only [EqualityOp.alwaysHolds, hm, List.any_eq_true, Option.any_eq_true] at h
      obtain ⟨y, hy, t, ht, hts⟩ := h
      obtain rfl := Expr.eq_literal_of_literal? ht
      -- the literals were compared the other way round
      simp only [EqualityOp.holds, List.any_eq_true]
      exact ⟨t, List.mem_map.mpr ⟨_, hy, rfl⟩, by rwa [Scalar.same_comm]⟩
    | notEqual =>
      simp only [EqualityOp.alwaysHolds, hm, List.all_eq_true, Option.any_eq_true] at h
      simp only [EqualityOp.holds, Bool.not_eq_true', List.any_eq_false]
      intro u hu
      obtain ⟨y, hy, rfl⟩ := List.mem_map.mp hu
      obtain ⟨t, ht, hts⟩ := h y hy
      obtain rfl := Expr.eq_literal_of_literal? ht
      rw [Scalar.same_comm]
      simpa using hts

namespace Rendered

variable {α ι : Type}

/-- A constant is the truth value everywhere, and a text is read with the truth value. -/
def Means (reads : α → (ι → Truth) → Prop) (r : Rendered α) (t : ι → Truth) : Prop :=
  match r with
  | .constant b => ∀ i, t i = .ofBool b
  | .sql text => reads text t

namespace Means

variable {reads other : α → (ι → Truth) → Prop} {a r : Rendered α} {s t : ι → Truth}

theorem imp (hr : r.Means reads t) (h : ∀ text, reads text t → other text t) : r.Means other t := by
  cases r with
  | constant b => exact hr
  | sql text => exact h text hr

variable [Phrase α]

theorem parenthesized (hr : r.Means reads t) (h : ∀ text, reads text t → other (Phrase.enclosed text) t) :
    r.parenthesized.Means other t := by
  cases r with
  | constant b => exact hr
  | sql text => exact h text hr

variable (op : Connective)
  (hconnected : ∀ a b s t, reads a s → reads b t →
    reads (Phrase.connected op a b) fun i => op.truth (s i) (t i))

include hconnected

/-- If a connective between texts is read as the connective of what they are read as, so it is between
results. -/
theorem join (ha : a.Means reads s) (hr : r.Means reads t) :
    (op.join a r).Means reads fun i => op.truth (s i) (t i) := by
  cases a with
  | constant b =>
    by_cases hb : b = op.unit
    · simpa [Connective.join, hb, show ∀ i, s i = .ofBool op.unit from hb ▸ ha] using hr
    · simp only [Connective.join, hb, if_false]
      intro i
      change op.truth (s i) (t i) = .ofBool b
      rw [ha i, Connective.absorbing_truth hb]
  | sql text =>
    cases r with
    | constant b =>
      by_cases hb : b = op.unit
      · simpa [Connective.join, hb, show ∀ i, t i = .ofBool op.unit from hb ▸ hr] using ha
      · simp only [Connective.join, hb, if_false]
        intro i
        change op.truth (s i) (t i) = .ofBool b
        rw [hr i, Connective.truth_absorbing hb]
    | sql next => exact hconnected text next s t ha hr

theorem joinAll {xs : List Expr} {render : Expr → Rendered α} {truth : Expr → ι → Truth}
    (h : ∀ x ∈ xs, (render x).Means reads (truth x)) :
    (op.joinAll (xs.map render)).Means reads fun i => op.truthAll (xs.map fun x => truth x i) := by
  induction xs with
  | nil => exact fun i => rfl
  | cons x xs ih =>
    exact join op hconnected (h x List.mem_cons_self) (ih fun y hy => h y (List.mem_cons_of_mem x hy))

end Means

end Rendered

/-- The constant of a join is the truth value of its operands, if the operands that are constant have
theirs. -/
theorem Connective.truthAll_of_joinAll (v : Valuation) {render : Expr → Rendered String} {op : Connective}
    {b : Bool} {xs : List Expr}
    (ih : ∀ x ∈ xs, ∀ c, render x = .constant c → x.truth v = .ofBool c)
    (h : op.joinAll (xs.map fun x => op.placed x (render x)) = .constant b) :
    op.truthAll (xs.map (Expr.truth v)) = .ofBool b := by
  -- one row is looked at, and texts do not matter
  let reads : String → (Unit → Truth) → Prop := fun _ _ => True
  have hmeans (x : Expr) (hx : x ∈ xs) :
      (op.placed x (render x)).Means reads fun _ => x.truth v := by
    cases hplaced : op.placed x (render x) with
    | sql text => trivial
    | constant c => exact fun _ => ih x hx c (Connective.placed_eq_constant.mp hplaced)
  have hall := Rendered.Means.joinAll op (fun _ _ _ _ _ _ => trivial) hmeans
  rw [h] at hall
  exact hall ()

/-- A null check is constant over a literal only, and then by the value of the literal. -/
theorem UnaryOp.eval_of_rendered_constant (v : Valuation) {op : UnaryOp} {x : Expr} {r : Rendered String}
    {b : Bool} (h : op.rendered x r = .constant b) :
    (Expr.unary op x).eval v = .truth (.ofBool b) := by
  obtain ⟨s, rfl, hs⟩ := UnaryOp.rendered_eq_constant h
  exact Expr.eval_nullCheck v hs

theorem Context.ComparesSoundly.eval_of_constant {cx : Context} {v : Valuation}
    (hcompare : cx.ComparesSoundly v) (hcx : ∀ x, cx.render x = cx.node x) (x : Expr) :
    ∀ b, cx.render x = .constant b → x.eval v = .truth (.ofBool b) := by
  induction x using Expr.operand_induction with
  | literal s => simp [hcx, node]
  | column name => simp [hcx, node]
  | compare op left right =>
    intro b h
    rw [hcx, node] at h
    rw [Expr.eval_compare, hcompare op left right b h]
  | unary op x _ ih =>
    intro b h
    rw [hcx] at h
    by_cases hnot : op = .not ∧ ∃ inner y, x = .unary inner y
    · -- a negation over a unary node is rendered through the operand of that node
      obtain ⟨rfl, inner, y, rfl⟩ := hnot
      cases hinner : inner.opposite? with
      | none =>
        obtain rfl := UnaryOp.opposite?_eq_none.mp hinner
        have hy := ih _ y rfl b h
        simp [Expr.eval_not, Expr.truth, hy]
      | some opposite =>
        simp only [node, hinner] at h
        rw [Expr.eval_not_nullCheck v y hinner]
        exact UnaryOp.eval_of_rendered_constant v h
    · rw [node_unary cx hnot] at h
      exact UnaryOp.eval_of_rendered_constant v h
  | equality op main operands =>
    intro b h
    rw [hcx, node] at h
    -- an equality is never folded to false
    split at h
    · next hholds =>
      obtain rfl : true = b := by simpa using h
      rw [Expr.eval_equality, EqualityOp.holds_of_alwaysHolds v hholds]
    · simp at h
  | logical op operands ih =>
    intro b h
    rw [hcx, node_logical_eq_joinAll] at h
    have htruth (x : Expr) (hx : x ∈ operands) (c : Bool) (hc : cx.render x = .constant c) :
        x.truth v = .ofBool c := by
      rw [Expr.truth, ih x hx c hc, Value.toTruth_truth]
    rw [Expr.eval_logical, Connective.truthAll_of_joinAll v htruth h]

theorem Context.Delegates.eval_of_constant {cx : Context} (hcx : cx.Delegates) (v : Valuation)
    (x : Expr) : ∀ b, cx.render x = .constant b → x.eval v = .truth (.ofBool b) :=
  (hcx.comparesSoundly v).eval_of_constant hcx.render_eq x

/-- Which expressions are constant, and which constant they are, is the same in all contexts. -/
theorem Context.Delegates.constant?_eq {cx other : Context} (hcx : cx.Delegates)
    (hother : other.Delegates) (x : Expr) :
    (cx.render x).constant? = (other.render x).constant? := by
  induction x using Expr.operand_induction with
  | literal s => simp [hcx.render_eq, hother.render_eq, node]
  | column name => simp [hcx.render_eq, hother.render_eq, node, Rendered.constant?]
  | compare op left right =>
    obtain ⟨_, hleft⟩ := hcx.compare_eq op left right
    obtain ⟨_, hright⟩ := hother.compare_eq op left right
    simp [hcx.render_eq, hother.render_eq, node, hleft, hright, Rendered.constant?]
  | unary op x _ ih =>
    rw [hcx.render_eq, hother.render_eq]
    by_cases hnot : op = .not ∧ ∃ inner y, x = .unary inner y
    · obtain ⟨rfl, inner, y, rfl⟩ := hnot
      cases hinner : inner.opposite? with
      | none => simpa [node, hinner] using ih inner y rfl
      | some opposite => simp [node, hinner, UnaryOp.constant?_rendered]
    · rw [node_unary cx hnot, node_unary other hnot]
      simp [UnaryOp.constant?_rendered]
  | equality op main operands =>
    rw [hcx.render_eq, hother.render_eq, node, node]
    split <;> rfl
  | logical op operands ih =>
    rw [hcx.render_eq, hother.render_eq, node_logical_eq_joinAll, node_logical_eq_joinAll]
    -- whether a join is constant depends on the constants among its operands, not on any text
    induction operands with
    | nil => rfl
    | cons x xs ihxs =>
      have hx := ih x List.mem_cons_self
      have hxs := ihxs fun y hy => ih y (List.mem_cons_of_mem x hy)
      simp only [List.map_cons, Connective.joinAll_cons, Connective.constant?_join,
        Connective.constant?_placed, hx, hxs]

namespace Expr

section Rendering

variable (identifier : String → String) (compare : Comparison → Expr → Expr → Rendered String)

mutual

/-- Rendering with given names and comparisons. -/
def renderWith : Expr → Rendered String
  | .literal value => .sql value.sql
  | .column name => .sql (identifier name)
  | .unary .not (.unary inner x) =>
    match inner.opposite? with
    | none => renderWith x
    | some opposite => opposite.rendered x (renderWith x)
  | .unary op x => op.rendered x (renderWith x)
  | .compare op left right => compare op left right
  | .equality op main operands =>
    if op.alwaysHolds main operands then .constant true
    else .sql (op.sql (renderWith main).operand ((renderAllWith operands).map Rendered.operand))
  | .logical op operands =>
    op.joinLoop "" true (List.zipWith op.placed operands (renderAllWith operands))

def renderAllWith : List Expr → List (Rendered String)
  | [] => []
  | x :: rest => renderWith x :: renderAllWith rest

end

theorem renderAllWith_eq_map (xs : List Expr) :
    renderAllWith identifier compare xs = xs.map (renderWith identifier compare) := by
  induction xs with
  | nil => rfl
  | cons x xs ih => rw [renderAllWith, ih, List.map_cons]

end Rendering

end Expr

/-- The context with given names and comparisons. -/
def Context.closed (identifier : String → String)
    (compare : Comparison → Expr → Expr → Rendered String) : Context :=
  ⟨identifier, compare, Expr.renderWith identifier compare⟩

theorem Context.closed_render (identifier : String → String)
    (compare : Comparison → Expr → Expr → Rendered String) (x : Expr) :
    (closed identifier compare).render x = (closed identifier compare).node x := by
  cases x with
  | unary op x =>
    cases x with
    | unary inner y => cases op <;> rfl
    | _ => cases op <;> rfl
  | equality op main operands =>
    simp [closed, node, Expr.renderWith, Expr.renderAllWith_eq_map, Function.comp_def]
  | logical op operands =>
    simp [closed, node, Expr.renderWith, Expr.renderAllWith_eq_map, List.zipWith_map_right,
      List.zipWith_self]
  | _ => rfl

/-- Whatever the row, the order of values and the reading of values as conditions, an expression that a
style renders to a constant is that boolean. A context of any other kind needs to be right about the
comparisons that it takes for constants itself, no more and no less. -/
theorem constant_rendering_sound (v : Valuation) :
    (∀ (style : Style) (x : Expr) (b : Bool), x.render style = .constant b →
      x.value v = .bool b ∧ x.truth v = .ofBool b) ∧
    ∀ cx : Context, (∀ x, cx.render x = cx.node x) →
      ((∀ x b, cx.render x = .constant b → x.value v = .bool b ∧ x.truth v = .ofBool b) ↔
        ∀ op left right b, cx.compare op left right = .constant b →
          v.compare op (left.value v) (right.value v) = .ofBool b) := by
  have hsound (cx : Context) (hcx : ∀ x, cx.render x = cx.node x) (hcompare : cx.ComparesSoundly v)
      (x : Expr) (b : Bool) (h : cx.render x = .constant b) :
      x.value v = .bool b ∧ x.truth v = .ofBool b := by
    rw [Expr.value, Expr.truth, hcompare.eval_of_constant hcx x b h]
    exact ⟨Truth.toScalar_ofBool b, rfl⟩
  refine ⟨fun style => ?_, fun cx hcx => ⟨fun h op left right b hb => ?_, hsound cx hcx⟩⟩
  · have hstyle := style.context_delegates
    exact hsound style.context hstyle.render_eq (hstyle.comparesSoundly v)
  · have htruth := (h (.compare op left right) b ((hcx _).trans hb)).2
    rwa [Expr.truth, Expr.eval_compare, Value.toTruth_truth] at htruth

/-- A negated null check inside a conjunction, beside a comparison that no row decides, in a style and in
a context that writes comparisons as calls. -/
theorem constant_rendering_sound_nested :
    let x : Expr := .logical .and
      [.compare .less (.column "a b") (.literal .null),
        .logical .or [.unary .not (.unary .isNull (.literal .null)), .logical .or []]]
    let v : Valuation := ⟨fun _ => .null, fun _ _ _ => .unknown, fun _ => .yes⟩
    let cx : Context := .closed (fun name => name) fun _ left right =>
      .sql ("lt(" ++ (left.render Dialect.postgreSql.style).operand ++ ", " ++
        (right.render Dialect.postgreSql.style).operand ++ ")")
    cx.render (.compare .less (.column "a b") (.literal .null)) = .sql "lt(\"a b\", NULL)" ∧
      x.render Dialect.mySql.style = .constant false ∧ cx.render x = .constant false ∧
      x.value v = .bool false ∧ x.truth v = .no := by
  intro x v cx
  obtain ⟨hstyle, hcontext⟩ := constant_rendering_sound v
  have hcx := (hcontext cx (Context.closed_render _ _)).mpr nofun
  have hvalue := (hstyle Dialect.mySql.style x false rfl).1
  have htruth := (hcx x false rfl).2
  exact ⟨rfl, rfl, rfl, hvalue, htruth⟩

/-- A context that takes every comparison for true renders one to a constant that it is not. -/
theorem constant_comparison_unsound :
    ∃ cx : Context, (∀ x, cx.render x = cx.node x) ∧
      ∃ x v, cx.render x = .constant true ∧ x.value v = .bool false ∧ x.truth v = .no := by
  let v : Valuation := ⟨fun _ => .null, fun _ _ _ => .no, fun _ => .no⟩
  exact ⟨.closed (fun name => name) fun _ _ _ => .constant true, Context.closed_render _ _,
    .compare .less (.column "a") (.column "b"), v, rfl, rfl, rfl⟩

end FilterSql
