import FilterSql.Expr.Basic

/-!
Induction over trees whose operands stand in lists. The principles that come with the two types speak
about lists by a second motive; these speak about the members of a list instead. A unary node also
gets the operand of its operand, since rendering looks two levels down there.
-/

namespace FilterSql

@[elab_as_elim]
theorem Expr.operand_induction {motive : Expr → Prop}
    (literal : ∀ value, motive (.literal value))
    (column : ∀ name, motive (.column name))
    (unary : ∀ op x, motive x → (∀ inner y, x = .unary inner y → motive y) →
      motive (.unary op x))
    (compare : ∀ op left right, motive left → motive right → motive (.compare op left right))
    (equality : ∀ op main operands, motive main → (∀ y ∈ operands, motive y) →
      motive (.equality op main operands))
    (logical : ∀ op operands, (∀ y ∈ operands, motive y) → motive (.logical op operands))
    (x : Expr) : motive x := by
  -- the operand of a unary node travels along with the node
  let below (x : Expr) : Prop := motive x ∧ ∀ inner y, x = .unary inner y → motive y
  suffices h : below x from h.1
  refine @Expr.rec below (fun xs => ∀ y ∈ xs, below y) ?_ ?_ ?_ ?_ ?_ ?_ ?_ ?_ x
  · exact fun value => ⟨literal value, by simp⟩
  · exact fun name => ⟨column name, by simp⟩
  · intro op x hx
    refine ⟨unary op x hx.1 hx.2, ?_⟩
    rintro inner y ⟨⟩
    exact hx.1
  · exact fun op l r hl hr => ⟨compare op l r hl.1 hr.1, by simp⟩
  · exact fun op main ys hm hys => ⟨equality op main ys hm.1 fun y hy => (hys y hy).1, by simp⟩
  · exact fun op xs hxs => ⟨logical op xs fun y hy => (hxs y hy).1, by simp⟩
  · simp
  · intro x xs hx hxs y hy
    rcases List.mem_cons.mp hy with rfl | hy
    · exact hx
    · exact hxs y hy

/-- An object has no operands, so nothing is said about the values in it. -/
@[elab_as_elim]
theorem Json.operand_induction {motive : Json → Prop}
    (scalar : ∀ value, motive (.scalar value))
    (arr : ∀ items, (∀ item ∈ items, motive item) → motive (.arr items))
    (obj : ∀ members, motive (.obj members))
    (node : Json) : motive node := by
  refine @Json.rec motive (fun items => ∀ item ∈ items, motive item) (fun _ => True) (fun _ => True)
    ?_ ?_ ?_ ?_ ?_ ?_ ?_ ?_ node
  · exact scalar
  · exact arr
  · exact fun members _ => obj members
  · simp
  · intro item items hitem hitems y hy
    rcases List.mem_cons.mp hy with rfl | hy
    · exact hitem
    · exact hitems y hy
  all_goals intros; trivial

end FilterSql
