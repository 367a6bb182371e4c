import FilterSql.Proofs.Nesting

/-!
The limit of levels decides one thing only. Two runs of decoding that differ in their limits go along
together until the smaller limit is passed, so the run with the larger limit gives the same answer
unless the other one was refused for its depth. From as many levels as a node has on, no limit is
passed at all.
-/

namespace FilterSql

namespace Json

mutual

/-- How many levels of nodes there are. An operand stands one level below its operator, and the id of a
column is no node. -/
def levels : Json → Nat
  | .arr (.scalar (.str tag) :: operands) =>
    if tag = columnTag then 1 else 1 + levelsAll operands
  | _ => 1

def levelsAll : List Json → Nat
  | [] => 0
  | node :: rest => max (levels node) (levelsAll rest)

end

theorem levels_pos (node : Json) : 0 < node.levels := by
  unfold levels
  split
  · split <;> omega
  · exact Nat.one_pos

theorem levels_tagged {tag : String} (operands : List Json) (htag : tag ≠ columnTag) :
    (tagged tag operands).levels = 1 + levelsAll operands := by
  rw [tagged, levels, if_neg htag]

theorem levelsAll_le_iff {nodes : List Json} {n : Nat} :
    levelsAll nodes ≤ n ↔ ∀ node ∈ nodes, node.levels ≤ n := by
  induction nodes with
  | nil => simp [levelsAll]
  | cons node rest ih => rw [levelsAll, Nat.max_le, ih, List.forall_mem_cons]

/-- The last level may be one of scalars, which are no containers. -/
theorem levels_le_depth (node : Json) : node.levels ≤ 1 + node.depth := by
  induction node using operand_induction with
  | scalar value => simp [levels]
  | obj members => simp [levels]
  | arr items ih =>
    unfold levels
    split
    · next tag operands heq =>
      cases heq
      have hoperands : levelsAll operands ≤ (arr (.scalar (.str tag) :: operands)).depth := by
        refine levelsAll_le_iff.mpr fun node hnode => ?_
        have hitem : node ∈ .scalar (.str tag) :: operands := List.mem_cons_of_mem _ hnode
        have hlt := depth_lt_of_mem_items hitem
        have hle := ih node hitem
        omega
      split <;> omega
    · exact Nat.le_add_right 1 _

end Json

/-- The result with a larger limit is the result with a smaller one, unless that was refused for its
depth; then there are more levels than the smaller limit allows. -/
def DecodeError.KeptAbove {α : Type} (limit level levels : Nat) (small large : Except DecodeError α) :
    Prop :=
  large = small ∨ small = .error (.tooDeep limit) ∧ limit + 1 < level + levels

namespace Expr

open DecodeError

variable (columns : Columns) {limit larger : Nat}

theorem decodeAll_keptAbove {level : Nat} {nodes : List Json}
    (ih : ∀ node ∈ nodes, KeptAbove limit level node.levels (decodeAt columns limit level node)
      (decodeAt columns larger level node)) :
    KeptAbove limit level (Json.levelsAll nodes) (decodeAll columns limit level nodes)
      (decodeAll columns larger level nodes) := by
  induction nodes with
  | nil => exact .inl rfl
  | cons node rest ihrest =>
    rw [List.forall_mem_cons] at ih
    have hlevels : Json.levelsAll (node :: rest) = max node.levels (Json.levelsAll rest) := rfl
    rw [decodeAll, decodeAll]
    rcases ih.1 with hnode | ⟨hnode, hdeep⟩
    · rw [hnode]
      -- a node that fails with both limits ends both runs
      cases decodeAt columns limit level node with
      | error e => exact .inl rfl
      | ok x =>
        rcases ihrest ih.2 with hrest | ⟨hrest, hdeep⟩
        · exact .inl (by rw [hrest])
        · exact .inr ⟨by rw [hrest], by omega⟩
    · exact .inr ⟨by rw [hnode], by omega⟩

theorem decodeAt_keptAbove_of_lt {level : Nat} (h : limit < level) (node : Json) :
    KeptAbove limit level node.levels (decodeAt columns limit level node)
      (decodeAt columns larger level node) := by
  have hpos := node.levels_pos
  exact .inr ⟨decodeAt_of_lt columns h node, by omega⟩

theorem decodeAt_keptAbove_of_le (hle : limit ≤ larger) {level : Nat} (h : level ≤ limit)
    (node : Json) :
    KeptAbove limit level node.levels (decodeAt columns limit level node)
      (decodeAt columns larger level node) := by
  have hlarger : level ≤ larger := Nat.le_trans h hle
  induction node using Json.node_induction generalizing level with
  | scalar value => exact .inl (by rw [decodeAt_scalar columns h, decodeAt_scalar columns hlarger])
  | column operands =>
    exact .inl (by rw [decodeAt_column columns h, decodeAt_column columns hlarger])
  | operator op operands ih =>
    have hoperands : KeptAbove limit (level + 1) (Json.levelsAll operands)
        (decodeAll columns limit (level + 1) operands)
        (decodeAll columns larger (level + 1) operands) := by
      refine decodeAll_keptAbove columns fun node hnode => ?_
      -- the smaller limit may be passed between a node and its operands
      rcases Nat.lt_or_ge limit (level + 1) with hlt | hnext
      · exact decodeAt_keptAbove_of_lt columns hlt node
      · exact ih node hnode hnext (Nat.le_trans hnext hle)
    rw [decodeAt_operator columns h, decodeAt_operator columns hlarger,
      Json.levels_tagged operands op.tag_ne_columnTag]
    cases op.admits operands.length with
    | false => exact .inl rfl
    | true =>
      rcases hoperands with heq | ⟨hdeep, hlevels⟩
      · exact .inl (by rw [heq])
      · exact .inr ⟨by rw [hdeep]; rfl, by omega⟩
  | unknown tag operands hcolumn htag =>
    exact .inl (by rw [decodeAt_unknown columns h operands hcolumn htag,
      decodeAt_unknown columns hlarger operands hcolumn htag])
  | untagged node hnode =>
    exact .inl (by rw [decodeAt_untagged columns h hnode, decodeAt_untagged columns hlarger hnode])

theorem decode_keptAbove (hle : limit ≤ larger) (node : Json) :
    KeptAbove limit 1 node.levels (decode columns limit node) (decode columns larger node) := by
  rcases Nat.lt_or_ge limit 1 with hlt | hlevel
  · exact decodeAt_keptAbove_of_lt columns hlt node
  · exact decodeAt_keptAbove_of_le columns hle hlevel node

/-- A node that is too deep is refused with the limit that it is too deep for. -/
theorem limit_of_tooDeep {bound : Nat} {node : Json}
    (h : decode columns limit node = .error (.tooDeep bound)) : bound = limit := by
  have hfirst := raised_eq_some.mpr h
  rw [raised_decode] at hfirst
  obtain ⟨⟨level, place⟩, -, hdefect⟩ := List.exists_of_findSome?_eq_some hfirst
  rw [Json.defect_of_lt columns (Json.lt_of_defect_tooDeep hdefect)] at hdefect
  simpa using hdefect.symm

/-- From as many levels as a node has on, the limits agree. -/
theorem decode_eq_of_levels_le (hle : limit ≤ larger) {node : Json} (h : node.levels ≤ limit) :
    decode columns larger node = decode columns limit node := by
  rcases decode_keptAbove columns hle node with heq | ⟨-, hdeep⟩
  · exact heq
  · omega

end Expr

/-- A larger limit changes no answer but the refusal of a node for its depth, a node that is too deep
for it is too deep for a smaller one, and no limit matters that is not below the levels of the node.
These are at most one more than the arrays and objects that stand in each other. -/
theorem depth_limit_changes_no_other_answer (columns : Columns) (node : Json) :
    (∀ limit larger, limit ≤ larger →
      Expr.decode columns limit node ≠ .error (.tooDeep limit) →
        Expr.decode columns larger node = Expr.decode columns limit node) ∧
      (∀ limit larger, limit ≤ larger →
        Expr.decode columns larger node = .error (.tooDeep larger) →
          Expr.decode columns limit node = .error (.tooDeep limit)) ∧
      (∀ limit bound, Expr.decode columns limit node = .error (.tooDeep bound) → bound = limit) ∧
      (∀ limit other, node.levels ≤ limit → node.levels ≤ other →
        Expr.decode columns limit node = Expr.decode columns other node) ∧
      node.levels ≤ 1 + node.depth := by
  refine ⟨fun limit larger hle h => ?_, fun limit larger hle h => ?_,
    fun limit bound h => Expr.limit_of_tooDeep columns h, fun limit other hlimit hother => ?_,
    node.levels_le_depth⟩
  · rcases Expr.decode_keptAbove columns hle node with heq | ⟨hdeep, -⟩
    · exact heq
    · exact absurd hdeep h
  · rcases Expr.decode_keptAbove columns hle node with heq | ⟨hdeep, -⟩
    · -- the same refusal names both limits, so they are one
      rw [heq] at h
      rw [h, Expr.limit_of_tooDeep columns h]
    · exact hdeep
  · rcases Nat.le_total limit other with hle | hle
    · exact (Expr.decode_eq_of_levels_le columns hle hlimit).symm
    · exact Expr.decode_eq_of_levels_le columns hle hother

/-- A node of three levels with a fault that is met after its deepest operand. -/
theorem depth_limit_changes_no_other_answer_faulty :
    let node : Json := .tagged "and"
      [.tagged "not" [.scalar .null], .tagged "xor" [.tagged "not" [.tagged "not" []]]]
    let deep : Json := .tagged "not" [.tagged "not" [.scalar .null]]
    Expr.decode .empty 3 node ≠ .error (.tooDeep 3) ∧
      Expr.decode .empty 9 node = .error (.unknownOperator "xor") ∧
      Expr.decode .empty 2 deep = .error (.tooDeep 2) ∧
      Expr.decode .empty 1 deep = .error (.tooDeep 1) ∧
      deep.levels = 3 ∧ Expr.decode .empty 3 deep = Expr.decode .empty 256 deep := by
  intro node deep
  have hfault : Expr.decode .empty 3 node = .error (.unknownOperator "xor") := rfl
  have hne : Expr.decode .empty 3 node ≠ .error (.tooDeep 3) := by
    rw [hfault]
    simp
  have hdeep : Expr.decode .empty 2 deep = .error (.tooDeep 2) := rfl
  have hlevels : deep.levels = 3 := rfl
  obtain ⟨hkept, -⟩ := depth_limit_changes_no_other_answer .empty node
  obtain ⟨-, hlower, -, hindependent, -⟩ := depth_limit_changes_no_other_answer .empty deep
  exact ⟨hne, (hkept 3 9 (by decide) hne).trans hfault, hdeep, hlower 1 2 (by decide) hdeep, hlevels,
    hindependent 3 256 (by omega) (by omega)⟩

end FilterSql
