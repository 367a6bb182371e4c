import FilterSql.Proofs.Folding

/-!
What a connective prints, said about its operands as a whole. An absorbing operand decides, operands
that are the unit disappear, and the texts of all others are joined in their order. From this follow
what the order of operands can change, that nested connectives of one kind are printed as one, and
which operands show that they are negated twice.
-/

namespace FilterSql

/-- The text of a result that is no constant. -/
def Rendered.text? : Rendered String → Option String
  | .sql text => some text
  | .constant _ => none

namespace Connective

/-- The text of an operand as it stands in a connective. -/
def wrapped (op : Connective) (x : Expr) (text : String) : String :=
  if op = .and ∧ x.isLogical .or then "(" ++ text ++ ")" else text

/-- The texts of the operands that have one, in their order. -/
def texts (op : Connective) (render : Expr → Rendered String) (xs : List Expr) : List String :=
  xs.filterMap fun x => (render x).text?.map (op.wrapped x)

/-- The result of a connective by its operands. -/
def outcome (op : Connective) (render : Expr → Rendered String) (xs : List Expr) : Rendered String :=
  if ∃ x ∈ xs, render x = .constant (!op.unit) then .constant (!op.unit)
  else if ∀ x ∈ xs, render x = .constant op.unit then .constant op.unit
  else .sql (op.separator.intercalate (op.texts render xs))

/-- Texts in a row, or the unit if there are none. -/
def joined (op : Connective) (texts : List String) : Rendered String :=
  if texts = [] then .constant op.unit else .sql (op.separator.intercalate texts)

theorem join_sql_joined (op : Connective) (text : String) (texts : List String) :
    op.join (.sql text) (op.joined texts) = op.joined (text :: texts) := by
  unfold joined
  by_cases htexts : texts = []
  · simp [htexts]
  · rw [if_neg htexts, if_neg (List.cons_ne_nil text texts),
      String.intercalate_cons_of_ne_nil htexts]
    rfl

/-- A constant is the unit, or it absorbs. -/
theorem eq_unit_or_absorbing (op : Connective) (value : Bool) :
    value = op.unit ∨ value = !op.unit := by
  cases op <;> cases value <;> decide

theorem absorbing_join (op : Connective) (r : Rendered String) :
    op.join (.constant (!op.unit)) r = .constant (!op.unit) := by
  simp [join]

theorem join_absorbing (op : Connective) (r : Rendered String) :
    op.join r (.constant (!op.unit)) = .constant (!op.unit) := by
  rcases r with text | value
  · simp [join]
  · rcases op.eq_unit_or_absorbing value with rfl | rfl
    · exact op.unit_join _
    · exact op.absorbing_join _

theorem joinAll_of_mem {op : Connective} {rs : List (Rendered String)}
    (h : .constant (!op.unit) ∈ rs) : op.joinAll rs = .constant (!op.unit) := by
  induction rs with
  | nil => contradiction
  | cons r rs ih =>
    rw [joinAll_cons]
    rcases List.mem_cons.mp h with rfl | h
    · exact op.absorbing_join _
    · rw [ih h, join_absorbing]

theorem joinAll_of_not_mem {op : Connective} {rs : List (Rendered String)}
    (h : .constant (!op.unit) ∉ rs) : op.joinAll rs = op.joined (rs.filterMap Rendered.text?) := by
  induction rs with
  | nil => rfl
  | cons r rs ih =>
    obtain ⟨hr, hrs⟩ := not_or.mp (mt List.mem_cons.mpr h)
    rw [joinAll_cons, ih hrs]
    rcases r with text | value
    · rw [join_sql_joined]
      rfl
    · rcases op.eq_unit_or_absorbing value with rfl | rfl
      · -- the unit leaves no text
        rw [unit_join]
        rfl
      · exact absurd rfl hr

theorem text?_placed (op : Connective) (x : Expr) (r : Rendered String) :
    (op.placed x r).text? = r.text?.map (op.wrapped x) := by
  unfold placed wrapped
  cases r <;> split <;> rfl

variable {op : Connective} {render : Expr → Rendered String} {xs : List Expr}

theorem texts_eq_nil (h : ¬ ∃ x ∈ xs, render x = .constant (!op.unit)) :
    op.texts render xs = [] ↔ ∀ x ∈ xs, render x = .constant op.unit := by
  rw [texts, List.filterMap_eq_nil_iff]
  refine forall₂_congr fun x hx => ?_
  rw [Option.map_eq_none_iff]
  cases hr : render x with
  | sql text => simp [Rendered.text?]
  | constant value =>
    rcases op.eq_unit_or_absorbing value with rfl | rfl
    · simp [Rendered.text?]
    · exact absurd ⟨x, hx, hr⟩ h

theorem joinAll_eq_outcome (op : Connective) (render : Expr → Rendered String) (xs : List Expr) :
    op.joinAll (xs.map fun x => op.placed x (render x)) = op.outcome render xs := by
  have hmem : .constant (!op.unit) ∈ xs.map (fun x => op.placed x (render x)) ↔
      ∃ x ∈ xs, render x = .constant (!op.unit) := by
    simp only [List.mem_map, placed_eq_constant]
  have htexts : (xs.map fun x => op.placed x (render x)).filterMap Rendered.text? =
      op.texts render xs := by
    rw [List.filterMap_map, texts]
    exact congrArg (List.filterMap · xs) (funext fun x => op.text?_placed x (render x))
  unfold outcome
  -- where nothing absorbs, all operands are the unit exactly if there is no text
  by_cases habsorbing : ∃ x ∈ xs, render x = .constant (!op.unit)
  · rw [if_pos habsorbing, joinAll_of_mem (hmem.mpr habsorbing)]
  · rw [if_neg habsorbing, joinAll_of_not_mem (mt hmem.mp habsorbing), htexts, joined]
    simp only [texts_eq_nil habsorbing]

/-- The kind of the result depends on which results there are among the operands, and on nothing
else about them. -/
theorem constant?_outcome_congr {ys : List Expr} (h : ∀ x, x ∈ xs ↔ x ∈ ys) :
    (op.outcome render xs).constant? = (op.outcome render ys).constant? := by
  unfold outcome
  simp only [h]
  split
  · rfl
  · split <;> rfl

/-- Each text but the first has one connective before it, and there are no others. -/
theorem intercalate_eq_foldl (separator first : String) (rest : List String) :
    separator.intercalate (first :: rest) =
      rest.foldl (fun text next => text ++ separator ++ next) first := by
  induction rest generalizing first with
  | nil => simp
  | cons second rest ih =>
    rw [List.foldl_cons, ← ih, String.intercalate_cons_cons, String.intercalate_cons_append]

theorem exists_texts_of_outcome {text : String} (h : op.outcome render xs = .sql text) :
    ∃ first rest, op.texts render xs = first :: rest ∧
      text = rest.foldl (fun text next => text ++ op.separator ++ next) first := by
  unfold outcome at h
  split at h
  · contradiction
  · next habsorbing =>
    split at h
    · contradiction
    · next hunits =>
      have hne : op.texts render xs ≠ [] := mt (texts_eq_nil habsorbing).mp hunits
      obtain ⟨first, rest, htexts⟩ := List.exists_cons_of_ne_nil hne
      refine ⟨first, rest, htexts, ?_⟩
      rw [← intercalate_eq_foldl, ← htexts]
      exact (Rendered.sql.inj h).symm

theorem outcome_eq_absorbing :
    op.outcome render xs = .constant (!op.unit) ↔ ∃ x ∈ xs, render x = .constant (!op.unit) := by
  constructor
  · intro h
    unfold outcome at h
    split at h
    · assumption
    · split at h
      · simp at h
      · contradiction
  · exact fun h => if_pos h

/-- What stands around the text of an operand does not depend on that text. -/
theorem exists_surroundings {a b : Rendered String} (ha : a ≠ .constant (!op.unit))
    (hb : b ≠ .constant (!op.unit)) :
    ∃ left right, ∀ text, op.join a (op.join (.sql text) b) = .sql (left ++ text ++ right) := by
  -- a side that is the unit leaves nothing, not even the connective
  obtain ⟨right, hright⟩ : ∃ right, ∀ text, op.join (.sql text) b = .sql (text ++ right) := by
    rcases b with other | value
    · exact ⟨op.separator ++ other, fun text => by rw [join_sql_sql, String.append_assoc]⟩
    · rcases op.eq_unit_or_absorbing value with rfl | rfl
      · exact ⟨"", fun text => by rw [join_unit, String.append_empty]⟩
      · exact absurd rfl hb
  simp only [hright]
  rcases a with other | value
  · exact ⟨other ++ op.separator, right, fun text => by simp only [join_sql_sql, String.append_assoc]⟩
  · rcases op.eq_unit_or_absorbing value with rfl | rfl
    · exact ⟨"", right, fun text => by rw [unit_join, String.empty_append]⟩
    · exact absurd rfl ha

/-- An operand between others is printed in parentheses. -/
def Encloses (op : Connective) (render : Expr → Rendered String) (before : List Expr) (x : Expr)
    (after : List Expr) : Prop :=
  op = .and ∧ x.isLogical .or = true ∧ (∃ text, render x = .sql text) ∧
    ∀ y ∈ before ++ after, render y ≠ .constant false

end Connective

namespace Context

variable (cx : Context) (op : Connective)

theorem node_logical (xs : List Expr) : cx.node (.logical op xs) = op.outcome cx.render xs := by
  rw [node_logical_eq_joinAll, op.joinAll_eq_outcome cx.render xs]

theorem node_cons (x : Expr) (xs : List Expr) :
    cx.node (.logical op (x :: xs)) =
      op.join (op.placed x (cx.render x)) (cx.node (.logical op xs)) := by
  rw [node_logical_eq_joinAll, node_logical_eq_joinAll, List.map_cons, Connective.joinAll_cons]

theorem node_append (xs ys : List Expr) :
    cx.node (.logical op (xs ++ ys)) =
      op.join (cx.node (.logical op xs)) (cx.node (.logical op ys)) := by
  simp only [node_logical_eq_joinAll, List.map_append, Connective.joinAll_append]

/-- A connective by itself is printed as it is among the operands of the same connective. -/
theorem node_nested (hcx : ∀ x, cx.render x = cx.node x) (xs : List Expr) :
    cx.node (.logical op [.logical op xs]) = cx.node (.logical op xs) := by
  -- only an OR can be enclosed, and only in an AND
  have hplaced : op.placed (.logical op xs) (cx.render (.logical op xs)) =
      cx.render (.logical op xs) := by
    cases op <;> rfl
  have hnil : cx.node (.logical op []) = .constant op.unit := rfl
  rw [node_cons, hplaced, hnil, Connective.join_unit, hcx]

end Context

/-- A connective gives its absorbing constant, its unit or the joined texts of its operands, in every
context and in particular in every style. So the kind of the result does not depend on the order of
the operands, and operands that are the unit may stand anywhere. -/
theorem connective_by_operands (cx : Context) (op : Connective) (xs : List Expr) :
    cx.node (.logical op xs) = op.outcome cx.render xs ∧
      (∀ style, Expr.render style (.logical op xs) = op.outcome (Expr.render style) xs) ∧
      (∀ text, cx.node (.logical op xs) = .sql text →
        ∃ first rest, op.texts cx.render xs = first :: rest ∧
          text = rest.foldl (fun text next => text ++ op.separator ++ next) first) ∧
      (∀ ys, xs.Perm ys →
        (cx.node (.logical op xs)).constant? = (cx.node (.logical op ys)).constant?) ∧
      ∀ before x after, cx.render x = .constant op.unit →
        cx.node (.logical op (before ++ x :: after)) = cx.node (.logical op (before ++ after)) := by
  refine ⟨cx.node_logical op xs, fun style => ?_, fun text h => ?_, fun ys hperm => ?_,
    fun before x after hx => ?_⟩
  · rw [Expr.render_logical, Connective.joinAll_eq_outcome]
  · rw [cx.node_logical op] at h
    exact Connective.exists_texts_of_outcome h
  · rw [cx.node_logical op, cx.node_logical op]
    exact Connective.constant?_outcome_congr fun x => hperm.mem_iff
  · have hplaced : op.placed x (cx.render x) = .constant op.unit := by
      rw [Connective.placed_eq_constant, hx]
    rw [cx.node_append op, cx.node_append op, cx.node_cons op, hplaced, Connective.unit_join]

/-- Units at both ends and in the middle, an OR that gets its parentheses, and a constant that comes
after texts. -/
theorem connective_by_operands_mixed :
    let cx := Dialect.mySql.style.context
    let always : Expr := .unary .isNull (.literal .null)
    let never : Expr := .unary .isNotNull (.literal .null)
    let either : Expr := .logical .or [.column "a", never, .column "b c"]
    let xs : List Expr := [always, either, always, .column "d", always]
    cx.node (.logical .and xs) = .sql "(a OR `b c`) AND d" ∧
      (∃ first rest, Connective.and.texts cx.render xs = first :: rest ∧
        "(a OR `b c`) AND d" = rest.foldl (fun text next => text ++ " AND " ++ next) first) ∧
      xs.Perm xs.reverse ∧ (cx.node (.logical .and xs.reverse)).constant? = none ∧
      cx.render always = .constant true ∧
      cx.node (.logical .and ([always, either] ++ always :: [.column "d"])) =
        .sql "(a OR `b c`) AND d" ∧
      cx.node (.logical .and (xs ++ [never])) = .constant false := by
  intro cx always never either xs
  have htext : cx.node (.logical .and xs) = .sql "(a OR `b c`) AND d" := rfl
  have hperm : xs.Perm xs.reverse := xs.reverse_perm.symm
  obtain ⟨-, -, htexts, hkind, hunit⟩ := connective_by_operands cx .and xs
  refine ⟨htext, htexts _ htext, hperm, (hkind _ hperm).symm.trans rfl, rfl, ?_, ?_⟩
  · exact (hunit [always, either] always [.column "d"] rfl).trans rfl
  · exact (connective_by_operands cx .and (xs ++ [never])).1.trans rfl

/-- A connective among the operands of the same connective may be replaced by its own operands. -/
theorem nested_connective_flattens (cx : Context) (hcx : ∀ x, cx.render x = cx.node x)
    (op : Connective) (xs ys zs : List Expr) :
    cx.render (.logical op (xs ++ [.logical op ys] ++ zs)) =
      cx.render (.logical op (xs ++ ys ++ zs)) := by
  rw [hcx, hcx, cx.node_append op, cx.node_append op, cx.node_nested op hcx, cx.node_append op,
    cx.node_append op]

/-- A dialect with brackets, and an inner AND with an OR, an operand that drops out and a quoted
name. -/
theorem nested_connective_flattens_brackets :
    let cx := (Style.uniform (quoteWith "[" "]") .suffix).context
    let ys : List Expr := [.logical .or [.column "a", .column "b c"],
      .unary .isNull (.literal .null), .unary .isNull (.column "d")]
    (∀ x, cx.render x = cx.node x) ∧
      cx.render (.logical .and ([.column "e"] ++ [.logical .and ys] ++ [.logical .and []])) =
        .sql "e AND (a OR [b c]) AND d IS NULL" ∧
      cx.render (.logical .and ([.column "e"] ++ ys ++ [.logical .and []])) =
        .sql "e AND (a OR [b c]) AND d IS NULL" := by
  intro cx ys
  have hcx : ∀ x, cx.render x = cx.node x := (Style.context_delegates _).render_eq
  have hflat : cx.render (.logical .and ([.column "e"] ++ ys ++ [.logical .and []])) =
      .sql "e AND (a OR [b c]) AND d IS NULL" := rfl
  exact ⟨hcx, (nested_connective_flattens cx hcx .and _ ys _).trans hflat, hflat⟩

namespace Context

variable (cx : Context) {op : Connective} {before after : List Expr} {x : Expr}

/-- Two negations have the text of what they negate. But it is the negation that is asked whether it is
an OR, so this text never stands in parentheses. -/
theorem node_doubleNegation (hcx : ∀ x, cx.render x = cx.node x) :
    cx.node (.logical op (before ++ .unary .not (.unary .not x) :: after)) =
      op.join (cx.node (.logical op before))
        (op.join (cx.render x) (cx.node (.logical op after))) := by
  have hplaced (r : Rendered String) : op.placed (.unary .not (.unary .not x)) r = r :=
    if_neg (by simp [Expr.isLogical])
  have hcancelled : cx.render (.unary .not (.unary .not x)) = cx.render x := hcx _
  rw [cx.node_append op, cx.node_cons op, hplaced, hcancelled]

theorem node_doubleNegation_of_encloses (hcx : ∀ x, cx.render x = cx.node x)
    (h : op.Encloses cx.render before x after) :
    ∃ left text right, cx.render x = .sql text ∧
      cx.node (.logical op (before ++ x :: after)) = .sql (left ++ ("(" ++ text ++ ")") ++ right) ∧
      cx.node (.logical op (before ++ .unary .not (.unary .not x) :: after)) =
        .sql (left ++ text ++ right) := by
  obtain ⟨rfl, hor, ⟨text, htext⟩, hothers⟩ := h
  have hplaced : Connective.and.placed x (cx.render x) = .sql ("(" ++ text ++ ")") := by
    rw [Connective.placed, if_pos ⟨rfl, hor⟩, htext]
    rfl
  have hnone (ys : List Expr) (hys : ∀ y ∈ ys, cx.render y ≠ .constant false) :
      cx.node (.logical .and ys) ≠ .constant (!Connective.and.unit) := by
    rw [cx.node_logical .and]
    intro habsorbed
    obtain ⟨y, hy, hfalse⟩ := Connective.outcome_eq_absorbing.mp habsorbed
    exact hys y hy hfalse
  obtain ⟨left, right, hboth⟩ := Connective.exists_surroundings
    (hnone before fun y hy => hothers y (List.mem_append_left after hy))
    (hnone after fun y hy => hothers y (List.mem_append_right before hy))
  refine ⟨left, text, right, htext, ?_, ?_⟩
  · rw [cx.node_append .and, cx.node_cons .and, hplaced, hboth]
  · rw [cx.node_doubleNegation hcx, htext, hboth]

theorem node_doubleNegation_of_not_encloses (hcx : ∀ x, cx.render x = cx.node x)
    (h : ¬ op.Encloses cx.render before x after) :
    cx.node (.logical op (before ++ .unary .not (.unary .not x) :: after)) =
      cx.node (.logical op (before ++ x :: after)) := by
  have hbare (hplaced : op.placed x (cx.render x) = cx.render x) :
      cx.node (.logical op (before ++ .unary .not (.unary .not x) :: after)) =
        cx.node (.logical op (before ++ x :: after)) := by
    rw [cx.node_doubleNegation hcx, cx.node_append op, cx.node_cons op, hplaced]
  by_cases hor : op = .and ∧ x.isLogical .or = true
  · cases hr : cx.render x with
    | constant value => exact hbare (by rw [hr, Connective.placed_eq_constant])
    | sql text =>
      -- another operand is false, so that no text is printed at all
      obtain ⟨rfl, hor⟩ := hor
      have hfalse : ∃ y ∈ before ++ after, cx.render y = .constant false := by
        simpa [Connective.Encloses, hor, hr] using h
      obtain ⟨y, hy, hyfalse⟩ := hfalse
      have habsorbed (z : Expr) :
          cx.node (.logical .and (before ++ z :: after)) = .constant (!Connective.and.unit) := by
        rw [cx.node_logical .and, Connective.outcome_eq_absorbing]
        exact ⟨y, List.mem_append.mpr ((List.mem_append.mp hy).imp_right (List.mem_cons_of_mem z)),
          hyfalse⟩
      rw [habsorbed, habsorbed]
  · exact hbare (if_neg hor)

end Context

/-- Two negations around an operand are not seen, unless the operand is an OR that would be printed in
parentheses. Then the parentheses are lost, and nothing else changes. -/
theorem double_negation_of_operand (dialect : Dialect) (op : Connective) (before : List Expr)
    (x : Expr) (after : List Expr) :
    let render := Expr.render dialect.style
    let plain := render (.logical op (before ++ x :: after))
    let negated := render (.logical op (before ++ .unary .not (.unary .not x) :: after))
    (negated = plain ↔ ¬ op.Encloses render before x after) ∧
      (negated = plain ∨ ∃ left text right, render x = .sql text ∧
        plain = .sql (left ++ ("(" ++ text ++ ")") ++ right) ∧
        negated = .sql (left ++ text ++ right)) := by
  intro render plain negated
  let cx := dialect.style.context
  have hcx : ∀ x, cx.render x = cx.node x := (Style.context_delegates _).render_eq
  have hplain : plain = cx.node (.logical op (before ++ x :: after)) :=
    hcx (.logical op (before ++ x :: after))
  have hnegated : negated = cx.node (.logical op (before ++ .unary .not (.unary .not x) :: after)) :=
    hcx (.logical op (before ++ .unary .not (.unary .not x) :: after))
  by_cases h : op.Encloses render before x after
  · obtain ⟨left, text, right, htext, hwith, hwithout⟩ :=
      cx.node_doubleNegation_of_encloses hcx h
    rw [← hplain] at hwith
    rw [← hnegated] at hwithout
    have hne : negated ≠ plain := by
      rw [hwith, hwithout]
      intro heq
      -- the parentheses count, whatever stands around them
      have hlength := congrArg String.length (Rendered.sql.inj heq)
      simp only [String.length_append] at hlength
      have hopen : "(".length = 1 := rfl
      omega
    exact ⟨iff_of_false hne (not_not_intro h), .inr ⟨left, text, right, htext, hwith, hwithout⟩⟩
  · have heq : negated = plain := by
      rw [hplain, hnegated]
      exact cx.node_doubleNegation_of_not_encloses hcx h
    exact ⟨iff_of_true heq h, .inl heq⟩

/-- Without its parentheses the operand is read apart: the text is that of another filter. -/
theorem double_negation_loses_parentheses :
    let either : Expr := .logical .or [.column "a", .column "b"]
    let plain : Expr := .logical .and [either, .column "c"]
    let negated : Expr := .logical .and [.unary .not (.unary .not either), .column "c"]
    let other : Expr := .logical .or [.column "a", .logical .and [.column "b", .column "c"]]
    (∀ dialect : Dialect, negated.render dialect.style ≠ plain.render dialect.style ∧
      plain.render dialect.style = .sql "(a OR b) AND c" ∧
      negated.render dialect.style = .sql "a OR b AND c" ∧
      other.render dialect.style = .sql "a OR b AND c") ∧
      ∃ v, plain.truth v = negated.truth v ∧ negated.truth v ≠ other.truth v := by
  intro either plain negated other
  let v : Valuation :=
    { column := fun name => .bool (name = "a")
      compare := fun _ _ _ => .unknown
      reading := fun _ => .unknown }
  refine ⟨fun dialect => ?_, v, by decide, by decide⟩
  cases dialect <;> exact ⟨by decide, rfl, rfl, rfl⟩

end FilterSql
