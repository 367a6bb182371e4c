import FilterSql.Proofs.Precedence
import FilterSql.Proofs.Spelling

/-!
Texts that determine a meaning. The tokens are determined by the text in any case. Parentheses are
printed around an OR directly in an AND and nowhere else, so tokens can come from trees that mean
different things. They cannot where every node stands at a place at which SQL's precedence groups as
the tree does; there the value of the tokens is the truth value of the tree.
-/

namespace FilterSql

open Condition Precedence

/-- Printed as more than one token. -/
def Expr.Compound (x : Expr) : Prop := ∀ compared, (x.skeleton compared).operand.length ≠ 1

instance (x : Expr) : Decidable x.Compound :=
  inferInstanceAs (Decidable (∀ compared, (x.skeleton compared).operand.length ≠ 1))

/-- The expressions that need no parentheses but those printed, each with a place where it can stand.
What stands on the right of a comparison is a single token or in parentheses, and the operand of a NOT
has no connective outside parentheses. -/
inductive Grouped (style : Style) : Place → Expr → Prop where
  | simple {x : Expr} : Simple style x → Grouped style .operand x
  | group {x : Expr} : Grouped style .enclosed x → Grouped style .operand x
  | operand {x : Expr} : Grouped style .operand x → Grouped style .predicate x
  | subject {x : Expr} : Grouped style .operand x → Grouped style .subject x
  | compoundSubject {x : Expr} : Grouped style .predicate x → x.Compound → Grouped style .subject x
  | item {x : Expr} : Grouped style .operand x → Grouped style .item x
  | compoundItem {x : Expr} : Grouped style .disjunction x → x.Compound → Grouped style .item x
  | check {op : UnaryOp} {x : Expr} : op ≠ .not → Grouped style .subject x →
      Grouped style .predicate (.unary op x)
  /-- A negated null check is printed as its opposite. -/
  | negatedCheck {op : UnaryOp} {x : Expr} : op ≠ .not → Grouped style .subject x →
      Grouped style .predicate (.unary .not (.unary op x))
  | compare {op : Comparison} {left right : Expr} : Grouped style .subject left →
      Grouped style .operand right → Grouped style .predicate (.compare op left right)
  | equality {op : EqualityOp} {main x : Expr} : Grouped style .subject main →
      Grouped style .operand x → Grouped style .predicate (.equality op main [x])
  | member {op : EqualityOp} {main : Expr} {xs : List Expr} : Grouped style .subject main →
      2 ≤ xs.length → (∀ x ∈ xs, Grouped style .item x) →
      Grouped style .predicate (.equality op main xs)
  /-- Two negations are not printed. -/
  | cancelled {place : Place} {x : Expr} : place = .enclosed ∨ place.takesValue = false →
      Grouped style place x → Grouped style place (.unary .not (.unary .not x))
  | not {x : Expr} : (∀ op y, x ≠ .unary op y) → Grouped style .negation x →
      Grouped style .negation (.unary .not x)
  | or {xs : List Expr} : (∀ x ∈ xs, Grouped style .disjunction x) →
      Grouped style .disjunction (.logical .or xs)
  /-- An OR directly in an AND is printed in parentheses. -/
  | and {xs : List Expr} :
      (∀ x ∈ xs, Grouped style (if x.isLogical .or then .disjunction else .conjunction) x) →
      Grouped style .conjunction (.logical .and xs)
  /-- One operand is printed, and the others drop out. -/
  | sole {op : Connective} {place : Place} {before after : List Expr} {x : Expr} :
      (∀ y ∈ before ++ after, y.render style = .constant op.unit) →
      ¬ (op = .and ∧ x.isLogical .or = true) → place = .enclosed ∨ place.takesValue = false →
      Grouped style place x → Grouped style place (.logical op (before ++ x :: after))
  | enclosed {before after : List Expr} {x : Expr} :
      (∀ y ∈ before ++ after, y.render style = .constant Connective.and.unit) →
      x.isLogical .or = true → Grouped style .disjunction x →
      Grouped style .enclosed (.logical .and (before ++ x :: after))
  | predicate {x : Expr} : Grouped style .predicate x → Grouped style .negation x
  | negation {x : Expr} : Grouped style .negation x → Grouped style .conjunction x
  | conjunction {x : Expr} : Grouped style .conjunction x → Grouped style .disjunction x

section Constants

variable {style : Style} {x : Expr} {b compared : Bool}

theorem Skeleton.eq_constant_of_write {names : String → Bool → String} {s : Skeleton}
    (h : s.write names = .constant b) : s = .constant b := by
  cases s with
  | sql ts => contradiction
  | constant c =>
    obtain rfl : c = b := Rendered.constant.inj h
    rfl

theorem Expr.skeleton_of_constant (h : x.render style = .constant b) (compared : Bool) :
    x.skeleton compared = .constant b := by
  cases compared with
  | false =>
    rw [render_eq_write] at h
    exact Skeleton.eq_constant_of_write h
  | true =>
    have hbelow : x.render style.inComparison = .constant b := render_constant_of_style h
    rw [render_inComparison_eq_write] at hbelow
    exact Skeleton.eq_constant_of_write hbelow

theorem Expr.exists_render_of_skeleton (h : x.skeleton compared = .constant b) :
    ∃ style, x.render style = .constant b := by
  cases compared with
  | false => exact ⟨Dialect.postgreSql.style, by rw [render_eq_write, h]; rfl⟩
  | true =>
    exact ⟨Dialect.postgreSql.style.inComparison, by rw [render_inComparison_eq_write, h]; rfl⟩

end Constants

/-- A sequence of tokens is read with the truth value of an expression, and with its value at the
places where values are asked for. A single token may have a value that is no truth value. -/
structure Expr.ReadAs (v : Valuation) (place : Place) (x : Expr) (ts : List Token) (r : Value) :
    Prop where
  yields : Yields v place ts r
  toTruth : r.toTruth v = x.truth v
  toScalar : place.takesValue = true → r.toScalar = x.value v
  eq_truth : place = .enclosed ∨ ts.length ≠ 1 → r = .truth (x.truth v)

namespace Expr

theorem value_of_truth {v : Valuation} {x : Expr} {t : Truth} (h : x.eval v = .truth t) :
    x.value v = (x.truth v).toScalar := by
  rw [value, truth, h]
  rfl

namespace ReadAs

variable {v : Valuation} {place : Place} {x : Expr} {ts : List Token} {r : Value} {t : Truth}

theorem of_eval (hx : x.eval v = .truth t) (h : Yields v place ts (.truth t)) :
    x.ReadAs v place ts (.truth t) := by
  have htruth : x.truth v = t := by rw [truth, hx, Value.toTruth_truth]
  refine ⟨h, ?_, fun _ => ?_, fun _ => ?_⟩
  · rw [htruth, Value.toTruth_truth]
  · rw [value_of_truth hx, htruth, Value.toScalar_truth]
  · rw [htruth]

/-- What is constant can stand everywhere, so only tokens are left to look at. -/
theorem of_sql {compared : Bool}
    (h : ∀ ts, x.skeleton compared = .sql ts → ∃ r, x.ReadAs v place ts r) :
    ∃ r, x.ReadAs v place (x.skeleton compared).operand r := by
  cases hs : x.skeleton compared with
  | sql ts => exact h ts hs
  | constant b =>
    obtain ⟨style, hstyle⟩ := exists_render_of_skeleton hs
    have heval := style.context_delegates.eval_of_constant v x b hstyle
    exact ⟨_, of_eval heval ((Yields.constant b).of_operand place)⟩

/-- An expression that is printed as another one, and has its truth value. -/
theorem transfer {y : Expr} (h : x.ReadAs v place ts r) (hy : y.eval v = .truth (x.truth v))
    (hplace : place = .enclosed ∨ place.takesValue = false) : y.ReadAs v place ts r := by
  have htruth : y.truth v = x.truth v := by rw [truth, hy, Value.toTruth_truth]
  refine ⟨h.yields, htruth ▸ h.toTruth, fun htakes => ?_, htruth ▸ h.eq_truth⟩
  -- of the places that take values only the parentheses are left, and what they hold is a truth value
  have henclosed : place = .enclosed := hplace.resolve_right (by simp [htakes])
  rw [h.eq_truth (.inl henclosed), Value.toScalar_truth, value_of_truth hy, htruth]

theorem at_place {other : Place} (h : x.ReadAs v place ts r) (hyields : Yields v other ts r)
    (hvalue : other.takesValue = true → r.toScalar = x.value v) (hother : other ≠ .enclosed) :
    x.ReadAs v other ts r :=
  ⟨hyields, h.toTruth, hvalue, fun hor => h.eq_truth (.inr (hor.resolve_left hother))⟩

end ReadAs

end Expr

section Predicates

variable {style : Style} {v : Valuation} {compared : Bool}

theorem Simple.readAs {x : Expr} (hx : Simple style x) (v : Valuation) (compared : Bool) :
    ∃ r, x.ReadAs v .operand (x.skeleton compared).operand r := by
  cases hx with
  | literal s =>
    exact ⟨.scalar s, .literal s, rfl, fun _ => rfl, by simp [Expr.skeleton, Rendered.operand]⟩
  | column name =>
    exact ⟨.scalar (v.column name), .column name compared, rfl, fun _ => rfl,
      by simp [Expr.skeleton, Rendered.operand]⟩
  | constant h =>
    apply Expr.ReadAs.of_sql
    intro ts hts
    rw [Expr.skeleton_of_constant h] at hts
    contradiction

namespace Expr

/-- A null check, under any expression that is printed as it. -/
theorem readAs_check {op : UnaryOp} {x y : Expr} (hop : op ≠ .not)
    (hx : ∃ r, x.ReadAs v .subject (x.skeleton compared).operand r)
    (hy : y.skeleton compared = (x.skeleton compared).unary op x)
    (heval : y.eval v = eval v (.unary op x)) :
    ∃ r, y.ReadAs v .predicate (y.skeleton compared).operand r := by
  apply ReadAs.of_sql
  intro ts hts
  obtain ⟨r, hr⟩ := hx
  obtain ⟨b, hb⟩ : ∃ b, op.ofScalar? (x.value v) = some b := by
    cases op with
    | not => exact absurd rfl hop
    | isNull => exact ⟨_, rfl⟩
    | isNotNull => exact ⟨_, rfl⟩
  -- a check on a literal is decided, and then there are no tokens
  have htokens : ts = (x.skeleton compared).operand ++ [.unary op] := by
    rw [hy] at hts
    unfold Rendered.unary at hts
    split at hts
    · contradiction
    · cases op with
      | not => exact absurd rfl hop
      | _ => exact (Rendered.sql.inj hts).symm
  rw [eval_nullCheck v hb] at heval
  rw [← hr.toScalar rfl] at hb
  rw [htokens]
  exact ⟨_, .of_eval heval (hr.yields.check hb)⟩

theorem readAs_compare {op : Comparison} {left right : Expr}
    (hleft : ∃ r, left.ReadAs v .subject (left.skeleton true).operand r)
    (hright : ∃ r, right.ReadAs v .operand (right.skeleton true).operand r) :
    ∃ r, ReadAs v .predicate (.compare op left right)
      (skeleton compared (.compare op left right)).operand r := by
  obtain ⟨r, hr⟩ := hleft
  obtain ⟨s, hs⟩ := hright
  have hyields := hr.yields.compare op hs.yields
  rw [hr.toScalar rfl, hs.toScalar rfl] at hyields
  exact ⟨_, .of_eval (eval_compare v op left right) hyields⟩

theorem readAs_equality {op : EqualityOp} {main x : Expr}
    (hmain : ∃ r, main.ReadAs v .subject (main.skeleton compared).operand r)
    (hx : ∃ r, x.ReadAs v .operand (x.skeleton compared).operand r) :
    ∃ r, ReadAs v .predicate (.equality op main [x])
      (skeleton compared (.equality op main [x])).operand r := by
  apply ReadAs.of_sql
  intro ts hts
  obtain ⟨r, hr⟩ := hmain
  obtain ⟨s, hs⟩ := hx
  rw [skeleton_equality] at hts
  split at hts
  · contradiction
  have hyields := hr.yields.equality op hs.yields
  rw [hr.toScalar rfl, hs.toScalar rfl] at hyields
  rw [← Rendered.sql.inj hts]
  exact ⟨_, .of_eval (eval_equality v op main [x]) hyields⟩

theorem readAs_member {op : EqualityOp} {main : Expr} {xs : List Expr} (hlength : 2 ≤ xs.length)
    (hmain : ∃ r, main.ReadAs v .subject (main.skeleton compared).operand r)
    (hxs : ∀ x ∈ xs, ∃ r, x.ReadAs v .item (x.skeleton compared).operand r) :
    ∃ r, ReadAs v .predicate (.equality op main xs)
      (skeleton compared (.equality op main xs)).operand r := by
  apply ReadAs.of_sql
  intro ts hts
  obtain ⟨r, hr⟩ := hmain
  rw [skeleton_equality] at hts
  split at hts
  · contradiction
  have hitems : ∀ x ∈ xs, ∃ r, Yields v .item (x.skeleton compared).operand r ∧
      r.toScalar = x.value v := by
    intro x hx
    obtain ⟨s, hs⟩ := hxs x hx
    exact ⟨s, hs.yields, hs.toScalar rfl⟩
  have hne : xs ≠ [] := by
    rintro rfl
    contradiction
  have hyields := hr.yields.member op hitems hne
  rw [hr.toScalar rfl] at hyields
  have hlist : Skeleton.equated op (main.skeleton compared).operand
        (xs.map fun x => (x.skeleton compared).operand) =
      (main.skeleton compared).operand ++ .member op :: .lparen ::
        ([Token.comma].intercalate (xs.map fun x => (x.skeleton compared).operand) ++ [.rparen]) := by
    match xs, hlength with
    | _ :: _ :: _, _ => rfl
  rw [← Rendered.sql.inj hts, hlist]
  exact ⟨_, .of_eval (eval_equality v op main xs) hyields⟩

/-- A negation over what is not unary is printed in front of it, over a constant as well. -/
theorem readAs_not {x : Expr} (hx : ∀ op y, x ≠ .unary op y)
    (h : ∃ r, x.ReadAs v .negation (x.skeleton compared).operand r) :
    ∃ r, ReadAs v .negation (.unary .not x) (skeleton compared (.unary .not x)).operand r := by
  obtain ⟨r, hr⟩ := h
  have hunary : (skeleton compared (.unary .not x)).operand =
      .unary .not :: (x.skeleton compared).operand := by
    rw [skeleton_unary compared fun hnot => hx _ _ hnot.2.choose_spec.choose_spec]
    cases x <;> rfl
  have hyields := hr.yields.not
  rw [hr.toTruth] at hyields
  rw [hunary]
  exact ⟨_, .of_eval (eval_not v x) hyields⟩

end Expr

end Predicates

section Connectives

/-- Where a connective stands. -/
def Connective.place : Connective → Place
  | .and => .conjunction
  | .or => .disjunction

/-- Where an operand of a connective is printed. An OR in an AND gets parentheses. -/
def Connective.operandPlace (op : Connective) (x : Expr) : Place :=
  match op with
  | .and => if x.isLogical .or then .disjunction else .conjunction
  | .or => .disjunction

variable {v : Valuation} {op : Connective}

theorem Precedence.Yields.connective {ts us : List Token} {r s : Value} (hts : Yields v op.place ts r)
    (hus : Yields v op.place us s) : Yields v op.place (ts ++ .connective op :: us) (connect v op r s) := by
  cases op with
  | and => exact hts.and hus
  | or => exact hts.or hus

/-- Tokens are read with a truth value. A single token may have a value that is none. -/
def Precedence.YieldsTruth (v : Valuation) (place : Place) (ts : List Token) (t : Valuation → Truth) :
    Prop :=
  ∃ r, Yields v place ts r ∧ r.toTruth v = t v ∧ (ts.length ≠ 1 → r = .truth (t v))

namespace Precedence.YieldsTruth

variable {ts us : List Token} {s t : Valuation → Truth}

theorem connected (hts : YieldsTruth v op.place ts s) (hus : YieldsTruth v op.place us t) :
    YieldsTruth v op.place (Phrase.connected op ts us) fun w => op.truth (s w) (t w) := by
  obtain ⟨r, hr, hrtruth, -⟩ := hts
  obtain ⟨r', hr', hrtruth', -⟩ := hus
  have hvalue : connect v op r r' = .truth (op.truth (s v) (t v)) := by
    rw [connect, hrtruth, hrtruth']
  exact ⟨_, hr.connective hr', congrArg (Value.toTruth v) hvalue, fun _ => hvalue⟩

/-- What stands in parentheses can stand everywhere. -/
theorem enclosed (h : YieldsTruth v .disjunction ts t) (place : Place) :
    YieldsTruth v place (Phrase.enclosed ts) t := by
  obtain ⟨r, hr, hrtruth, -⟩ := h
  exact ⟨_, hr.parens.operand.of_operand place, hrtruth, fun _ => by rw [hrtruth]⟩

end Precedence.YieldsTruth

theorem Expr.ReadAs.means {place : Place} {compared : Bool} {x : Expr}
    (h : ∃ r, x.ReadAs v place (x.skeleton compared).operand r) :
    (x.skeleton compared).Means (YieldsTruth v place) fun w => x.truth w := by
  cases hs : x.skeleton compared with
  | constant b =>
    obtain ⟨style, hstyle⟩ := exists_render_of_skeleton hs
    exact truth_of_constant hstyle
  | sql ts =>
    obtain ⟨r, hr⟩ := h
    rw [hs] at hr
    exact ⟨r, hr.yields, hr.toTruth, fun hlength => hr.eq_truth (.inr hlength)⟩

/-- Parentheses are needed for an OR below an AND, and for nothing else. -/
theorem Connective.means_placed {x : Expr} {s : Skeleton} {t : Valuation → Truth}
    (h : s.Means (YieldsTruth v (op.operandPlace x)) t) :
    (op.placed x s).Means (YieldsTruth v op.place) t := by
  unfold Connective.operandPlace at h
  unfold Connective.placed
  cases op with
  | or => simpa [Connective.place] using h
  | and =>
    by_cases hor : x.isLogical .or = true
    · simp only [hor, if_true] at h
      simp only [hor, and_self, if_true]
      exact h.parenthesized fun _ hts => hts.enclosed _
    · simpa [hor, Connective.place] using h

theorem Expr.readAs_logical (op : Connective) {compared : Bool} {xs : List Expr}
    (h : ∀ x ∈ xs, ∃ r, x.ReadAs v (op.operandPlace x) (x.skeleton compared).operand r) :
    ∃ r, ReadAs v op.place (.logical op xs) (skeleton compared (.logical op xs)).operand r := by
  apply ReadAs.of_sql
  intro ts hts
  have hall := Rendered.Means.joinAll op (fun _ _ _ _ => YieldsTruth.connected)
    fun x hx => Connective.means_placed (ReadAs.means (h x hx))
  have htruth : truth v (.logical op xs) = op.truthAll (xs.map (truth v)) := by
    rw [truth, eval_logical, Value.toTruth_truth]
  rw [skeleton_logical] at hts
  rw [hts] at hall
  obtain ⟨r, hr, hrtruth, hvalue⟩ := hall
  change r.toTruth v = op.truthAll (xs.map (truth v)) at hrtruth
  change ts.length ≠ 1 → r = .truth (op.truthAll (xs.map (truth v))) at hvalue
  rw [← htruth] at hrtruth hvalue
  -- a connective stands where only a truth value is asked for
  have hplace : op.place.takesValue = false ∧ op.place ≠ .enclosed := by cases op <;> decide
  refine ⟨r, hr, hrtruth, fun htakes => ?_, fun hor => hvalue (hor.resolve_left hplace.2)⟩
  rw [hplace.1] at htakes
  contradiction

end Connectives

section Sole

/-- Beside units a single operand is left. -/
theorem foldr_sole {α : Type} {f : α → α → α} {unit : α} (hleft : ∀ a, f unit a = a)
    (hright : ∀ a, f a unit = a) {before after : List α} (a : α)
    (h : ∀ b ∈ before ++ after, b = unit) : (before ++ a :: after).foldr f unit = a := by
  induction before with
  | nil =>
    have hrest : after.foldr f unit = unit := by
      clear hright
      induction after with
      | nil => rfl
      | cons b after ih =>
        rw [List.foldr_cons, h b (by simp), hleft]
        exact ih fun c hc => h c (by simpa using .inr (by simpa using hc))
    rw [List.nil_append, List.foldr_cons, hrest, hright]
  | cons b before ih =>
    rw [List.cons_append, List.foldr_cons, h b List.mem_cons_self, hleft]
    exact ih fun c hc => h c (List.mem_cons_of_mem b hc)

variable {style : Style} {op : Connective} {before after : List Expr}
  (h : ∀ y ∈ before ++ after, y.render style = .constant op.unit) (x : Expr)

include h

theorem Expr.skeleton_sole (compared : Bool) :
    skeleton compared (.logical op (before ++ x :: after)) = op.placed x (x.skeleton compared) := by
  rw [skeleton_logical, List.map_append, List.map_cons]
  apply foldr_sole op.unit_join op.join_unit
  intro s hs
  rw [← List.map_append] at hs
  obtain ⟨y, hy, rfl⟩ := List.mem_map.mp hs
  rw [Connective.placed_eq_constant, skeleton_of_constant (h y hy)]

theorem Expr.eval_sole (v : Valuation) :
    eval v (.logical op (before ++ x :: after)) = .truth (x.truth v) := by
  rw [eval_logical, List.map_append, List.map_cons]
  congr 1
  apply foldr_sole (Connective.unit_truth op) (Connective.truth_unit op)
  intro t ht
  rw [← List.map_append] at ht
  obtain ⟨y, hy, rfl⟩ := List.mem_map.mp ht
  exact truth_of_constant (h y hy) v

end Sole

theorem Expr.readAs_enclosed {style : Style} {before after : List Expr} {x : Expr} {v : Valuation}
    {compared : Bool}
    (hunits : ∀ y ∈ before ++ after, y.render style = .constant Connective.and.unit)
    (hor : x.isLogical .or = true)
    (hx : ∃ r, x.ReadAs v .disjunction (x.skeleton compared).operand r) :
    ∃ r, ReadAs v .enclosed (.logical .and (before ++ x :: after))
      (skeleton compared (.logical .and (before ++ x :: after))).operand r := by
  apply ReadAs.of_sql
  intro ts hts
  obtain ⟨r, hr⟩ := hx
  rw [skeleton_sole hunits, Connective.placed, if_pos ⟨rfl, hor⟩] at hts
  cases hs : x.skeleton compared with
  | constant b =>
    rw [hs] at hts
    contradiction
  | sql us =>
    rw [hs] at hr hts
    have hparens := hr.yields.parens
    rw [hr.toTruth] at hparens
    rw [← Rendered.sql.inj hts]
    exact ⟨_, .of_eval (eval_sole hunits x v) hparens⟩

/-- What is printed as more than one token is no bare value. -/
theorem Expr.Compound.value {x : Expr} (h : x.Compound) (v : Valuation) :
    x.value v = (x.truth v).toScalar := by
  cases x with
  | literal s => exact absurd rfl (h false)
  | column name => exact absurd rfl (h false)
  | unary op x => cases op <;> simp [Expr.value, Expr.truth, Expr.eval]
  | _ => simp [Expr.value, Expr.truth, Expr.eval]

theorem Expr.Compound.toScalar {x : Expr} (hx : x.Compound) {v : Valuation} {place : Place}
    {compared : Bool} {r : Value} (hr : x.ReadAs v place (x.skeleton compared).operand r) :
    r.toScalar = x.value v := by
  rw [hr.eq_truth (.inr (hx compared)), hx.value v, Value.toScalar_truth]

/-- At the place where an expression is grouped its tokens are read with its truth value. -/
theorem Grouped.readAs {style : Style} {place : Place} {x : Expr} (h : Grouped style place x)
    (v : Valuation) (compared : Bool) : ∃ r, x.ReadAs v place (x.skeleton compared).operand r := by
  -- `compared` is set below a comparison, so the hypotheses have to hold for both of its values
  induction h generalizing compared with
  | simple hx => exact hx.readAs v compared
  | group _ ih =>
    exact (ih compared).imp fun _ hr =>
      hr.at_place hr.yields.operand (fun _ => hr.toScalar rfl) (by decide)
  | operand _ ih =>
    exact (ih compared).imp fun _ hr => hr.at_place hr.yields.predicate nofun (by decide)
  | subject _ ih =>
    exact (ih compared).imp fun _ hr =>
      hr.at_place hr.yields.predicate.subject (fun _ => hr.toScalar rfl) (by decide)
  | compoundSubject _ hcompound ih =>
    exact (ih compared).imp fun _ hr =>
      hr.at_place hr.yields.subject (fun _ => hcompound.toScalar hr) (by decide)
  | item _ ih =>
    exact (ih compared).imp fun _ hr =>
      hr.at_place (hr.yields.of_operand _) (fun _ => hr.toScalar rfl) (by decide)
  | compoundItem _ hcompound ih =>
    exact (ih compared).imp fun _ hr =>
      hr.at_place hr.yields.item (fun _ => hcompound.toScalar hr) (by decide)
  | @check op x hop _ ih =>
    exact Expr.readAs_check hop (ih compared)
      (Expr.skeleton_unary compared fun hnot => hop hnot.1) rfl
  | @negatedCheck op x hop _ ih =>
    obtain ⟨opposite, h⟩ : ∃ o, op.opposite? = some o :=
      Option.ne_none_iff_exists'.mp fun h => hop (UnaryOp.opposite?_eq_none.mp h)
    exact Expr.readAs_check (UnaryOp.ne_not_of_opposite? h).2 (ih compared)
      (Expr.skeleton_not_nullCheck compared x h) (Expr.eval_not_nullCheck v x h)
  | compare _ _ ihleft ihright => exact Expr.readAs_compare (ihleft true) (ihright true)
  | equality _ _ ihmain ih => exact Expr.readAs_equality (ihmain compared) (ih compared)
  | member _ hlength _ ihmain ih =>
    exact Expr.readAs_member hlength (ihmain compared) fun x hx => ih x hx compared
  | cancelled hplace _ ih =>
    obtain ⟨r, hr⟩ := ih compared
    rw [Expr.skeleton_not_not]
    refine ⟨r, hr.transfer ?_ hplace⟩
    rw [Expr.eval_not, Expr.truth_not, Truth.not_not]
  | not hx _ ih => exact Expr.readAs_not hx (ih compared)
  | or _ ih => exact Expr.readAs_logical .or fun x hx => ih x hx compared
  | and _ ih => exact Expr.readAs_logical .and fun x hx => ih x hx compared
  | @sole op place before after x hunits hbare hplace _ ih =>
    obtain ⟨r, hr⟩ := ih compared
    rw [Expr.skeleton_sole hunits, Connective.placed, if_neg hbare]
    exact ⟨r, hr.transfer (Expr.eval_sole hunits x v) hplace⟩
  | enclosed hunits hor _ ih => exact Expr.readAs_enclosed hunits hor (ih compared)
  | predicate _ ih =>
    exact (ih compared).imp fun _ hr => hr.at_place hr.yields.negation nofun (by decide)
  | negation _ ih =>
    exact (ih compared).imp fun _ hr => hr.at_place hr.yields.conjunction nofun (by decide)
  | conjunction _ ih =>
    exact (ih compared).imp fun _ hr => hr.at_place hr.yields.disjunction nofun (by decide)

/-- The marks of names play no role for the value of a sequence. -/
theorem Precedence.evaluate?_unmarked (v : Valuation) (ts : List Token) :
    evaluate? v (ts.map Token.unmarked) = evaluate? v ts := by
  have hstep (s : State) (t : Token) : step? v s t.unmarked = step? v s t := by
    obtain ⟨phase, here, outer⟩ := s
    cases t with
    | column name compared => cases phase <;> rfl
    | _ => rfl
  have hrun : ∀ s, run? v s (ts.map Token.unmarked) = run? v s ts := by
    induction ts with
    | nil => exact fun _ => rfl
    | cons t ts ih =>
      intro s
      rw [List.map_cons, run?_cons, run?_cons, hstep]
      congr 1
      exact funext ih
  rw [evaluate?, hrun, evaluate?]

theorem Grouped.evaluate? {style : Style} {x : Expr} (h : Grouped style .disjunction x)
    (v : Valuation) : Precedence.evaluate? v (x.skeleton false).operand = some (x.truth v) := by
  obtain ⟨r, hr⟩ := h.readAs v false
  rw [hr.yields.evaluate?, hr.toTruth]

/-- A text with plain names determines the tokens of all decoded expressions, and the meaning of those
that are grouped as their trees: two of them that are printed alike have the same truth value on every
row. -/
theorem text_determines_truth (columns : Columns) (hcolumns : columns.Plain) (dialect : Dialect)
    (limit limit' : Nat) (node node' : Json) (x y : Expr)
    (hx : Expr.decode columns limit node = .ok x) (hy : Expr.decode columns limit' node' = .ok y)
    (text : String) (htx : x.render dialect.style = .sql text)
    (hty : y.render dialect.style = .sql text) :
    (x.skeleton false).operand.map Token.unmarked = (y.skeleton false).operand.map Token.unmarked ∧
      (Grouped dialect.style .disjunction x → Grouped dialect.style .disjunction y →
        ∀ v, x.truth v = y.truth v) := by
  have hxwf : x.WellFormed columns := ((Expr.decodeAt_exact x 1 node).mp hx).2.1
  have hywf : y.WellFormed columns := ((Expr.decodeAt_exact y 1 node').mp hy).2.1
  have htokens := Expr.tokens_eq_of_render hcolumns hxwf hywf htx hty
  refine ⟨htokens, fun hgx hgy v => Option.some.inj ?_⟩
  calc some (x.truth v)
      = evaluate? v (x.skeleton false).operand := (hgx.evaluate? v).symm
    _ = evaluate? v ((x.skeleton false).operand.map Token.unmarked) := (evaluate?_unmarked v _).symm
    _ = evaluate? v ((y.skeleton false).operand.map Token.unmarked) := by rw [htokens]
    _ = evaluate? v (y.skeleton false).operand := evaluate?_unmarked v _
    _ = some (y.truth v) := hgy.evaluate? v

/-- Two nodes that are printed alike: one has an AND around each OR that prints the parentheses anyway, and
negations that cancel out. -/
theorem text_determines_truth_nested :
    let columns := Columns.ofList [(1, "a"), (2, "b_2")]
    let a : Json := .tagged columnTag [.scalar (.num (.int 1))]
    let b : Json := .tagged columnTag [.scalar (.num (.int 2))]
    let listed : Json := .tagged "=" [a, .tagged "<" [b, .scalar (.bool true)], .scalar (.str "it's")]
    let either : Json := .tagged "or" [a, b]
    let node : Json := .tagged "and" [.tagged "or" [a, .tagged "is-empty" [b]],
      .tagged "not" [listed], .tagged ">" [.tagged "and" [either], .scalar .null]]
    let node' : Json := .tagged "and"
      [.tagged "and" [.tagged "or" [a, .tagged "not" [.tagged "not-empty" [b]]]],
        .tagged "not" [.tagged "not" [.tagged "not" [listed]]],
        .tagged ">" [.tagged "and" [.tagged "and" [either]], .scalar .null]]
    let isListed : Expr := .equality .equal (.column "a")
      [.compare .less (.column "b_2") (.literal (.bool true)), .literal (.str "it's")]
    let isEither : Expr := .logical .and [.logical .or [.column "a", .column "b_2"]]
    let x : Expr := .logical .and [.logical .or [.column "a", .unary .isNull (.column "b_2")],
      .unary .not isListed, .compare .greater isEither (.literal .null)]
    let y : Expr := .logical .and
      [.logical .and [.logical .or [.column "a", .unary .not (.unary .isNotNull (.column "b_2"))]],
        .unary .not (.unary .not (.unary .not isListed)),
        .compare .greater (.logical .and [isEither]) (.literal .null)]
    let text := "(a OR b_2 IS NULL) AND NOT a IN (b_2 < true, 'it\\'s') AND (a OR b_2) > NULL"
    columns.Plain ∧ Expr.decode columns 5 node = .ok x ∧ Expr.decode columns 7 node' = .ok y ∧
      x.render Dialect.mySql.style = .sql text ∧ y.render Dialect.mySql.style = .sql text ∧
      ∀ v, x.truth v = y.truth v := by
  intro columns a b listed either node node' isListed isEither x y text
  have hcolumns : columns.Plain := Columns.plain_ofList (by decide)
  have hx : Expr.decode columns 5 node = .ok x := by rfl
  have hy : Expr.decode columns 7 node' = .ok y := by rfl
  have hxtext : x.render Dialect.mySql.style = .sql text := by rfl
  have hytext : y.render Dialect.mySql.style = .sql text := by rfl
  have hcolumn (name : String) : Grouped Dialect.mySql.style .operand (.column name) :=
    .simple (.column name)
  have hliteral (s : Scalar) : Grouped Dialect.mySql.style .operand (.literal s) :=
    .simple (.literal s)
  have hlisted : Grouped Dialect.mySql.style .negation (.unary .not isListed) := by
    have hless : Grouped Dialect.mySql.style .predicate
        (.compare .less (.column "b_2") (.literal (.bool true))) :=
      .compare (.subject (hcolumn "b_2")) (hliteral (.bool true))
    refine .not nofun (.predicate (.member (.subject (hcolumn "a")) (by decide) ?_))
    simp only [List.forall_mem_cons, List.not_mem_nil, false_implies, implies_true, and_true]
    exact ⟨.compoundItem (.conjunction (.negation (.predicate hless))) (by decide),
      .item (hliteral (.str "it's"))⟩
  have hor (z : Expr) (hz : Grouped Dialect.mySql.style .predicate z) :
      Grouped Dialect.mySql.style .disjunction (.logical .or [.column "a", z]) := by
    refine .or ?_
    simp only [List.forall_mem_cons, List.not_mem_nil, false_implies, implies_true, and_true]
    exact ⟨.conjunction (.negation (.predicate (.operand (hcolumn "a")))),
      .conjunction (.negation (.predicate hz))⟩
  -- an AND with a single operand stands for its parentheses only
  have hgroup (z : Expr) (hz : Grouped Dialect.mySql.style .predicate z) :
      Grouped Dialect.mySql.style .enclosed (.logical .and [.logical .or [.column "a", z]]) :=
    @Grouped.enclosed _ [] [] _ nofun rfl (hor z hz)
  have hb : Grouped Dialect.mySql.style .predicate (.column "b_2") := .operand (hcolumn "b_2")
  have hxgrouped : Grouped Dialect.mySql.style .disjunction x := by
    refine .conjunction (.and ?_)
    simp only [List.forall_mem_cons, List.not_mem_nil, false_implies, implies_true, and_true]
    refine ⟨hor _ (.check (by decide) (.subject (hcolumn "b_2"))), .negation hlisted, ?_⟩
    exact .negation (.predicate (.compare (.subject (.group (hgroup _ hb))) (hliteral .null)))
  have hygrouped : Grouped Dialect.mySql.style .disjunction y := by
    refine .conjunction (.and ?_)
    simp only [List.forall_mem_cons, List.not_mem_nil, false_implies, implies_true, and_true]
    refine ⟨?_, .negation (.cancelled (by decide) hlisted), ?_⟩
    · have hcheck : Grouped Dialect.mySql.style .predicate
          (.unary .not (.unary .isNotNull (.column "b_2"))) :=
        .negatedCheck (by decide) (.subject (hcolumn "b_2"))
      exact .negation (.predicate (.operand (.group (hgroup _ hcheck))))
    · have hsole : Grouped Dialect.mySql.style .enclosed (.logical .and [isEither]) :=
        @Grouped.sole _ _ _ [] [] _ nofun (by decide) (by decide) (hgroup _ hb)
      exact .negation (.predicate (.compare (.subject (.group hsole)) (hliteral .null)))
  have h := text_determines_truth columns hcolumns .mySql 5 7 node node' x y hx hy text hxtext hytext
  exact ⟨hcolumns, hx, hy, hxtext, hytext, h.2 hxgrouped hygrouped⟩

/-- Two nodes whose expressions are printed as one text in every dialect, and differ in their truth
values on some row. -/
def Json.Collide (columns : Columns) (text : String) (node node' : Json) : Prop :=
  ∃ x y, Expr.decode columns 256 node = .ok x ∧ Expr.decode columns 256 node' = .ok y ∧
    (∀ dialect : Dialect, x.render dialect.style = .sql text ∧ y.render dialect.style = .sql text) ∧
    ∃ v, x.truth v ≠ y.truth v

/-- A text is ambiguous where parentheses would be needed that are not printed: below a NOT, around an
OR that is an operand of an AND only behind two negations, on the right of a comparison, and around a
NOT on its left. A name does not show either that two negations make a truth value of it. -/
theorem ungrouped_text_ambiguous :
    let columns := Columns.ofList [(1, "a"), (2, "b"), (3, "c")]
    let a : Json := .tagged columnTag [.scalar (.num (.int 1))]
    let b : Json := .tagged columnTag [.scalar (.num (.int 2))]
    let c : Json := .tagged columnTag [.scalar (.num (.int 3))]
    columns.Plain ∧
      (∀ id id' name, columns.get? id = some name → columns.get? id' = some name → id = id') ∧
      Json.Collide columns "NOT a OR b" (.tagged "not" [.tagged "or" [a, b]])
        (.tagged "or" [.tagged "not" [a], b]) ∧
      Json.Collide columns "a OR b AND c"
        (.tagged "and" [.tagged "not" [.tagged "not" [.tagged "or" [a, b]]], c])
        (.tagged "or" [a, .tagged "and" [b, c]]) ∧
      Json.Collide columns "a < b IS NULL" (.tagged "is-empty" [.tagged "<" [a, b]])
        (.tagged "<" [a, .tagged "is-empty" [b]]) ∧
      Json.Collide columns "NOT a < b" (.tagged "<" [.tagged "not" [a], b])
        (.tagged "not" [.tagged "<" [a, b]]) ∧
      Json.Collide columns "a = b" (.tagged "=" [a, .tagged "not" [.tagged "not" [b]]])
        (.tagged "=" [a, b]) := by
  intro columns a b c
  let v : Valuation :=
    { column := fun name => if name = "c" then .bool false else .str "x"
      compare := fun _ _ _ => .yes
      reading := fun _ => .yes }
  refine ⟨Columns.plain_ofList (by decide), ?_, ?_, ?_, ?_, ?_, ?_⟩
  · intro id id' name h h'
    simp only [columns, Columns.ofList, List.foldl_cons, List.foldl_nil, Columns.get?_insert,
      Columns.get?_empty] at h h'
    grind
  all_goals
    refine ⟨_, _, rfl, rfl, ?_, v, by decide⟩
    intro dialect
    cases dialect <;> exact ⟨rfl, rfl⟩

end FilterSql
