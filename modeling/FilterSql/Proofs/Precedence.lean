import FilterSql.Proofs.Condition
import FilterSql.Proofs.Evaluation

/-!
The truth value of a sequence of tokens on a row. The tokens are taken one at a time, and SQL's
precedence decides what each one is applied to: comparisons, IS and IN from left to right to the
operands beside them, NOT to a predicate, AND to what stands between two ANDs or ORs, OR to what stands
between two ORs. An operand can be a condition in parentheses, and an item of a list any condition.
-/

namespace FilterSql.Precedence

open Condition (Token joined)

/-- What waits on a level of parentheses for the operand that comes next. A comparison can be among it,
which is applied before the NOTs. -/
structure Clause extends Condition.Clause Value where
  comparison : Value → Value

def Clause.fresh : Clause := ⟨⟨none, none, id⟩, id⟩

/-- An open parenthesis, with the clause around it. -/
inductive Frame where
  | group (around : Clause)
  | list (around : Clause) (op : EqualityOp) (main : Scalar) (items : List Scalar)

inductive Phase where
  | due
  | read (value : Value)
  /-- Behind IN, where a list is to open. -/
  | member (op : EqualityOp) (main : Scalar)

structure State where
  phase : Phase
  here : Clause
  outer : List Frame

section Machine

variable (v : Valuation)

def connect (op : Connective) (a b : Value) : Value :=
  .truth (op.truth (a.toTruth v) (b.toTruth v))

namespace Clause

/-- The clause when the comparison before an operand is done. -/
def compared (c : Clause) : Clause := { c with comparison := id }

/-- All of a level, its last operand being a value. -/
def value (c : Clause) (a : Value) : Value := c.disjunct (connect v) (c.comparison a)

/-- The clause after a connective, its left side ending in a value. -/
def next (c : Clause) (a : Value) (op : Connective) : Clause :=
  ⟨c.after (connect v) (c.comparison a) op, id⟩

end Clause

/-- One token. -/
def step? (s : State) (t : Token) : Option State :=
  match s.phase, t with
  | .due, .literal value => some { s with phase := .read (.scalar value) }
  | .due, .column name _ => some { s with phase := .read (.scalar (v.column name)) }
  | .due, .constant b => some { s with phase := .read (.truth (.ofBool b)) }
  | .due, .unary .not =>
    some { s with here := { s.here with
      negation := fun a => s.here.negation (.truth (a.toTruth v).not) } }
  | .due, .lparen => some ⟨.due, .fresh, .group s.here :: s.outer⟩
  | .read a, .unary op =>
    (op.ofScalar? (s.here.comparison a).toScalar).map fun b =>
      { s with phase := .read (.truth (.ofBool b)), here := s.here.compared }
  | .read a, .compare op =>
    some { s with phase := .due, here := { s.here with
      comparison := fun b => .truth (v.compare op (s.here.comparison a).toScalar b.toScalar) } }
  | .read a, .equality op =>
    some { s with phase := .due, here := { s.here with
      comparison := fun b => .truth (.ofBool
        (op.holds (s.here.comparison a).toScalar [b.toScalar])) } }
  | .read a, .member op =>
    some { s with phase := .member op (s.here.comparison a).toScalar, here := s.here.compared }
  | .member op main, .lparen => some ⟨.due, .fresh, .list s.here op main [] :: s.outer⟩
  | .read a, .connective op => some ⟨.due, s.here.next v a op, s.outer⟩
  | .read a, .comma =>
    match s.outer with
    | .list c op main items :: outer =>
      some ⟨.due, .fresh, .list c op main (items ++ [(s.here.value v a).toScalar]) :: outer⟩
    | _ => none
  | .read a, .rparen =>
    match s.outer with
    | .group c :: outer => some ⟨.read (.truth ((s.here.value v a).toTruth v)), c, outer⟩
    | .list c op main items :: outer =>
      some ⟨.read (.truth (.ofBool (op.holds main (items ++ [(s.here.value v a).toScalar])))),
        c, outer⟩
    | [] => none
  | _, _ => none

def run? (s : State) (ts : List Token) : Option State := ts.foldlM (step? v) s

/-- The truth value of a whole sequence, if it can be read to its end. -/
def evaluate? (ts : List Token) : Option Truth :=
  match run? v ⟨.due, .fresh, []⟩ ts with
  | some ⟨.read a, c, _⟩ => some ((c.value v a).toTruth v)
  | _ => none

theorem run?_cons (s : State) (t : Token) (ts : List Token) :
    run? v s (t :: ts) = (step? v s t).bind fun s => run? v s ts := rfl

theorem run?_append (s : State) (ts us : List Token) :
    run? v s (ts ++ us) = (run? v s ts).bind fun s => run? v s us := by
  simp [run?]

end Machine

/-- Where an expression can stand. -/
inductive Place where
  /-- In its own parentheses. -/
  | enclosed
  /-- On the right of a comparison. -/
  | operand
  /-- On the left of a comparison, IS or IN. -/
  | subject
  | item
  | predicate
  | negation
  | conjunction
  | disjunction
deriving DecidableEq

/-- The places where a value is asked for and not only a truth value. -/
def Place.takesValue : Place → Bool
  | .enclosed => true
  | .operand => true
  | .subject => true
  | .item => true
  | _ => false

/-- A sequence of tokens has a value at a place: reading it there leaves the value behind, applied to
what waits inside the place, and all that waits outside as it was. -/
def Yields (v : Valuation) : Place → List Token → Value → Prop
  | .enclosed, ts, r | .operand, ts, r =>
    ∀ c outer, run? v ⟨.due, c, outer⟩ ts = some ⟨.read r, c, outer⟩
  | .subject, ts, r | .predicate, ts, r => ∀ c outer, c.comparison = id → ∃ f a,
      run? v ⟨.due, c, outer⟩ ts = some ⟨.read a, { c with comparison := f }, outer⟩ ∧ f a = r
  | .negation, ts, r => ∀ c outer, c.comparison = id → ∃ g f a,
      run? v ⟨.due, c, outer⟩ ts =
        some ⟨.read a, { c with negation := g, comparison := f }, outer⟩ ∧
      g (f a) = c.negation r
  | .conjunction, ts, r => ∀ c outer, c.negation = id → c.comparison = id → ∃ t g f a,
      run? v ⟨.due, c, outer⟩ ts = some ⟨.read a, ⟨⟨c.disjunction, t, g⟩, f⟩, outer⟩ ∧
      joined (connect v) .and t (g (f a)) = joined (connect v) .and c.conjunction r
  | .disjunction, ts, r => ∀ t outer, ∃ c a,
      run? v ⟨.due, ⟨⟨t, none, id⟩, id⟩, outer⟩ ts = some ⟨.read a, c, outer⟩ ∧
      c.value v a = joined (connect v) .or t r
  | .item, ts, r => ∀ outer, ∃ c a,
      run? v ⟨.due, .fresh, outer⟩ ts = some ⟨.read a, c, outer⟩ ∧ c.value v a = r

namespace Yields

variable {v : Valuation} {ts us : List Token} {r s : Value}

theorem operand (h : Yields v .enclosed ts r) : Yields v .operand ts r := h

theorem predicate (h : Yields v .operand ts r) : Yields v .predicate ts r := by
  intro c outer hc
  refine ⟨c.comparison, r, h c outer, ?_⟩
  rw [hc, id]

theorem subject (h : Yields v .predicate ts r) : Yields v .subject ts r := h

theorem negation (h : Yields v .predicate ts r) : Yields v .negation ts r := by
  intro c outer hc
  obtain ⟨f, a, hrun, hvalue⟩ := h c outer hc
  exact ⟨c.negation, f, a, hrun, by rw [hvalue]⟩

theorem conjunction (h : Yields v .negation ts r) : Yields v .conjunction ts r := by
  intro c outer hneg hc
  obtain ⟨g, f, a, hrun, hvalue⟩ := h c outer hc
  refine ⟨c.conjunction, g, f, a, hrun, ?_⟩
  rw [hvalue, hneg, id]

theorem disjunction (h : Yields v .conjunction ts r) : Yields v .disjunction ts r := by
  intro t outer
  obtain ⟨u, g, f, a, hrun, hvalue⟩ := h ⟨⟨t, none, id⟩, id⟩ outer rfl rfl
  refine ⟨⟨⟨t, u, g⟩, f⟩, a, hrun, ?_⟩
  rw [Clause.value, Condition.Clause.disjunct, Condition.Clause.conjunct, hvalue]
  rfl

theorem item (h : Yields v .disjunction ts r) : Yields v .item ts r := by
  intro outer
  exact h none outer

/-- What stands for an operand can stand everywhere. -/
theorem of_operand (h : Yields v .operand ts r) (place : Place) : Yields v place ts r := by
  cases place with
  | enclosed => exact h
  | operand => exact h
  | subject => exact h.predicate.subject
  | item => exact h.predicate.negation.conjunction.disjunction.item
  | predicate => exact h.predicate
  | negation => exact h.predicate.negation
  | conjunction => exact h.predicate.negation.conjunction
  | disjunction => exact h.predicate.negation.conjunction.disjunction

theorem literal (value : Scalar) : Yields v .operand [.literal value] (.scalar value) :=
  fun _ _ => rfl

theorem column (name : String) (compared : Bool) :
    Yields v .operand [.column name compared] (.scalar (v.column name)) :=
  fun _ _ => rfl

theorem constant (b : Bool) : Yields v .operand [.constant b] (.truth (.ofBool b)) :=
  fun _ _ => rfl

theorem parens (h : Yields v .disjunction ts r) :
    Yields v .enclosed (.lparen :: (ts ++ [.rparen])) (.truth (r.toTruth v)) := by
  intro c outer
  -- the clause around the parentheses waits in the frame and comes back as it was
  obtain ⟨c', a, hrun, hvalue⟩ := h none (.group c :: outer)
  have hopen : step? v ⟨.due, c, outer⟩ .lparen = some ⟨.due, .fresh, .group c :: outer⟩ := rfl
  have hclose : step? v ⟨.read a, c', .group c :: outer⟩ .rparen =
      some ⟨.read (.truth ((c'.value v a).toTruth v)), c, outer⟩ := rfl
  rw [run?_cons, hopen, Option.bind_some, run?_append, Clause.fresh, hrun, Option.bind_some, run?_cons,
    hclose, hvalue]
  rfl

theorem check {op : UnaryOp} {b : Bool} (h : Yields v .subject ts r)
    (hop : op.ofScalar? r.toScalar = some b) :
    Yields v .predicate (ts ++ [.unary op]) (.truth (.ofBool b)) := by
  intro c outer hc
  obtain ⟨f, a, hrun, hvalue⟩ := h c outer hc
  refine ⟨id, .truth (.ofBool b), ?_, rfl⟩
  have hcheck : step? v ⟨.read a, { c with comparison := f }, outer⟩ (.unary op) =
      some ⟨.read (.truth (.ofBool b)), { c with comparison := id }, outer⟩ := by
    simp [step?, hvalue, hop, Clause.compared]
  rw [run?_append, hrun, Option.bind_some, run?_cons, hcheck]
  rfl

/-- A token between two operands. The left one is known when the right one is due. -/
theorem between {t : Token} {g : Value → Value} (hts : Yields v .subject ts r)
    (hus : Yields v .operand us s)
    (ht : ∀ c outer a, c.comparison a = r →
      step? v ⟨.read a, c, outer⟩ t = some ⟨.due, { c with comparison := g }, outer⟩) :
    Yields v .predicate (ts ++ t :: us) (g s) := by
  intro c outer hc
  obtain ⟨f, a, hrun, hvalue⟩ := hts c outer hc
  refine ⟨g, s, ?_, rfl⟩
  rw [run?_append, hrun, Option.bind_some, run?_cons, ht _ outer a hvalue, Option.bind_some]
  exact hus _ outer

theorem compare (op : Comparison) (hts : Yields v .subject ts r) (hus : Yields v .operand us s) :
    Yields v .predicate (ts ++ .compare op :: us)
      (.truth (v.compare op r.toScalar s.toScalar)) := by
  apply hts.between hus (g := fun b => .truth (v.compare op r.toScalar b.toScalar))
  rintro c outer a rfl
  rfl

theorem equality (op : EqualityOp) (hts : Yields v .subject ts r) (hus : Yields v .operand us s) :
    Yields v .predicate (ts ++ .equality op :: us)
      (.truth (.ofBool (op.holds r.toScalar [s.toScalar]))) := by
  apply hts.between hus (g := fun b => .truth (.ofBool (op.holds r.toScalar [b.toScalar])))
  rintro c outer a rfl
  rfl

/-- The items of a list up to its end, after those that are read already. -/
theorem run?_items {α : Type} {tokens : α → List Token} {value : α → Scalar} {xs : List α}
    (hxs : ∀ x ∈ xs, ∃ r, Yields v .item (tokens x) r ∧ r.toScalar = value x) (hne : xs ≠ [])
    (c : Clause) (outer : List Frame) (op : EqualityOp) (main : Scalar) (items : List Scalar) :
    run? v ⟨.due, .fresh, .list c op main items :: outer⟩
        ([Token.comma].intercalate (xs.map tokens) ++ [.rparen]) =
      some ⟨.read (.truth (.ofBool (op.holds main (items ++ xs.map value)))), c, outer⟩ := by
  -- the items that are read grow while the others get fewer
  induction xs generalizing items with
  | nil => exact absurd rfl hne
  | cons x xs ih =>
    obtain ⟨r, hr, hvalue⟩ := hxs x List.mem_cons_self
    obtain ⟨c', a, hrun, hitem⟩ := hr (.list c op main items :: outer)
    cases xs with
    | nil =>
      have hclose : step? v ⟨.read a, c', .list c op main items :: outer⟩ .rparen =
          some ⟨.read (.truth (.ofBool (op.holds main (items ++ [(c'.value v a).toScalar])))),
            c, outer⟩ := rfl
      rw [List.map_singleton, List.intercalate_singleton, run?_append, hrun, Option.bind_some,
        run?_cons, hclose, hitem, hvalue]
      rfl
    | cons y xs =>
      have hnext : step? v ⟨.read a, c', .list c op main items :: outer⟩ .comma =
          some ⟨.due, .fresh, .list c op main (items ++ [(c'.value v a).toScalar]) :: outer⟩ := rfl
      rw [List.map_cons, List.map_cons, List.intercalate_cons_cons, List.append_assoc,
        List.append_assoc, run?_append, hrun, Option.bind_some, List.singleton_append, run?_cons, hnext,
        Option.bind_some, hitem, hvalue, ← List.map_cons,
        ih (fun z hz => hxs z (List.mem_cons_of_mem x hz)) (List.cons_ne_nil y xs), List.append_assoc]
      rfl

theorem member {α : Type} {tokens : α → List Token} {value : α → Scalar} {xs : List α}
    (op : EqualityOp) (h : Yields v .subject ts r)
    (hxs : ∀ x ∈ xs, ∃ r, Yields v .item (tokens x) r ∧ r.toScalar = value x) (hne : xs ≠ []) :
    Yields v .predicate
      (ts ++ .member op :: .lparen :: ([Token.comma].intercalate (xs.map tokens) ++ [.rparen]))
      (.truth (.ofBool (op.holds r.toScalar (xs.map value)))) := by
  intro c outer hc
  obtain ⟨f, a, hrun, rfl⟩ := h c outer hc
  refine ⟨id, .truth (.ofBool (op.holds (f a).toScalar (xs.map value))), ?_, rfl⟩
  have hin : step? v ⟨.read a, { c with comparison := f }, outer⟩ (.member op) =
      some ⟨.member op (f a).toScalar, { c with comparison := id }, outer⟩ := rfl
  have hopen : step? v ⟨.member op (f a).toScalar, { c with comparison := id }, outer⟩ .lparen =
      some ⟨.due, .fresh, .list { c with comparison := id } op (f a).toScalar [] :: outer⟩ := rfl
  rw [run?_append, hrun, Option.bind_some, run?_cons, hin, Option.bind_some, run?_cons, hopen,
    Option.bind_some, run?_items hxs hne, List.nil_append]

theorem not (h : Yields v .negation ts r) :
    Yields v .negation (.unary .not :: ts) (.truth (r.toTruth v).not) := by
  -- the NOT joins those that wait already, and they are all applied at the end of the predicate
  intro c outer hc
  exact h { c with negation := fun a => c.negation (.truth (a.toTruth v).not) } outer hc

theorem joined_joined (op : Connective) (t : Option Value) (r s : Value) :
    joined (connect v) op (some (joined (connect v) op t r)) s =
      joined (connect v) op t (connect v op r s) := by
  cases t with
  | none => rfl
  | some t => simp only [joined, connect, Value.toTruth_truth, Connective.truth_assoc]

theorem and (hts : Yields v .conjunction ts r) (hus : Yields v .conjunction us s) :
    Yields v .conjunction (ts ++ .connective .and :: us) (connect v .and r s) := by
  intro c outer hneg hc
  obtain ⟨t, g, f, a, hrun, hvalue⟩ := hts c outer hneg hc
  -- an AND closes what stands before it and leaves the left side of an OR alone
  have hjoin : step? v ⟨.read a, ⟨⟨c.disjunction, t, g⟩, f⟩, outer⟩ (.connective .and) =
      some ⟨.due, ⟨⟨c.disjunction, some (joined (connect v) .and t (g (f a))), id⟩, id⟩, outer⟩ := rfl
  rw [run?_append, hrun, Option.bind_some, run?_cons, hjoin, Option.bind_some, hvalue, ← joined_joined]
  exact hus ⟨⟨c.disjunction, _, id⟩, id⟩ outer rfl rfl

theorem or (hts : Yields v .disjunction ts r) (hus : Yields v .disjunction us s) :
    Yields v .disjunction (ts ++ .connective .or :: us) (connect v .or r s) := by
  intro t outer
  obtain ⟨c, a, hrun, hvalue⟩ := hts t outer
  have hjoin : step? v ⟨.read a, c, outer⟩ (.connective .or) =
      some ⟨.due, ⟨⟨some (c.value v a), none, id⟩, id⟩, outer⟩ := rfl
  rw [run?_append, hrun, Option.bind_some, run?_cons, hjoin, Option.bind_some, hvalue, ← joined_joined]
  exact hus _ outer

theorem evaluate? (h : Yields v .disjunction ts r) :
    Precedence.evaluate? v ts = some (r.toTruth v) := by
  obtain ⟨c, a, hrun, hvalue⟩ := h none []
  have hstart : run? v ⟨.due, .fresh, []⟩ ts = some ⟨.read a, c, []⟩ := hrun
  simp [Precedence.evaluate?, hstart, hvalue, joined]

end Yields

end FilterSql.Precedence
