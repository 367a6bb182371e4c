import FilterSql.Expr.Basic
import FilterSql.Sql.Literal
import FilterSql.Sql.Style

/-!
Conditions as sequences of tokens. `Reads` is the grammar: comparisons, IS and IN bind tighter than
NOT, NOT tighter than AND, AND tighter than OR, and the binary connectives group to the left. `read?`
takes one token at a time and finds the reading of every sequence that has one, so the grammar is
unambiguous.
-/

namespace FilterSql.Condition

inductive Token where
  | literal (value : Scalar)
  /-- Names below `<` and `>` are marked, since a style may have other quotes there. -/
  | column (name : String) (compared : Bool)
  | constant (value : Bool)
  | unary (op : UnaryOp)
  | compare (op : Comparison)
  | equality (op : EqualityOp)
  | member (op : EqualityOp)
  | connective (op : Connective)
  | comma
  | lparen
  | rparen
deriving DecidableEq

/-- The text of a token, with the blanks that go with it. -/
def Token.text (style : Style) : Token → String
  | .literal value => value.sql
  | .column name true => style.inComparison.identifier name
  | .column name false => style.identifier name
  | .constant true => "TRUE"
  | .constant false => "FALSE"
  | .unary .not => "NOT "
  | .unary .isNull => " IS NULL"
  | .unary .isNotNull => " IS NOT NULL"
  | .compare .less => " < "
  | .compare .greater => " > "
  | .equality .equal => " = "
  | .equality .notEqual => " <> "
  | .member .equal => " IN "
  | .member .notEqual => " NOT IN "
  | .connective .and => " AND "
  | .connective .or => " OR "
  | .comma => ", "
  | .lparen => "("
  | .rparen => ")"

@[simp] theorem Token.text_lparen (style : Style) : Token.text style .lparen = "(" := rfl

@[simp] theorem Token.text_rparen (style : Style) : Token.text style .rparen = ")" := rfl

def spell (style : Style) (ts : List Token) : String := String.join (ts.map (Token.text style))

@[simp] theorem spell_nil (style : Style) : spell style [] = "" := rfl

@[simp] theorem spell_cons (style : Style) (t : Token) (ts : List Token) :
    spell style (t :: ts) = t.text style ++ spell style ts := by
  simp [spell]

@[simp] theorem spell_append (style : Style) (ts us : List Token) :
    spell style (ts ++ us) = spell style ts ++ spell style us := by
  simp [spell]

theorem spell_intersperse_comma (style : Style) (ts : List Token) :
    spell style (ts.intersperse .comma) = ", ".intercalate (ts.map (Token.text style)) := by
  induction ts with
  | nil => simp
  | cons t ts ih =>
    cases ts with
    | nil => simp
    | cons u us =>
      rw [List.map_cons] at ih
      simp [ih, Token.text, String.append_assoc]

/-- The operands of a comparison are single tokens; the two constants are booleans. -/
def Token.operand? : Token → Option Expr
  | .literal value => some (.literal value)
  | .column name _ => some (.column name)
  | .constant value => some (.literal (.bool value))
  | _ => none

/-- What a sequence of tokens can be, from the tightest to the loosest. -/
inductive Level where
  | predicate
  | negation
  | conjunction
  | disjunction
deriving DecidableEq

/-- The grammar of conditions: a sequence of tokens read as an expression. -/
inductive Reads : Level → List Token → Expr → Prop where
  | operand {t x} : t.operand? = some x → Reads .predicate [t] x
  | nullCheck {t x op} : t.operand? = some x → op ≠ .not →
      Reads .predicate [t, .unary op] (.unary op x)
  | compare {t u x y op} : t.operand? = some x → u.operand? = some y →
      Reads .predicate [t, .compare op, u] (.compare op x y)
  | equality {t u x y op} : t.operand? = some x → u.operand? = some y →
      Reads .predicate [t, .equality op, u] (.equality op x [y])
  | member {t x op} {us : List Token} {ys : List Expr} : t.operand? = some x →
      us.mapM Token.operand? = some ys →
      Reads .predicate (t :: .member op :: .lparen :: (us.intersperse .comma ++ [.rparen]))
        (.equality op x ys)
  | parens {ts x} : Reads .disjunction ts x → Reads .predicate (.lparen :: (ts ++ [.rparen])) x
  | predicate {ts x} : Reads .predicate ts x → Reads .negation ts x
  | not {ts x} : Reads .negation ts x → Reads .negation (.unary .not :: ts) (.unary .not x)
  | negation {ts x} : Reads .negation ts x → Reads .conjunction ts x
  | and {ts us x y} : Reads .conjunction ts x → Reads .negation us y →
      Reads .conjunction (ts ++ .connective .and :: us) (.logical .and [x, y])
  | conjunction {ts x} : Reads .conjunction ts x → Reads .disjunction ts x
  | or {ts us x y} : Reads .disjunction ts x → Reads .conjunction us y →
      Reads .disjunction (ts ++ .connective .or :: us) (.logical .or [x, y])

/-- How far a predicate has been read. -/
inductive Partial where
  | due
  | operand (x : Expr)
  | compared (op : Comparison) (x : Expr)
  | equated (op : EqualityOp) (x : Expr)
  | member (op : EqualityOp) (x : Expr)
  /-- Inside a list, an item is to follow. -/
  | item (op : EqualityOp) (x : Expr) (ys : List Expr)
  /-- Inside a list, an item has been read. -/
  | listed (op : EqualityOp) (x : Expr) (ys : List Expr)
  | done (x : Expr)

/-- The predicate, where it may end. -/
def Partial.complete? : Partial → Option Expr
  | .operand x => some x
  | .done x => some x
  | _ => none

/-- What stands before an operand on its level of parentheses: the left side of an OR, the left side of
an AND, and the NOTs that wait for it. -/
structure Clause (α : Type) where
  disjunction : Option α
  conjunction : Option α
  negation : α → α

section Clause

variable {α : Type} (connect : Connective → α → α → α)

/-- A connective whose left side may be missing. -/
def joined (op : Connective) : Option α → α → α
  | none, b => b
  | some a, b => connect op a b

namespace Clause

def conjunct (c : Clause α) (a : α) : α := joined connect .and c.conjunction (c.negation a)

def disjunct (c : Clause α) (a : α) : α := joined connect .or c.disjunction (c.conjunct connect a)

/-- The clause after a connective, its left side ending in an operand. -/
def after (c : Clause α) (a : α) : Connective → Clause α
  | .and => ⟨c.disjunction, some (c.conjunct connect a), id⟩
  | .or => ⟨some (c.disjunct connect a), none, id⟩

end Clause

end Clause

/-- Connectives are read two operands at a time. -/
def pair (op : Connective) (x y : Expr) : Expr := .logical op [x, y]

/-- A condition read up to some token, with the clauses around the open parentheses. -/
structure Reading where
  part : Partial
  here : Clause Expr
  outer : List (Clause Expr)

namespace Reading

def start : Reading := ⟨.due, ⟨none, none, id⟩, []⟩

/-- A token after a whole predicate. -/
def after? (s : Reading) (x : Expr) : Token → Option Reading
  | .connective op => some ⟨.due, s.here.after pair x op, s.outer⟩
  | .rparen =>
    match s.outer with
    | [] => none
    | c :: outer => some ⟨.done (s.here.disjunct pair x), c, outer⟩
  | _ => none

def step? (s : Reading) (t : Token) : Option Reading :=
  match s.part, t with
  | .due, .unary .not =>
    some { s with here := { s.here with negation := fun x => s.here.negation (.unary .not x) } }
  | .due, .lparen => some ⟨.due, ⟨none, none, id⟩, s.here :: s.outer⟩
  | .due, t => t.operand?.map fun x => { s with part := .operand x }
  | .operand _, .unary .not => none
  | .operand x, .unary op => some { s with part := .done (.unary op x) }
  | .operand x, .compare op => some { s with part := .compared op x }
  | .operand x, .equality op => some { s with part := .equated op x }
  | .operand x, .member op => some { s with part := .member op x }
  | .operand x, t => s.after? x t
  | .compared op x, t => t.operand?.map fun y => { s with part := .done (.compare op x y) }
  | .equated op x, t => t.operand?.map fun y => { s with part := .done (.equality op x [y]) }
  | .member op x, .lparen => some { s with part := .item op x [] }
  | .item op x [], .rparen => some { s with part := .done (.equality op x []) }
  | .item op x ys, t => t.operand?.map fun y => { s with part := .listed op x (ys ++ [y]) }
  | .listed op x ys, .comma => some { s with part := .item op x ys }
  | .listed op x ys, .rparen => some { s with part := .done (.equality op x ys) }
  | .done x, t => s.after? x t
  | _, _ => none

def run? (s : Reading) (ts : List Token) : Option Reading := ts.foldlM step? s

def finish? (s : Reading) : Option Expr :=
  match s.outer with
  | [] => s.part.complete?.map (s.here.disjunct pair)
  | _ => none

end Reading

def read? (ts : List Token) : Option Expr := (Reading.start.run? ts).bind Reading.finish?

namespace Reading

@[simp] theorem run?_nil (s : Reading) : s.run? [] = some s := rfl

theorem run?_cons (s : Reading) (t : Token) (ts : List Token) :
    s.run? (t :: ts) = (s.step? t).bind fun r => r.run? ts := rfl

theorem run?_append (s : Reading) (ts us : List Token) :
    s.run? (ts ++ us) = (s.run? ts).bind fun r => r.run? us := by
  simp [run?, List.foldlM_append]

variable {c d : Clause Expr} {outer : List (Clause Expr)}

/-- Where an operand may stand, its token takes the reading one step on. -/
theorem step?_due {t : Token} {x : Expr} (h : t.operand? = some x) :
    step? ⟨.due, c, outer⟩ t = some ⟨.operand x, c, outer⟩ := by
  cases t <;> simp_all [step?, Token.operand?]

theorem step?_compared {op : Comparison} {x y : Expr} {t : Token} (h : t.operand? = some y) :
    step? ⟨.compared op x, c, outer⟩ t = some ⟨.done (.compare op x y), c, outer⟩ := by
  simp [step?, h]

theorem step?_equated {op : EqualityOp} {x y : Expr} {t : Token} (h : t.operand? = some y) :
    step? ⟨.equated op x, c, outer⟩ t = some ⟨.done (.equality op x [y]), c, outer⟩ := by
  simp [step?, h]

theorem step?_item {op : EqualityOp} {x y : Expr} {ys : List Expr} {t : Token}
    (h : t.operand? = some y) :
    step? ⟨.item op x ys, c, outer⟩ t = some ⟨.listed op x (ys ++ [y]), c, outer⟩ := by
  cases ys <;> cases t <;> simp_all [step?, Token.operand?]

/-- The items of a list that is not empty, from the first to the last. -/
theorem run?_items {op : EqualityOp} {x y : Expr} {t : Token} {us : List Token} {zs : List Expr}
    (ys : List Expr) (ht : t.operand? = some y) (hus : us.mapM Token.operand? = some zs) :
    run? ⟨.item op x ys, c, outer⟩ ((t :: us).intersperse .comma) =
      some ⟨.listed op x (ys ++ y :: zs), c, outer⟩ := by
  induction us generalizing t y ys zs with
  | nil =>
    obtain rfl : [] = zs := by simpa using hus
    simp [run?_cons, step?_item ht]
  | cons u us ih =>
    simp only [List.mapM_cons, Option.bind_eq_bind, Option.bind_eq_some_iff, pure] at hus
    obtain ⟨z, hz, zs', hzs, hcons⟩ := hus
    obtain rfl : z :: zs' = zs := by simpa using hcons
    have hrest := ih (ys ++ [y]) hz hzs
    rw [List.append_assoc] at hrest
    rw [List.intersperse_cons_cons, run?_cons, step?_item ht, Option.bind_some, run?_cons]
    exact hrest

theorem step?_connective {p : Partial} {y : Expr} (h : p.complete? = some y) (op : Connective) :
    step? ⟨p, c, outer⟩ (.connective op) = after? ⟨p, c, outer⟩ y (.connective op) := by
  cases p <;> simp_all [step?, Partial.complete?]

theorem step?_rparen {p : Partial} {y : Expr} (h : p.complete? = some y) :
    step? ⟨p, c, d :: outer⟩ .rparen = some ⟨.done (c.disjunct pair y), d, outer⟩ := by
  cases p <;> simp_all [step?, Partial.complete?, after?]

/-- What a sequence adds to a reading. A predicate leaves the clause alone, a negation adds to its
NOTs, a conjunction finds no left side of an AND, and a disjunction finds an empty clause. -/
def Adds : Level → List Token → Expr → Prop
  | .predicate, ts, x => ∀ c outer, ∃ p,
      run? ⟨.due, c, outer⟩ ts = some ⟨p, c, outer⟩ ∧ p.complete? = some x
  | .negation, ts, x => ∀ d j f outer, ∃ p g y,
      run? ⟨.due, ⟨d, j, f⟩, outer⟩ ts = some ⟨p, ⟨d, j, g⟩, outer⟩ ∧ p.complete? = some y ∧
        g y = f x
  | .conjunction, ts, x => ∀ d outer, ∃ p j g y,
      run? ⟨.due, ⟨d, none, id⟩, outer⟩ ts = some ⟨p, ⟨d, j, g⟩, outer⟩ ∧ p.complete? = some y ∧
        joined pair .and j (g y) = x
  | .disjunction, ts, x => ∀ outer, ∃ p c y,
      run? ⟨.due, ⟨none, none, id⟩, outer⟩ ts = some ⟨p, c, outer⟩ ∧ p.complete? = some y ∧
        c.disjunct pair y = x

theorem adds_of_reads {level : Level} {ts : List Token} {x : Expr} (h : Reads level ts x) :
    Adds level ts x := by
  -- one case for each rule; what stands in front is arbitrary, so that a looser rule can fill it
  induction h with
  | operand ht =>
    intro c outer
    exact ⟨_, by rw [run?_cons, step?_due ht]; rfl, rfl⟩
  | @nullCheck t x op ht hop =>
    intro c outer
    refine ⟨.done (.unary op x), ?_, rfl⟩
    rw [run?_cons, step?_due ht]
    cases op with
    | not => exact absurd rfl hop
    | _ => rfl
  | @compare t u x y op ht hu =>
    intro c outer
    refine ⟨.done (.compare op x y), ?_, rfl⟩
    rw [run?_cons, step?_due ht]
    change (step? ⟨.compared op x, c, outer⟩ u).bind _ = _
    rw [step?_compared hu]
    rfl
  | @equality t u x y op ht hu =>
    intro c outer
    refine ⟨.done (.equality op x [y]), ?_, rfl⟩
    rw [run?_cons, step?_due ht]
    change (step? ⟨.equated op x, c, outer⟩ u).bind _ = _
    rw [step?_equated hu]
    rfl
  | @member t x op us ys ht hus =>
    intro c outer
    refine ⟨.done (.equality op x ys), ?_, rfl⟩
    have hopen (ts : List Token) : run? ⟨.due, c, outer⟩ (t :: .member op :: .lparen :: ts) =
        run? ⟨.item op x [], c, outer⟩ ts := by
      rw [run?_cons, step?_due ht]
      rfl
    rw [hopen, run?_append]
    cases us with
    | nil =>
      obtain rfl : [] = ys := by simpa using hus
      rfl
    | cons u us =>
      simp only [List.mapM_cons, Option.bind_eq_bind, Option.bind_eq_some_iff, pure] at hus
      obtain ⟨z, hz, zs, hzs, hcons⟩ := hus
      obtain rfl : z :: zs = ys := by simpa using hcons
      rw [run?_items [] hz hzs]
      rfl
  | @parens ts x _ ih =>
    intro c outer
    obtain ⟨p, d, y, hrun, hy, rfl⟩ := ih (c :: outer)
    refine ⟨.done (d.disjunct pair y), ?_, rfl⟩
    -- the parenthesis puts the clause away and starts an empty one
    change run? ⟨.due, ⟨none, none, id⟩, c :: outer⟩ (ts ++ [.rparen]) = _
    rw [run?_append, hrun, Option.bind_some, run?_cons, step?_rparen hy]
    rfl
  | predicate _ ih =>
    intro d j f outer
    obtain ⟨p, hrun, hx⟩ := ih ⟨d, j, f⟩ outer
    exact ⟨p, f, _, hrun, hx, rfl⟩
  | not _ ih =>
    intro d j f outer
    exact ih d j (fun x => f (.unary .not x)) outer
  | negation _ ih =>
    intro d outer
    obtain ⟨p, g, y, hrun, hy, hg⟩ := ih d none id outer
    exact ⟨p, none, g, y, hrun, hy, hg⟩
  | and _ _ ihx ihy =>
    intro d outer
    obtain ⟨p, j, g, y, hrun, hy, rfl⟩ := ihx d outer
    -- AND moves what has been read into the clause, and the right side is read behind it
    obtain ⟨q, f, z, hrun', hz, hf⟩ := ihy d (some (joined pair .and j (g y))) id outer
    refine ⟨q, some (joined pair .and j (g y)), f, z, ?_, hz, by rw [hf]; rfl⟩
    rw [run?_append, hrun, Option.bind_some, run?_cons, step?_connective hy]
    exact hrun'
  | conjunction _ ih =>
    intro outer
    obtain ⟨p, j, g, y, hrun, hy, hx⟩ := ih none outer
    exact ⟨p, ⟨none, j, g⟩, y, hrun, hy, hx⟩
  | or _ _ ihx ihy =>
    intro outer
    obtain ⟨p, c, y, hrun, hy, rfl⟩ := ihx outer
    obtain ⟨q, j, g, z, hrun', hz, hg⟩ := ihy (some (c.disjunct pair y)) outer
    refine ⟨q, ⟨some (c.disjunct pair y), j, g⟩, z, ?_, hz, by rw [← hg]; rfl⟩
    rw [run?_append, hrun, Option.bind_some, run?_cons, step?_connective hy]
    exact hrun'

end Reading

/-- The reader finds the reading that the grammar gives. -/
theorem read?_of_reads {ts : List Token} {x : Expr} (h : Reads .disjunction ts x) :
    read? ts = some x := by
  obtain ⟨p, c, y, hrun, hy, rfl⟩ := Reading.adds_of_reads h []
  change (Reading.run? ⟨.due, ⟨none, none, id⟩, []⟩ ts).bind Reading.finish? = _
  simp [hrun, Reading.finish?, hy]

theorem reads_unique {ts : List Token} {x y : Expr} (hx : Reads .disjunction ts x)
    (hy : Reads .disjunction ts y) : x = y :=
  Option.some.inj ((read?_of_reads hx).symm.trans (read?_of_reads hy))

end FilterSql.Condition
