import FilterSql.Expr.Basic

/-!
The result of rendering a node: a text, or a truth value that needs none. The connectives act on results
as monoids: the unit disappears, the opposite constant absorbs, and texts are joined. This holds for any
kind of text that has a way to write connectives and parentheses. SQL is put together by a loop, which
gives the same as joining the operands one by one.
-/

namespace FilterSql

inductive Rendered (α : Type) where
  | sql (text : α)
  | constant (value : Bool)
deriving DecidableEq

/-- A kind of text for conditions. -/
class Phrase (α : Type) where
  constant : Bool → α
  connected : Connective → α → α → α
  enclosed : α → α

namespace Connective

/-- The constant that changes nothing beside other operands. -/
def unit : Connective → Bool
  | .and => true
  | .or => false

def separator : Connective → String
  | .and => " AND "
  | .or => " OR "

end Connective

instance : Phrase String where
  constant
    | true => "TRUE"
    | false => "FALSE"
  connected op a b := a ++ op.separator ++ b
  enclosed text := "(" ++ text ++ ")"

namespace Rendered

section Phrase

variable {α : Type} [Phrase α]

/-- The text inside a larger expression. -/
def operand : Rendered α → α
  | .sql text => text
  | .constant value => Phrase.constant value

def parenthesized : Rendered α → Rendered α
  | .sql text => .sql (Phrase.enclosed text)
  | r => r

end Phrase

/-- The text of a whole condition; one that always holds has none. -/
def condition : Rendered String → String
  | .constant true => ""
  | r => r.operand

end Rendered

namespace Connective

section Phrase

variable {α : Type} [Phrase α]

/-- A rendered operand of a connective; an OR inside an AND is put in parentheses. -/
def placed (op : Connective) (x : Expr) (r : Rendered α) : Rendered α :=
  if op = .and ∧ x.isLogical .or then r.parenthesized else r

def join (op : Connective) : Rendered α → Rendered α → Rendered α
  | .constant value, r => if value = op.unit then r else .constant value
  | r, .constant value => if value = op.unit then r else .constant value
  | .sql a, .sql b => .sql (Phrase.connected op a b)

def joinAll (op : Connective) (rs : List (Rendered α)) : Rendered α :=
  rs.foldr op.join (.constant op.unit)

@[simp] theorem unit_join (op : Connective) (r : Rendered α) :
    op.join (.constant op.unit) r = r := by
  simp [join]

@[simp] theorem join_unit (op : Connective) (r : Rendered α) :
    op.join r (.constant op.unit) = r := by
  rcases op <;> rcases r with _ | (_ | _) <;> rfl

@[simp] theorem joinAll_nil (op : Connective) :
    op.joinAll ([] : List (Rendered α)) = .constant op.unit := rfl

@[simp] theorem joinAll_cons (op : Connective) (r : Rendered α) (rs : List (Rendered α)) :
    op.joinAll (r :: rs) = op.join r (op.joinAll rs) := rfl

end Phrase

theorem join_sql_sql (op : Connective) (a b : String) :
    op.join (.sql a) (.sql b) = .sql (a ++ op.separator ++ b) := rfl

theorem join_assoc (op : Connective) (a b c : Rendered String) :
    op.join (op.join a b) c = op.join a (op.join b c) := by
  rcases op <;> rcases a with _ | (_ | _) <;> rcases b with _ | (_ | _) <;>
    rcases c with _ | (_ | _) <;> simp [join, unit, Phrase.connected, String.append_assoc]

theorem joinAll_append (op : Connective) (rs ts : List (Rendered String)) :
    op.joinAll (rs ++ ts) = op.join (op.joinAll rs) (op.joinAll ts) := by
  induction rs with
  | nil => simp
  | cons r rs ih => simp [ih, join_assoc]

/-- The loop over the operands of a connective, with the text so far and whether the next text is the
first one. The unit is passed over, and the opposite constant ends the loop. -/
def joinLoop (op : Connective) (text : String) (isFirst : Bool) :
    List (Rendered String) → Rendered String
  | [] => if isFirst then .constant op.unit else .sql text
  | .constant value :: rest =>
    if value = op.unit then op.joinLoop text isFirst rest else .constant value
  | .sql next :: rest =>
    let text := if isFirst then text else text ++ op.separator
    op.joinLoop (text ++ next) false rest

/-- What the loop still has to do is joined to the text so far. -/
theorem joinLoop_eq_join (op : Connective) (text : String) (rs : List (Rendered String)) :
    op.joinLoop text false rs = op.join (.sql text) (op.joinAll rs) := by
  induction rs generalizing text with
  | nil => simp [joinLoop]
  | cons r rs ih =>
    rw [joinAll_cons, ← join_assoc]
    cases r with
    | sql next => exact ih (text ++ op.separator ++ next)
    | constant value =>
      by_cases hvalue : value = op.unit
      · rw [joinLoop, if_pos hvalue, ih, hvalue, join_unit]
      · -- the constant ends the loop, and it absorbs the text
        simp [joinLoop, join, hvalue]

theorem joinLoop_eq_joinAll (op : Connective) (rs : List (Rendered String)) :
    op.joinLoop "" true rs = op.joinAll rs := by
  induction rs with
  | nil => rfl
  | cons r rs ih =>
    cases r with
    | sql next =>
      have hfirst : op.joinLoop "" true (.sql next :: rs) = op.joinLoop ("" ++ next) false rs := rfl
      rw [hfirst, String.empty_append, joinLoop_eq_join, joinAll_cons]
    | constant value =>
      by_cases hvalue : value = op.unit
      · rw [joinLoop, if_pos hvalue, ih, hvalue, joinAll_cons, unit_join]
      · simp [joinLoop, join, hvalue]

end Connective

end FilterSql
