import FilterSql.Proofs.Encoding
import FilterSql.Proofs.FilterTree

/-!
One skeleton for all dialects. Rendering decides on constants, keywords and parentheses without looking
at a name, so an expression has a sequence of tokens that comes before any dialect, and a dialect only
writes the names in it. A name below `<` or `>` carries a mark, because a dialect may leave comparisons
to another one; the whole subtree is then written in that one's quotes.
-/

namespace FilterSql

open Condition

instance : Phrase (List Token) where
  constant b := [.constant b]
  connected op ts us := ts ++ .connective op :: us
  enclosed ts := .lparen :: (ts ++ [.rparen])

/-- What is rendered before any name is written: tokens, or a truth value that needs none. -/
abbrev Skeleton := Rendered (List Token)

/-- The text of a token. Only a name is open, all else is the same in every dialect. -/
def Condition.Token.written (names : String → Bool → String) : Token → String
  | .column name compared => names name compared
  | t => t.text Dialect.postgreSql.style

/-- A unary node over its operand; a null check on a literal is decided. -/
def Rendered.unary (op : UnaryOp) (x : Expr) (s : Skeleton) : Skeleton :=
  match x.literal?.bind op.ofScalar? with
  | some value => .constant value
  | none =>
    match op with
    | .not => .sql (.unary .not :: s.operand)
    | check => .sql (s.operand ++ [.unary check])

namespace Skeleton

/-- One operand is compared, any other number of them is a list. -/
def equated (op : EqualityOp) (main : List Token) : List (List Token) → List Token
  | [operand] => main ++ .equality op :: operand
  | operands => main ++ .member op :: .lparen :: ([.comma].intercalate operands ++ [.rparen])

/-- The text of a sequence of tokens, given how names are written below a comparison and elsewhere. -/
def text (names : String → Bool → String) (ts : List Token) : String :=
  String.join (ts.map (Token.written names))

end Skeleton

/-- The skeleton with its names written. -/
def Rendered.write (names : String → Bool → String) : Skeleton → Rendered String
  | .sql ts => .sql (Skeleton.text names ts)
  | .constant b => .constant b

namespace Expr

mutual

/-- The skeleton of an expression, which stands below a comparison or not. -/
def skeleton (compared : Bool) : Expr → Skeleton
  | .literal value => .sql [.literal value]
  | .column name => .sql [.column name compared]
  | .unary .not (.unary inner x) =>
    match inner.opposite? with
    | none => skeleton compared x
    | some opposite => (skeleton compared x).unary opposite x
  | .unary op x => (skeleton compared x).unary op x
  | .compare op left right =>
    .sql ((skeleton true left).operand ++ .compare op :: (skeleton true right).operand)
  | .equality op main operands =>
    if op.alwaysHolds main operands then .constant true
    else .sql (Skeleton.equated op (skeleton compared main).operand
      ((skeletonAll compared operands).map Rendered.operand))
  | .logical op operands =>
    op.joinAll (List.zipWith op.placed operands (skeletonAll compared operands))

def skeletonAll (compared : Bool) : List Expr → List Skeleton
  | [] => []
  | x :: rest => skeleton compared x :: skeletonAll compared rest

end

section Equations

variable (compared : Bool)

theorem skeletonAll_eq_map (xs : List Expr) :
    skeletonAll compared xs = xs.map (skeleton compared) := by
  induction xs with
  | nil => rfl
  | cons x xs ih => simp [skeletonAll, ih]

theorem skeleton_unary {op : UnaryOp} {x : Expr}
    (h : ¬ (op = .not ∧ ∃ inner y, x = .unary inner y)) :
    skeleton compared (.unary op x) = (skeleton compared x).unary op x := by
  cases x with
  | unary inner y =>
    cases op with
    | not => exact absurd ⟨rfl, inner, y, rfl⟩ h
    | _ => rfl
  | _ => cases op <;> rfl

theorem skeleton_not_not (x : Expr) :
    skeleton compared (.unary .not (.unary .not x)) = skeleton compared x := by
  rw [skeleton, UnaryOp.opposite?]

theorem skeleton_not_nullCheck {op opposite : UnaryOp} (x : Expr)
    (h : op.opposite? = some opposite) :
    skeleton compared (.unary .not (.unary op x)) = (skeleton compared x).unary opposite x := by
  rw [skeleton, h]

theorem skeleton_equality (op : EqualityOp) (main : Expr) (operands : List Expr) :
    skeleton compared (.equality op main operands) =
      if op.alwaysHolds main operands then .constant true
      else .sql (Skeleton.equated op (main.skeleton compared).operand
        (operands.map fun y => (y.skeleton compared).operand)) := by
  rw [skeleton, skeletonAll_eq_map, List.map_map]
  rfl

theorem skeleton_logical (op : Connective) (xs : List Expr) :
    skeleton compared (.logical op xs) =
      op.joinAll (xs.map fun x => op.placed x (x.skeleton compared)) := by
  rw [skeleton, skeletonAll_eq_map, List.zipWith_map_right, List.zipWith_self]

end Equations

/-- What every way of putting tokens together keeps holds of the tokens of all well-formed
expressions. -/
theorem tokens_induction {columns : Columns} {motive : List Token → Prop}
    (constant : ∀ b, motive [.constant b])
    (literal : ∀ value, motive [.literal value])
    (column : ∀ name compared, WellFormed columns (.column name) → motive [.column name compared])
    (not : ∀ ts, motive ts → motive (.unary .not :: ts))
    (check : ∀ op ts, op ≠ .not → motive ts → motive (ts ++ [.unary op]))
    (compare : ∀ op ts us, motive ts → motive us → motive (ts ++ .compare op :: us))
    (equality : ∀ op ts us, motive ts → motive us → motive (ts ++ .equality op :: us))
    (member : ∀ op ts (uss : List (List Token)), motive ts → (∀ us ∈ uss, motive us) →
      motive (ts ++ .member op :: .lparen :: ([.comma].intercalate uss ++ [.rparen])))
    (connective : ∀ op ts us, motive ts → motive us → motive (ts ++ .connective op :: us))
    (parens : ∀ ts, motive ts → motive (.lparen :: (ts ++ [.rparen])))
    (x : Expr) : x.WellFormed columns → ∀ compared, motive (x.skeleton compared).operand := by
  have hunary (op : UnaryOp) (x : Expr) (s : Skeleton) (hs : motive s.operand) :
      motive (s.unary op x).operand := by
    unfold Rendered.unary
    cases x.literal?.bind op.ofScalar? with
    | some value => exact constant value
    | none =>
      cases op with
      | not => exact not _ hs
      | isNull => exact check .isNull _ (by decide) hs
      | isNotNull => exact check .isNotNull _ (by decide) hs
  have hjoin (op : Connective) (s t : Skeleton) (hs : motive s.operand) (ht : motive t.operand) :
      motive (op.join s t).operand := by
    cases s with
    | constant b =>
      by_cases hb : b = op.unit
      · simpa [Connective.join, hb] using ht
      · simpa [Connective.join, hb] using hs
    | sql ts =>
      cases t with
      | constant b =>
        by_cases hb : b = op.unit
        · simpa [Connective.join, hb] using hs
        · simpa [Connective.join, hb] using ht
      | sql us => exact connective op ts us hs ht
  have hplaced (op : Connective) (x : Expr) (s : Skeleton) (hs : motive s.operand) :
      motive (op.placed x s).operand := by
    unfold Connective.placed
    split
    · cases s with
      | constant b => exact hs
      | sql ts => exact parens ts hs
    · exact hs
  induction x using operand_induction with
  | literal value => exact fun _ _ => literal value
  | column name => exact fun hx compared => column name compared hx
  | unary op x ih ihinner =>
    intro hx compared
    have hoperand : x.WellFormed columns :=
      ((wellFormed_of_operator columns (.unary op x)).mp hx).2 x List.mem_cons_self
    by_cases hnot : op = .not ∧ ∃ inner y, x = .unary inner y
    · obtain ⟨rfl, inner, y, rfl⟩ := hnot
      have hy : y.WellFormed columns :=
        ((wellFormed_of_operator columns (.unary inner y)).mp hoperand).2 y List.mem_cons_self
      have hmotive := ihinner inner y rfl hy compared
      cases hinner : inner.opposite? with
      | none => simpa [skeleton, hinner] using hmotive
      | some opposite => simpa [skeleton, hinner] using hunary opposite y _ hmotive
    · rw [skeleton_unary compared hnot]
      exact hunary op x _ (ih hoperand compared)
  | compare op left right ihleft ihright =>
    intro hx compared
    have hoperands := ((wellFormed_of_operator columns (.compare op left right)).mp hx).2
    have hleft := ihleft (hoperands left (by simp)) true
    have hright := ihright (hoperands right (by simp)) true
    exact compare op _ _ hleft hright
  | equality op main operands ihmain ih =>
    intro hx compared
    have hoperands := ((wellFormed_of_operator columns (.equality op main operands)).mp hx).2
    have hmain := ihmain (hoperands main List.mem_cons_self) compared
    have hall : ∀ ts ∈ operands.map fun y => (y.skeleton compared).operand, motive ts := by
      intro ts hts
      obtain ⟨y, hy, rfl⟩ := List.mem_map.mp hts
      exact ih y hy (hoperands y (List.mem_cons_of_mem main hy)) compared
    rw [skeleton_equality]
    split
    · exact constant true
    · unfold Skeleton.equated
      split
      · next us hone => exact equality op _ us hmain (hall us (by rw [hone]; exact List.mem_cons_self))
      · exact member op _ _ hmain hall
  | logical op operands ih =>
    intro hx compared
    have hoperands := ((wellFormed_of_operator columns (.logical op operands)).mp hx).2
    have hall : ∀ y ∈ operands, motive (op.placed y (y.skeleton compared)).operand :=
      fun y hy => hplaced op y _ (ih y hy (hoperands y hy) compared)
    rw [skeleton_logical]
    -- the operands are joined one by one, from the right
    clear ih hx hoperands
    induction operands with
    | nil => exact constant op.unit
    | cons y ys ihys =>
      have hrest := ihys fun z hz => hall z (List.mem_cons_of_mem y hz)
      exact hjoin op _ _ (hall y List.mem_cons_self) hrest

end Expr

namespace Skeleton

variable (names : String → Bool → String)

@[simp] theorem text_nil : text names [] = "" := rfl

@[simp] theorem text_cons (t : Token) (ts : List Token) :
    text names (t :: ts) = t.written names ++ text names ts := by
  simp [text]

@[simp] theorem text_append (ts us : List Token) :
    text names (ts ++ us) = text names ts ++ text names us := by
  simp [text]

theorem text_intercalate_comma (tss : List (List Token)) :
    text names ([.comma].intercalate tss) = ", ".intercalate (tss.map (text names)) := by
  induction tss with
  | nil => simp
  | cons ts tss ih =>
    cases tss with
    | nil => simp
    | cons us tss =>
      rw [List.map_cons] at ih
      simp [ih, List.intercalate_cons_cons, Token.written, Token.text, String.append_assoc]

theorem operand_write (s : Skeleton) : (s.write names).operand = text names s.operand := by
  cases s with
  | sql ts => rfl
  | constant b => cases b <;> rfl

theorem write_placed (op : Connective) (x : Expr) (s : Skeleton) :
    (op.placed x s).write names = op.placed x (s.write names) := by
  have hparens : s.parenthesized.write names = (s.write names).parenthesized := by
    cases s <;> simp [Rendered.write, Rendered.parenthesized, Phrase.enclosed, Token.written,
      String.append_assoc]
  unfold Connective.placed
  split
  · exact hparens
  · rfl

theorem write_unary (op : UnaryOp) (x : Expr) (s : Skeleton) :
    (s.unary op x).write names = op.rendered x (s.write names) := by
  unfold Rendered.unary UnaryOp.rendered
  cases x.literal?.bind op.ofScalar? with
  | some value => rfl
  | none =>
    rw [operand_write]
    cases op <;> simp [Rendered.write, UnaryOp.sql, Token.written, Token.text]

theorem text_equated (op : EqualityOp) (main : List Token) (operands : List (List Token)) :
    text names (equated op main operands) =
      op.sql (text names main) (operands.map (text names)) := by
  by_cases hone : operands.length = 1
  · obtain ⟨ts, rfl⟩ := List.length_eq_one_iff.mp hone
    rw [List.map_singleton, op.sql_single Dialect.postgreSql.style]
    simp [equated, Token.written, String.append_assoc]
  · have hlist : equated op main operands =
        main ++ .member op :: .lparen :: ([.comma].intercalate operands ++ [.rparen]) :=
      equated.eq_2 op main operands (by rintro ts rfl; exact hone rfl)
    rw [hlist, op.sql_list Dialect.postgreSql.style _ (by simpa using hone)]
    simp [text_intercalate_comma, Token.written, String.append_assoc]

theorem write_join (op : Connective) (a s : Skeleton) :
    (op.join a s).write names = op.join (a.write names) (s.write names) := by
  have hword : (Token.connective op).written names = op.separator := by cases op <;> rfl
  cases a with
  | constant b => by_cases hb : b = op.unit <;> simp [Connective.join, Rendered.write, hb]
  | sql ts =>
    cases s with
    | constant b => by_cases hb : b = op.unit <;> simp [Connective.join, Rendered.write, hb]
    | sql us => simp [Connective.join, Rendered.write, Phrase.connected, hword, String.append_assoc]

theorem write_joinAll (op : Connective) (ss : List Skeleton) :
    (op.joinAll ss).write names = op.joinAll (ss.map (Rendered.write names)) := by
  induction ss with
  | nil => rfl
  | cons s ss ih => rw [Connective.joinAll_cons, write_join, ih, List.map_cons, Connective.joinAll_cons]

end Skeleton

namespace Context

/-- A context as a new dialect is written: it leaves its nodes to the common rendering, and comparisons
to the common rendering with a given context in its place. How it writes names is its own affair. -/
structure Defers (cx comparing : Context) : Prop where
  render_eq : ∀ x, cx.render x = cx.node x
  compare_eq : ∀ op left right, cx.compare op left right =
    .sql (op.sql (comparing.render left).operand (comparing.render right).operand)

/-- Contexts change at a comparison and nowhere else. So a skeleton is written with the names of two
contexts, the one that begins and the one that renders below comparisons. -/
theorem Defers.render_eq_write {names : String → Bool → String} {comparing : Context}
    (hcomparing : comparing.Defers comparing) (htrue : ∀ name, comparing.identifier name = names name true)
    (x : Expr) : ∀ (cx : Context) (compared : Bool), cx.Defers comparing →
      (∀ name, cx.identifier name = names name compared) →
      cx.render x = (x.skeleton compared).write names := by
  induction x using Expr.operand_induction with
  | literal s =>
    intro cx compared hcx hnames
    rw [hcx.render_eq]
    simp [node, Expr.skeleton, Rendered.write, Token.written, Token.text]
  | column name =>
    intro cx compared hcx hnames
    rw [hcx.render_eq, node, hnames]
    simp [Expr.skeleton, Rendered.write, Token.written]
  | compare op left right ihleft ihright =>
    intro cx compared hcx hnames
    -- the other context renders below the comparison, and goes on doing so
    have hleft := ihleft comparing true hcomparing htrue
    have hright := ihright comparing true hcomparing htrue
    rw [hcx.render_eq, node, hcx.compare_eq, hleft, hright, Skeleton.operand_write,
      Skeleton.operand_write, op.sql_eq Dialect.postgreSql.style]
    simp [Expr.skeleton, Rendered.write, Token.written, String.append_assoc]
  | unary op x ih ihinner =>
    intro cx compared hcx hnames
    rw [hcx.render_eq]
    by_cases hnot : op = .not ∧ ∃ inner y, x = .unary inner y
    · obtain ⟨rfl, inner, y, rfl⟩ := hnot
      have hy := ihinner inner y rfl cx compared hcx hnames
      cases hinner : inner.opposite? with
      | none => simpa [node, Expr.skeleton, hinner] using hy
      | some opposite => simp [node, Expr.skeleton, hinner, hy, Skeleton.write_unary]
    · have hx := ih cx compared hcx hnames
      rw [node_unary cx hnot, Expr.skeleton_unary compared hnot, Skeleton.write_unary, hx]
  | equality op main operands ihmain ih =>
    intro cx compared hcx hnames
    have hmain := ihmain cx compared hcx hnames
    have hoperands : (operands.map fun y => (cx.render y).operand) =
        operands.map fun y => Skeleton.text names (y.skeleton compared).operand := by
      apply List.map_congr_left
      intro y hy
      rw [ih y hy cx compared hcx hnames, Skeleton.operand_write]
    rw [hcx.render_eq, node, Expr.skeleton_equality]
    split
    · rfl
    · rw [hmain, hoperands, Skeleton.operand_write, Rendered.write, Skeleton.text_equated,
        List.map_map]
      rfl
  | logical op operands ih =>
    intro cx compared hcx hnames
    rw [hcx.render_eq, node_logical_eq_joinAll, Expr.skeleton_logical, Skeleton.write_joinAll,
      List.map_map]
    congr 1
    apply List.map_congr_left
    intro y hy
    rw [ih y hy cx compared hcx hnames, Function.comp_apply, Skeleton.write_placed]

end Context

/-- A style leaves comparisons to the style for what stands below them. -/
theorem Style.context_defers (style : Style) : style.context.Defers style.inComparison.context :=
  ⟨style.context_delegates.render_eq, fun _ _ _ => rfl⟩

/-- The names of a style, below a comparison or elsewhere. -/
def Style.names (style : Style) (name : String) (compared : Bool) : String :=
  if compared then style.inComparison.identifier name else style.identifier name

theorem Expr.render_eq_write (style : Style) (x : Expr) :
    x.render style = (x.skeleton false).write style.names :=
  style.inComparison.context_defers.render_eq_write (fun _ => rfl) x style.context false
    style.context_defers fun _ => rfl

theorem Expr.render_inComparison_eq_write (style : Style) (x : Expr) :
    x.render style.inComparison = (x.skeleton true).write style.names :=
  style.inComparison.context_defers.render_eq_write (fun _ => rfl) x style.inComparison.context true
    style.inComparison.context_defers fun _ => rfl

/-- The two styles differ in the place of the limit alone, which no condition looks at. -/
theorem Expr.render_sqlServer (x : Expr) :
    x.render Dialect.sqlServer.style = x.render Dialect.postgreSql.style := by
  have hnames : Dialect.sqlServer.style.names = Dialect.postgreSql.style.names := rfl
  rw [render_eq_write, render_eq_write, hnames]

/-- The two quotings differ only around names that need quotes. -/
theorem mySql_identifier (name : String) :
    Dialect.mySql.style.identifier name = Dialect.postgreSql.style.identifier name ∨
      needsQuotes name = true ∧ Dialect.mySql.style.identifier name = "`" ++ name ++ "`" ∧
        Dialect.postgreSql.style.identifier name = "\"" ++ name ++ "\"" := by
  unfold Style.identifier
  split
  · next h => exact .inr ⟨h, rfl, rfl⟩
  · exact .inl rfl

/-- Every dialect writes the names in one skeleton. A context that compares by itself writes all of them,
and one that leaves comparisons to PostgreSQL has the names of PostgreSQL below these. So SQL Server
prints what PostgreSQL prints, and MySQL does but for the quotes of names outside comparisons. -/
theorem dialects_share_skeleton (x : Expr) :
    (∀ cx : Context, cx.Defers cx →
      cx.render x = (x.skeleton false).write fun name _ => cx.identifier name) ∧
    (∀ cx : Context, cx.Defers Dialect.postgreSql.style.context →
      cx.render x = (x.skeleton false).write fun name compared =>
        if compared then Dialect.postgreSql.style.identifier name else cx.identifier name) ∧
    x.render Dialect.sqlServer.style = x.render Dialect.postgreSql.style ∧
    (x.render Dialect.postgreSql.style =
      (x.skeleton false).write fun name _ => Dialect.postgreSql.style.identifier name) ∧
    (x.render Dialect.mySql.style =
      (x.skeleton false).write fun name compared =>
        if compared then Dialect.postgreSql.style.identifier name
        else Dialect.mySql.style.identifier name) ∧
    ∀ name, Dialect.mySql.style.identifier name = Dialect.postgreSql.style.identifier name ∨
      needsQuotes name = true ∧ Dialect.mySql.style.identifier name = "`" ++ name ++ "`" ∧
        Dialect.postgreSql.style.identifier name = "\"" ++ name ++ "\"" := by
  have hpostgre : Dialect.postgreSql.style.context.Defers Dialect.postgreSql.style.context :=
    Style.context_defers _
  refine ⟨fun cx hcx => ?_, fun cx hcx => ?_, x.render_sqlServer, ?_, ?_, mySql_identifier⟩
  · exact hcx.render_eq_write (fun _ => rfl) x cx false hcx fun _ => rfl
  · exact hpostgre.render_eq_write (fun _ => rfl) x cx false hcx fun _ => rfl
  · have hnames : Dialect.postgreSql.style.names =
        fun name _ => Dialect.postgreSql.style.identifier name := by
      funext name compared
      cases compared <;> rfl
    rw [Expr.render_eq_write, hnames]
  · exact Expr.render_eq_write Dialect.mySql.style x

/-- A dialect with brackets, which compares by itself or as PostgreSQL does. -/
theorem dialects_share_skeleton_brackets :
    let x : Expr := .logical .and
      [.compare .less (.column "a b") (.unary .not (.column "c d")), .unary .isNull (.column "a b")]
    let cx := (Style.uniform (quoteWith "[" "]") .suffix).context
    let cy := (Style.mk (quoteWith "[" "]") (quoteWith "\"" "\"") .suffix).context
    cx.Defers cx ∧ cx.render x = .sql "[a b] < NOT [c d] AND [a b] IS NULL" ∧
      cy.Defers Dialect.postgreSql.style.context ∧
      cy.render x = .sql "\"a b\" < NOT \"c d\" AND [a b] IS NULL" := by
  intro x cx cy
  have hcx : cx.Defers cx := Style.context_defers _
  have hcy : cy.Defers Dialect.postgreSql.style.context := Style.context_defers _
  have hx := dialects_share_skeleton x
  exact ⟨hcx, (hx.1 cx hcx).trans rfl, hcy, (hx.2.1 cy hcy).trans rfl⟩

end FilterSql
