import FilterSql.Proofs.Condition
import FilterSql.Proofs.Folding

/-!
The text of a condition means what its tree means. A filter tree is built by AND and OR from leaves
that never print a connective. `Spells` relates a text to a truth value, by way of the tokens and the
level at which they are read; every step of rendering keeps it.
-/

namespace FilterSql

open Condition

/-- What is printed as one token: literals, columns, and what is constant. -/
inductive Simple (style : Style) : Expr → Prop where
  | literal (s : Scalar) : Simple style (.literal s)
  | column (name : String) : Simple style (.column name)
  | constant {x : Expr} {b : Bool} : x.render style = .constant b → Simple style x

inductive Atom (style : Style) : Expr → Prop where
  | literal (s : Scalar) : Atom style (.literal s)
  | column (name : String) : Atom style (.column name)
  | nullCheck {op : UnaryOp} {x : Expr} : op ≠ .not → Simple style x → Atom style (.unary op x)
  | compare {op : Comparison} {left right : Expr} :
      Simple style left → Simple style right → Atom style (.compare op left right)
  | equality {op : EqualityOp} {main : Expr} {operands : List Expr} :
      Simple style main → (∀ y ∈ operands, Simple style y) →
      Atom style (.equality op main operands)
  | constant {x : Expr} {b : Bool} : x.render style = .constant b → Atom style x

/-- Any number of negations over an atom. -/
inductive Leaf (style : Style) : Expr → Prop where
  | atom {x : Expr} : Atom style x → Leaf style x
  | not {x : Expr} : Leaf style x → Leaf style (.unary .not x)

inductive FilterTree (style : Style) : Expr → Prop where
  | leaf {x : Expr} : Leaf style x → FilterTree style x
  | logical {op : Connective} {operands : List Expr} :
      (∀ x ∈ operands, FilterTree style x) → FilterTree style (.logical op operands)

/-- A text is spelled by tokens that are read with a truth value on every row. -/
def Condition.Spells (style : Style) (level : Level) (text : String) (t : Valuation → Truth) : Prop :=
  ∃ ts y, spell style ts = text ∧ Reads level ts y ∧ ∀ v, y.truth v = t v

/-- An expression whose text, read at a level, means what it means itself. -/
def Expr.Faithful (style : Style) (level : Level) (x : Expr) : Prop :=
  (x.render style).Means (Spells style level) fun v => x.truth v

/-- The level at which the operands of a connective are joined. -/
def Connective.level : Connective → Level
  | .and => .conjunction
  | .or => .disjunction

theorem Expr.truth_not (v : Valuation) (x : Expr) : truth v (.unary .not x) = (x.truth v).not := by
  rw [truth, eval_not, Value.toTruth_truth]

theorem Expr.truth_logical_pair (v : Valuation) (op : Connective) (x y : Expr) :
    truth v (.logical op [x, y]) = op.truth (x.truth v) (y.truth v) := by
  rw [truth, eval_logical, Value.toTruth_truth]
  simp

namespace Expr

theorem render_not_not (style : Style) (x : Expr) :
    render style (.unary .not (.unary .not x)) = render style x := by
  simp [render, UnaryOp.opposite?]

theorem render_not_nullCheck (style : Style) {op opposite : UnaryOp} (x : Expr)
    (h : op.opposite? = some opposite) :
    render style (.unary .not (.unary op x)) = render style (.unary opposite x) := by
  rw [render_unary style .not]
  simp [UnaryOp.form, h]

theorem render_not_kept (style : Style) {x : Expr} (hx : ∀ inner y, x ≠ .unary inner y) :
    render style (.unary .not x) = .sql ("NOT " ++ (render style x).operand) := by
  rw [render_unary style .not]
  cases x with
  | unary inner y => exact absurd rfl (hx inner y)
  | _ => rfl

theorem render_nullCheck (style : Style) {op : UnaryOp} (hop : op ≠ .not) (x : Expr) :
    render style (.unary op x) = op.rendered x (render style x) := by
  cases op with
  | not => exact absurd rfl hop
  | _ => rfl

/-- The constants of a style are those of any other. -/
theorem render_constant_of_style {style other : Style} {x : Expr} {b : Bool}
    (h : render style x = .constant b) : render other x = .constant b := by
  have heq := style.context_delegates.constant?_eq other.context_delegates x
  change (render style x).constant? = (render other x).constant? at heq
  rw [h] at heq
  exact Rendered.constant?_eq_some.mp heq.symm

theorem truth_of_constant {style : Style} {x : Expr} {b : Bool}
    (h : render style x = .constant b) (v : Valuation) : x.truth v = .ofBool b := by
  rw [truth, style.context_delegates.eval_of_constant v x b h, Value.toTruth_truth]

theorem value_of_constant {style : Style} {x : Expr} {b : Bool}
    (h : render style x = .constant b) (v : Valuation) : x.value v = .bool b := by
  rw [value, style.context_delegates.eval_of_constant v x b h, Value.toScalar_truth,
    Truth.toScalar_ofBool]

end Expr

/-- A simple operand is one token, in a comparison and elsewhere. -/
theorem Simple.token {style : Style} {x : Expr} (hx : Simple style x) (compared : Bool) :
    ∃ (t : Token) (y : Expr), t.operand? = some y ∧ (∀ v, y.value v = x.value v) ∧
      t.text style = (x.render (if compared then style.inComparison else style)).operand := by
  cases hx with
  | literal s => exact ⟨.literal s, .literal s, rfl, fun _ => rfl, by cases compared <;> rfl⟩
  | column name =>
    exact ⟨.column name compared, .column name, rfl, fun _ => rfl, by cases compared <;> rfl⟩
  | @constant x b h =>
    refine ⟨.constant b, .literal (.bool b), rfl, fun v => (Expr.value_of_constant h v).symm, ?_⟩
    rw [Expr.render_constant_of_style h]
    cases b <;> rfl

theorem Condition.Spells.imp {style : Style} {low high : Level} {text : String} {t : Valuation → Truth}
    (h : ∀ ts y, Reads low ts y → Reads high ts y) (ht : Spells style low text t) :
    Spells style high text t := by
  obtain ⟨ts, y, hts, hy, htruth⟩ := ht
  exact ⟨ts, y, hts, h ts y hy, htruth⟩

theorem Expr.Faithful.imp {style : Style} {low high : Level} {x : Expr} (hx : x.Faithful style low)
    (h : ∀ ts y, Reads low ts y → Reads high ts y) : x.Faithful style high :=
  Rendered.Means.imp hx fun _ => Spells.imp h

theorem Simple.tokens {style : Style} {xs : List Expr} (hxs : ∀ x ∈ xs, Simple style x) :
    ∃ (us : List Token) (ys : List Expr), us.mapM Token.operand? = some ys ∧
      (∀ v, ys.map (Expr.value v) = xs.map (Expr.value v)) ∧
      us.map (Token.text style) = xs.map fun x => (x.render style).operand := by
  induction xs with
  | nil => exact ⟨[], [], rfl, fun _ => rfl, rfl⟩
  | cons x xs ih =>
    obtain ⟨u, y, hu, hy, htext⟩ := (hxs x List.mem_cons_self).token false
    obtain ⟨us, ys, hus, hys, htexts⟩ := ih fun z hz => hxs z (List.mem_cons_of_mem x hz)
    refine ⟨u :: us, y :: ys, ?_, fun v => ?_, ?_⟩
    · simp [hu, hus]
    · rw [List.map_cons, List.map_cons, hy, hys]
    · rw [List.map_cons, List.map_cons, htext, htexts]
      rfl

section Spelling

variable (style : Style)

theorem UnaryOp.sql_nullCheck {op : UnaryOp} (hop : op ≠ .not) (text : String) :
    op.sql text = text ++ Token.text style (.unary op) := by
  cases op with
  | not => exact absurd rfl hop
  | _ => rfl

theorem Comparison.sql_eq (op : Comparison) (left right : String) :
    op.sql left right = left ++ Token.text style (.compare op) ++ right := by
  cases op <;> rfl

theorem EqualityOp.sql_single (op : EqualityOp) (main operand : String) :
    op.sql main [operand] = main ++ Token.text style (.equality op) ++ operand := by
  have hblanks : " " ++ op.symbol ++ " " = Token.text style (.equality op) := by cases op <;> rfl
  rw [← hblanks, EqualityOp.sql]
  simp only [String.append_assoc]

/-- A list of one operand is not printed as a list. -/
theorem EqualityOp.sql_list (op : EqualityOp) (main : String) {operands : List String}
    (h : operands.length ≠ 1) :
    op.sql main operands =
      main ++ Token.text style (.member op) ++ "(" ++ ", ".intercalate operands ++ ")" := by
  have hblanks : " " ++ op.listKeyword ++ " (" = Token.text style (.member op) ++ "(" := by
    cases op <;> rfl
  calc
    _ = main ++ (" " ++ op.listKeyword ++ " (") ++ (", ".intercalate operands ++ ")") := by
      rw [EqualityOp.sql.eq_2 op main operands (by rintro y rfl; exact h rfl)]
      simp only [String.append_assoc]
    _ = main ++ (Token.text style (.member op) ++ "(") ++ (", ".intercalate operands ++ ")") := by
      rw [hblanks]
    _ = _ := by simp only [String.append_assoc]

end Spelling

namespace Expr

variable {style : Style}

/-- What is constant means itself at every level, so only texts are left to look at. -/
theorem faithful_of_sql {level : Level} {x : Expr}
    (h : ∀ text, x.render style = .sql text →
      ∃ ts y, spell style ts = text ∧ Reads level ts y ∧ ∀ v, y.truth v = x.truth v) :
    x.Faithful style level := by
  unfold Faithful
  cases hr : x.render style with
  | constant b => exact truth_of_constant hr
  | sql text => exact h text hr

theorem faithful_of_constant {level : Level} {x : Expr} {b : Bool}
    (h : x.render style = .constant b) : x.Faithful style level :=
  faithful_of_sql fun text ht => by rw [h] at ht; contradiction

theorem faithful_nullCheck {op : UnaryOp} {x : Expr} (hop : op ≠ .not) (hx : Simple style x) :
    Faithful style .predicate (.unary op x) := by
  refine faithful_of_sql fun text h => ?_
  obtain ⟨t, y, ht, hy, htext⟩ := hx.token false
  refine ⟨[t, .unary op], .unary op y, ?_, .nullCheck ht hop, fun v => ?_⟩
  · rw [render_nullCheck style hop, UnaryOp.rendered] at h
    split at h
    · contradiction
    · rw [Rendered.sql.injEq, op.sql_nullCheck style hop] at h
      simpa [htext] using h
  · cases op with
    | not => exact absurd rfl hop
    | _ => simp only [truth, eval, ← value.eq_def, hy]

theorem faithful_compare {op : Comparison} {left right : Expr} (hleft : Simple style left)
    (hright : Simple style right) : Faithful style .predicate (.compare op left right) := by
  refine faithful_of_sql fun text h => ?_
  obtain ⟨t, x, ht, hx, htext⟩ := hleft.token true
  obtain ⟨u, y, hu, hy, hutext⟩ := hright.token true
  refine ⟨[t, .compare op, u], .compare op x y, ?_, .compare ht hu, fun v => ?_⟩
  · rw [render, Rendered.sql.injEq, op.sql_eq style] at h
    simpa [htext, hutext, String.append_assoc] using h
  · rw [truth, truth, eval_compare, eval_compare, hx, hy]

theorem faithful_equality {op : EqualityOp} {main : Expr} {operands : List Expr}
    (hmain : Simple style main) (hoperands : ∀ y ∈ operands, Simple style y) :
    Faithful style .predicate (.equality op main operands) := by
  refine faithful_of_sql fun text h => ?_
  rw [render, renderAll_eq_map, List.map_map, Function.comp_def] at h
  split at h
  · contradiction
  rw [Rendered.sql.injEq] at h
  obtain ⟨t, x, ht, hx, htext⟩ := hmain.token false
  -- a single operand is printed with a symbol, any other number of them as a list
  by_cases hone : operands.length = 1
  · obtain ⟨z, rfl⟩ := List.length_eq_one_iff.mp hone
    obtain ⟨u, y, hu, hy, hutext⟩ := (hoperands z List.mem_cons_self).token false
    refine ⟨[t, .equality op, u], .equality op x [y], ?_, .equality ht hu, fun v => ?_⟩
    · rw [List.map_singleton, op.sql_single style] at h
      simpa [htext, hutext, String.append_assoc] using h
    · rw [truth, truth, eval_equality, eval_equality, hx, List.map_singleton, List.map_singleton,
        hy]
  · obtain ⟨us, ys, hus, hys, htexts⟩ := Simple.tokens hoperands
    refine ⟨t :: .member op :: .lparen :: (us.intersperse .comma ++ [.rparen]), .equality op x ys,
      ?_, .member ht hus, fun v => ?_⟩
    · rw [op.sql_list style _ (by simpa using hone)] at h
      simp only [spell_cons, spell_append, spell_nil, spell_intersperse_comma, htext, htexts]
      simpa [String.append_assoc] using h
    · rw [truth, truth, eval_equality, eval_equality, hx, hys]

/-- A negation over what is not unary is printed in front of it. -/
theorem faithful_not_kept {x : Expr} (hx : ∀ inner y, x ≠ .unary inner y)
    (h : x.Faithful style .negation) : Faithful style .negation (.unary .not x) := by
  refine faithful_of_sql fun text hnot => ?_
  rw [render_not_kept style hx, Rendered.sql.injEq] at hnot
  unfold Faithful at h
  cases hr : x.render style with
  | constant b =>
    -- NOT does not fold, so the constant is spelled out behind it
    refine ⟨[.unary .not, .constant b], .unary .not (.literal (.bool b)), ?_,
      .not (.predicate (.operand rfl)), fun v => ?_⟩
    · rw [← hnot, hr]
      cases b <;> rfl
    · rw [truth_not, truth_not, truth_of_constant hr]
      rfl
  | sql inner =>
    rw [hr] at h hnot
    obtain ⟨ts, y, hts, hy, htruth⟩ := h
    refine ⟨.unary .not :: ts, .unary .not y, ?_, .not hy, fun v => ?_⟩
    · rw [spell_cons, hts, ← hnot]
      rfl
    · rw [truth_not, truth_not, htruth]

/-- A negated null check is its opposite. -/
theorem faithful_not_nullCheck {op : UnaryOp} {x : Expr} (hop : op ≠ .not) (hx : Simple style x) :
    Faithful style .negation (.unary .not (.unary op x)) := by
  obtain ⟨opposite, h⟩ : ∃ o, op.opposite? = some o :=
    Option.ne_none_iff_exists'.mp fun h => hop (UnaryOp.opposite?_eq_none.mp h)
  have hopposite := (UnaryOp.ne_not_of_opposite? h).2
  have hflipped := (faithful_nullCheck hopposite hx).imp fun _ _ => Reads.predicate
  unfold Faithful at hflipped ⊢
  simpa only [render_not_nullCheck style x h, truth, eval_not_nullCheck _ x h] using hflipped

theorem faithful_not_not {x : Expr} {level : Level} (h : x.Faithful style level) :
    Faithful style level (.unary .not (.unary .not x)) := by
  unfold Faithful at h ⊢
  simpa only [render_not_not, truth_not, Truth.not_not] using h

/-- Negating a constant gives a constant, or NOT before one. -/
theorem faithful_not_of_constant (x : Expr) :
    ∀ b, x.render style = .constant b → Faithful style .negation (.unary .not x) := by
  induction x using operand_induction with
  | literal s => simp [render]
  | column name => simp [render]
  | compare op left right => simp [render]
  | unary op x _ ih =>
    intro b h
    by_cases hop : op = .not
    · subst hop
      apply faithful_not_not
      cases x with
      | unary inner y =>
        cases hinner : inner.opposite? with
        | none =>
          obtain rfl := UnaryOp.opposite?_eq_none.mp hinner
          rw [render_not_not] at h
          exact ih _ y rfl b h
        | some opposite =>
          -- a null check is constant over a literal, whichever of the two it is
          obtain ⟨hne, hopposite⟩ := UnaryOp.ne_not_of_opposite? hinner
          rw [render_not_nullCheck style y hinner, render_nullCheck style hopposite] at h
          obtain ⟨s, rfl, _⟩ := UnaryOp.rendered_eq_constant h
          exact (faithful_nullCheck hne (.literal s)).imp fun _ _ => .predicate
      | _ => simp [render_not_kept] at h
    · rw [render_nullCheck style hop] at h
      obtain ⟨s, rfl, _⟩ := UnaryOp.rendered_eq_constant h
      exact faithful_not_nullCheck hop (.literal s)
  | equality op main operands =>
    exact fun b h => faithful_not_kept (by simp) (faithful_of_constant h)
  | logical op operands =>
    exact fun b h => faithful_not_kept (by simp) (faithful_of_constant h)

end Expr

theorem Atom.faithful {style : Style} {x : Expr} (hx : Atom style x) :
    x.Faithful style .predicate := by
  cases hx with
  | literal s => exact ⟨[.literal s], .literal s, by simp [Token.text], .operand rfl, fun _ => rfl⟩
  | column name =>
    exact ⟨[.column name false], .column name, by simp [Token.text], .operand rfl, fun _ => rfl⟩
  | nullCheck hop hx => exact Expr.faithful_nullCheck hop hx
  | compare hleft hright => exact Expr.faithful_compare hleft hright
  | equality hmain hoperands => exact Expr.faithful_equality hmain hoperands
  | constant h => exact Expr.faithful_of_constant h

theorem Atom.faithful_not {style : Style} {x : Expr} (hx : Atom style x) :
    Expr.Faithful style .negation (.unary .not x) := by
  have h : x.Faithful style .negation := hx.faithful.imp fun _ _ => .predicate
  cases hx with
  | nullCheck hop hx => exact Expr.faithful_not_nullCheck hop hx
  | constant hb => exact Expr.faithful_not_of_constant x _ hb
  | _ => exact Expr.faithful_not_kept (by simp) h

/-- Two negations more change neither the text nor the meaning, so a leaf and its negation go
together. -/
theorem Leaf.faithful {style : Style} {x : Expr} (hx : Leaf style x) :
    x.Faithful style .negation ∧ Expr.Faithful style .negation (.unary .not x) := by
  induction hx with
  | atom hx => exact ⟨hx.faithful.imp fun _ _ => .predicate, hx.faithful_not⟩
  | not _ ih => exact ⟨ih.2, Expr.faithful_not_not ih.1⟩

/-- The level of the operand that a connective takes last. -/
def Connective.operandLevel : Connective → Level
  | .and => .negation
  | .or => .conjunction

theorem Condition.Reads.connective {op : Connective} {ts us : List Token} {x y : Expr}
    (hx : Reads op.level ts x) (hy : Reads op.operandLevel us y) :
    Reads op.level (ts ++ .connective op :: us) (.logical op [x, y]) := by
  cases op with
  | and => exact .and hx hy
  | or => exact .or hx hy

/-- At the level of a connective there is one operand, or a connective with its last operand. -/
@[elab_as_elim]
theorem Condition.Reads.connective_induction {op : Connective} {motive : List Token → Expr → Prop}
    (operand : ∀ ts x, Reads op.operandLevel ts x → motive ts x)
    (connective : ∀ ts us x y, motive ts x → Reads op.operandLevel us y →
      motive (ts ++ .connective op :: us) (.logical op [x, y]))
    {ts : List Token} {x : Expr} (h : Reads op.level ts x) : motive ts x := by
  generalize hl : op.level = level at h
  induction h with
  | negation h =>
    cases op with
    | and => exact operand _ _ h
    | or => cases hl
  | conjunction h =>
    cases op with
    | and => cases hl
    | or => exact operand _ _ h
  | and _ hy ih _ =>
    cases op with
    | and => exact connective _ _ _ _ (ih hl) hy
    | or => cases hl
  | or _ hy ih _ =>
    cases op with
    | and => cases hl
    | or => exact connective _ _ _ _ (ih hl) hy
  | _ => cases op <;> cases hl

/-- Two joined sequences are read with the truth value of the two joined conditions. The grammar
groups to the left, so the right one is taken apart. -/
theorem reads_join {op : Connective} {ts us : List Token} {x y : Expr}
    (hx : Reads op.level ts x) (hy : Reads op.level us y) :
    ∃ z, Reads op.level (ts ++ .connective op :: us) z ∧
      ∀ v, z.truth v = op.truth (x.truth v) (y.truth v) := by
  refine Condition.Reads.connective_induction ?operand ?connective hy
  case operand =>
    intro us y hy
    exact ⟨.logical op [x, y], hx.connective hy, fun v => Expr.truth_logical_pair v op x y⟩
  case connective =>
    intro us ws y w ih hw
    obtain ⟨z, hz, htruth⟩ := ih
    refine ⟨.logical op [z, w], ?_, fun v => ?_⟩
    · rw [← List.cons_append, ← List.append_assoc]
      exact hz.connective hw
    · rw [Expr.truth_logical_pair, Expr.truth_logical_pair, htruth, Connective.truth_assoc]

namespace Condition.Spells

variable {style : Style} {text other : String} {s t : Valuation → Truth}

theorem connected {op : Connective} (hs : Spells style op.level text s)
    (ht : Spells style op.level other t) :
    Spells style op.level (Phrase.connected op text other) fun v => op.truth (s v) (t v) := by
  obtain ⟨ts, x, rfl, hx, hxtruth⟩ := hs
  obtain ⟨us, y, rfl, hy, hytruth⟩ := ht
  obtain ⟨z, hz, hztruth⟩ := reads_join hx hy
  refine ⟨ts ++ .connective op :: us, z, ?_, hz, fun v => ?_⟩
  · rw [spell_append, spell_cons]
    cases op <;> simp [Token.text, Phrase.connected, Connective.separator, String.append_assoc]
  · rw [hztruth, hxtruth, hytruth]

theorem enclosed (h : Spells style .disjunction text t) :
    Spells style .conjunction (Phrase.enclosed text) t := by
  obtain ⟨ts, y, rfl, hy, htruth⟩ := h
  refine ⟨.lparen :: (ts ++ [.rparen]), y, ?_, .negation (.predicate (.parens hy)), htruth⟩
  simp [Phrase.enclosed, String.append_assoc]

end Condition.Spells

/-- The level at which a tree is read: only an OR at its root prints one outside parentheses. -/
def Expr.level (x : Expr) : Level := if x.isLogical .or then .disjunction else .conjunction

theorem Expr.Faithful.of_negation {style : Style} {x : Expr} (h : x.Faithful style .negation) :
    x.Faithful style x.level := by
  unfold Expr.level
  split
  · exact h.imp fun _ _ hy => .conjunction (.negation hy)
  · exact h.imp fun _ _ => .negation

theorem Expr.Faithful.placed {style : Style} {op : Connective} {x : Expr}
    (h : x.Faithful style x.level) :
    (op.placed x (x.render style)).Means (Spells style op.level) fun v => x.truth v := by
  unfold Expr.level at h
  unfold Connective.placed
  -- parentheses are needed for an OR below an AND, and for nothing else
  by_cases hor : x.isLogical .or = true
  · rw [if_pos hor] at h
    cases op with
    | and => simpa [hor, Connective.level] using Rendered.Means.parenthesized h fun _ => Spells.enclosed
    | or => simpa [hor, Connective.level, Expr.Faithful] using h
  · rw [if_neg hor] at h
    cases op with
    | and => simpa [hor, Connective.level, Expr.Faithful] using h
    | or => simpa [hor, Connective.level, Expr.Faithful] using h.imp fun _ _ => .conjunction

theorem FilterTree.faithful {style : Style} {x : Expr} (hx : FilterTree style x) :
    x.Faithful style x.level := by
  induction hx with
  | leaf hx => exact hx.faithful.1.of_negation
  | @logical op operands _ ih =>
    have hplaced (x : Expr) (hx : x ∈ operands) :
        (op.placed x (x.render style)).Means (Spells style op.level) fun v => x.truth v :=
      (ih x hx).placed
    have h := Rendered.Means.joinAll op (fun _ _ _ _ => Spells.connected) hplaced
    unfold Expr.Faithful
    simp only [Expr.render_logical, Expr.truth, Expr.eval_logical, Value.toTruth_truth]
    cases op <;> exact h

/-- In every style the text of a filter tree is a sequence of tokens with exactly one reading, and
this reading has the truth value of the tree on every row. -/
theorem filterTree_text_meaning (style : Style) (x : Expr) (hx : FilterTree style x) (text : String)
    (h : x.render style = .sql text) :
    ∃ ts y, spell style ts = text ∧ read? ts = some y ∧
      (∀ z, Reads .disjunction ts z ↔ z = y) ∧ ∀ v, y.truth v = x.truth v := by
  have hmeans : x.Faithful style .disjunction := by
    refine hx.faithful.imp fun ts y hy => ?_
    unfold Expr.level at hy
    split at hy
    · exact hy
    · exact .conjunction hy
  rw [Expr.Faithful, h] at hmeans
  obtain ⟨ts, y, hts, hy, htruth⟩ := hmeans
  exact ⟨ts, y, hts, read?_of_reads hy, fun z => ⟨fun hz => reads_unique hz hy, fun hz => hz ▸ hy⟩,
    htruth⟩

/-- An OR in an AND, cancelled negations, an operand that drops out and a constant in a list. -/
theorem filterTree_text_meaning_nested :
    let x : Expr := .logical .and
      [.logical .or [.compare .less (.column "a b") (.literal (.str "x")),
          .unary .not (.unary .not (.unary .not (.column "c")))],
        .unary .not (.unary .isNull (.column "d")),
        .logical .or [.unary .isNull (.literal .null), .column "e"],
        .equality .notEqual (.column "f") [.unary .isNull (.literal (.bool true)), .column "g h"]]
    let text := "(\"a b\" < 'x' OR NOT c) AND d IS NOT NULL AND f NOT IN (FALSE, `g h`)"
    FilterTree Dialect.mySql.style x ∧ x.render Dialect.mySql.style = .sql text ∧
      ∃ ts y, spell Dialect.mySql.style ts = text ∧ read? ts = some y ∧
        (∀ z, Reads .disjunction ts z ↔ z = y) ∧ ∀ v, y.truth v = x.truth v := by
  intro x text
  have hx : FilterTree Dialect.mySql.style x := by
    refine .logical ?_
    simp only [List.forall_mem_cons, List.not_mem_nil, false_implies, implies_true, and_true]
    refine ⟨.logical ?_, .leaf (.not (.atom (.nullCheck (by decide) (.column "d")))),
      .leaf (.atom (.constant rfl)), .leaf (.atom (.equality (.column "f") ?_))⟩
    · simp only [List.forall_mem_cons, List.not_mem_nil, false_implies, implies_true, and_true]
      exact ⟨.leaf (.atom (.compare (.column "a b") (.literal _))),
        .leaf (.not (.not (.not (.atom (.column "c")))))⟩
    · simp only [List.forall_mem_cons, List.not_mem_nil, false_implies, implies_true, and_true]
      exact ⟨.constant rfl, .column "g h"⟩
  exact ⟨hx, rfl, filterTree_text_meaning Dialect.mySql.style x hx text rfl⟩

end FilterSql
