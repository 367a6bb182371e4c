import FilterSql.Proofs.Spelling
import Mathlib.Data.List.Chain

/-!
What is different is written differently. A literal is either a word, which tells its value, or a string
between quotes, whose escaping can be undone although backslashes are not escaped themselves. A name
stands as it is or between fixed texts, and the character for which it is quoted is still in it then, so
a quoted name is never a bare one.
-/

namespace FilterSql

open Condition

section Escaping

/-- A quote of either kind has a backslash before it. -/
def Condition.Guards (c d : Char) : Prop := d = '\'' ∨ d = '"' → c = '\\'

theorem Condition.escaped_cons (c : Char) (cs : List Char) :
    escaped (c :: cs) = (if c = '\'' ∨ c = '"' then ['\\', c] else [c]) ++ escaped cs := rfl

/-- An escaped text begins with no quote, so that a character before it has nothing to guard. -/
theorem Condition.isChain_cons_escaped {c : Char} {cs : List Char}
    (h : (escaped cs).IsChain Guards) : (c :: escaped cs).IsChain Guards :=
  List.isChain_cons.mpr ⟨fun d hd hquote => absurd hquote (head?_escaped cs d hd), h⟩

theorem Condition.isChain_escaped (cs : List Char) : (escaped cs).IsChain Guards := by
  induction cs with
  | nil => exact .nil
  | cons c cs ih =>
    rw [escaped_cons]
    split
    · exact List.isChain_cons_cons.mpr ⟨fun _ => rfl, isChain_cons_escaped ih⟩
    · exact isChain_cons_escaped ih

/-- Escaping gives back what was taken out. Only the backslash of a quote at the front may be new. -/
theorem Condition.escaped_unescaped {c : Char} {cs : List Char} (h : (c :: cs).IsChain Guards) :
    escaped (unescaped (c :: cs)) = (if c = '\'' ∨ c = '"' then ['\\', c] else [c]) ++ cs := by
  induction cs generalizing c with
  | nil => exact escaped_cons c []
  | cons d cs ih =>
    obtain ⟨hguards, hrest⟩ := List.isChain_cons_cons.mp h
    rw [unescaped]
    by_cases hquote : d = '\'' ∨ d = '"'
    · obtain rfl : c = '\\' := hguards hquote
      rw [if_pos hquote, ih hrest, if_pos hquote]
      rfl
    · rw [if_neg hquote, escaped_cons, ih hrest, if_neg hquote]
      rfl

/-- Every quote stands right behind a backslash if the first character is none and neighbours guard
each other. -/
theorem Condition.forall_quote_iff {cs : List Char} :
    (∀ before quote after, cs = before ++ quote :: after → quote = '\'' ∨ quote = '"' →
      before.getLast? = some '\\') ↔
      (∀ d ∈ cs.head?, ¬ (d = '\'' ∨ d = '"')) ∧ cs.IsChain Guards := by
  constructor
  · intro h
    refine ⟨fun d hd hquote => ?_, ?_⟩
    · obtain ⟨after, rfl⟩ : ∃ after, cs = d :: after := List.head?_eq_some_iff.mp hd
      have hnone := h [] d after rfl hquote
      contradiction
    · apply List.isChain_iff_forall_rel_of_append_cons_cons.mpr
      intro c d before after hcs hquote
      have hlast := h (before ++ [c]) d after (by simp [hcs]) hquote
      simpa using hlast
  · rintro ⟨hhead, hchain⟩ before quote after rfl hquote
    rcases List.eq_nil_or_concat before with rfl | ⟨before, c, rfl⟩
    · exact absurd hquote (hhead quote rfl)
    · rw [List.concat_append] at hchain
      have hguards := (List.isChain_append_cons_cons.mp hchain).2.1
      simp [hguards hquote]

/-- Takes out the character before each quote of either kind. -/
def Scalar.unescapeQuotes (t : String) : String := String.ofList (unescaped t.toList)

theorem Scalar.toList_escapeQuotes (s : String) : (escapeQuotes s).toList = escaped s.toList :=
  String.toList_ofList

theorem Scalar.unescapeQuotes_escapeQuotes (s : String) : unescapeQuotes (escapeQuotes s) = s := by
  rw [unescapeQuotes, toList_escapeQuotes, unescaped_escaped, String.ofList_toList]

theorem Scalar.exists_escapeQuotes {t : String} :
    (∃ s, escapeQuotes s = t) ↔
      ∀ before quote after, t.toList = before ++ quote :: after → quote = '\'' ∨ quote = '"' →
        before.getLast? = some '\\' := by
  rw [forall_quote_iff]
  constructor
  · rintro ⟨s, rfl⟩
    rw [toList_escapeQuotes]
    exact ⟨head?_escaped s.toList, isChain_escaped s.toList⟩
  · rintro ⟨hhead, hchain⟩
    refine ⟨unescapeQuotes t, String.toList_inj.mp ?_⟩
    rw [toList_escapeQuotes, unescapeQuotes, String.toList_ofList]
    cases ht : t.toList with
    | nil => rfl
    | cons c cs =>
      rw [ht] at hhead hchain
      rw [escaped_unescaped hchain, if_neg (hhead c rfl)]
      rfl

end Escaping

section Literals

/-- A literal is a word or a string. -/
theorem Scalar.isWordOf_or (value : Scalar) :
    IsWordOf (.literal value) value.sql.toList ∨ ∃ s, value = .str s := by
  cases value with
  | null => exact .inl (.keyword (by decide))
  | bool b =>
    cases b with
    | false => exact .inl (.keyword (by decide))
    | true => exact .inl (.keyword (by decide))
  | num n => exact .inl (.number n)
  | str s => exact .inr ⟨s, rfl⟩

/-- A word has no quotes. -/
theorem Scalar.sql_str_ne {value : Scalar} (h : IsWordOf (.literal value) value.sql.toList)
    (s : String) : (str s).sql ≠ value.sql := by
  intro heq
  have hquote : '\'' ∈ value.sql.toList := by
    rw [← heq]
    simp [sql]
  exact absurd (h.isWord '\'' hquote) (by decide)

theorem Scalar.sql_injective {v w : Scalar} (h : v.sql = w.sql) : v = w := by
  rcases v.isWordOf_or with hv | ⟨s, rfl⟩
  · rcases w.isWordOf_or with hw | ⟨t, rfl⟩
    · have hword := hv.ofWord_eq
      rw [h, hw.ofWord_eq] at hword
      exact (Token.literal.inj hword).symm
    · exact absurd h.symm (sql_str_ne hv t)
  · rcases w.isWordOf_or with hw | ⟨t, rfl⟩
    · exact absurd h (sql_str_ne hw s)
    · have hescaped : escapeQuotes s = escapeQuotes t := by simpa [sql] using h
      rw [← unescapeQuotes_escapeQuotes s, hescaped, unescapeQuotes_escapeQuotes]

@[simp] theorem Scalar.same_self (value : Scalar) : value.same value = true := by
  cases value with
  | num n => cases n <;> simp [same, Number.same, Binary64.same]
  | _ => simp [same]

/-- A literal among the operands of an equality that is written like the main one decides it. -/
theorem EqualityOp.alwaysHolds_of_sql {value other : Scalar} {operands : List Expr}
    (hother : .literal other ∈ operands) (h : other.sql = value.sql) :
    EqualityOp.equal.alwaysHolds (.literal value) operands = true := by
  obtain rfl := Scalar.sql_injective h
  exact List.any_eq_true.mpr ⟨.literal other, hother, by simp [Expr.literal?]⟩

/-- Escaping can be undone, and its results are the texts in which a backslash stands before every quote.
Literals that are written alike are equal, also as values, so a literal that is written like the main
operand of an equality has decided it. -/
theorem literals_written_apart :
    (∀ s, Scalar.unescapeQuotes (Scalar.escapeQuotes s) = s) ∧
    (∀ t, (∃ s, Scalar.escapeQuotes s = t) ↔
      ∀ before quote after, t.toList = before ++ quote :: after → quote = '\'' ∨ quote = '"' →
        before.getLast? = some '\\') ∧
    (∀ v w : Scalar, v.sql = w.sql → v = w ∧ v.same w = true) ∧
    (∀ (cx : Context) value operands text,
      cx.node (.equality .equal (.literal value) operands) = .sql text →
        ∀ other, .literal other ∈ operands → cx.node (.literal other) ≠ cx.node (.literal value)) ∧
    ∀ (style : Style) value operands text,
      Expr.render style (.equality .equal (.literal value) operands) = .sql text →
        ∀ other, .literal other ∈ operands →
          Expr.render style (.literal other) ≠ Expr.render style (.literal value) := by
  have hnode (cx : Context) (value : Scalar) (operands : List Expr) (text : String)
      (h : cx.node (.equality .equal (.literal value) operands) = .sql text) (other : Scalar)
      (hother : .literal other ∈ operands) : cx.node (.literal other) ≠ cx.node (.literal value) := by
    intro hsql
    rw [Context.node, EqualityOp.alwaysHolds_of_sql hother (Rendered.sql.inj hsql)] at h
    contradiction
  refine ⟨Scalar.unescapeQuotes_escapeQuotes, fun t => Scalar.exists_escapeQuotes, ?_, hnode, ?_⟩
  · intro v w h
    obtain rfl := Scalar.sql_injective h
    exact ⟨rfl, v.same_self⟩
  · intro style value operands text h
    have hrender := (Style.context_delegates style).render_eq
    exact hnode style.context value operands text ((hrender _).symm.trans h)

/-- A string that holds a backslash before a quote already, and two numbers of different kinds. -/
theorem literals_written_apart_backslash :
    let plain : Scalar := .str "\\'"
    let undone : Scalar := .str (Scalar.unescapeQuotes "\\\\'")
    let zero : Scalar := .num (.int 0)
    let pointed : Scalar := .num (.float (.zero false))
    let style := Dialect.mySql.style
    Scalar.unescapeQuotes "\\\\'" = "\\'" ∧ ¬ (∃ s, Scalar.escapeQuotes s = "\\\"'") ∧
      plain.sql = undone.sql ∧ plain = undone ∧
      Expr.render style (.equality .equal (.literal zero) [.literal pointed, .column "a b"]) =
        .sql "0 IN (0.0, `a b`)" ∧
      Expr.render style (.literal pointed) ≠ Expr.render style (.literal zero) := by
  intro plain undone zero pointed style
  obtain ⟨hinverse, himage, hinjective, -, hrender⟩ := literals_written_apart
  have hsql : plain.sql = undone.sql := rfl
  have htext : Expr.render style
      (.equality .equal (.literal zero) [.literal pointed, .column "a b"]) =
        .sql "0 IN (0.0, `a b`)" := rfl
  refine ⟨hinverse "\\'", ?_, hsql, (hinjective plain undone hsql).1, htext, ?_⟩
  · intro h
    have hlast := (himage "\\\"'").mp h ['\\', '"'] '\'' [] rfl (.inl rfl)
    contradiction
  · exact hrender style zero _ _ htext pointed List.mem_cons_self

end Literals

section Names

/-- The texts around a name do not take out the character for which it is quoted. -/
theorem needsQuotes_quoteWith {name : String} (h : needsQuotes name = true)
    (opening closing : String) : needsQuotes (quoteWith opening closing name) = true := by
  obtain ⟨c, hc, hbreaks⟩ := List.any_eq_true.mp h
  refine List.any_eq_true.mpr ⟨c, ?_, hbreaks⟩
  rw [quoteWith, String.toList_append, String.toList_append]
  exact List.mem_append_left _ (List.mem_append_right _ hc)

theorem quoteWith_injective (opening closing : String) :
    Function.Injective (quoteWith opening closing) := by
  intro a b h
  exact (String.append_right_inj opening).mp ((String.append_left_inj closing).mp h)

/-- Whether a written name has been quoted can be seen, since only a quoted one needs it. -/
theorem Style.identifier_injective {style : Style} {opening closing : String}
    (hquote : style.quote = quoteWith opening closing) : Function.Injective style.identifier := by
  intro a b h
  unfold identifier at h
  rw [hquote] at h
  split at h
  · next ha =>
    split at h
    · exact quoteWith_injective opening closing h
    · next hb => exact absurd (h ▸ needsQuotes_quoteWith ha opening closing) hb
  · next ha =>
    split at h
    · next hb => exact absurd (h ▸ needsQuotes_quoteWith hb opening closing) ha
    · exact h

/-- Different names are written differently in every dialect, also below a comparison, and in every style
that puts fixed texts around the names it quotes, whatever the names look like. -/
theorem names_written_apart :
    (∀ dialect : Dialect, Function.Injective dialect.style.identifier ∧
      Function.Injective dialect.style.inComparison.identifier) ∧
    ∀ opening closing (comparisonQuote : String → String) (rowLimit : RowLimit),
      Function.Injective
        (Style.identifier ⟨quoteWith opening closing, comparisonQuote, rowLimit⟩) := by
  refine ⟨fun dialect => ?_, fun opening closing comparisonQuote rowLimit => ?_⟩
  · cases dialect with
    | mySql => exact ⟨Style.identifier_injective rfl, Style.identifier_injective rfl⟩
    | postgreSql => exact ⟨Style.identifier_injective rfl, Style.identifier_injective rfl⟩
    | sqlServer => exact ⟨Style.identifier_injective rfl, Style.identifier_injective rfl⟩
  · exact Style.identifier_injective rfl

end Names

end FilterSql
