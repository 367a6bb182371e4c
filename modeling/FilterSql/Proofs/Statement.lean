import FilterSql.Proofs.Encoding
import FilterSql.Proofs.NumberText
import FilterSql.Proofs.Skeleton
import FilterSql.Sql.Statement

/-!
Clauses and statements. A decoded condition that prints a text prints one that begins and ends with a
character that is not blank, so an empty text always stands for a condition that always holds. A
statement is made of three parts, and dialects differ in the quotes of its names and in the place of
its limit.
-/

namespace FilterSql

open Condition

namespace Text

/-- A text that is not empty and has no blank at its ends. -/
structure Trimmed (text : String) : Prop where
  ne_empty : text ≠ ""
  first : ∀ c ∈ text.toList.head?, isBlank c = false
  last : ∀ c ∈ text.toList.getLast?, isBlank c = false

instance (text : String) : Decidable (Trimmed text) :=
  decidable_of_iff
    (text ≠ "" ∧ text.toList.head?.all (!isBlank ·) = true ∧
      text.toList.getLast?.all (!isBlank ·) = true)
    ⟨fun h => ⟨h.1, by simpa [Option.all_eq_true] using h.2.1,
        by simpa [Option.all_eq_true] using h.2.2⟩,
      fun h => ⟨h.ne_empty, by simpa [Option.all_eq_true] using h.first,
        by simpa [Option.all_eq_true] using h.last⟩⟩

namespace Trimmed

/-- What stands between two such texts does not matter. -/
theorem between {a b : String} (ha : Trimmed a) (hb : Trimmed b) (middle : String) :
    Trimmed (a ++ middle ++ b) := by
  have hane : a.toList ≠ [] := by simpa using ha.ne_empty
  have hbne : b.toList ≠ [] := by simpa using hb.ne_empty
  refine ⟨?_, ?_, ?_⟩
  · simp [ha.ne_empty]
  · rw [String.toList_append, String.toList_append, List.append_assoc,
      List.head?_append_of_ne_nil _ hane]
    exact ha.first
  · rw [String.toList_append, List.getLast?_append_of_ne_nil _ hbne]
    exact hb.last

theorem of_not_isBlank {text : String} (hne : text ≠ "")
    (h : ∀ c ∈ text.toList, isBlank c = false) : Trimmed text :=
  ⟨hne, fun c hc => h c (List.mem_of_mem_head? hc), fun c hc => h c (List.mem_of_mem_getLast? hc)⟩

end Trimmed

end Text

theorem Scalar.trimmed_sql (value : Scalar) : Text.Trimmed value.sql := by
  have hquote : Text.Trimmed "'" := by decide
  cases value with
  | null => decide
  | bool b => cases b <;> decide
  | num n =>
    apply Text.Trimmed.of_not_isBlank
    · obtain ⟨c, cs, hn, -⟩ := n.text_eq_cons
      intro hempty
      rw [Scalar.sql] at hempty
      simp [hempty] at hn
    · exact fun c hc => Text.isBlank_of_isBare (n.isBare_text c hc)
  | str s => exact hquote.between hquote _

/-- Every text is one token, or has a word or a parenthesis or another such text at either end. -/
theorem Expr.trimmed_tokens {columns : Columns} {names : String → Bool → String}
    (hnames : ∀ name compared, name ≠ "" → Text.Trimmed (names name compared)) (x : Expr)
    (hx : x.WellFormed columns) (compared : Bool) :
    Text.Trimmed (Skeleton.text names (x.skeleton compared).operand) := by
  have hbetween (t : Token) (ts us : List Token) (hts : Text.Trimmed (Skeleton.text names ts))
      (hus : Text.Trimmed (Skeleton.text names us)) :
      Text.Trimmed (Skeleton.text names (ts ++ t :: us)) := by
    have h := hts.between hus (t.written names)
    rwa [String.append_assoc, ← Skeleton.text_cons, ← Skeleton.text_append] at h
  have hclose : Text.Trimmed (Skeleton.text names [.rparen]) := show Text.Trimmed ")" by decide
  apply tokens_induction (motive := fun ts => Text.Trimmed (Skeleton.text names ts))
    ?constant ?literal ?column ?not ?check ?compare ?equality ?member ?connective ?parens x hx
  case constant =>
    intro b
    cases b with
    | false => exact show Text.Trimmed "FALSE" by decide
    | true => exact show Text.Trimmed "TRUE" by decide
  case literal =>
    intro value
    simpa [Token.written, Token.text] using value.trimmed_sql
  case column =>
    intro name compared hname
    simpa [Token.written] using hnames name compared (wellFormed_column.mp hname).1
  case not =>
    intro ts hts
    have hnot : Text.Trimmed "NOT" := by decide
    simpa [Token.written, Token.text] using hnot.between hts " "
  case check =>
    intro op ts hop hts
    have hnull : Text.Trimmed "NULL" := by decide
    cases op with
    | not => exact absurd rfl hop
    | isNull =>
      simpa [Token.written, Token.text, String.append_assoc] using hts.between hnull " IS "
    | isNotNull =>
      simpa [Token.written, Token.text, String.append_assoc] using hts.between hnull " IS NOT "
  case compare => exact fun op => hbetween (.compare op)
  case equality => exact fun op => hbetween (.equality op)
  case connective => exact fun op => hbetween (.connective op)
  case member =>
    -- the items stand between the left operand and the closing parenthesis
    intro op ts uss hts _
    have h := hts.between hclose
      (Skeleton.text names (.member op :: .lparen :: [.comma].intercalate uss))
    rwa [String.append_assoc, ← Skeleton.text_append, ← Skeleton.text_append] at h
  case parens =>
    intro ts _
    have hopen : Text.Trimmed (Skeleton.text names [.lparen]) := show Text.Trimmed "(" by decide
    have h := hopen.between hclose (Skeleton.text names ts)
    rwa [String.append_assoc, ← Skeleton.text_append, ← Skeleton.text_append] at h

section Clauses

theorem Style.trimmed_identifier {style : Style} {name : String}
    (hquote : Text.Trimmed (style.quote name)) (hname : name ≠ "") :
    Text.Trimmed (style.identifier name) := by
  unfold Style.identifier
  split
  · exact hquote
  · next hplain =>
    apply Text.Trimmed.of_not_isBlank hname
    intro c hc
    have hbreak : breaksName c = false := by
      simpa using fun h => hplain (List.any_eq_true.mpr ⟨c, hc, h⟩)
    simp only [breaksName, Bool.or_eq_false_iff] at hbreak
    exact hbreak.1.1.1.1.1

theorem Dialect.trimmed_names (dialect : Dialect) (name : String) (compared : Bool)
    (hname : name ≠ "") : Text.Trimmed (dialect.style.names name compared) := by
  have hback : Text.Trimmed "`" := by decide
  have hdouble : Text.Trimmed "\"" := by decide
  have hquote : Text.Trimmed (dialect.style.quote name) := by
    cases dialect with
    | mySql => exact hback.between hback name
    | postgreSql => exact hdouble.between hdouble name
    | sqlServer => exact hdouble.between hdouble name
  have hcomparison : Text.Trimmed (dialect.style.comparisonQuote name) := by
    cases dialect <;> exact hdouble.between hdouble name
  cases compared with
  | false => exact Style.trimmed_identifier hquote hname
  | true =>
    change Text.Trimmed (dialect.style.inComparison.identifier name)
    exact Style.trimmed_identifier hcomparison hname

/-- A decoded condition has no blank at the ends of its text. -/
theorem Expr.trimmed_of_decode {columns : Columns} {limit : Nat} {node : Json} {x : Expr}
    (h : decode columns limit node = .ok x) (dialect : Dialect) {text : String}
    (htext : x.render dialect.style = .sql text) : Text.Trimmed text := by
  have hwf : x.WellFormed columns := ((decodeAt_exact x 1 node).mp h).2.1
  have htrimmed := trimmed_tokens dialect.trimmed_names x hwf false
  rw [render_eq_write] at htext
  cases hs : x.skeleton false with
  | constant b =>
    rw [hs] at htext
    contradiction
  | sql ts =>
    rw [hs] at htext htrimmed
    exact Rendered.sql.inj htext ▸ htrimmed

theorem Expr.whereClause_eq_empty {style : Style} {x : Expr} :
    x.whereClause style = "" ↔ x.render style = .constant true := by
  unfold whereClause
  split
  · next h => simp [h]
  · next h => simpa using h

theorem Expr.whereClause_of_ne {style : Style} {x : Expr} (h : x.render style ≠ .constant true) :
    x.whereClause style = " WHERE " ++ (x.render style).condition := by
  unfold whereClause
  split
  · next htrue => exact absurd htrue h
  · rfl

/-- A decoded condition is printed as an empty text exactly if it always holds, by itself and in its
clause, and the clause is the printed text behind its keyword. -/
theorem where_clause_of_printed (columns : Columns) (limit : Nat) (node : Json) (x : Expr)
    (h : Expr.decode columns limit node = .ok x) (dialect : Dialect) :
    (∀ text, x.render dialect.style = .sql text →
      text ≠ "" ∧ (∀ c ∈ text.toList.head?, Text.isBlank c = false) ∧
        ∀ c ∈ text.toList.getLast?, Text.isBlank c = false) ∧
    (x.sql dialect = "" ↔ x.render dialect.style = .constant true) ∧
    (x.whereClause dialect.style = "" ↔ x.render dialect.style = .constant true) ∧
    (x.render dialect.style ≠ .constant true →
      x.whereClause dialect.style = " WHERE " ++ x.sql dialect) := by
  refine ⟨fun text htext => ?_, ?_, Expr.whereClause_eq_empty, Expr.whereClause_of_ne⟩
  · have htrimmed := Expr.trimmed_of_decode h dialect htext
    exact ⟨htrimmed.ne_empty, htrimmed.first, htrimmed.last⟩
  · rw [Expr.sql]
    cases hr : x.render dialect.style with
    | constant b => cases b <;> simp [Rendered.condition, Rendered.operand, Phrase.constant]
    | sql text =>
      have hne := (Expr.trimmed_of_decode h dialect hr).ne_empty
      simpa [Rendered.condition, Rendered.operand] using hne

/-- A name of two blanks alone, quoted in two ways, behind an operand that drops out. -/
theorem where_clause_of_printed_blank_name :
    let columns := Columns.ofList [(7, "  ")]
    let column : Json := .tagged columnTag [.scalar (.num (.int 7))]
    let node : Json := .tagged "and"
      [.tagged "is-empty" [.scalar .null], .tagged "<" [.scalar (.num (.int (-3))), column], column]
    let x : Expr := .logical .and [.unary .isNull (.literal .null),
      .compare .less (.literal (.num (.int (-3)))) (.column "  "), .column "  "]
    Expr.decode columns 3 node = .ok x ∧ x.sql .mySql = "-3 < \"  \" AND `  `" ∧
      (x.sql .mySql = "" ↔ x.render Dialect.mySql.style = .constant true) ∧
      x.whereClause Dialect.mySql.style = " WHERE -3 < \"  \" AND `  `" := by
  intro columns column node x
  have hdecode : Expr.decode columns 3 node = .ok x := by rfl
  have hprinted : x.sql .mySql = "-3 < \"  \" AND `  `" := by rfl
  have h := where_clause_of_printed columns 3 node x hdecode .mySql
  refine ⟨hdecode, hprinted, h.2.1, ?_⟩
  rw [h.2.2.2 (by decide), hprinted]
  rfl

end Clauses

section Statements

/-- What a statement is made of beside its keywords: the table, the condition with its keyword, and the
limit. -/
structure StatementParts where
  source : String
  condition : String
  limit : Option String

namespace StatementParts

/-- The limit at the end. -/
def limitLast (p : StatementParts) : String :=
  "SELECT" ++ p.source ++ p.condition ++ (p.limit.map (" LIMIT " ++ ·)).getD "" ++ ";"

/-- The limit after the verb. -/
def limitFirst (p : StatementParts) : String :=
  "SELECT" ++ (p.limit.map (" TOP " ++ ·)).getD "" ++ p.source ++ p.condition ++ ";"

end StatementParts

namespace Query

def parts (style : Style) (table : String) (query : Query) : StatementParts where
  source := " * FROM " ++ style.identifier table
  condition := (query.condition.map (Expr.whereClause style)).getD ""
  limit := query.limit.map fun x => (x.render style).operand

theorem limitAt_self {style : Style} {place : RowLimit} (h : style.rowLimit = place)
    (limit : Option Expr) : limitAt place style limit = (limit.map (Expr.limitClause style)).getD "" :=
  if_pos h

theorem limitAt_other {style : Style} {place : RowLimit} (h : style.rowLimit ≠ place)
    (limit : Option Expr) : limitAt place style limit = "" :=
  if_neg h

theorem statement_of_suffix {style : Style} (h : style.rowLimit = .suffix) (table : String)
    (query : Query) : query.statement style table = (query.parts style table).limitLast := by
  have hclause : (query.limit.map (Expr.limitClause style)).getD "" =
      ((query.parts style table).limit.map (" LIMIT " ++ ·)).getD "" := by
    cases hlimit : query.limit with
    | none => simp [parts, hlimit]
    | some x => simp [parts, hlimit, Expr.limitClause, h]
  rw [statement, limitAt_other (by rw [h]; decide), limitAt_self h, hclause]
  simp only [StatementParts.limitLast, parts, String.append_empty, String.append_assoc]

theorem statement_of_top {style : Style} (h : style.rowLimit = .top) (table : String)
    (query : Query) : query.statement style table = (query.parts style table).limitFirst := by
  have hclause : (query.limit.map (Expr.limitClause style)).getD "" =
      ((query.parts style table).limit.map (" TOP " ++ ·)).getD "" := by
    cases hlimit : query.limit with
    | none => simp [parts, hlimit]
    | some x => simp [parts, hlimit, Expr.limitClause, h]
  rw [statement, limitAt_self h, hclause, limitAt_other (by rw [h]; decide)]
  simp only [StatementParts.limitFirst, parts, String.append_empty, String.append_assoc]

/-- A condition leaves no text behind exactly if there is none or if it always holds. -/
theorem parts_condition_eq_empty (style other : Style) (table : String) (query : Query) :
    (query.parts style table).condition = "" ↔
      ∀ x ∈ query.condition, x.render other = .constant true := by
  cases hcondition : query.condition with
  | none => simp [parts, hcondition]
  | some x =>
    have hclause : (query.parts style table).condition = x.whereClause style := by
      simp [parts, hcondition]
    rw [hclause, Expr.whereClause_eq_empty]
    constructor
    · intro h y hy
      exact Option.mem_some.mp hy ▸ Expr.render_constant_of_style h
    · intro h
      exact Expr.render_constant_of_style (h x rfl)

theorem parts_sqlServer (table : String) (query : Query) :
    query.parts Dialect.sqlServer.style table = query.parts Dialect.postgreSql.style table := by
  have hrender : Expr.render Dialect.sqlServer.style = Expr.render Dialect.postgreSql.style :=
    funext Expr.render_sqlServer
  have hclause : Expr.whereClause Dialect.sqlServer.style =
      Expr.whereClause Dialect.postgreSql.style := by
    funext x
    rw [Expr.whereClause, Expr.whereClause, hrender]
  rw [parts, parts, hrender, hclause]
  rfl

theorem exists_literal_of_decodeLimit {columns : Columns} {maxDepth : Nat} {node : Option Json}
    {limit : Option Expr} (h : decodeLimit columns maxDepth node = .ok limit) :
    ∀ x ∈ limit, ∃ s, x = .literal s := by
  cases node with
  | none =>
    obtain rfl : none = limit := Except.ok.inj h
    simp
  | some node =>
    rw [decodeLimit] at h
    cases hnode : Expr.decode columns maxDepth node with
    | error e =>
      rw [hnode] at h
      contradiction
    | ok x =>
      simp only [hnode] at h
      split at h
      · next hliteral =>
        obtain rfl : some x = limit := Except.ok.inj h
        obtain ⟨s, hs⟩ := Option.isSome_iff_exists.mp hliteral
        intro y hy
        exact ⟨s, Option.mem_some.mp hy ▸ Expr.eq_literal_of_literal? hs⟩
      · contradiction

/-- A decoded limit is a literal. -/
theorem exists_literal_of_decode {columns : Columns} {maxDepth : Nat} {value : Json} {query : Query}
    (h : decode columns maxDepth value = .ok query) :
    ∀ x ∈ query.limit, ∃ s, x = .literal s := by
  cases value with
  | scalar s => contradiction
  | arr items => contradiction
  | obj members =>
    rw [decode] at h
    cases hcondition : decodeCondition columns maxDepth (Json.member? "where" members) with
    | error e =>
      rw [hcondition] at h
      contradiction
    | ok condition =>
      cases hlimit : decodeLimit columns maxDepth (Json.member? "limit" members) with
      | error e =>
        rw [hcondition, hlimit] at h
        contradiction
      | ok limit =>
        rw [hcondition, hlimit] at h
        obtain rfl : ⟨condition, limit⟩ = query := Except.ok.inj h
        exact exists_literal_of_decodeLimit hlimit

end Query

/-- Statements differ between dialects in the quotes of names and in the place of the limit. PostgreSQL and
SQL Server put the same three parts together. MySQL has its own, which leave out a condition where the
others do, and whose limit is that of the others if the query was decoded. -/
theorem statement_layouts (query : Query) (table : String) :
    let p := query.parts Dialect.postgreSql.style table
    let q := query.parts Dialect.mySql.style table
    (query.sql .postgreSql table = p.limitLast ∧ query.sql .sqlServer table = p.limitFirst ∧
      query.sql .mySql table = q.limitLast) ∧
    (p.limit.isSome = query.limit.isSome ∧ q.limit.isSome = query.limit.isSome) ∧
    (∀ dialect : Dialect,
      (p.condition = "" ↔ ∀ x ∈ query.condition, x.render dialect.style = .constant true) ∧
      (q.condition = "" ↔ ∀ x ∈ query.condition, x.render dialect.style = .constant true)) ∧
    ∀ columns maxDepth value, Query.decode columns maxDepth value = .ok query →
      q.limit = p.limit := by
  intro p q
  refine ⟨⟨?_, ?_, ?_⟩, ⟨?_, ?_⟩, fun dialect => ⟨?_, ?_⟩, ?_⟩
  · exact Query.statement_of_suffix rfl table query
  · rw [Query.sql, Query.statement_of_top rfl, Query.parts_sqlServer]
  · exact Query.statement_of_suffix rfl table query
  · exact Option.isSome_map
  · exact Option.isSome_map
  · exact Query.parts_condition_eq_empty _ _ table query
  · exact Query.parts_condition_eq_empty _ _ table query
  · intro columns maxDepth value hdecode
    apply Option.map_congr
    intro x hx
    obtain ⟨s, rfl⟩ := Query.exists_literal_of_decode hdecode x hx
    rfl

/-- A decoded query with a limit, and a name that MySQL quotes in its own way. -/
theorem statement_layouts_quoted_table :
    let columns := Columns.ofList [(1, "a b")]
    let value : Json := .obj [("limit", .scalar (.num (.int 10))),
      ("where", .tagged "is-empty" [.tagged columnTag [.scalar (.num (.int 1))]])]
    let query : Query := ⟨some (.unary .isNull (.column "a b")), some (.literal (.num (.int 10)))⟩
    Query.decode columns 256 value = .ok query ∧
      query.sql .sqlServer "t-1" = "SELECT TOP 10 * FROM \"t-1\" WHERE \"a b\" IS NULL;" ∧
      query.sql .mySql "t-1" = "SELECT * FROM `t-1` WHERE `a b` IS NULL LIMIT 10;" ∧
      (query.parts Dialect.mySql.style "t-1").limit =
        (query.parts Dialect.postgreSql.style "t-1").limit := by
  intro columns value query
  have hdecode : Query.decode columns 256 value = .ok query := by rfl
  have h := statement_layouts query "t-1"
  refine ⟨hdecode, ?_, ?_, h.2.2.2 columns 256 value hdecode⟩
  · exact h.1.2.1.trans rfl
  · exact h.1.2.2.trans rfl

end Statements

end FilterSql
