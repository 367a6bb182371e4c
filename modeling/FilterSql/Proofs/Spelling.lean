import FilterSql.Proofs.NumberText
import FilterSql.Proofs.Skeleton

/-!
A condition can be cut into its tokens in one way only, if its names are plain. Between two operands
stand texts none of which begins another one, and a word runs as far as its characters do. String
literals are the hard case: a backslash at the end of one of them hides its closing quote, so a cut
that goes wrong is refuted only where the text ends.
-/

namespace FilterSql.Condition

/-- A lower-case identifier. Of all keywords only `true` and `false` are printed in lower case. -/
structure PlainName (name : String) : Prop where
  ne_empty : name ≠ ""
  ne_true : name ≠ "true"
  ne_false : name ≠ "false"
  first : ∀ c ∈ name.toList.head?, (c.isLower || c == '_') = true
  all : ∀ c ∈ name.toList, (c.isLower || c.isDigit || c == '_') = true

instance (name : String) : Decidable (PlainName name) :=
  decidable_of_iff (name ≠ "" ∧ name ≠ "true" ∧ name ≠ "false" ∧
      name.toList.head?.all (fun c => c.isLower || c == '_') = true ∧
      name.toList.all (fun c => c.isLower || c.isDigit || c == '_') = true)
    ⟨fun ⟨hempty, htrue, hfalse, hfirst, hall⟩ =>
        ⟨hempty, htrue, hfalse, Option.all_eq_true _ _ |>.mp hfirst, List.all_eq_true.mp hall⟩,
      fun ⟨hempty, htrue, hfalse, hfirst, hall⟩ =>
        ⟨hempty, htrue, hfalse, Option.all_eq_true _ _ |>.mpr hfirst, List.all_eq_true.mpr hall⟩⟩

theorem PlainName.exists_first {name : String} (h : PlainName name) :
    ∃ c cs, name.toList = c :: cs ∧ (c.isLower || c == '_') = true := by
  have hne : name.toList ≠ [] := fun hnil => h.ne_empty (String.toList_eq_nil_iff.mp hnil)
  obtain ⟨c, cs, hname⟩ := List.exists_cons_of_ne_nil hne
  exact ⟨c, cs, hname, h.first c (by rw [hname]; rfl)⟩

namespace Token

def Plain : Token → Prop
  | .column name _ => PlainName name
  | _ => True

/-- A token without the mark of names below a comparison. -/
def unmarked : Token → Token
  | .column name _ => .column name false
  | t => t

/-- The characters of a token whose name stands as it is. -/
def lexeme (t : Token) : List Char := (t.written fun name _ => name).toList

theorem lexeme_unmarked (t : Token) : t.unmarked.lexeme = t.lexeme := by
  cases t <;> rfl

/-- Whether an operand is due after a token that stands where one is due. -/
def begins? : Token → Option Bool
  | .literal _ => some false
  | .column _ _ => some false
  | .constant _ => some false
  | .unary .not => some true
  | .lparen => some true
  | .rparen => some false
  | _ => none

/-- Whether an operand is due after a token that stands behind one. -/
def follows? : Token → Option Bool
  | .unary .isNull => some false
  | .unary .isNotNull => some false
  | .rparen => some false
  | .compare _ => some true
  | .equality _ => some true
  | .member _ => some true
  | .connective _ => some true
  | .comma => some true
  | _ => none

def next? (due : Bool) (t : Token) : Option Bool := if due then t.begins? else t.follows?

theorem next?_unmarked (due : Bool) (t : Token) : t.unmarked.next? due = t.next? due := by
  cases t <;> rfl

end Token

/-- Whether an operand is due at the end of a sequence of tokens. -/
def due? (due : Bool) (ts : List Token) : Option Bool := ts.foldlM Token.next? due

theorem due?_cons (due : Bool) (t : Token) (ts : List Token) :
    due? due (t :: ts) = (t.next? due).bind fun next => due? next ts := rfl

theorem due?_append (due : Bool) (ts us : List Token) :
    due? due (ts ++ us) = (due? due ts).bind fun next => due? next us := by
  simp [due?]

/-- A token that joins two operands. -/
theorem due?_between {t : Token} (ht : t.follows? = some true) {ts us : List Token}
    (hts : due? true ts = some false) (hus : due? true us = some false) :
    due? true (ts ++ t :: us) = some false := by
  have hnext : t.next? false = some true := ht
  rw [due?_append, hts, Option.bind_some, due?_cons, hnext, Option.bind_some, hus]

/-- The items of a list with commas between them. -/
theorem due?_items {uss : List (List Token)} (huss : ∀ us ∈ uss, due? true us = some false) :
    due? true ([Token.comma].intercalate uss ++ [.rparen]) = some false := by
  induction uss with
  | nil => rfl
  | cons us uss ih =>
    rw [List.forall_mem_cons] at huss
    cases uss with
    | nil =>
      rw [List.intercalate_singleton, due?_append, huss.1]
      rfl
    | cons ws uss =>
      rw [List.intercalate_cons_cons, List.append_assoc, List.append_assoc]
      exact due?_between rfl huss.1 (ih huss.2)

/-- The tokens of an expression begin where an operand is due and end where none is. -/
theorem due?_tokens {columns : Columns} {x : Expr} (hx : x.WellFormed columns) (compared : Bool) :
    due? true (x.skeleton compared).operand = some false := by
  apply Expr.tokens_induction (motive := fun ts => due? true ts = some false)
    ?constant ?literal ?column ?not ?check ?compare ?equality ?member ?connective ?parens x hx
  case constant => exact fun _ => rfl
  case literal => exact fun _ => rfl
  case column => exact fun _ _ _ => rfl
  case not => exact fun _ hts => hts
  case check =>
    intro op ts hop hts
    rw [due?_append, hts]
    cases op with
    | not => exact absurd rfl hop
    | isNull => rfl
    | isNotNull => rfl
  case compare => exact fun _ _ _ => due?_between rfl
  case equality => exact fun _ _ _ => due?_between rfl
  case connective => exact fun _ _ _ => due?_between rfl
  case member =>
    intro op ts uss hts huss
    exact due?_between rfl hts (due?_items huss)
  case parens =>
    intro ts hts
    change due? true (ts ++ [.rparen]) = some false
    rw [due?_append, hts]
    rfl

section Words

/-- The characters of words: names, numbers and keywords. -/
def isWord (c : Char) : Bool := Json.Token.isBare c || c == '_'

def keywords : List (List Char × Token) :=
  [("NOT".toList, .unary .not), ("NULL".toList, .literal .null),
    ("true".toList, .literal (.bool true)), ("false".toList, .literal (.bool false)),
    ("TRUE".toList, .constant true), ("FALSE".toList, .constant false)]

/-- The tokens that are words, each with its word. -/
inductive IsWordOf : Token → List Char → Prop where
  | keyword {t : Token} {w : List Char} : (w, t) ∈ keywords → IsWordOf t w
  | number (n : Number) : IsWordOf (.literal (.num n)) n.text.toList
  | name {name : String} {compared : Bool} : PlainName name →
      IsWordOf (.column name compared) name.toList

/-- The token of a word. What is neither a keyword nor a number is a name. -/
def ofWord (w : List Char) : Token :=
  match keywords.lookup w, (Numeral.read? w).bind Numeral.nearest? with
  | some t, _ => t
  | none, some n => .literal (.num n)
  | none, none => .column (String.ofList w) false

/-- A number begins with no letter, so it is no keyword. -/
theorem ofWord_number (n : Number) : ofWord n.text.toList = .literal (.num n) := by
  obtain ⟨c, cs, htext, hfirst⟩ := n.text_eq_cons
  have hletters : ∀ p ∈ keywords, p.1.head?.all (fun d => !d.isDigit && d != '-') = true := by decide
  have hkeyword : keywords.lookup n.text.toList = none := by
    rw [List.lookup_eq_none_iff, htext]
    intro p hp
    apply bne_iff_ne.mpr
    intro heq
    have hletter := hletters p hp
    rw [← heq] at hletter
    obtain ⟨hdigit, hminus⟩ : c.isDigit = false ∧ c ≠ '-' := by simpa using hletter
    rcases hfirst with hfirst | hfirst
    · exact absurd hfirst (by simp [hdigit])
    · exact hminus hfirst
  rw [ofWord, hkeyword, n.read?_text]

/-- A text that begins with neither a digit nor a minus sign is no number. -/
theorem read?_eq_none_of_first {c : Char} {cs : List Char} (hdigit : c.isDigit = false)
    (hminus : c ≠ '-') : Numeral.read? (c :: cs) = none := by
  have hunsigned : Numeral.read? (c :: cs) = Numeral.unsigned? false (c :: cs) := by
    simp [Numeral.read?, hminus]
  have hwhole : Numeral.wholePart? (c :: cs) = none := by
    simp [Numeral.wholePart?, Numeral.digits, hdigit]
  rw [hunsigned, Numeral.unsigned?, hwhole]
  rfl

theorem not_isDigit_of_isLower {c : Char} (h : (c.isLower || c == '_') = true) :
    c.isDigit = false ∧ c ≠ '-' := by
  rcases Bool.or_eq_true _ _ ▸ h with hlower | hline
  · have hclass : (c.val ≥ 'a'.val && c.val ≤ 'z'.val) = true := hlower
    have hrange : 97 ≤ c.toNat ∧ c.toNat ≤ 122 := by
      simpa [UInt32.le_iff_toNat_le] using hclass
    constructor
    · simp [Char.isDigit, UInt32.le_iff_toNat_le]
      omega
    · intro hminus
      rw [hminus] at hrange
      exact absurd hrange (by decide)
  · obtain rfl : c = '_' := eq_of_beq hline
    decide

theorem ofWord_name {name : String} (h : PlainName name) :
    ofWord name.toList = .column name false := by
  obtain ⟨c, cs, htext, hfirst⟩ := h.exists_first
  obtain ⟨hdigit, hminus⟩ := not_isDigit_of_isLower hfirst
  have hcase : ∀ p ∈ keywords, p.1 = "true".toList ∨ p.1 = "false".toList ∨
      p.1.head?.all (fun d => !(d.isLower || d == '_')) = true := by decide
  have hkeyword : keywords.lookup name.toList = none := by
    rw [List.lookup_eq_none_iff]
    intro p hp
    apply bne_iff_ne.mpr
    intro heq
    rcases hcase p hp with htrue | hfalse | hupper
    · exact h.ne_true (String.toList_inj.mp (heq.trans htrue))
    · exact h.ne_false (String.toList_inj.mp (heq.trans hfalse))
    · -- all other keywords begin with a capital letter
      rw [← heq, htext, List.head?_cons, Option.all_some, hfirst] at hupper
      contradiction
  rw [ofWord, hkeyword, htext, read?_eq_none_of_first hdigit hminus, ← htext]
  simp

theorem isBare_of_isLower_or_isDigit {c : Char} (h : (c.isLower || c.isDigit) = true) :
    Json.Token.isBare c = true := by
  have halphanum : c.isAlphanum = (c.isUpper || c.isLower || c.isDigit) := rfl
  rw [Json.Token.isBare, halphanum, Bool.or_assoc c.isUpper, h]
  simp

namespace IsWordOf

variable {t : Token} {w : List Char}

theorem ofWord_eq (h : IsWordOf t w) : ofWord w = t.unmarked := by
  cases h with
  | keyword hmem =>
    have hlookup : ∀ p ∈ keywords, keywords.lookup p.1 = some p.2 ∧ p.2.unmarked = p.2 := by decide
    rw [ofWord, (hlookup _ hmem).1, (hlookup _ hmem).2]
  | number n => exact ofWord_number n
  | name hname => exact ofWord_name hname

theorem ne_nil (h : IsWordOf t w) : w ≠ [] := by
  cases h with
  | keyword hmem =>
    have hall : ∀ p ∈ keywords, p.1 ≠ [] := by decide
    exact hall _ hmem
  | number n =>
    obtain ⟨c, cs, htext, -⟩ := n.text_eq_cons
    rw [htext]
    exact List.cons_ne_nil c cs
  | name hname =>
    obtain ⟨c, cs, htext, -⟩ := hname.exists_first
    rw [htext]
    exact List.cons_ne_nil c cs

theorem isWord (h : IsWordOf t w) : ∀ c ∈ w, isWord c = true := by
  cases h with
  | keyword hmem =>
    have hall : ∀ p ∈ keywords, p.1.all Condition.isWord = true := by decide
    exact List.all_eq_true.mp (hall _ hmem)
  | number n =>
    intro c hc
    rw [Condition.isWord, n.isBare_text c hc, Bool.true_or]
  | name hname =>
    intro c hc
    rcases Bool.or_eq_true _ _ ▸ hname.all c hc with hbare | hline
    · rw [Condition.isWord, isBare_of_isLower_or_isDigit hbare, Bool.true_or]
    · rw [Condition.isWord, hline, Bool.or_true]

/-- A word is the whole text of its token, or all but the blank after NOT. -/
theorem lexeme_eq (h : IsWordOf t w) :
    t.lexeme = w ∧ t.begins? = some false ∨ t.lexeme = w ++ [' '] := by
  cases h with
  | keyword hmem =>
    have hall : ∀ p ∈ keywords, p.2.lexeme = p.1 ∧ p.2.begins? = some false ∨
        p.2.lexeme = p.1 ++ [' '] := by decide
    exact hall _ hmem
  | number n => exact .inl ⟨rfl, rfl⟩
  | name hname => exact .inl ⟨rfl, rfl⟩

end IsWordOf

/-- Where an operand is due there stands a word, a string or a parenthesis. -/
theorem kind_of_begins? {t : Token} {next : Bool} (hplain : t.Plain) (h : t.begins? = some next) :
    (∃ w, IsWordOf t w) ∨ (∃ s, t = .literal (.str s)) ∨ t = .lparen ∨ t = .rparen := by
  cases t with
  | literal value =>
    cases value with
    | null => exact .inl ⟨"NULL".toList, .keyword (by decide)⟩
    | bool b =>
      cases b with
      | false => exact .inl ⟨"false".toList, .keyword (by decide)⟩
      | true => exact .inl ⟨"true".toList, .keyword (by decide)⟩
    | num n => exact .inl ⟨_, .number n⟩
    | str s => exact .inr (.inl ⟨s, rfl⟩)
  | column name compared => exact .inl ⟨_, .name hplain⟩
  | constant b =>
    cases b with
    | false => exact .inl ⟨"FALSE".toList, .keyword (by decide)⟩
    | true => exact .inl ⟨"TRUE".toList, .keyword (by decide)⟩
  | unary op =>
    cases op with
    | not => exact .inl ⟨"NOT".toList, .keyword (by decide)⟩
    | isNull => contradiction
    | isNotNull => contradiction
  | lparen => exact .inr (.inr (.inl rfl))
  | rparen => exact .inr (.inr (.inr rfl))
  | _ => contradiction

end Words

section Followers

/-- Neither a quote nor a backslash. -/
def Bare (cs : List Char) : Prop := ∀ c ∈ cs, c ≠ '\'' ∧ c ≠ '\\'

instance (cs : List Char) : Decidable (Bare cs) :=
  decidable_of_iff (cs.all (fun c => c != '\'' && c != '\\') = true) (by simp [Bare])

/-- The tokens that stand behind an operand. -/
def followers : List Token :=
  [.unary .isNull, .unary .isNotNull, .rparen, .compare .less, .compare .greater, .equality .equal,
    .equality .notEqual, .member .equal, .member .notEqual, .connective .and, .connective .or, .comma]

theorem mem_followers {t : Token} {next : Bool} (h : t.follows? = some next) : t ∈ followers := by
  cases t with
  | unary op => cases op <;> first | decide | contradiction
  | compare op => cases op <;> decide
  | equality op => cases op <;> decide
  | member op => cases op <;> decide
  | connective op => cases op <;> decide
  | _ => first | decide | contradiction

/-- No such text begins another one. -/
theorem eq_of_lexeme_isPrefix :
    ∀ t ∈ followers, ∀ u ∈ followers, t.lexeme <+: u.lexeme → t = u := by
  decide

theorem lexeme_follower :
    ∀ t ∈ followers, t.lexeme ≠ [] ∧ t.lexeme.head?.all (!isWord ·) = true ∧ Bare t.lexeme := by
  decide

end Followers

/-- The text of a sequence of tokens whose names stand as they are. -/
def letters (ts : List Token) : List Char := ts.flatMap Token.lexeme

section Quotes

/-- A string between its quotes. -/
def escaped (cs : List Char) : List Char :=
  cs.flatMap fun c => if c = '\'' ∨ c = '"' then ['\\', c] else [c]

theorem lexeme_string (s : String) :
    (Token.literal (.str s)).lexeme = '\'' :: (escaped s.toList ++ ['\'']) := by
  simp [Token.lexeme, Token.written, Token.text, Scalar.sql, Scalar.escapeQuotes, escaped]

/-- Every single quote stands behind a backslash; the first character counts as if there were one before
it or not. -/
def Guarded : Bool → List Char → Prop
  | _, [] => True
  | behind, c :: cs => (c = '\'' → behind = true) ∧ Guarded (c == '\\') cs

theorem Guarded.behind {behind : Bool} {cs : List Char} (h : Guarded false cs) :
    Guarded behind cs := by
  cases cs with
  | nil => trivial
  | cons c cs => exact ⟨fun hc => absurd (h.1 hc) (by decide), h.2⟩

theorem guarded_escaped (cs : List Char) : Guarded false (escaped cs) := by
  induction cs with
  | nil => trivial
  | cons c cs ih =>
    have hcons : escaped (c :: cs) =
        (if c = '\'' ∨ c = '"' then ['\\', c] else [c]) ++ escaped cs := rfl
    rw [hcons]
    split
    · exact ⟨fun h => absurd h (by decide), fun _ => rfl, ih.behind⟩
    · next hquote => exact ⟨fun h => absurd (.inl h) hquote, ih.behind⟩

/-- What stands behind a quote is guarded by itself. -/
theorem Guarded.of_append {behind : Bool} {as bs : List Char} (h : Guarded behind (as ++ '\'' :: bs)) :
    Guarded false bs := by
  induction as generalizing behind with
  | nil => exact h.2
  | cons a as ih => exact ih h.2

/-- The first quote behind a bare text ends every guarded text, since no backslash stands before it. -/
theorem Guarded.eq_bare {as bs cs ds : List Char} (has : Guarded false as) (hcs : Bare cs)
    (h : as ++ '\'' :: bs = cs ++ '\'' :: ds) : as = cs ∧ bs = ds := by
  induction as generalizing cs with
  | nil =>
    cases cs with
    | nil => exact ⟨rfl, (List.cons.inj h).2⟩
    | cons c cs => exact absurd (List.cons.inj h).1.symm (hcs c List.mem_cons_self).1
  | cons a as ih =>
    cases cs with
    | nil => exact absurd (has.1 (List.cons.inj h).1) (by decide)
    | cons c cs =>
      obtain ⟨rfl, hrest⟩ := List.cons.inj h
      -- `a` is bare, so what follows it is guarded without a backslash before it
      have hbackslash : (a == '\\') = false := by
        simpa using (hcs a List.mem_cons_self).2
      have hguarded : Guarded false as := hbackslash ▸ has.2
      obtain ⟨rfl, rfl⟩ := ih hguarded (fun d hd => hcs d (List.mem_cons_of_mem a hd)) hrest
      exact ⟨rfl, rfl⟩

/-- Takes out what stands before each quote of either kind. -/
def unescaped : List Char → List Char
  | c :: d :: cs => if d = '\'' ∨ d = '"' then unescaped (d :: cs) else c :: unescaped (d :: cs)
  | cs => cs

theorem unescaped_cons {c : Char} {cs : List Char} (h : ∀ d ∈ cs.head?, ¬ (d = '\'' ∨ d = '"')) :
    unescaped (c :: cs) = c :: unescaped cs := by
  cases cs with
  | nil => rfl
  | cons d cs => rw [unescaped, if_neg (h d rfl)]

theorem head?_escaped (cs : List Char) : ∀ d ∈ (escaped cs).head?, ¬ (d = '\'' ∨ d = '"') := by
  cases cs with
  | nil => simp [escaped]
  | cons c cs =>
    by_cases hquote : c = '\'' ∨ c = '"'
    · simp [escaped, hquote]
    · have hcons : escaped (c :: cs) = c :: escaped cs := by simp [escaped, hquote]
      rw [hcons]
      intro d hd
      exact Option.some.inj hd ▸ hquote

theorem unescaped_escaped (cs : List Char) : unescaped (escaped cs) = cs := by
  induction cs with
  | nil => rfl
  | cons c cs ih =>
    have hcons : escaped (c :: cs) =
        (if c = '\'' ∨ c = '"' then ['\\', c] else [c]) ++ escaped cs := rfl
    have hrest := unescaped_cons (c := c) (head?_escaped cs)
    rw [hcons]
    split
    · next hquote =>
      change unescaped ('\\' :: c :: escaped cs) = c :: cs
      rw [unescaped, if_pos hquote, hrest, ih]
    · change unescaped (c :: escaped cs) = c :: cs
      rw [hrest, ih]

theorem eq_of_escaped {s t : String} (h : escaped s.toList = escaped t.toList) : s = t := by
  apply String.toList_inj.mp
  rw [← unescaped_escaped s.toList, h, unescaped_escaped]

end Quotes

section Cutting

/-- Tokens from a place where an operand is due, or is not, up to one where none is. -/
def Cut (due : Bool) (ts : List Token) : Prop := due? due ts = some false ∧ ∀ t ∈ ts, t.Plain

theorem Cut.tail {due : Bool} {t : Token} {ts : List Token} (h : Cut due (t :: ts)) :
    ∃ next, t.next? due = some next ∧ Cut next ts := by
  obtain ⟨hdue, hplain⟩ := h
  rw [due?_cons] at hdue
  obtain ⟨next, hnext, hrest⟩ := Option.bind_eq_some_iff.mp hdue
  exact ⟨next, hnext, hrest, fun u hu => hplain u (List.mem_cons_of_mem t hu)⟩

theorem letters_cons (t : Token) (ts : List Token) : letters (t :: ts) = t.lexeme ++ letters ts :=
  List.flatMap_cons

theorem letters_string (s : String) (ts : List Token) :
    letters (.literal (.str s) :: ts) = '\'' :: (escaped s.toList ++ '\'' :: letters ts) := by
  rw [letters_cons, lexeme_string]
  simp

/-- Only a string has quotes or backslashes. -/
theorem bare_lexeme {due : Bool} {t : Token} {next : Bool} (hplain : t.Plain)
    (h : t.next? due = some next) (hstring : ∀ s, t ≠ .literal (.str s)) : Bare t.lexeme := by
  cases due with
  | false => exact (lexeme_follower t (mem_followers h)).2.2
  | true =>
    rcases kind_of_begins? hplain h with ⟨w, hw⟩ | ⟨s, rfl⟩ | rfl | rfl
    · have hbare : Bare w := by
        intro c hc
        have hword := hw.isWord c hc
        constructor
        · rintro rfl
          contradiction
        · rintro rfl
          contradiction
      rcases hw.lexeme_eq with ⟨hlexeme, -⟩ | hlexeme
      · rw [hlexeme]
        exact hbare
      · rw [hlexeme]
        intro c hc
        rcases List.mem_append.mp hc with hc | hc
        · exact hbare c hc
        · obtain rfl := List.mem_singleton.mp hc
          decide
    · exact absurd rfl (hstring s)
    · decide
    · decide

/-- Up to its first string a text is bare, and the string is followed by a shorter sequence. -/
theorem Cut.first_string {due : Bool} {ts : List Token} (h : Cut due ts) :
    Bare (letters ts) ∨ ∃ cs s us, letters ts = cs ++ '\'' :: (escaped s ++ '\'' :: letters us) ∧
      Bare cs ∧ Cut false us ∧ us.length < ts.length := by
  induction ts generalizing due with
  | nil => exact .inl fun c hc => absurd hc List.not_mem_nil
  | cons t ts ih =>
    obtain ⟨next, hnext, hrest⟩ := h.tail
    have hplain : t.Plain := h.2 t List.mem_cons_self
    by_cases hstring : ∃ s, t = .literal (.str s)
    · obtain ⟨s, rfl⟩ := hstring
      have hend : next = false := by
        cases due with
        | false => contradiction
        | true => exact (Option.some.inj hnext).symm
      exact .inr ⟨[], s.toList, ts, letters_string s ts, fun c hc => absurd hc List.not_mem_nil,
        hend ▸ hrest, Nat.lt_succ_self _⟩
    · have hbare : Bare t.lexeme := bare_lexeme hplain hnext fun s hs => hstring ⟨s, hs⟩
      rw [letters_cons]
      rcases ih hrest with hall | ⟨cs, s, us, htext, hcs, hus, hlength⟩
      · left
        intro c hc
        rcases List.mem_append.mp hc with hc | hc
        · exact hbare c hc
        · exact hall c hc
      · right
        refine ⟨t.lexeme ++ cs, s, us, ?_, ?_, hus, Nat.lt_succ_of_lt hlength⟩
        · rw [htext, List.append_assoc]
        · intro c hc
          rcases List.mem_append.mp hc with hc | hc
          · exact hbare c hc
          · exact hcs c hc

/-- A cut inside a string never comes out right. What the one cut takes for the text of a string, the
other takes for tokens, and so on with their roles exchanged up to the end of the text. -/
theorem letters_ne_misaligned {ts us : List Token} {cs : List Char} (hts : Cut false ts)
    (hus : Cut false us) (hcs : Guarded false cs) : letters ts ≠ cs ++ '\'' :: letters us := by
  induction hsize : ts.length + us.length using Nat.strongRecOn generalizing ts us cs with
  | ind size ih =>
    intro h
    -- the quote after `cs` must open the first string of the other cut, which is then cut wrong too
    rcases hts.first_string with hbare | ⟨bs, s, ws, htext, hbs, hws, hlength⟩
    · have hquote : '\'' ∈ letters ts := by rw [h]; simp
      exact (hbare _ hquote).1 rfl
    · obtain ⟨-, hrest⟩ := hcs.eq_bare hbs (h.symm.trans htext)
      exact ih (us.length + ws.length) (by omega) hus hws (guarded_escaped s) rfl hrest

/-- A string that goes on where another one ends would be cut there. -/
theorem eq_nil_of_overlap {s t cs : List Char} {ts us : List Token} (hts : Cut false ts)
    (hus : Cut false us) (ht : escaped t = escaped s ++ cs)
    (hrest : '\'' :: letters ts = cs ++ '\'' :: letters us) : cs = [] := by
  cases cs with
  | nil => rfl
  | cons c cs =>
    obtain ⟨rfl, hletters⟩ := List.cons.inj hrest
    have hguarded : Guarded false cs := by
      have hall := guarded_escaped t
      rw [ht] at hall
      exact hall.of_append
    exact absurd hletters (letters_ne_misaligned hts hus hguarded)

/-- Two strings that begin together end together. -/
theorem string_eq_of_letters {s t : String} {ts us : List Token} (hts : Cut false ts)
    (hus : Cut false us) (h : escaped s.toList ++ '\'' :: letters ts =
      escaped t.toList ++ '\'' :: letters us) : s = t ∧ letters ts = letters us := by
  rcases List.append_eq_append_iff.mp h with ⟨cs, ht, hrest⟩ | ⟨cs, hs, hrest⟩
  · obtain rfl := eq_nil_of_overlap hts hus ht hrest
    rw [List.append_nil] at ht
    exact ⟨eq_of_escaped ht.symm, (List.cons.inj hrest).2⟩
  · obtain rfl := eq_nil_of_overlap hus hts hs hrest
    rw [List.append_nil] at hs
    exact ⟨eq_of_escaped hs, (List.cons.inj hrest).2.symm⟩

/-- Behind an operand no word goes on. -/
theorem Cut.takeWhile_eq_nil {ts : List Token} (h : Cut false ts) :
    (letters ts).takeWhile isWord = [] := by
  cases ts with
  | nil => rfl
  | cons t ts =>
    obtain ⟨next, hnext, -⟩ := h.tail
    obtain ⟨hne, hhead, -⟩ := lexeme_follower t (mem_followers hnext)
    obtain ⟨c, cs, hlexeme⟩ := List.exists_cons_of_ne_nil hne
    have hc : isWord c = false := by simpa [hlexeme] using hhead
    rw [letters_cons, hlexeme, List.cons_append, List.takeWhile_cons_of_neg (by simp [hc])]

/-- A word token is found by the word that the text begins with. -/
theorem Cut.takeWhile_eq {t : Token} {ts : List Token} {w : List Char} (h : Cut true (t :: ts))
    (hw : IsWordOf t w) : (letters (t :: ts)).takeWhile isWord = w := by
  obtain ⟨next, hnext, hrest⟩ := h.tail
  rw [letters_cons]
  rcases hw.lexeme_eq with ⟨hlexeme, hbegins⟩ | hlexeme
  · obtain rfl : next = false := Option.some.inj (hnext.symm.trans hbegins)
    rw [hlexeme, List.takeWhile_append_of_pos hw.isWord, hrest.takeWhile_eq_nil, List.append_nil]
  · have hblank : isWord ' ' = false := by decide
    rw [hlexeme, List.append_assoc, List.takeWhile_append_of_pos hw.isWord]
    simp [hblank]

theorem letters_lparen (ts : List Token) : letters (.lparen :: ts) = '(' :: letters ts := rfl

theorem letters_rparen (ts : List Token) : letters (.rparen :: ts) = ')' :: letters ts := rfl

/-- A word where an operand is due is the first token of every cut. -/
theorem Cut.head_of_word {t u : Token} {ts us : List Token} {w : List Char} (hw : IsWordOf t w)
    (ht : Cut true (t :: ts)) (hu : Cut true (u :: us)) (h : letters (t :: ts) = letters (u :: us)) :
    t.unmarked = u.unmarked ∧ letters ts = letters us := by
  have hfirst : (letters (u :: us)).takeWhile isWord = w := h ▸ ht.takeWhile_eq hw
  -- so the other cut begins with a word too, and the word tells the token
  have hstart (c : Char) (cs : List Char) (hc : isWord c = false) : letters (u :: us) ≠ c :: cs := by
    intro hletters
    rw [hletters, List.takeWhile_cons_of_neg (by simp [hc])] at hfirst
    exact hw.ne_nil hfirst.symm
  obtain ⟨next, hnext, -⟩ := hu.tail
  rcases kind_of_begins? (hu.2 u List.mem_cons_self) hnext with ⟨w', hw'⟩ | ⟨s, rfl⟩ | rfl | rfl
  · have hsame : w' = w := (hu.takeWhile_eq hw').symm.trans hfirst
    have hmark : t.unmarked = u.unmarked := by
      rw [← hw.ofWord_eq, ← hw'.ofWord_eq, hsame]
    refine ⟨hmark, ?_⟩
    rw [letters_cons, letters_cons, ← t.lexeme_unmarked, hmark, u.lexeme_unmarked] at h
    exact List.append_cancel_left h
  · exact absurd (letters_string s us) (hstart _ _ (by decide))
  · exact absurd (letters_lparen us) (hstart _ _ (by decide))
  · exact absurd (letters_rparen us) (hstart _ _ (by decide))

theorem Cut.head_of_due {t u : Token} {ts us : List Token} (ht : Cut true (t :: ts))
    (hu : Cut true (u :: us)) (h : letters (t :: ts) = letters (u :: us)) :
    t.unmarked = u.unmarked ∧ letters ts = letters us := by
  obtain ⟨_, htnext, htrest⟩ := ht.tail
  obtain ⟨_, hunext, hurest⟩ := hu.tail
  rcases kind_of_begins? (ht.2 t List.mem_cons_self) htnext with ⟨w, hw⟩ | htkind
  · exact Cut.head_of_word hw ht hu h
  rcases kind_of_begins? (hu.2 u List.mem_cons_self) hunext with ⟨w, hw⟩ | hukind
  · obtain ⟨hmark, hrest⟩ := Cut.head_of_word hw hu ht h.symm
    exact ⟨hmark.symm, hrest.symm⟩
  -- what is no word is told by its first character
  rcases htkind with ⟨s, rfl⟩ | rfl | rfl
  · rw [letters_string] at h
    rcases hukind with ⟨s', rfl⟩ | rfl | rfl
    · obtain rfl := Option.some.inj htnext
      obtain rfl := Option.some.inj hunext
      rw [letters_string] at h
      obtain ⟨rfl, hrest⟩ := string_eq_of_letters htrest hurest (List.cons.inj h).2
      exact ⟨rfl, hrest⟩
    · exact absurd (List.cons.inj h).1 (by decide)
    · exact absurd (List.cons.inj h).1 (by decide)
  · rcases hukind with ⟨s', rfl⟩ | rfl | rfl
    · rw [letters_string] at h
      exact absurd (List.cons.inj h).1 (by decide)
    · exact ⟨rfl, (List.cons.inj h).2⟩
    · exact absurd (List.cons.inj h).1 (by decide)
  · rcases hukind with ⟨s', rfl⟩ | rfl | rfl
    · rw [letters_string] at h
      exact absurd (List.cons.inj h).1 (by decide)
    · exact absurd (List.cons.inj h).1 (by decide)
    · exact ⟨rfl, (List.cons.inj h).2⟩

theorem Cut.head_of_done {t u : Token} {ts us : List Token} (ht : Cut false (t :: ts))
    (hu : Cut false (u :: us)) (h : letters (t :: ts) = letters (u :: us)) :
    t = u ∧ letters ts = letters us := by
  obtain ⟨_, htnext, -⟩ := ht.tail
  obtain ⟨_, hunext, -⟩ := hu.tail
  have htmem := mem_followers htnext
  have humem := mem_followers hunext
  rw [letters_cons, letters_cons] at h
  have htext : t.lexeme <+: u.lexeme ++ letters us := ⟨letters ts, h⟩
  -- of two texts that begin one text the shorter begins the longer
  have heq : t = u := by
    rcases List.prefix_or_prefix_of_prefix htext (List.prefix_append _ _) with hp | hp
    · exact eq_of_lexeme_isPrefix t htmem u humem hp
    · exact (eq_of_lexeme_isPrefix u humem t htmem hp).symm
  subst heq
  exact ⟨rfl, List.append_cancel_left h⟩

theorem Cut.eq_nil_of_letters {ts : List Token} (h : Cut false ts) (hletters : letters ts = []) :
    ts = [] := by
  cases ts with
  | nil => rfl
  | cons t ts =>
    obtain ⟨next, hnext, -⟩ := h.tail
    rw [letters_cons, List.append_eq_nil_iff] at hletters
    exact absurd hletters.1 (lexeme_follower t (mem_followers hnext)).1

/-- A text can be cut into tokens in one way, but for the marks of its names. -/
theorem Cut.unique {due : Bool} {ts us : List Token} (hts : Cut due ts) (hus : Cut due us)
    (h : letters ts = letters us) : ts.map Token.unmarked = us.map Token.unmarked := by
  induction ts generalizing due us with
  | nil =>
    obtain rfl : due = false := Option.some.inj hts.1
    rw [hus.eq_nil_of_letters h.symm]
  | cons t ts ih =>
    cases us with
    | nil =>
      obtain rfl : due = false := Option.some.inj hus.1
      rw [hts.eq_nil_of_letters h]
    | cons u us =>
      have hhead : t.unmarked = u.unmarked ∧ letters ts = letters us := by
        cases due with
        | true => exact Cut.head_of_due hts hus h
        | false =>
          obtain ⟨rfl, hrest⟩ := Cut.head_of_done hts hus h
          exact ⟨rfl, hrest⟩
      obtain ⟨next, htnext, htrest⟩ := hts.tail
      obtain ⟨next', hunext, hurest⟩ := hus.tail
      -- equal tokens leave both cuts in the same phase
      have hnext : next' = next := by
        rw [← u.next?_unmarked, ← hhead.1, t.next?_unmarked, htnext] at hunext
        exact (Option.some.inj hunext).symm
      rw [List.map_cons, List.map_cons, hhead.1, ih htrest (hnext ▸ hurest) hhead.2]

end Cutting

section Printing

theorem PlainName.needsQuotes {name : String} (h : PlainName name) : needsQuotes name = false := by
  apply List.any_eq_false.mpr
  intro c hc
  have hplain := h.all c hc
  have hblank : Text.isBlank c = false := by
    rcases Bool.or_eq_true _ _ ▸ hplain with hbare | hline
    · exact Text.isBlank_of_isBare (isBare_of_isLower_or_isDigit hbare)
    · obtain rfl : c = '_' := eq_of_beq hline
      decide
  have hmark (d : Char) (hd : (d.isLower || d.isDigit || d == '_') = false) : (c == d) = false := by
    apply beq_eq_false_iff_ne.mpr
    intro heq
    rw [← heq, hplain] at hd
    contradiction
  simp [breaksName, hblank, hmark]

/-- In every style plain names stand as they are. -/
theorem toList_text (style : Style) {ts : List Token} (hts : ∀ t ∈ ts, t.Plain) :
    (Skeleton.text style.names ts).toList = letters ts := by
  induction ts with
  | nil => rfl
  | cons t ts ih =>
    have hrest := ih fun u hu => hts u (List.mem_cons_of_mem t hu)
    have hfirst : t.written style.names = t.written fun name _ => name := by
      cases t with
      | column name compared =>
        have hname := PlainName.needsQuotes (hts _ List.mem_cons_self)
        cases compared <;> simp [Token.written, Style.names, Style.identifier, hname]
      | _ => rfl
    rw [Skeleton.text_cons, String.toList_append, hrest, hfirst, letters_cons, Token.lexeme]

theorem Token.plain_intercalate {uss : List (List Token)} (huss : ∀ us ∈ uss, ∀ u ∈ us, u.Plain) :
    ∀ u ∈ [Token.comma].intercalate uss, u.Plain := by
  induction uss with
  | nil => simp
  | cons us uss ih =>
    rw [List.forall_mem_cons] at huss
    cases uss with
    | nil => simpa using huss.1
    | cons ws uss =>
      rw [List.intercalate_cons_cons, List.append_assoc, List.forall_mem_append, List.singleton_append,
        List.forall_mem_cons]
      exact ⟨huss.1, trivial, ih huss.2⟩

end Printing

end FilterSql.Condition

namespace FilterSql

open Condition

/-- Columns whose names are plain. -/
def Columns.Plain (columns : Columns) : Prop :=
  ∀ id name, columns.get? id = some name → PlainName name

theorem Columns.plain_ofList {pairs : List (Int × String)} (h : ∀ pair ∈ pairs, PlainName pair.2) :
    (ofList pairs).Plain := by
  have hfold (columns : Columns) (hcolumns : columns.Plain) :
      (pairs.foldl (fun columns pair => columns.insert pair.1 pair.2) columns).Plain := by
    induction pairs generalizing columns with
    | nil => exact hcolumns
    | cons pair pairs ih =>
      rw [List.forall_mem_cons] at h
      apply ih h.2
      intro id name hname
      rw [get?_insert] at hname
      split at hname
      · exact Option.some.inj hname ▸ h.1
      · exact hcolumns id name hname
  apply hfold
  intro id name hname
  rw [get?_empty] at hname
  contradiction

namespace Expr

variable {columns : Columns} {x y : Expr}

theorem plain_tokens (hcolumns : columns.Plain) (hx : x.WellFormed columns) (compared : Bool) :
    ∀ t ∈ (x.skeleton compared).operand, t.Plain := by
  have hbetween (t : Token) (ht : t.Plain) (ts us : List Token) (hts : ∀ u ∈ ts, u.Plain)
      (hus : ∀ u ∈ us, u.Plain) : ∀ u ∈ ts ++ t :: us, u.Plain := by
    rw [List.forall_mem_append, List.forall_mem_cons]
    exact ⟨hts, ht, hus⟩
  apply tokens_induction (motive := fun ts => ∀ t ∈ ts, t.Plain)
    ?constant ?literal ?column ?not ?check ?compare ?equality ?member ?connective ?parens x hx
  case constant => simp [Token.Plain]
  case literal => simp [Token.Plain]
  case column =>
    intro name compared hname t ht
    obtain ⟨-, id, -, hid⟩ := wellFormed_column.mp hname
    rw [List.mem_singleton.mp ht]
    exact hcolumns id name hid
  case not =>
    intro ts hts
    rw [List.forall_mem_cons]
    exact ⟨trivial, hts⟩
  case check => exact fun op ts _ hts => hbetween (.unary op) trivial ts [] hts (by simp)
  case compare => exact fun op => hbetween (.compare op) trivial
  case equality => exact fun op => hbetween (.equality op) trivial
  case connective => exact fun op => hbetween (.connective op) trivial
  case member =>
    intro op ts uss hts huss
    have hitems := Token.plain_intercalate huss
    apply hbetween (.member op) trivial ts _ hts
    rw [List.forall_mem_cons]
    exact ⟨trivial, hbetween .rparen trivial _ [] hitems (by simp)⟩
  case parens =>
    intro ts hts
    rw [List.forall_mem_cons]
    exact ⟨trivial, hbetween .rparen trivial ts [] hts (by simp)⟩

theorem cut_tokens (hcolumns : columns.Plain) (hx : x.WellFormed columns) :
    Cut true (x.skeleton false).operand :=
  ⟨due?_tokens hx false, plain_tokens hcolumns hx false⟩

theorem letters_of_render (hcolumns : columns.Plain) (hx : x.WellFormed columns) {style : Style}
    {text : String} (h : x.render style = .sql text) :
    letters (x.skeleton false).operand = text.toList := by
  have hplain := plain_tokens hcolumns hx false
  rw [render_eq_write] at h
  cases hs : x.skeleton false with
  | constant b =>
    rw [hs] at h
    contradiction
  | sql ts =>
    rw [hs] at h hplain
    obtain rfl := Rendered.sql.inj h
    exact (toList_text style hplain).symm

/-- Expressions that are printed alike have the same tokens, whatever their trees are. -/
theorem tokens_eq_of_render (hcolumns : columns.Plain) (hx : x.WellFormed columns)
    (hy : y.WellFormed columns) {style : Style} {text : String} (htx : x.render style = .sql text)
    (hty : y.render style = .sql text) :
    (x.skeleton false).operand.map Token.unmarked =
      (y.skeleton false).operand.map Token.unmarked := by
  apply Cut.unique (cut_tokens hcolumns hx) (cut_tokens hcolumns hy)
  rw [letters_of_render hcolumns hx htx, letters_of_render hcolumns hy hty]

end Expr

end FilterSql
