import FilterSql.Proofs.Spelling
import Mathlib.Data.Nat.Init

/-!
Reading a string literal back. The reader is the one that escaping is made for: a backslash takes the next
character as it is, and the first quote that is not taken so closes the literal. Since the backslashes of
a string get none of their own, one of them can take what was written for something else. The strings
that are read back, and those whose literals close where they end, are determined here.
-/

namespace FilterSql

namespace StringLiteral

open Condition (escaped)

/-- Reads what stands behind the opening quote: the characters of the string, and the text behind the
closing quote. -/
def readQuoted : List Char → Option (List Char × List Char)
  | [] => none
  | '\'' :: rest => some ([], rest)
  | ['\\'] => none
  | '\\' :: c :: rest => (readQuoted rest).map fun found => (c :: found.1, found.2)
  | c :: rest => (readQuoted rest).map fun found => (c :: found.1, found.2)

/-- Reads a string literal at the front of a text, and gives the string and what follows it. -/
def read? (text : String) : Option (String × String) :=
  match text.toList with
  | '\'' :: rest =>
    (readQuoted rest).map fun found => (String.ofList found.1, String.ofList found.2)
  | _ => none

/-- Every backslash stands right before a double quote, whose own backslash it takes. -/
def BeforeDoubleQuotes (cs : List Char) : Prop :=
  ∀ before after, cs = before ++ '\\' :: after → after.head? = some '"'

/-- Every run of backslashes that ends at a single quote or with the string is of even length. -/
def EvenRuns (cs : List Char) : Prop :=
  ∀ before count after, cs = before ++ List.replicate count '\\' ++ after →
    before.getLast? ≠ some '\\' → (after = [] ∨ after.head? = some '\'') → count % 2 = 0

/-- What is read from the literal of a string, unless it closes elsewhere than at its end. -/
def readBack? : List Char → Option (List Char)
  | [] => some []
  | ['\\'] => none
  | '\\' :: '\'' :: _ => none
  | '\\' :: '"' :: cs => (readBack? cs).map fun t => '\\' :: '"' :: t
  | '\\' :: c :: cs => (readBack? cs).map (c :: ·)
  | c :: cs => (readBack? cs).map (c :: ·)

theorem sql_append (s rest : String) :
    (Scalar.str s).sql ++ rest = String.ofList ('\'' :: (escaped s.toList ++ '\'' :: rest.toList)) := by
  apply String.toList_inj.mp
  simp [Scalar.sql, Scalar.escapeQuotes, escaped]

theorem read?_sql (s t rest : String) :
    read? ((Scalar.str s).sql ++ rest) = some (t, rest) ↔
      readQuoted (escaped s.toList ++ '\'' :: rest.toList) = some (t.toList, rest.toList) := by
  have hread : read? ((Scalar.str s).sql ++ rest) =
      (readQuoted (escaped s.toList ++ '\'' :: rest.toList)).map fun found =>
        (String.ofList found.1, String.ofList found.2) := by
    rw [sql_append, read?, String.toList_ofList]
    rfl
  have hpair (found : List Char × List Char) :
      (String.ofList found.1, String.ofList found.2) = (t, rest) ↔
        found = (t.toList, rest.toList) := by
    simp [Prod.ext_iff, ← String.toList_inj]
  simp only [hread, Option.map_eq_some_iff, hpair, exists_eq_right]

theorem escaped_quote {c : Char} (hc : c = '\'' ∨ c = '"') (cs : List Char) :
    escaped (c :: cs) = '\\' :: c :: escaped cs := by
  simp [escaped, hc]

theorem escaped_plain {c : Char} (hc : ¬ (c = '\'' ∨ c = '"')) (cs : List Char) :
    escaped (c :: cs) = c :: escaped cs := by
  simp [escaped, hc]

/-- A backslash is last or has a character behind it. -/
theorem ne_backslash {c : Char} {cs : List Char} (hlast : c = '\\' → cs = [] → False)
    (hnext : ∀ d ds, c = '\\' → cs = d :: ds → False) : c ≠ '\\' := by
  intro hc
  cases cs with
  | nil => exact hlast hc rfl
  | cons d ds => exact hnext d ds hc rfl

section Reading

variable {c : Char} {cs t rest : List Char}

/-- A character in front of what the rest of the text gives. -/
theorem map_cons_eq_some {found? : Option (List Char × List Char)} :
    (found?.map fun found => (c :: found.1, found.2)) = some (t, rest) ↔
      ∃ t', found? = some (t', rest) ∧ c :: t' = t := by
  simp

theorem readQuoted_backslash :
    readQuoted ('\\' :: c :: cs) = some (t, rest) ↔
      ∃ t', readQuoted cs = some (t', rest) ∧ c :: t' = t := by
  rw [readQuoted, map_cons_eq_some]

theorem readQuoted_plain (hquote : c ≠ '\'') (hbackslash : c ≠ '\\') :
    readQuoted (c :: cs) = some (t, rest) ↔
      ∃ t', readQuoted cs = some (t', rest) ∧ c :: t' = t := by
  rw [readQuoted, map_cons_eq_some]
  · exact hquote
  · exact fun h _ => hbackslash h
  · exact fun _ _ h _ => hbackslash h

/-- The closing quote is read, so the text behind it is shorter. -/
theorem length_lt_of_readQuoted (h : readQuoted cs = some (t, rest)) : rest.length < cs.length := by
  fun_induction readQuoted cs generalizing t rest with
  | case1 => contradiction
  | case2 cs =>
    obtain ⟨rfl, rfl⟩ := Prod.mk.inj (Option.some.inj h)
    exact Nat.lt_succ_self _
  | case3 => contradiction
  | case4 c cs ih =>
    obtain ⟨t', ht', -⟩ := map_cons_eq_some.mp h
    exact Nat.lt_succ_of_lt (Nat.lt_succ_of_lt (ih ht'))
  | case5 c cs _ _ _ ih =>
    obtain ⟨t', ht', -⟩ := map_cons_eq_some.mp h
    exact Nat.lt_succ_of_lt (ih ht')

end Reading

theorem readQuoted_escaped (cs t rest : List Char) :
    readQuoted (escaped cs ++ '\'' :: rest) = some (t, rest) ↔ readBack? cs = some t := by
  fun_induction readBack? cs generalizing t with
  | case1 => simp [escaped, readQuoted]
  | case2 =>
    -- the closing quote is taken, so the reader goes on behind the literal
    have hlate : readQuoted ('\\' :: '\'' :: rest) ≠ some (t, rest) := by
      intro h
      obtain ⟨t', ht', _⟩ := readQuoted_backslash.mp h
      exact Nat.lt_irrefl _ (length_lt_of_readQuoted ht')
    simpa [escaped] using hlate
  | case3 cs =>
    -- the backslash takes that of the quote, and the quote closes the literal
    have hearly : readQuoted ('\\' :: '\\' :: '\'' :: (escaped cs ++ '\'' :: rest)) ≠
        some (t, rest) := by
      intro h
      obtain ⟨t', ht', _⟩ := readQuoted_backslash.mp h
      have hrest : escaped cs ++ '\'' :: rest = rest :=
        (Prod.mk.inj (Option.some.inj ht')).2
      have hlength := congrArg List.length hrest
      simp only [List.length_append, List.length_cons] at hlength
      omega
    rw [escaped_plain (by decide), escaped_quote (.inl rfl)]
    simpa using hearly
  | case4 cs ih =>
    rw [escaped_plain (by decide), escaped_quote (.inr rfl), List.cons_append, List.cons_append,
      List.cons_append, readQuoted_backslash]
    simp only [readQuoted_plain (c := '"') (by decide) (by decide), ih, Option.map_eq_some_iff]
    constructor
    · rintro ⟨t', ⟨t'', ht'', rfl⟩, rfl⟩
      exact ⟨t'', ht'', rfl⟩
    · rintro ⟨t', ht', rfl⟩
      exact ⟨_, ⟨t', ht', rfl⟩, rfl⟩
  | case5 c cs hsingle hdouble ih =>
    rw [escaped_plain (by decide), escaped_plain (by simpa using ⟨hsingle, hdouble⟩),
      List.cons_append, List.cons_append, readQuoted_backslash]
    simp only [ih, Option.map_eq_some_iff]
  | case6 c cs hlast _ _ hnext ih =>
    have hbackslash : c ≠ '\\' := ne_backslash hlast hnext
    rw [Option.map_eq_some_iff]
    by_cases hquote : c = '\'' ∨ c = '"'
    · rw [escaped_quote hquote, List.cons_append, List.cons_append, readQuoted_backslash]
      simp only [ih]
    · have hsingle : c ≠ '\'' := fun hc => hquote (.inl hc)
      rw [escaped_plain hquote, List.cons_append, readQuoted_plain hsingle hbackslash]
      simp only [ih]

theorem length_le_of_readBack? {cs t : List Char} (h : readBack? cs = some t) :
    t.length ≤ cs.length := by
  fun_induction readBack? cs generalizing t with
  | case1 => simp_all
  | case2 => contradiction
  | case3 => contradiction
  | case4 cs ih =>
    obtain ⟨t', ht', rfl⟩ := Option.map_eq_some_iff.mp h
    simpa using ih ht'
  | case5 c cs _ _ ih =>
    obtain ⟨t', ht', rfl⟩ := Option.map_eq_some_iff.mp h
    have hle : t'.length ≤ cs.length := ih ht'
    simp only [List.length_cons]
    omega
  | case6 c cs _ _ _ _ ih =>
    obtain ⟨t', ht', rfl⟩ := Option.map_eq_some_iff.mp h
    simpa using ih ht'

theorem beforeDoubleQuotes_cons {c : Char} {cs : List Char} :
    BeforeDoubleQuotes (c :: cs) ↔
      (c = '\\' → cs.head? = some '"') ∧ BeforeDoubleQuotes cs := by
  constructor
  · intro h
    refine ⟨fun hc => h [] cs (by rw [hc]; rfl), fun before after hcs => ?_⟩
    exact h (c :: before) after (by rw [hcs]; rfl)
  · rintro ⟨hc, hcs⟩ before after heq
    rcases List.cons_eq_append_iff.mp heq with ⟨rfl, hafter⟩ | ⟨before', rfl, hcs'⟩
    · obtain ⟨rfl, rfl⟩ := List.cons.inj hafter
      exact hc rfl
    · exact hcs before' after hcs'

/-- A string is read back exactly if none of its backslashes takes a character of the string itself. -/
theorem readBack?_eq_self (cs : List Char) : readBack? cs = some cs ↔ BeforeDoubleQuotes cs := by
  fun_induction readBack? cs with
  | case1 => simp [BeforeDoubleQuotes]
  | case2 => simp [beforeDoubleQuotes_cons]
  | case3 cs => simp [beforeDoubleQuotes_cons]
  | case4 cs ih => simp [beforeDoubleQuotes_cons, ih]
  | case5 c cs hsingle hdouble ih =>
    -- two characters have been read and one was kept, so the rest would have to give one more
    have hshort : (readBack? cs).map (c :: ·) ≠ some ('\\' :: c :: cs) := by
      intro h
      obtain ⟨t, ht, heq⟩ := Option.map_eq_some_iff.mp h
      obtain ⟨rfl, rfl⟩ := List.cons.inj heq
      have hle := length_le_of_readBack? ht
      simp only [List.length_cons] at hle
      omega
    have hlast : ¬ BeforeDoubleQuotes ('\\' :: c :: cs) := by
      intro h
      have hhead : c = '"' := by simpa using (beforeDoubleQuotes_cons.mp h).1 rfl
      exact hdouble hhead
    exact iff_of_false hshort hlast
  | case6 c cs hlast _ _ hnext ih =>
    have hbackslash : c ≠ '\\' := ne_backslash hlast hnext
    simp [beforeDoubleQuotes_cons, hbackslash, ih]

/-- A string begins with a run of backslashes, which may be empty. -/
theorem exists_run (cs : List Char) :
    ∃ count after, cs = List.replicate count '\\' ++ after ∧ after.head? ≠ some '\\' := by
  induction cs with
  | nil => exact ⟨0, [], rfl, by simp⟩
  | cons c cs ih =>
    by_cases hc : c = '\\'
    · obtain ⟨count, after, rfl, hafter⟩ := ih
      exact ⟨count + 1, after, by rw [hc]; rfl, hafter⟩
    · exact ⟨0, c :: cs, rfl, by simpa using hc⟩

theorem evenRuns_nil : EvenRuns [] := by
  intro before count after h _ _
  have hlength := congrArg List.length h
  simp only [List.length_nil, List.length_append, List.length_replicate] at hlength
  omega

theorem getLast?_append_plain {c : Char} (hc : c ≠ '\\') (as bs : List Char) :
    (as ++ c :: bs).getLast? = some '\\' ↔ bs.getLast? = some '\\' := by
  cases bs with
  | nil => simp [hc]
  | cons b bs => simp [List.getLast?_append]

section Runs

variable {count : Nat} {after : List Char} (hafter : after.head? ≠ some '\\')

include hafter

/-- The backslashes of a run take each other by pairs. -/
theorem isSome_readBack?_run (count : Nat) :
    (readBack? (List.replicate count '\\' ++ after)).isSome ↔
      ((after = [] ∨ after.head? = some '\'') → count % 2 = 0) ∧ (readBack? after.tail).isSome := by
  induction count using Nat.twoStepInduction with
  | zero =>
    cases after with
    | nil => simp [readBack?]
    | cons c cs =>
      have hc : c ≠ '\\' := by simpa using hafter
      simp [readBack?, hc]
  | one =>
    cases after with
    | nil => simp [readBack?]
    | cons c cs =>
      by_cases hsingle : c = '\''
      · simp [readBack?, hsingle]
      · by_cases hdouble : c = '"'
        · simp [readBack?, hdouble]
        · simp [readBack?, hsingle]
  | more count ih _ =>
    have htwo : readBack? (List.replicate (count + 2) '\\' ++ after) =
        (readBack? (List.replicate count '\\' ++ after)).map ('\\' :: ·) := by
      simp [List.replicate_succ, readBack?]
    rw [htwo, Option.isSome_map, ih, Nat.add_mod_right]

/-- A run ends where its backslashes end, so a string begins with one run only. -/
theorem run_unique {other : Nat} {rest : List Char} (hrest : rest.head? ≠ some '\\')
    (h : List.replicate count '\\' ++ after = List.replicate other '\\' ++ rest) :
    count = other ∧ after = rest := by
  induction count generalizing other with
  | zero =>
    cases other with
    | zero => exact ⟨rfl, h⟩
    | succ other => exact absurd (by simp [show after = _ from h, List.replicate_succ]) hafter
  | succ count ih =>
    cases other with
    | zero => exact absurd (by simp [← show _ = rest from h, List.replicate_succ]) hrest
    | succ other =>
      obtain ⟨rfl, rfl⟩ := ih (List.cons.inj h).2
      exact ⟨rfl, rfl⟩

/-- A prefix that does not end in a backslash goes beyond the first run. -/
theorem run_append {before rest : List Char} (hne : before ≠ [])
    (hlast : before.getLast? ≠ some '\\')
    (h : List.replicate count '\\' ++ after = before ++ rest) :
    ∃ c before', c ≠ '\\' ∧ after = c :: (before' ++ rest) ∧
      before = List.replicate count '\\' ++ c :: before' := by
  induction count generalizing before with
  | zero =>
    obtain ⟨c, before', rfl⟩ := List.exists_cons_of_ne_nil hne
    have hcs : after = c :: (before' ++ rest) := h
    exact ⟨c, before', by simpa [hcs] using hafter, hcs, rfl⟩
  | succ count ih =>
    obtain ⟨c, before, rfl⟩ := List.exists_cons_of_ne_nil hne
    obtain ⟨rfl, htail⟩ := List.cons.inj h
    have hbefore : before ≠ [] := by
      rintro rfl
      exact hlast rfl
    rw [List.getLast?_cons_of_ne_nil hbefore] at hlast
    obtain ⟨c, before', hc, hcs, rfl⟩ := ih hbefore hlast htail
    exact ⟨c, before', hc, hcs, rfl⟩

theorem evenRuns_run (count : Nat) :
    EvenRuns (List.replicate count '\\' ++ after) ↔
      ((after = [] ∨ after.head? = some '\'') → count % 2 = 0) ∧ EvenRuns after.tail := by
  constructor
  · intro h
    refine ⟨h [] count after rfl (by simp), ?_⟩
    cases after with
    | nil => exact evenRuns_nil
    | cons c cs =>
      intro before other rest hrest hlast hend
      have hc : c ≠ '\\' := by simpa using hafter
      have hlast' := mt (getLast?_append_plain hc (List.replicate count '\\') before).mp hlast
      have hsplit : List.replicate count '\\' ++ c :: cs =
          List.replicate count '\\' ++ c :: before ++ List.replicate other '\\' ++ rest := by
        rw [show cs = _ from hrest]
        simp
      exact h _ other rest hsplit hlast' hend
  · rintro ⟨hcount, htail⟩ before other rest heq hlast hend
    by_cases hbefore : before = []
    · have hrest : rest.head? ≠ some '\\' := by
        rcases hend with rfl | hend
        · simp
        · simp [hend]
      rw [hbefore, List.nil_append] at heq
      obtain ⟨rfl, rfl⟩ := run_unique hafter hrest heq
      exact hcount hend
    · rw [List.append_assoc] at heq
      obtain ⟨c, before', hc, rfl, rfl⟩ := run_append hafter hbefore hlast heq
      have hlast' := mt (getLast?_append_plain hc (List.replicate count '\\') before').mpr hlast
      exact htail before' other rest (List.append_assoc ..).symm hlast' hend

end Runs

/-- Reading and the runs of a string go through it in the same way, one run and one character at a time. -/
theorem isSome_readBack? (cs : List Char) : (readBack? cs).isSome ↔ EvenRuns cs := by
  induction hlength : cs.length using Nat.strong_induction_on generalizing cs with
  | _ length ih =>
    obtain ⟨count, after, rfl, hafter⟩ := exists_run cs
    rw [isSome_readBack?_run hafter, evenRuns_run hafter]
    refine and_congr_right fun _ => ?_
    cases after with
    | nil => exact iff_of_true rfl evenRuns_nil
    | cons c cs =>
      refine ih cs.length ?_ cs rfl
      simp only [← hlength, List.length_append, List.length_cons]
      omega

end StringLiteral

open StringLiteral

/-- A string is read back from its literal, whatever follows, if and only if each of its backslashes
stands right before a double quote. The literal closes where it ends if and only if every run of
backslashes before a single quote or at the end of the string is even. -/
theorem string_literal_read_back (s rest : String) :
    (read? ((Scalar.str s).sql ++ rest) = some (s, rest) ↔ BeforeDoubleQuotes s.toList) ∧
      ((∃ t, read? ((Scalar.str s).sql ++ rest) = some (t, rest)) ↔ EvenRuns s.toList) := by
  refine ⟨?_, ?_⟩
  · rw [read?_sql, readQuoted_escaped, readBack?_eq_self]
  · rw [← isSome_readBack?, Option.isSome_iff_exists]
    constructor
    · rintro ⟨t, ht⟩
      rw [read?_sql, readQuoted_escaped] at ht
      exact ⟨t.toList, ht⟩
    · rintro ⟨t, ht⟩
      refine ⟨String.ofList t, ?_⟩
      rw [read?_sql, readQuoted_escaped, String.toList_ofList, ht]

/-- A backslash at the end takes the closing quote, and one before a quote takes the backslash of that
quote, which then closes the literal. -/
theorem string_literal_not_read_back :
    read? ((Scalar.str "\\").sql ++ "") = none ∧
      read? ((Scalar.str "\\' OR 1 < 2 --").sql ++ "") = some ("\\", " OR 1 < 2 --'") ∧
      ¬ ∀ s rest : String, read? ((Scalar.str s).sql ++ rest) = some (s, rest) := by
  have hlast : read? ((Scalar.str "\\").sql ++ "") = none := by decide
  refine ⟨hlast, by decide, fun h => ?_⟩
  have hread := (h "\\" "").symm.trans hlast
  contradiction

end FilterSql
