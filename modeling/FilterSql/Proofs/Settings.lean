import FilterSql.Proofs.Decoding
import FilterSql.Proofs.IntegerText
import FilterSql.Settings

/-!
Settings by their entries. What a value of each key has to be is said without the functions that read it,
and so are the columns of an object in which an id may be repeated. Settings are read exactly if no key is
repeated and every value fits its key; they have what is given and the defaults elsewhere. Setting one
key leaves the others alone, so the order of the entries does not matter, and an array is one of the
orders.
-/

namespace FilterSql

open Json (Document Key)

namespace Columns

theorem ofList_append_singleton (pairs : List (Int × String)) (pair : Int × String) :
    ofList (pairs ++ [pair]) = (ofList pairs).insert pair.1 pair.2 := by
  rw [ofList, List.foldl_append]
  rfl

/-- The name of an id is the one of its last pair. -/
theorem get?_ofList_eq_some {pairs : List (Int × String)} {id : Int} {name : String} :
    (ofList pairs).get? id = some name ↔
      ∃ before after, pairs = before ++ (id, name) :: after ∧ ∀ pair ∈ after, pair.1 ≠ id := by
  induction pairs using List.reverseRecOn with
  | nil => simp [ofList]
  | append_singleton front pair ih =>
    rw [ofList_append_singleton, get?_insert]
    constructor
    · intro h
      split at h
      · next hid =>
        obtain rfl : pair.2 = name := Option.some.inj h
        exact ⟨front, [], by rw [← hid], by simp⟩
      · next hid =>
        obtain ⟨before, after, rfl, hafter⟩ := ih.mp h
        refine ⟨before, after ++ [pair], by simp, fun other hother => ?_⟩
        rcases List.mem_append.mp hother with hother | hother
        · exact hafter other hother
        · exact List.mem_singleton.mp hother ▸ hid
    · rintro ⟨before, after, hsplit, hafter⟩
      rcases List.eq_nil_or_concat after with rfl | ⟨after, last, rfl⟩
      · obtain ⟨-, hlast⟩ := List.append_inj' hsplit rfl
        obtain rfl : pair = (id, name) := by simpa using hlast
        exact if_pos rfl
      · rw [List.concat_eq_append, ← List.cons_append, ← List.append_assoc] at hsplit
        obtain ⟨hfront, hlast⟩ := List.append_inj' hsplit rfl
        obtain rfl : pair = last := by simpa using hlast
        have hid : pair.1 ≠ id := hafter pair (by simp)
        rw [if_neg hid]
        exact ih.mpr ⟨before, after, hfront, fun other hother => hafter other (by simp [hother])⟩

/-- An id has one entry. -/
theorem nodup_ofList (pairs : List (Int × String)) : ((ofList pairs).entries.map Prod.fst).Nodup := by
  induction pairs using List.reverseRecOn with
  | nil => exact .nil
  | append_singleton front pair ih =>
    rw [ofList_append_singleton]
    refine List.nodup_cons.mpr ⟨?_, ih.sublist (List.filter_sublist.map Prod.fst)⟩
    simp

end Columns

theorem Dialect.ofSpelling?_eq_some {text : String} {dialect : Dialect} :
    ofSpelling? text = some dialect ↔ text ∈ dialect.spellings := by
  constructor
  · intro h
    have hcontains : dialect.spellings.contains text = true :=
      List.find?_some (p := fun dialect : Dialect => dialect.spellings.contains text) h
    exact List.contains_iff_mem.mp hcontains
  · intro h
    have hall : ∀ text ∈ dialect.spellings, ofSpelling? text = some dialect := by
      cases dialect <;> decide
    exact hall text h

namespace Settings

/-- A key that is the numeral of an id, as it stands between its quotes. -/
def Spells (key : Key) (id : Int) : Prop := Columns.IsId id ∧ key.raw = Number.intText id

/-- The columns of an object: its keys are ids and its values names. The last name of an id counts, and
each id has one entry. -/
inductive ColumnsOf : Document → Columns → Prop where
  | obj {members : List (Key × Document)} {columns : Columns}
      (entries : ∀ member ∈ members,
        (∃ id, Spells member.1 id) ∧ ∃ name, member.2 = .scalar (.str name))
      (last : ∀ id name, columns.get? id = some name ↔
        ∃ before key after, members = before ++ (key, .scalar (.str name)) :: after ∧
          Spells key id ∧ ∀ member ∈ after, ¬ Spells member.1 id)
      (single : (columns.entries.map Prod.fst).Nodup) : ColumnsOf (.obj members) columns

/-- The dialect of a value: none, or the one of a spelling, which may also be the only key of an object
with nothing under it. -/
inductive DialectOf : Document → Option Dialect → Prop where
  | none : DialectOf (.scalar .null) none
  | text {text : String} {dialect : Dialect} : text ∈ dialect.spellings →
      DialectOf (.scalar (.str text)) (some dialect)
  | key {key : Key} {dialect : Dialect} : key.text ∈ dialect.spellings →
      DialectOf (.obj [(key, .scalar .null)]) (some dialect)

/-- The values that a key may have. -/
inductive Admissible : String → Document → Prop where
  | columns {members : List (Key × Document)} :
      (∀ member ∈ members, (∃ id, Spells member.1 id) ∧ ∃ name, member.2 = .scalar (.str name)) →
      Admissible "fields" (.obj members)
  | table (name : String) : Admissible "table" (.scalar (.str name))
  | maxDepth {n : Nat} : n < Nat.pow 2 64 → Admissible "max_depth" (.scalar (.num (.int n)))
  | dialect {value : Document} {dialect : Option Dialect} : DialectOf value dialect →
      Admissible "dialect" value

/-- Settings that have the value given for a key. -/
inductive Has (settings : Settings) : String → Document → Prop where
  | columns {value : Document} : ColumnsOf value settings.columns → Has settings "fields" value
  | table : Has settings "table" (.scalar (.str settings.table))
  | maxDepth : settings.maxDepth < Nat.pow 2 64 →
      Has settings "max_depth" (.scalar (.num (.int settings.maxDepth)))
  | dialect {value : Document} : DialectOf value settings.dialect → Has settings "dialect" value

/-- The part of settings that belongs to a key, with the defaults for all else. -/
def only (key : String) (settings : Settings) : Settings :=
  match key with
  | "fields" => { default with columns := settings.columns }
  | "table" => { default with table := settings.table }
  | "max_depth" => { default with maxDepth := settings.maxDepth }
  | "dialect" => { default with dialect := settings.dialect }
  | _ => default

section Values

theorem columnId?_eq_some {key : Key} {id : Int} : columnId? key = some id ↔ Spells key id := by
  have hwords : (Nat.pow 2 63 : Int) ≤ Nat.pow 2 64 := by decide
  rw [columnId?, Option.bind_eq_some_iff, Spells]
  constructor
  · rintro ⟨n, hread, hint⟩
    obtain ⟨rfl, hid⟩ := Number.toInt64?_eq_some.mp hint
    exact ⟨hid, String.toList_inj.mp (Number.read?_eq_int.mp hread).2⟩
  · rintro ⟨hid, hraw⟩
    have hword : Number.IsWord id := ⟨hid.1, Int.lt_of_lt_of_le hid.2 hwords⟩
    exact ⟨.int id, Number.read?_eq_int.mpr ⟨hword, congrArg String.toList hraw⟩,
      Number.toInt64?_eq_some.mpr ⟨rfl, hid⟩⟩

theorem columnEntry?_eq_some {member : Key × Document} {pair : Int × String} :
    columnEntry? member = some pair ↔
      Spells member.1 pair.1 ∧ member.2 = .scalar (.str pair.2) := by
  obtain ⟨key, value⟩ := member
  obtain ⟨id, name⟩ := pair
  unfold columnEntry?
  split
  · next key name' heq =>
    obtain ⟨rfl, rfl⟩ := Prod.mk.inj heq
    simp [← columnId?_eq_some]
  · next hother =>
    simp only [reduceCtorEq, false_iff, not_and]
    rintro - rfl
    exact hother key name rfl

theorem mapM_eq_some {α β : Type} {f : α → Option β} {xs : List α} {ys : List β} :
    xs.mapM f = some ys ↔ xs.map f = ys.map some := by
  induction xs generalizing ys with
  | nil => cases ys <;> simp
  | cons x xs ih =>
    cases ys with
    | nil => simp [Option.bind_eq_some_iff]
    | cons y ys => simp [Option.bind_eq_some_iff, ih]

theorem exists_mapM {α β : Type} {f : α → Option β} {xs : List α}
    (h : ∀ x ∈ xs, ∃ y, f x = some y) : ∃ ys, xs.mapM f = some ys := by
  induction xs with
  | nil => exact ⟨[], rfl⟩
  | cons x xs ih =>
    obtain ⟨⟨y, hy⟩, hxs⟩ := List.forall_mem_cons.mp h
    obtain ⟨ys, hys⟩ := ih hxs
    exact ⟨y :: ys, by simp [hy, hys]⟩

/-- The members of an object and its pairs go along with each other, so that the last member of an id
gives the last pair of it. -/
theorem columnsOf_ofList {members : List (Key × Document)} {pairs : List (Int × String)}
    (h : members.map columnEntry? = pairs.map some) :
    ColumnsOf (.obj members) (Columns.ofList pairs) := by
  refine .obj (fun member hmember => ?_) (fun id name => ?_) (Columns.nodup_ofList pairs)
  · have hentry : columnEntry? member ∈ pairs.map some := h ▸ List.mem_map_of_mem hmember
    obtain ⟨pair, -, hpair⟩ := List.mem_map.mp hentry
    obtain ⟨hspells, hname⟩ := columnEntry?_eq_some.mp hpair.symm
    exact ⟨⟨pair.1, hspells⟩, pair.2, hname⟩
  · rw [Columns.get?_ofList_eq_some]
    constructor
    · rintro ⟨before, after, rfl, hafter⟩
      rw [List.map_append, List.map_cons] at h
      obtain ⟨front, tail, rfl, -, htail⟩ := List.map_eq_append_iff.mp h
      obtain ⟨⟨key, value⟩, rest, rfl, hentry, hrest⟩ := List.map_eq_cons_iff.mp htail
      obtain ⟨hspells, rfl⟩ := columnEntry?_eq_some.mp hentry
      refine ⟨front, key, rest, rfl, hspells, fun member hmember hid => ?_⟩
      have hpair : columnEntry? member ∈ after.map some := hrest ▸ List.mem_map_of_mem hmember
      obtain ⟨pair, hpair, heq⟩ := List.mem_map.mp hpair
      have hsame := columnId?_eq_some.mpr hid
      rw [columnId?_eq_some.mpr (columnEntry?_eq_some.mp heq.symm).1] at hsame
      exact hafter pair hpair (Option.some.inj hsame)
    · rintro ⟨front, key, rest, rfl, hspells, hrest⟩
      rw [List.map_append, List.map_cons] at h
      obtain ⟨before, tail, rfl, -, htail⟩ := List.map_eq_append_iff.mp h.symm
      obtain ⟨pair, after, rfl, hentry, hafter⟩ := List.map_eq_cons_iff.mp htail
      have hpair : columnEntry? (key, .scalar (.str name)) = some (id, name) :=
        columnEntry?_eq_some.mpr ⟨hspells, rfl⟩
      obtain rfl : pair = (id, name) := Option.some.inj (hentry.trans hpair)
      refine ⟨before, after, rfl, fun other hother hid => ?_⟩
      have hmember : some other ∈ rest.map columnEntry? := hafter ▸ List.mem_map_of_mem hother
      obtain ⟨member, hmember, heq⟩ := List.mem_map.mp hmember
      exact hrest member hmember (hid ▸ (columnEntry?_eq_some.mp heq).1)

theorem columnsOf_of_columns? {value : Document} {columns : Columns}
    (h : columns? value = some columns) : ColumnsOf value columns := by
  unfold columns? at h
  split at h
  · obtain ⟨pairs, hpairs, rfl⟩ := Option.map_eq_some_iff.mp h
    exact columnsOf_ofList (mapM_eq_some.mp hpairs)
  · contradiction

theorem exists_columns? {members : List (Key × Document)}
    (h : ∀ member ∈ members, (∃ id, Spells member.1 id) ∧ ∃ name, member.2 = .scalar (.str name)) :
    ∃ columns, columns? (.obj members) = some columns := by
  obtain ⟨pairs, hpairs⟩ := exists_mapM fun member hmember => by
    obtain ⟨⟨id, hid⟩, name, hname⟩ := h member hmember
    exact ⟨(id, name), columnEntry?_eq_some.mpr ⟨hid, hname⟩⟩
  exact ⟨Columns.ofList pairs, by rw [columns?, hpairs]; rfl⟩

theorem dialect?_eq_some {value : Document} {dialect : Option Dialect} :
    dialect? value = some dialect ↔ DialectOf value dialect := by
  constructor
  · intro h
    unfold dialect? at h
    split at h
    · exact Option.some.inj h ▸ .none
    · obtain ⟨found, hfound, rfl⟩ := Option.map_eq_some_iff.mp h
      exact .text (Dialect.ofSpelling?_eq_some.mp hfound)
    · obtain ⟨found, hfound, rfl⟩ := Option.map_eq_some_iff.mp h
      exact .key (Dialect.ofSpelling?_eq_some.mp hfound)
    · contradiction
  · rintro (_ | htext | hkey)
    · rfl
    · rw [dialect?, Dialect.ofSpelling?_eq_some.mpr htext]
      rfl
    · rw [dialect?, Dialect.ofSpelling?_eq_some.mpr hkey]
      rfl

theorem maxDepth?_eq_some {value : Document} {n : Nat} :
    maxDepth? value = some n ↔ value = .scalar (.num (.int n)) ∧ n < Nat.pow 2 64 := by
  unfold maxDepth?
  split
  · next i =>
    simp
    omega
  · next hother =>
    simp only [reduceCtorEq, false_iff, not_and]
    rintro rfl
    exact absurd rfl (hother _)

theorem table?_eq_some {value : Document} {name : String} :
    table? value = some name ↔ value = .scalar (.str name) := by
  unfold table?
  split
  · simp
  · next hother =>
    simp only [reduceCtorEq, false_iff]
    exact hother name

end Values

section Entries

variable {settings next start : Settings} {key : String} {value : Document}
  {entries : List (String × Document)}

theorem only_default (key : String) : only key default = default := by
  unfold only
  split <;> rfl

/-- Settings are made of the parts of their keys. -/
theorem eq_of_only {a b : Settings} (h : ∀ key, only key a = only key b) : a = b := by
  cases a
  cases b
  congr
  · exact congrArg columns (h "fields")
  · exact congrArg table (h "table")
  · exact congrArg maxDepth (h "max_depth")
  · exact congrArg dialect (h "dialect")

/-- Whether settings have a value is a matter of its key alone. -/
theorem Has.of_only {a b : Settings} (h : a.Has key value) (hsame : only key b = only key a) :
    b.Has key value := by
  cases h with
  | columns h =>
    obtain ⟨hcolumns, -⟩ := Settings.mk.inj hsame
    exact .columns (hcolumns ▸ h)
  | table =>
    obtain ⟨-, htable, -⟩ := Settings.mk.inj hsame
    exact htable ▸ .table
  | maxDepth h =>
    obtain ⟨-, -, hdepth, -⟩ := Settings.mk.inj hsame
    exact hdepth ▸ .maxDepth (hdepth ▸ h)
  | dialect h =>
    obtain ⟨-, -, -, hdialect⟩ := Settings.mk.inj hsame
    exact .dialect (hdialect ▸ h)

theorem Has.admissible (h : settings.Has key value) : Admissible key value := by
  cases h with
  | columns h =>
    obtain ⟨hentries, -, -⟩ := h
    exact .columns hentries
  | table => exact .table settings.table
  | maxDepth h => exact .maxDepth h
  | dialect h => exact .dialect h

theorem Admissible.mem_keys (h : Admissible key value) : key ∈ keys := by
  cases h <;> decide

/-- All that a step can do: one of the four keys is given, and its part is replaced. -/
theorem set?_cases (h : settings.set? key value = some next) :
    (key = "fields" ∧ ∃ columns, columns? value = some columns ∧ next = { settings with columns }) ∨
    (key = "table" ∧ ∃ table, table? value = some table ∧ next = { settings with table }) ∨
    (key = "max_depth" ∧ ∃ maxDepth, maxDepth? value = some maxDepth ∧
      next = { settings with maxDepth }) ∨
    (key = "dialect" ∧ ∃ dialect, dialect? value = some dialect ∧ next = { settings with dialect }) := by
  unfold set? at h
  split at h
  · obtain ⟨columns, hcolumns, rfl⟩ := Option.map_eq_some_iff.mp h
    exact .inl ⟨rfl, columns, hcolumns, rfl⟩
  · obtain ⟨table, htable, rfl⟩ := Option.map_eq_some_iff.mp h
    exact .inr (.inl ⟨rfl, table, htable, rfl⟩)
  · obtain ⟨maxDepth, hdepth, rfl⟩ := Option.map_eq_some_iff.mp h
    exact .inr (.inr (.inl ⟨rfl, maxDepth, hdepth, rfl⟩))
  · obtain ⟨dialect, hdialect, rfl⟩ := Option.map_eq_some_iff.mp h
    exact .inr (.inr (.inr ⟨rfl, dialect, hdialect, rfl⟩))
  · contradiction

/-- What is given for a key is there afterwards. -/
theorem has_of_set? (h : settings.set? key value = some next) : next.Has key value := by
  obtain ⟨rfl, columns, hcolumns, rfl⟩ | ⟨rfl, table, htable, rfl⟩ | ⟨rfl, maxDepth, hdepth, rfl⟩ |
    ⟨rfl, dialect, hdialect, rfl⟩ := set?_cases h
  · exact .columns (columnsOf_of_columns? hcolumns)
  · obtain rfl := table?_eq_some.mp htable
    exact .table
  · obtain ⟨rfl, hlt⟩ := maxDepth?_eq_some.mp hdepth
    exact .maxDepth hlt
  · exact .dialect (dialect?_eq_some.mp hdialect)

/-- The parts of all other keys are as they were. -/
theorem only_of_set? (h : settings.set? key value = some next) {other : String} (hne : other ≠ key) :
    only other next = only other settings := by
  obtain ⟨rfl, columns, -, rfl⟩ | ⟨rfl, table, -, rfl⟩ | ⟨rfl, maxDepth, -, rfl⟩ |
    ⟨rfl, dialect, -, rfl⟩ := set?_cases h
  all_goals unfold only
  · split
    · exact absurd rfl hne
    all_goals rfl
  · split
    · rfl
    · exact absurd rfl hne
    all_goals rfl
  · split
    · rfl
    · rfl
    · exact absurd rfl hne
    all_goals rfl
  · split
    · rfl
    · rfl
    · rfl
    · exact absurd rfl hne
    · rfl

/-- What a key is set to does not depend on the settings before, and might have been set in the
defaults. -/
theorem set?_default (h : settings.set? key value = some next) :
    default.set? key value = some (only key next) := by
  obtain ⟨rfl, columns, hcolumns, rfl⟩ | ⟨rfl, table, htable, rfl⟩ | ⟨rfl, maxDepth, hdepth, rfl⟩ |
    ⟨rfl, dialect, hdialect, rfl⟩ := set?_cases h
  · rw [set?, hcolumns]
    rfl
  · rw [set?, htable]
    rfl
  · rw [set?, hdepth]
    rfl
  · rw [set?, hdialect]
    rfl

theorem only_set? {a b a' b' : Settings} (ha : a.set? key value = some a')
    (hb : b.set? key value = some b') : only key a' = only key b' :=
  Option.some.inj ((set?_default ha).symm.trans (set?_default hb))

theorem exists_set? (h : Admissible key value) (settings : Settings) :
    ∃ next, settings.set? key value = some next := by
  cases h with
  | columns h =>
    obtain ⟨columns, hcolumns⟩ := exists_columns? h
    exact ⟨_, by rw [set?, hcolumns]; rfl⟩
  | table name => exact ⟨_, rfl⟩
  | maxDepth h => exact ⟨_, by rw [set?, maxDepth?_eq_some.mpr ⟨rfl, h⟩]; rfl⟩
  | dialect h => exact ⟨_, by rw [set?, dialect?_eq_some.mpr h]; rfl⟩

/-- A run over entries with different keys: each entry sets its key, and no later one touches it. -/
theorem has_of_foldlM (hnodup : (entries.map Prod.fst).Nodup)
    (h : entries.foldlM (fun settings entry => settings.set? entry.1 entry.2) start = some settings) :
    (∀ entry ∈ entries, settings.Has entry.1 entry.2) ∧
      ∀ key, key ∉ entries.map Prod.fst → only key settings = only key start := by
  induction entries generalizing start with
  | nil =>
    obtain rfl : start = settings := Option.some.inj h
    exact ⟨by simp, fun _ _ => rfl⟩
  | cons entry rest ih =>
    obtain ⟨hfirst, hrest⟩ := List.nodup_cons.mp hnodup
    rw [List.foldlM_cons] at h
    obtain ⟨next, hnext, hrun⟩ := Option.bind_eq_some_iff.mp h
    obtain ⟨hlater, hkept⟩ := ih hrest hrun
    have hhas : settings.Has entry.1 entry.2 := (has_of_set? hnext).of_only (hkept entry.1 hfirst)
    refine ⟨List.forall_mem_cons.mpr ⟨hhas, hlater⟩, fun key hkey => ?_⟩
    rw [List.map_cons, List.mem_cons, not_or] at hkey
    exact (hkept key hkey.2).trans (only_of_set? hnext hkey.1)

theorem exists_foldlM (h : ∀ entry ∈ entries, Admissible entry.1 entry.2)
    (start : Settings) :
    ∃ settings, entries.foldlM (fun settings entry => settings.set? entry.1 entry.2) start =
      some settings := by
  induction entries generalizing start with
  | nil => exact ⟨start, rfl⟩
  | cons entry rest ih =>
    obtain ⟨hfirst, hrest⟩ := List.forall_mem_cons.mp h
    obtain ⟨next, hnext⟩ := exists_set? hfirst start
    obtain ⟨settings, hsettings⟩ := ih hrest next
    exact ⟨settings, by rw [List.foldlM_cons, hnext]; exact hsettings⟩

theorem ofEntries?_eq_some_iff :
    (∃ settings, ofEntries? entries = some settings) ↔
      (entries.map Prod.fst).Nodup ∧
        ∀ entry ∈ entries, entry.1 ∈ keys ∧ Admissible entry.1 entry.2 := by
  unfold ofEntries?
  constructor
  · rintro ⟨settings, h⟩
    split at h
    · next hnodup =>
      obtain ⟨hhas, -⟩ := has_of_foldlM hnodup h
      have hadmissible (entry) (hentry : entry ∈ entries) := (hhas entry hentry).admissible
      exact ⟨hnodup, fun entry hentry =>
        ⟨(hadmissible entry hentry).mem_keys, hadmissible entry hentry⟩⟩
    · contradiction
  · rintro ⟨hnodup, hentries⟩
    rw [if_pos hnodup]
    exact exists_foldlM (fun entry hentry => (hentries entry hentry).2) default

theorem has_of_ofEntries? (h : ofEntries? entries = some settings) :
    (∀ entry ∈ entries, settings.Has entry.1 entry.2) ∧
      ∀ key, key ∉ entries.map Prod.fst → only key settings = default := by
  unfold ofEntries? at h
  split at h
  · next hnodup =>
    obtain ⟨hhas, hkept⟩ := has_of_foldlM hnodup h
    exact ⟨hhas, fun key hkey => (hkept key hkey).trans (only_default key)⟩
  · contradiction

/-- Two entries with different keys, set one after the other, can also be set the other way round. -/
theorem set?_swap {other : String} {otherValue : Document} {both : Settings} (hne : key ≠ other)
    (h : settings.set? key value = some next) (hboth : next.set? other otherValue = some both) :
    ∃ next', settings.set? other otherValue = some next' ∧ next'.set? key value = some both := by
  obtain ⟨next', hnext'⟩ := exists_set? (has_of_set? hboth).admissible settings
  obtain ⟨both', hboth'⟩ := exists_set? (has_of_set? h).admissible next'
  refine ⟨next', hnext', ?_⟩
  -- each part is decided by the entry that sets it, and by the start if neither does
  have heq : both' = both := by
    apply eq_of_only
    intro part
    by_cases hkey : part = key
    · subst hkey
      calc only part both' = only part next := only_set? hboth' h
        _ = only part both := (only_of_set? hboth hne).symm
    by_cases hother : part = other
    · subst hother
      calc only part both' = only part next' := only_of_set? hboth' hkey
        _ = only part both := only_set? hnext' hboth
    calc only part both' = only part next' := only_of_set? hboth' hkey
      _ = only part settings := only_of_set? hnext' hother
      _ = only part next := (only_of_set? h hkey).symm
      _ = only part both := (only_of_set? hboth hother).symm
  rw [hboth', heq]

theorem set?_comm {other : String} (hne : key ≠ other) (settings : Settings)
    (value otherValue : Document) :
    (settings.set? key value).bind (·.set? other otherValue) =
      (settings.set? other otherValue).bind (·.set? key value) := by
  ext both
  simp only [Option.bind_eq_some_iff]
  constructor
  · rintro ⟨next, hnext, hboth⟩
    exact set?_swap hne hnext hboth
  · rintro ⟨next, hnext, hboth⟩
    exact set?_swap hne.symm hnext hboth

theorem foldlM_perm {others : List (String × Document)} (hperm : entries.Perm others)
    (hnodup : (entries.map Prod.fst).Nodup) (start : Settings) :
    entries.foldlM (fun settings entry => settings.set? entry.1 entry.2) start =
      others.foldlM (fun settings entry => settings.set? entry.1 entry.2) start := by
  induction hperm generalizing start with
  | nil => rfl
  | cons entry _ ih =>
    rw [List.foldlM_cons, List.foldlM_cons]
    exact congrArg _ (funext fun next => ih (List.nodup_cons.mp hnodup).2 next)
  | swap first second rest =>
    have hne : second.1 ≠ first.1 := by
      intro heq
      exact (List.nodup_cons.mp hnodup).1 (heq ▸ List.mem_cons_self)
    have hswap := set?_comm hne start second.2 first.2
    calc (second :: first :: rest).foldlM (fun settings entry => settings.set? entry.1 entry.2) start
        = ((start.set? second.1 second.2).bind (·.set? first.1 first.2)).bind
            (rest.foldlM fun settings entry => settings.set? entry.1 entry.2) := by
          rw [Option.bind_assoc]
          rfl
      _ = ((start.set? first.1 first.2).bind (·.set? second.1 second.2)).bind
            (rest.foldlM fun settings entry => settings.set? entry.1 entry.2) := by rw [hswap]
      _ = (first :: second :: rest).foldlM
            (fun settings entry => settings.set? entry.1 entry.2) start := by
          rw [Option.bind_assoc]
          rfl
  | trans hfirst _ ihfirst ihsecond =>
    have hmiddle := (hfirst.map Prod.fst).nodup_iff.mp hnodup
    exact (ihfirst hnodup start).trans (ihsecond hmiddle start)

theorem ofEntries?_perm {others : List (String × Document)} (hperm : entries.Perm others) :
    ofEntries? entries = ofEntries? others := by
  unfold ofEntries?
  by_cases hnodup : (entries.map Prod.fst).Nodup
  · rw [if_pos hnodup, if_pos ((hperm.map Prod.fst).nodup_iff.mp hnodup),
      foldlM_perm hperm hnodup]
  · rw [if_neg hnodup, if_neg (mt (hperm.map Prod.fst).nodup_iff.mpr hnodup)]

end Entries

end Settings

open Settings (keys Admissible)

/-- Settings are read from the entries of an object exactly if no key is repeated, every key is known and
every value fits its key. They have the value of every entry and the defaults of all other keys, in
whatever order the entries stand; and the values of the first keys may also be given by position. -/
theorem settings_by_entries (members : List (Key × Document)) :
    let entries := members.map fun member => (member.1.text, member.2)
    ((∃ settings, Settings.ofDocument? (.obj members) = some settings) ↔
      (entries.map Prod.fst).Nodup ∧
        ∀ entry ∈ entries, entry.1 ∈ keys ∧ Admissible entry.1 entry.2) ∧
    (∀ settings, Settings.ofDocument? (.obj members) = some settings →
      (∀ entry ∈ entries, settings.Has entry.1 entry.2) ∧
        ∀ key, key ∉ entries.map Prod.fst → settings.only key = Settings.default) ∧
    (∀ others, members.Perm others →
      Settings.ofDocument? (.obj others) = Settings.ofDocument? (.obj members)) ∧
    (∀ values, values.length ≤ keys.length → entries.Perm (keys.zip values) →
      Settings.ofDocument? (.arr values) = Settings.ofDocument? (.obj members)) ∧
    ∀ text document, Document.read? text = some document →
      Settings.read? text = Settings.ofDocument? document := by
  intro entries
  refine ⟨Settings.ofEntries?_eq_some_iff, fun settings => Settings.has_of_ofEntries?,
    fun others hperm => ?_, fun values hlength hperm => ?_, fun text document htext => ?_⟩
  · exact (Settings.ofEntries?_perm (hperm.map _)).symm
  · have hvalues : Settings.ofDocument? (.arr values) = Settings.ofEntries? (keys.zip values) :=
      if_pos hlength
    exact hvalues.trans (Settings.ofEntries?_perm hperm).symm
  · rw [Settings.read?, htext]
    rfl

/-- Three of the keys, one of them written with an escape, in an order of their own, and an id with two
names. -/
theorem settings_by_entries_escaped :
    let name (text : String) : Document := .scalar (.str text)
    let plain (text : String) : Key := ⟨text, text⟩
    let fields : Document :=
      .obj [(plain "5", name "a"), (plain "-7", name "b"), (plain "5", name "c")]
    let depth : Document := .scalar (.num (.int 8))
    let members : List (Key × Document) :=
      [(plain "max_depth", depth), (plain "fields", fields), (⟨"t\\u0061ble", "table"⟩, name "t")]
    let text := "\x7b\"max_depth\":8,\"fields\":\x7b\"5\":\"a\",\"-7\":\"b\",\"5\":\"c\"\x7d," ++
      "\"t\\u0061ble\":\"t\"\x7d"
    Document.read? text = some (.obj members) ∧
      ∃ settings, Settings.read? text = some settings ∧ settings.Has "fields" fields ∧
        settings.Has "table" (name "t") ∧ settings.Has "max_depth" depth ∧ settings.dialect = none ∧
        Settings.ofDocument? (.obj members.reverse) = some settings ∧
        Settings.ofDocument? (.arr [fields, name "t", depth]) = some settings := by
  intro name plain fields depth members text
  have hscan : Json.Token.scan? text.toList = some
      [.objOpen, .quoted "max_depth" "max_depth", .colon, .bare (.num (.int 8)), .comma,
        .quoted "fields" "fields", .colon, .objOpen, .quoted "5" "5", .colon, .quoted "a" "a", .comma,
        .quoted "-7" "-7", .colon, .quoted "b" "b", .comma, .quoted "5" "5", .colon, .quoted "c" "c",
        .objClose, .comma, .quoted "t\\u0061ble" "table", .colon, .quoted "t" "t", .objClose] := by
    decide +kernel
  have htext : Document.read? text = some (.obj members) := by
    rw [Document.read?, Document.readWithin?, hscan]
    rfl
  obtain ⟨hread, hhas, horder, hposition, hfrom⟩ := settings_by_entries members
  have hspells (id : Int) (hid : Columns.IsId id) :
      Settings.Spells (plain (Number.intText id)) id := ⟨hid, rfl⟩
  have hfields : Admissible "fields" fields := by
    refine .columns ?_
    simp only [List.forall_mem_cons]
    exact ⟨⟨⟨5, hspells 5 (by decide)⟩, "a", rfl⟩, ⟨⟨-7, hspells (-7) (by decide)⟩, "b", rfl⟩,
      ⟨⟨5, hspells 5 (by decide)⟩, "c", rfl⟩, by simp⟩
  obtain ⟨settings, hsettings⟩ := hread.mpr ⟨by decide, by
    simp only [members, List.map_cons, List.map_nil, List.forall_mem_cons]
    exact ⟨⟨by decide, .maxDepth (n := 8) (by decide)⟩, ⟨by decide, hfields⟩,
      ⟨by decide, .table "t"⟩, by simp⟩⟩
  obtain ⟨hgiven, hdefault⟩ := hhas settings hsettings
  refine ⟨htext, settings, (hfrom text _ htext).trans hsettings, ?_, ?_, ?_, ?_, ?_, ?_⟩
  · exact hgiven ("fields", fields) (by simp [members, plain])
  · exact hgiven ("table", name "t") (by simp [members, plain])
  · exact hgiven ("max_depth", depth) (by simp [members, plain])
  · exact congrArg Settings.dialect (hdefault "dialect" (by simp [members, plain]))
  · exact (horder _ (List.reverse_perm members).symm).trans hsettings
  · refine (hposition [fields, name "t", depth] (by decide) ?_).trans hsettings
    exact (List.Perm.swap _ _ _).trans (.cons _ (.swap _ _ _))

end FilterSql
