import FilterSql.Proofs.Encoding
import FilterSql.Proofs.Defects
import FilterSql.Query

/-!
Records. The answer to a record is determined by what stands under its two keys: the fault of the
condition comes first, then that of the limit, and a limit that is decoded but is no literal comes last.
Other keys, and the order in which keys are written, do not matter.
-/

namespace FilterSql

namespace Json

theorem member?_cons (key : String) (member : String × Json) (members : List (String × Json)) :
    member? key (member :: members) =
      if member.1 = key then some member.2 else member? key members := by
  by_cases hkey : member.1 = key
  · simp [member?, hkey]
  · simp [member?, hkey]

theorem member?_filter (keeps : String → Bool) {key : String} (h : keeps key = true)
    (members : List (String × Json)) :
    member? key (members.filter fun member => keeps member.1) = member? key members := by
  induction members with
  | nil => rfl
  | cons member rest ih =>
    rw [List.filter_cons]
    split
    · rw [member?_cons, member?_cons, ih]
    · next hdropped =>
      -- what is dropped has another key than the one that is kept
      have hkey : member.1 ≠ key := by
        rintro rfl
        exact hdropped h
      rw [member?_cons, if_neg hkey, ih]

/-- Where no key is repeated, the value of a key is the one that stands beside it. -/
theorem member?_eq_some_iff {members : List (String × Json)} (h : (members.map Prod.fst).Nodup)
    {key : String} {value : Json} : member? key members = some value ↔ (key, value) ∈ members := by
  induction members with
  | nil => simp [member?]
  | cons member rest ih =>
    obtain ⟨hfirst, hrest⟩ := List.nodup_cons.mp h
    rw [member?_cons, List.mem_cons]
    by_cases hkey : member.1 = key
    · have habsent : (key, value) ∉ rest := fun hmem =>
        hfirst (hkey ▸ List.mem_map_of_mem (f := Prod.fst) hmem)
      simp [hkey, habsent, Prod.ext_iff, eq_comm]
    · simp [hkey, ih hrest, Prod.ext_iff, Ne.symm hkey]

theorem member?_perm {members others : List (String × Json)} (hperm : members.Perm others)
    (h : (members.map Prod.fst).Nodup) (key : String) :
    member? key others = member? key members := by
  have hothers : (others.map Prod.fst).Nodup := (hperm.map Prod.fst).nodup_iff.mp h
  ext value
  rw [member?_eq_some_iff h, member?_eq_some_iff hothers, hperm.mem_iff]

theorem member?_insertMember (key other : String) (value : Json) (members : List (String × Json)) :
    member? other (insertMember key value members) =
      if key = other then some value else member? other members := by
  fun_induction insertMember key value members with
  | case1 => simp [member?_cons]
  | case2 => rw [member?_cons]
  | case3 =>
    rw [member?_cons, member?_cons]
    split <;> rfl
  | case4 k v rest _ hne ih =>
    rw [member?_cons, ih, member?_cons]
    by_cases hkey : key = other
    · have hk : k ≠ other := fun hk => hne (hkey.trans hk.symm)
      simp [hkey, hk]
    · simp [hkey]

/-- Members are put in one after another, so that the last one of a key is found first. -/
theorem member?_foldl_insertMember (key : String) (members sorted : List (String × Json)) :
    member? key (members.foldl (fun sorted m => insertMember m.1 m.2 sorted) sorted) =
      (member? key members.reverse).or (member? key sorted) := by
  induction members generalizing sorted with
  | nil => simp [member?]
  | cons member rest ih =>
    have hlast : member? key (rest.reverse ++ [member]) =
        (member? key rest.reverse).or (if member.1 = key then some member.2 else none) := by
      rw [member?, List.find?_append, Option.map_or]
      congr 1
      exact member?_cons key member []
    rw [List.foldl_cons, ih, member?_insertMember, List.reverse_cons, hlast, Option.or_assoc]
    split <;> simp

theorem member?_ofMembers {members others : List (String × Json)} (hperm : members.Perm others)
    (h : (members.map Prod.fst).Nodup) (key : String) :
    member? key (others.foldl (fun sorted m => insertMember m.1 m.2 sorted) []) =
      member? key members := by
  -- backwards is one more order of the members
  rw [member?_foldl_insertMember, member?_perm (hperm.trans others.reverse_perm.symm) h]
  simp [member?]

end Json

/-- The errors that speak of a record and not of an expression in it. -/
def DecodeError.ofRecord : DecodeError → Bool
  | .notRecord _ => true
  | .notLiteralLimit _ => true
  | _ => false

theorem Columns.ofRecord_of_idDefect {columns : Columns} {id : Json} {e : DecodeError}
    (h : columns.idDefect id = some e) : e.ofRecord = false := by
  unfold idDefect at h
  split at h
  · split at h
    · split at h
      · exact Option.some.inj h ▸ rfl
      · split at h
        · exact Option.some.inj h ▸ rfl
        · contradiction
    · exact Option.some.inj h ▸ rfl
  · exact Option.some.inj h ▸ rfl

theorem Json.ofRecord_of_defect {columns : Columns} {limit : Nat} {place : Nat × Json}
    {e : DecodeError} (h : defect columns limit place = some e) : e.ofRecord = false := by
  obtain ⟨level, node⟩ := place
  unfold defect at h
  dsimp only at h
  split at h
  · exact Option.some.inj h ▸ rfl
  · split at h
    · contradiction
    · split at h
      · exact Option.some.inj h ▸ rfl
      · split at h
        · split at h
          · obtain ⟨id, -, hid⟩ := List.exists_of_findSome?_eq_some h
            exact Columns.ofRecord_of_idDefect hid
          · contradiction
        · exact Option.some.inj h ▸ rfl
    · exact Option.some.inj h ▸ rfl

/-- An expression is refused for one of its own nodes. -/
theorem Expr.ofRecord_of_decode {columns : Columns} {limit : Nat} {node : Json} {e : DecodeError}
    (h : decode columns limit node = .error e) : e.ofRecord = false := by
  have hfirst := DecodeError.raised_eq_some.mpr h
  rw [raised_decode] at hfirst
  obtain ⟨place, -, hdefect⟩ := List.exists_of_findSome?_eq_some hfirst
  exact Json.ofRecord_of_defect hdefect

namespace Query

variable {columns : Columns} {maxDepth : Nat} {members : List (String × Json)}

theorem decode_congr {others : List (String × Json)}
    (hcondition : Json.member? "where" others = Json.member? "where" members)
    (hlimit : Json.member? "limit" others = Json.member? "limit" members) :
    decode columns maxDepth (.obj others) = decode columns maxDepth (.obj members) := by
  rw [decode, decode, hcondition, hlimit]

theorem decode_of_condition_error {node : Json} {e : DecodeError}
    (hnode : Json.member? "where" members = some node)
    (he : Expr.decode columns maxDepth node = .error e) :
    decode columns maxDepth (.obj members) = .error e := by
  rw [decode, hnode, decodeCondition, he]
  rfl

/-- The condition is absent, or is decoded under its key; what the record gives is up to the limit then. -/
theorem decode_of_condition {condition : Option Expr}
    (h : (Json.member? "where" members).map (Expr.decode columns maxDepth) = condition.map .ok) :
    decode columns maxDepth (.obj members) =
      (decodeLimit columns maxDepth (Json.member? "limit" members)).map (⟨condition, ·⟩) := by
  have hcondition : decodeCondition columns maxDepth (Json.member? "where" members) =
      .ok condition := by
    cases hnode : Json.member? "where" members with
    | none =>
      rw [hnode] at h
      cases condition with
      | none => rfl
      | some x => contradiction
    | some node =>
      rw [hnode] at h
      cases condition with
      | none => contradiction
      | some x =>
        have hx : Expr.decode columns maxDepth node = .ok x := Option.some.inj h
        rw [decodeCondition, hx]
        rfl
  rw [decode, hcondition]
  cases decodeLimit columns maxDepth (Json.member? "limit" members) <;> rfl

section Limit

variable {node : Json}

theorem decodeLimit_of_error {e : DecodeError} (h : Expr.decode columns maxDepth node = .error e) :
    decodeLimit columns maxDepth (some node) = .error e := by
  rw [decodeLimit, h]

theorem decodeLimit_of_literal {s : Scalar}
    (h : Expr.decode columns maxDepth node = .ok (.literal s)) :
    decodeLimit columns maxDepth (some node) = .ok (some (.literal s)) := by
  rw [decodeLimit, h]
  rfl

theorem decodeLimit_of_not_literal {x : Expr} (h : Expr.decode columns maxDepth node = .ok x)
    (hx : ∀ s, x ≠ .literal s) :
    decodeLimit columns maxDepth (some node) = .error (.notLiteralLimit node) := by
  have hnone : x.literal? = none := by
    cases x with
    | literal s => exact absurd rfl (hx s)
    | _ => rfl
  simp [decodeLimit, h, hnone]

/-- A limit is refused as no literal only after it has been decoded, whatever its own faults are. -/
theorem decodeLimit_eq_notLiteralLimit {limit : Option Json} :
    decodeLimit columns maxDepth limit = .error (.notLiteralLimit node) ↔
      limit = some node ∧
        ∃ x, Expr.decode columns maxDepth node = .ok x ∧ ∀ s, x ≠ .literal s := by
  constructor
  · intro h
    cases limit with
    | none => contradiction
    | some other =>
      cases hother : Expr.decode columns maxDepth other with
      | error e =>
        rw [decodeLimit_of_error hother] at h
        obtain rfl := Except.error.inj h
        exact absurd (Expr.ofRecord_of_decode hother) (by simp [DecodeError.ofRecord])
      | ok x =>
        by_cases hx : ∀ s, x ≠ .literal s
        · rw [decodeLimit_of_not_literal hother hx] at h
          obtain rfl : other = node := by simpa using h
          exact ⟨rfl, x, hother, hx⟩
        · obtain ⟨s, rfl⟩ : ∃ s, x = .literal s := by simpa using hx
          rw [decodeLimit_of_literal hother] at h
          contradiction
  · rintro ⟨rfl, x, hx, hliteral⟩
    exact decodeLimit_of_not_literal hx hliteral

end Limit

end Query

/-- What a record gives, by what stands under its two keys: a value that is no record is refused as a
whole; then the fault of the condition is reported, whatever the limit is, then that of the limit, then
that a decoded limit is no literal. In all other cases the condition is there exactly if its key is, and
so is the limit, which is then the scalar under its key. No other key and no order of keys matters. -/
theorem record_decoded_by_keys (columns : Columns) (maxDepth : Nat) :
    (∀ value, (∀ members, value ≠ .obj members) →
      Query.decode columns maxDepth value = .error (.notRecord value)) ∧
    (∀ members node e, Json.member? "where" members = some node →
      Expr.decode columns maxDepth node = .error e →
        Query.decode columns maxDepth (.obj members) = .error e) ∧
    (∀ members condition,
      (Json.member? "where" members).map (Expr.decode columns maxDepth) = condition.map .ok →
        (∀ node e, Json.member? "limit" members = some node →
          Expr.decode columns maxDepth node = .error e →
            Query.decode columns maxDepth (.obj members) = .error e) ∧
        (∀ node, Query.decode columns maxDepth (.obj members) = .error (.notLiteralLimit node) ↔
          Json.member? "limit" members = some node ∧
            ∃ x, Expr.decode columns maxDepth node = .ok x ∧ ∀ s, x ≠ .literal s) ∧
        ((∀ node ∈ Json.member? "limit" members,
            ∃ s, Expr.decode columns maxDepth node = .ok (.literal s)) →
          ∃ limit : Option Scalar, Json.member? "limit" members = limit.map .scalar ∧
            Query.decode columns maxDepth (.obj members) =
              .ok ⟨condition, limit.map .literal⟩)) ∧
    (∀ members, Query.decode columns maxDepth
        (.obj (members.filter fun member => member.1 == "where" || member.1 == "limit")) =
      Query.decode columns maxDepth (.obj members)) ∧
    ∀ members others, (members.map Prod.fst).Nodup → members.Perm others →
      Query.decode columns maxDepth (.obj others) = Query.decode columns maxDepth (.obj members) ∧
        Query.decode columns maxDepth (Json.ofMembers others) =
          Query.decode columns maxDepth (.obj members) := by
  refine ⟨fun value hvalue => ?_, fun members node e => Query.decode_of_condition_error,
    fun members condition hcondition => ⟨fun node e hnode he => ?_, fun node => ?_, fun hlimit => ?_⟩,
    fun members => ?_, fun members others hnodup hperm => ⟨?_, ?_⟩⟩
  · cases value with
    | obj members => exact absurd rfl (hvalue members)
    | scalar s => rfl
    | arr items => rfl
  · rw [Query.decode_of_condition hcondition, hnode, Query.decodeLimit_of_error he]
    rfl
  · rw [Query.decode_of_condition hcondition, ← Query.decodeLimit_eq_notLiteralLimit]
    cases Query.decodeLimit columns maxDepth (Json.member? "limit" members) <;> simp [Except.map]
  · rw [Query.decode_of_condition hcondition]
    cases hnode : Json.member? "limit" members with
    | none => exact ⟨none, rfl, rfl⟩
    | some node =>
      obtain ⟨s, hs⟩ := hlimit node hnode
      refine ⟨some s, congrArg some (Expr.decodeAt_eq_literal.mp hs).2, ?_⟩
      rw [Query.decodeLimit_of_literal hs]
      rfl
  · let keeps (key : String) : Bool := key == "where" || key == "limit"
    exact Query.decode_congr (Json.member?_filter keeps rfl members)
      (Json.member?_filter keeps rfl members)
  · have hkey := Json.member?_perm hperm hnodup
    exact Query.decode_congr (hkey "where") (hkey "limit")
  · have hkey := Json.member?_ofMembers hperm hnodup
    exact Query.decode_congr (hkey "where") (hkey "limit")

/-- Every answer but one comes from a record with both keys; what differs is where the first fault is. -/
theorem record_decoded_by_keys_faults :
    let columns := Columns.ofList [(2, "name")]
    let column (id : Int) : Json := .tagged columnTag [.scalar (.num (.int id))]
    let record (condition limit : Json) : List (String × Json) :=
      [("limit", limit), ("order-by", column 9), ("where", condition)]
    let faulty : Json := .tagged "between" []
    let null : Json := .scalar .null
    Query.decode columns 256 faulty = .error (.notRecord faulty) ∧
      Query.decode columns 256 (.obj (record faulty (column 3))) =
        .error (.unknownOperator "between") ∧
      Query.decode columns 256 (.obj (record null (column 3))) = .error (.unknownColumn 3) ∧
      Query.decode columns 256 (.obj (record null (column 2))) =
        .error (.notLiteralLimit (column 2)) ∧
      Query.decode columns 256 (.obj (record null null)) =
        .ok ⟨some (.literal .null), some (.literal .null)⟩ ∧
      Query.decode columns 256 (.obj [("limit", null), ("where", null)]) =
        Query.decode columns 256 (.obj (record null null)) ∧
      Query.decode columns 256 (.ofMembers (record null null).reverse) =
        Query.decode columns 256 (.obj (record null null)) := by
  intro columns column record faulty null
  obtain ⟨hvalue, hcondition, hlimit, hkeys, horder⟩ := record_decoded_by_keys columns 256
  have hnull : (some null).map (Expr.decode columns 256) =
      (some (.literal .null)).map Except.ok := rfl
  refine ⟨hvalue faulty (by simp [faulty, Json.tagged]), ?_, ?_, ?_, ?_, ?_, ?_⟩
  · exact hcondition (record faulty (column 3)) faulty _ rfl rfl
  · exact (hlimit (record null (column 3)) _ hnull).1 (column 3) _ rfl rfl
  · exact ((hlimit (record null (column 2)) _ hnull).2.1 (column 2)).mpr
      ⟨rfl, .column "name", rfl, by simp⟩
  · obtain ⟨limit, hmember, hok⟩ := (hlimit (record null null) _ hnull).2.2 (by
      intro node hnode
      obtain rfl : null = node := Option.some.inj hnode
      exact ⟨.null, rfl⟩)
    obtain rfl : limit = some .null := by
      cases limit with
      | none => contradiction
      | some s =>
        obtain rfl : Scalar.null = s := Json.scalar.inj (Option.some.inj hmember)
        rfl
    exact hok
  · exact (hkeys (record null null)).trans rfl
  · exact (horder (record null null) _ (by decide) (List.reverse_perm _).symm).2

end FilterSql
