import FilterSql.Json.Document
import FilterSql.Proofs.Defects
import FilterSql.Query

/-!
Two limits on nesting. A text is read only if its arrays and objects nest at most so deep, and a filter is
decoded only if its nodes are at most so deep; the first counts containers from the record on, the second
counts nodes from the root of the filter on, scalars among them. Where they meet is determined here: a
node cannot be deeper than one level below the containers around it, and there are records for which it is.
-/

namespace FilterSql

namespace Json

mutual

/-- How deep arrays and objects nest in a value. -/
def depth : Json → Nat
  | .scalar _ => 0
  | .arr items => 1 + itemsDepth items
  | .obj members => 1 + membersDepth members

def itemsDepth : List Json → Nat
  | [] => 0
  | item :: rest => max (depth item) (itemsDepth rest)

def membersDepth : List (String × Json) → Nat
  | [] => 0
  | (_, value) :: rest => max (depth value) (membersDepth rest)

end

theorem itemsDepth_le_iff {items : List Json} {n : Nat} :
    itemsDepth items ≤ n ↔ ∀ item ∈ items, item.depth ≤ n := by
  induction items with
  | nil => simp [itemsDepth]
  | cons item rest ih => rw [itemsDepth, Nat.max_le, ih, List.forall_mem_cons]

theorem membersDepth_le_iff {members : List (String × Json)} {n : Nat} :
    membersDepth members ≤ n ↔ ∀ member ∈ members, member.2.depth ≤ n := by
  induction members with
  | nil => simp [membersDepth]
  | cons member rest ih => rw [membersDepth, Nat.max_le, ih, List.forall_mem_cons]

theorem depth_lt_of_mem_items {items : List Json} {item : Json} (h : item ∈ items) :
    item.depth < (arr items).depth := by
  have hle := itemsDepth_le_iff.mp (Nat.le_refl (itemsDepth items)) item h
  rw [depth]
  omega

theorem depth_lt_of_member? {members : List (String × Json)} {key : String} {value : Json}
    (h : member? key members = some value) : value.depth < (obj members).depth := by
  obtain ⟨member, hfind, rfl⟩ := Option.map_eq_some_iff.mp h
  have hle := membersDepth_le_iff.mp (Nat.le_refl (membersDepth members)) member
    (List.mem_of_find?_eq_some hfind)
  rw [depth]
  omega

theorem mem_insertMember {key : String} {value : Json} {members : List (String × Json)}
    {member : String × Json} (h : member ∈ insertMember key value members) :
    member = (key, value) ∨ member ∈ members := by
  fun_induction insertMember key value members with
  | case1 => exact .inl (List.mem_singleton.mp h)
  | case2 => exact List.mem_cons.mp h
  | case3 =>
    rcases List.mem_cons.mp h with h | h
    · exact .inl h
    · exact .inr (List.mem_cons_of_mem _ h)
  | case4 k v rest _ _ ih =>
    rcases List.mem_cons.mp h with h | h
    · exact .inr (h ▸ List.mem_cons_self)
    · rcases ih h with h | h
      · exact .inl h
      · exact .inr (List.mem_cons_of_mem _ h)

/-- Sorting the members of an object drops some of them and adds none. -/
theorem depth_ofMembers_le {members : List (String × Json)} {n : Nat}
    (h : ∀ member ∈ members, member.2.depth ≤ n) : (ofMembers members).depth ≤ 1 + n := by
  have hsorted (sorted : List (String × Json)) (hs : ∀ member ∈ sorted, member.2.depth ≤ n) :
      ∀ member ∈ members.foldl (fun sorted m => insertMember m.1 m.2 sorted) sorted,
        member.2.depth ≤ n := by
    induction members generalizing sorted with
    | nil => exact hs
    | cons first rest ih =>
      rw [List.forall_mem_cons] at h
      refine ih h.2 (insertMember first.1 first.2 sorted) fun member hmember => ?_
      rcases mem_insertMember hmember with rfl | hmember
      · exact h.1
      · exact hs member hmember
  rw [ofMembers, depth]
  have hle := membersDepth_le_iff.mpr (hsorted [] (by simp))
  omega

/-- An expression is at most one level below the containers that it stands in. -/
theorem level_le_of_mem_expressions (node : Json) :
    ∀ level, ∀ place ∈ node.expressions level, place.1 ≤ level + node.depth := by
  induction node using node_induction with
  | scalar value =>
    intro level place hplace
    rw [expressions_scalar, List.mem_singleton] at hplace
    simp [hplace]
  | column operands =>
    intro level place hplace
    have hopens : Arity.opens columnTag operands.length = false := by simp [Arity.opens]
    rw [expressions_tagged, hopens] at hplace
    obtain rfl := List.mem_singleton.mp hplace
    simp
  | operator op operands ih =>
    intro level place hplace
    rw [expressions_tagged] at hplace
    rcases List.mem_cons.mp hplace with rfl | hplace
    · simp
    · split at hplace
      · obtain ⟨node, hnode, hplace⟩ := mem_expressionsAll.mp hplace
        have hle := ih node hnode (level + 1) place hplace
        have hlt : node.depth < (tagged op.tag operands).depth :=
          depth_lt_of_mem_items (List.mem_cons_of_mem _ hnode)
        omega
      · contradiction
  | unknown tag operands hcolumn htag =>
    intro level place hplace
    have hopens : Arity.opens tag operands.length = false := by
      simp [Arity.opens, Arity.ofTag?_unknown hcolumn htag]
    rw [expressions_tagged, hopens] at hplace
    obtain rfl := List.mem_singleton.mp hplace
    simp
  | untagged node hnode =>
    intro level place hplace
    rw [expressions_untagged level hnode, List.mem_singleton] at hplace
    simp [hplace]

end Json

theorem Columns.idDefect_ne_tooDeep (columns : Columns) (id : Json) (limit : Nat) :
    columns.idDefect id ≠ some (.tooDeep limit) := by
  unfold idDefect
  split
  · split
    · split
      · simp
      · split <;> simp
    · simp
  · simp

/-- Only the level of a node makes it too deep. -/
theorem Json.lt_of_defect_tooDeep {columns : Columns} {limit level bound : Nat} {node : Json}
    (h : defect columns limit (level, node) = some (.tooDeep bound)) : limit < level := by
  apply Nat.lt_of_not_le
  intro hle
  induction node using node_induction with
  | scalar value =>
    rw [defect_scalar columns hle] at h
    contradiction
  | column operands =>
    rw [defect_tagged columns hle operands Arity.ofTag?_columnTag, if_pos rfl] at h
    split at h
    · obtain ⟨id, -, hid⟩ := List.exists_of_findSome?_eq_some h
      exact columns.idDefect_ne_tooDeep id bound hid
    · simp at h
  | operator op operands _ =>
    rw [defect_operator columns hle] at h
    split at h <;> simp at h
  | unknown tag operands hcolumn htag =>
    rw [defect_unknown columns hle operands (Arity.ofTag?_unknown hcolumn htag)] at h
    simp at h
  | untagged node hnode =>
    rw [defect_untagged columns hle hnode] at h
    simp at h

/-- A filter that is too deep for a limit has at least so many containers in each other. -/
theorem Expr.le_depth_of_tooDeep {columns : Columns} {limit bound : Nat} {node : Json}
    (h : decode columns limit node = .error (.tooDeep bound)) : limit ≤ node.depth := by
  have hfirst := DecodeError.raised_eq_some.mpr h
  rw [raised_decode] at hfirst
  obtain ⟨⟨level, place⟩, hplace, hdefect⟩ := List.exists_of_findSome?_eq_some hfirst
  have hlt : limit < level := Json.lt_of_defect_tooDeep hdefect
  have hle : level ≤ 1 + node.depth := Json.level_le_of_mem_expressions node 1 _ hplace
  omega

namespace Json.Document

theorem itemValues_eq_map (items : List Document) : itemValues items = items.map toJson := by
  induction items with
  | nil => rfl
  | cons item rest ih => rw [itemValues, ih, List.map_cons]

theorem memberValues_eq_map (members : List (Key × Document)) :
    memberValues members = members.map fun member => (member.1.text, member.2.toJson) := by
  induction members with
  | nil => rfl
  | cons member rest ih => rw [memberValues, ih, List.map_cons]

theorem depth_arr_le {items : List Document} {n : Nat} (h : ∀ item ∈ items, item.toJson.depth ≤ n) :
    (arr items).toJson.depth ≤ 1 + n := by
  rw [toJson, itemValues_eq_map, depth]
  have hle := itemsDepth_le_iff.mpr (List.forall_mem_map.mpr h)
  omega

theorem depth_obj_le {members : List (Key × Document)} {n : Nat}
    (h : ∀ member ∈ members, member.2.toJson.depth ≤ n) : (obj members).toJson.depth ≤ 1 + n := by
  rw [toJson, memberValues_eq_map]
  exact depth_ofMembers_le (List.forall_mem_map.mpr h)

/-- The values that an open array or object has so far. -/
def Frame.contents : Frame → List Document
  | .arr items => items
  | .obj members _ => members.map Prod.snd

/-- The values in the open arrays and objects, the innermost first, nest within a limit. -/
def Fits (limit : Nat) : List (List Document) → Prop
  | [] => True
  | inner :: outer =>
    outer.length < limit ∧ (∀ item ∈ inner, item.toJson.depth + outer.length < limit) ∧
      Fits limit outer

namespace Pending

/-- A document that is read up to some token nests within a limit. -/
def Fits (limit : Nat) : Pending → Prop
  | .value outer => Document.Fits limit (outer.map Frame.contents)
  | .valueOrClose outer => Document.Fits limit ([] :: outer.map Frame.contents)
  | .commaOrArrClose items outer => Document.Fits limit (items :: outer.map Frame.contents)
  | .keyOrClose outer => Document.Fits limit ([] :: outer.map Frame.contents)
  | .nextKey members outer =>
    Document.Fits limit (members.map Prod.snd :: outer.map Frame.contents)
  | .colon members _ outer =>
    Document.Fits limit (members.map Prod.snd :: outer.map Frame.contents)
  | .commaOrObjClose members outer =>
    Document.Fits limit (members.map Prod.snd :: outer.map Frame.contents)
  | .nothing document => document.toJson.depth ≤ limit

variable {limit : Nat} {outer : List Frame}

theorem length_le_of_fits {inner : List (List Document)} (h : Document.Fits limit inner) :
    inner.length ≤ limit := by
  cases inner with
  | nil => exact Nat.zero_le limit
  | cons items rest => exact h.1

theorem fits_give {value : Document} (houter : Document.Fits limit (outer.map Frame.contents))
    (hvalue : value.toJson.depth + outer.length ≤ limit) : (give value outer).Fits limit := by
  cases outer with
  | nil => exact hvalue
  | cons frame outer =>
    obtain ⟨hlength, hcontents, hrest⟩ := houter
    have hgiven : value.toJson.depth + (outer.map Frame.contents).length < limit := by
      rw [List.length_map]
      exact hvalue
    cases frame with
    | arr items => exact ⟨hlength, List.forall_mem_cons.mpr ⟨hgiven, hcontents⟩, hrest⟩
    | obj members key => exact ⟨hlength, List.forall_mem_cons.mpr ⟨hgiven, hcontents⟩, hrest⟩

theorem fits_begin? {token : Token} {pending : Pending}
    (houter : Document.Fits limit (outer.map Frame.contents))
    (h : begin? limit outer token = some pending) : pending.Fits limit := by
  have hlength : outer.length ≤ limit := by simpa using length_le_of_fits houter
  have hscalar (value : Scalar) : (give (.scalar value) outer).Fits limit := by
    refine fits_give houter ?_
    rw [toJson, depth, Nat.zero_add]
    exact hlength
  have hopen (hlt : outer.length < limit) :
      Document.Fits limit ([] :: outer.map Frame.contents) := by
    refine ⟨?_, by simp, houter⟩
    rw [List.length_map]
    exact hlt
  unfold begin? at h
  split at h
  · obtain rfl := Option.some.inj h
    exact hscalar _
  · obtain rfl := Option.some.inj h
    exact hscalar _
  · obtain ⟨hlt, hnext⟩ := Option.ite_none_right_eq_some.mp h
    obtain rfl := Option.some.inj hnext
    exact hopen hlt
  · obtain ⟨hlt, hnext⟩ := Option.ite_none_right_eq_some.mp h
    obtain rfl := Option.some.inj hnext
    exact hopen hlt
  · contradiction

/-- What is closed counts as one container more, and there is one open container less. -/
theorem fits_arrClose {items : List Document}
    (h : Document.Fits limit (items :: outer.map Frame.contents)) :
    (give (.arr items.reverse) outer).Fits limit := by
  obtain ⟨hlength, hitems, houter⟩ := h
  rw [List.length_map] at hlength hitems
  have hdepth : (arr items.reverse).toJson.depth ≤ 1 + (limit - outer.length - 1) := by
    refine depth_arr_le fun item hitem => ?_
    have hlt := hitems item (List.mem_reverse.mp hitem)
    omega
  exact fits_give houter (by omega)

theorem fits_objClose {members : List (Key × Document)}
    (h : Document.Fits limit (members.map Prod.snd :: outer.map Frame.contents)) :
    (give (.obj members.reverse) outer).Fits limit := by
  obtain ⟨hlength, hitems, houter⟩ := h
  rw [List.length_map] at hlength hitems
  have hdepth : (obj members.reverse).toJson.depth ≤ 1 + (limit - outer.length - 1) := by
    refine depth_obj_le fun member hmember => ?_
    have hlt := hitems member.2 (List.mem_map_of_mem (List.mem_reverse.mp hmember))
    omega
  exact fits_give houter (by omega)

theorem fits_step? {pending next : Pending} {token : Token} (hfits : pending.Fits limit)
    (h : step? limit pending token = some next) : next.Fits limit := by
  unfold step? at h
  split at h
  case h_1 => exact fits_begin? hfits h
  case h_3 outer _ =>
    have hopen : Document.Fits limit ((Frame.arr [] :: outer).map Frame.contents) := hfits
    exact fits_begin? hopen h
  case h_12 => contradiction
  all_goals obtain rfl := Option.some.inj h
  case h_2 outer => exact fits_arrClose hfits
  case h_5 items outer => exact fits_arrClose hfits
  case h_6 outer =>
    have hopen : Document.Fits limit
        (([] : List (Key × Document)).map Prod.snd :: outer.map Frame.contents) := hfits
    exact fits_objClose hopen
  case h_11 members outer => exact fits_objClose hfits
  -- the other tokens close nothing, and what is open stays as it is
  all_goals exact hfits

theorem fits_run {tokens : List Token} {pending next : Pending} (hfits : pending.Fits limit)
    (h : tokens.foldlM (step? limit) pending = some next) : next.Fits limit := by
  induction tokens generalizing pending with
  | nil =>
    obtain rfl := Option.some.inj h
    exact hfits
  | cons token tokens ih =>
    rw [List.foldlM_cons] at h
    obtain ⟨middle, hstep, hrest⟩ := Option.bind_eq_some_iff.mp h
    exact ih (fits_step? hfits hstep) hrest

end Pending

theorem depth_le_of_readWithin? {limit : Nat} {text : String} {document : Document}
    (h : readWithin? limit text = some document) : document.toJson.depth ≤ limit := by
  obtain ⟨tokens, -, h⟩ := Option.bind_eq_some_iff.mp h
  obtain ⟨pending, hrun, hfinish⟩ := Option.bind_eq_some_iff.mp h
  have hstart : (Pending.value []).Fits limit := trivial
  have hfits : pending.Fits limit := Pending.fits_run hstart hrun
  unfold Pending.finish? at hfinish
  split at hfinish
  · obtain rfl := Option.some.inj hfinish
    exact hfits
  · contradiction

end Json.Document

theorem Json.depth_le_of_read? {text : String} {value : Json} (h : read? text = some value) :
    value.depth ≤ 127 := by
  obtain ⟨document, hread, rfl⟩ := Option.map_eq_some_iff.mp h
  exact Document.depth_le_of_readWithin? hread

namespace Query

open DecodeError

variable (columns : Columns) (maxDepth : Nat)

/-- The condition is decoded before the limit. -/
theorem raised_decode_obj (members : List (String × Json)) :
    raised (decode columns maxDepth (.obj members)) =
      (raised (decodeCondition columns maxDepth (Json.member? "where" members))).or
        (raised (decodeLimit columns maxDepth (Json.member? "limit" members))) := by
  rw [decode]
  cases decodeCondition columns maxDepth (Json.member? "where" members) with
  | error e => rfl
  | ok condition =>
    cases decodeLimit columns maxDepth (Json.member? "limit" members) with
    | error e => rfl
    | ok limit => rfl

theorem raised_decodeCondition (o : Option Json) :
    raised (decodeCondition columns maxDepth o) =
      o.bind fun node => raised (Expr.decode columns maxDepth node) := by
  cases o with
  | none => rfl
  | some node =>
    rw [decodeCondition, Option.bind_some]
    cases Expr.decode columns maxDepth node with
    | error e => rfl
    | ok x => rfl

/-- A limit that is decoded but is no literal is refused for another reason. -/
theorem raised_decodeLimit_tooDeep {bound : Nat} (o : Option Json) :
    raised (decodeLimit columns maxDepth o) = some (.tooDeep bound) ↔
      (o.bind fun node => raised (Expr.decode columns maxDepth node)) = some (.tooDeep bound) := by
  cases o with
  | none => rfl
  | some node =>
    rw [decodeLimit, Option.bind_some]
    cases Expr.decode columns maxDepth node with
    | error e => rfl
    | ok x =>
      cases hx : x.literal?.isSome with
      | true => simp [hx]
      | false => simp [hx]

/-- A record is too deep because the value of one of its keys is. -/
theorem exists_member_of_tooDeep {bound : Nat} {value : Json}
    (h : decode columns maxDepth value = .error (.tooDeep bound)) :
    ∃ members key node, value = .obj members ∧ Json.member? key members = some node ∧
      Expr.decode columns maxDepth node = .error (.tooDeep bound) := by
  cases value with
  | scalar value => simp [decode] at h
  | arr items => simp [decode] at h
  | obj members =>
    have hraised := raised_eq_some.mpr h
    rw [raised_decode_obj, Option.or_eq_some_iff] at hraised
    have hkey : ∃ key, ((Json.member? key members).bind fun node =>
        raised (Expr.decode columns maxDepth node)) = some (.tooDeep bound) := by
      rcases hraised with hcondition | ⟨-, hlimit⟩
      · exact ⟨"where", (raised_decodeCondition columns maxDepth _).symm.trans hcondition⟩
      · exact ⟨"limit", (raised_decodeLimit_tooDeep columns maxDepth _).mp hlimit⟩
    obtain ⟨key, hkey⟩ := hkey
    obtain ⟨node, hnode, hx⟩ := Option.bind_eq_some_iff.mp hkey
    exact ⟨members, key, node, rfl, hnode, raised_eq_some.mp hx⟩

end Query

/-- Negations around an empty text. -/
def Json.negated : Nat → Json
  | 0 => .scalar (.str "")
  | n + 1 => .tagged "not" [negated n]

theorem Expr.decodeAt_negated (columns : Columns) {limit : Nat} (n : Nat) :
    ∀ level, limit < level + n →
      decodeAt columns limit level (.negated n) = .error (.tooDeep limit) := by
  induction n with
  | zero => exact fun level h => decodeAt_of_lt columns h _
  | succ n ih =>
    intro level h
    rcases Nat.lt_or_ge limit level with hlt | hle
    · exact decodeAt_of_lt columns hlt _
    · have hoperand : decodeAll columns limit (level + 1) [.negated n] = .error (.tooDeep limit) := by
        rw [decodeAll, ih (level + 1) (by omega)]
      exact decodeAt_operator_error columns (.unary .not) hle rfl hoperand

namespace Json

theorem text_negated (n : Nat) :
    (negated (n + 1)).text = "[\"not\"," ++ (negated n).text ++ "]" := by
  have hnot : (Scalar.str "not").text = "\"not\"" := by decide
  apply String.toList_inj.mp
  simp [negated, tagged, text, itemTexts, hnot]

/-- The tokens of a negated text. -/
def negatedTokens : Nat → List Token
  | 0 => [.quoted "" ""]
  | n + 1 => .arrOpen :: .quoted "not" "not" :: .comma :: (negatedTokens n ++ [.arrClose])

theorem scan_negated (n : Nat) : ∀ done,
    (negated n).text.toList.foldlM Token.Scan.step? ⟨.between, done⟩ =
      some ⟨.between, (negatedTokens n).reverse ++ done⟩ := by
  induction n with
  | zero => exact fun done => rfl
  | succ n ih =>
    intro done
    have hopen : "[\"not\",".toList.foldlM Token.Scan.step? ⟨.between, done⟩ =
        some ⟨.between, .comma :: .quoted "not" "not" :: .arrOpen :: done⟩ := rfl
    have hclose (done : List Token) : Token.Scan.step? ⟨.between, done⟩ ']' =
        some ⟨.between, .arrClose :: done⟩ := rfl
    rw [text_negated, String.toList_append, String.toList_append, List.foldlM_append,
      List.foldlM_append, hopen]
    simp [ih, hclose, negatedTokens]

def Document.negated : Nat → Document
  | 0 => .scalar (.str "")
  | n + 1 => .arr [.scalar (.str "not"), negated n]

theorem Document.toJson_negated (n : Nat) : (Document.negated n).toJson = .negated n := by
  induction n with
  | zero => rfl
  | succ n ih =>
    rw [Document.negated, toJson, itemValues, itemValues, itemValues, ih]
    rfl

theorem Document.read_negated {limit : Nat} (n : Nat) : ∀ outer : List Frame,
    outer.length + n ≤ limit →
      (negatedTokens n).foldlM (Pending.step? limit) (.value outer) =
        some (Pending.give (Document.negated n) outer) := by
  induction n with
  | zero => exact fun outer _ => rfl
  | succ n ih =>
    intro outer h
    have hopen : Pending.step? limit (.value outer) .arrOpen = some (.valueOrClose outer) :=
      if_pos (by omega)
    have hstart : [Token.arrOpen, .quoted "not" "not", .comma].foldlM (Pending.step? limit)
        (.value outer) = some (.value (.arr [.scalar (.str "not")] :: outer)) := by
      rw [List.foldlM_cons, hopen]
      rfl
    have hinner := ih (.arr [.scalar (.str "not")] :: outer) (by simp only [List.length_cons]; omega)
    have htokens : negatedTokens (n + 1) =
        [.arrOpen, .quoted "not" "not", .comma] ++ (negatedTokens n ++ [.arrClose]) := rfl
    rw [htokens, List.foldlM_append, hstart, Option.bind_eq_bind, Option.bind_some,
      List.foldlM_append, hinner]
    rfl

/-- A record with a negated text under a key is read if its arrays and the record itself fit. -/
theorem read?_negated {key : String} {n : Nat} (hn : n < 127)
    (hkey : (Scalar.quote key ++ ":").toList.foldlM Token.Scan.step? ⟨.between, [.objOpen]⟩ =
      some ⟨.between, [.colon, .quoted key key, .objOpen]⟩) :
    read? (obj [(key, negated n)]).text = some (obj [(key, negated n)]) := by
  have htext : (obj [(key, negated n)]).text.toList =
      ['\x7b'] ++ ((Scalar.quote key ++ ":").toList ++ ((negated n).text.toList ++ ['\x7d'])) := by
    simp [text, memberTexts]
  have hscan : Token.scan? (obj [(key, negated n)]).text.toList =
      some ([.objOpen, .quoted key key, .colon] ++ (negatedTokens n ++ [.objClose])) := by
    have hopen : ['\x7b'].foldlM Token.Scan.step? Token.Scan.start = some ⟨.between, [.objOpen]⟩ := rfl
    have hclose (done : List Token) : ['\x7d'].foldlM Token.Scan.step? ⟨.between, done⟩ =
        some ⟨.between, .objClose :: done⟩ := rfl
    rw [Token.scan?, htext]
    simp only [List.foldlM_append, hopen, hkey, scan_negated, hclose, Option.bind_eq_bind,
      Option.bind_some, Token.Scan.finish?]
    simp
  have hread : Document.readWithin? 127 (obj [(key, negated n)]).text =
      some (.obj [(⟨key, key⟩, Document.negated n)]) := by
    have hinner := Document.read_negated n [.obj [] ⟨key, key⟩] (show 1 + n ≤ 127 by omega)
    have hstart : [Token.objOpen, .quoted key key, .colon].foldlM (Document.Pending.step? 127)
        (.value []) = some (.value [.obj [] ⟨key, key⟩]) := rfl
    have hrun : ([Token.objOpen, .quoted key key, .colon] ++ (negatedTokens n ++ [Token.objClose])).foldlM
        (Document.Pending.step? 127) (.value []) =
          some (.nothing (.obj [(⟨key, key⟩, Document.negated n)])) := by
      rw [List.foldlM_append, hstart, Option.bind_eq_bind, Option.bind_some, List.foldlM_append, hinner]
      rfl
    simp only [Document.readWithin?, hscan, hrun, Option.bind_eq_bind, Option.bind_some,
      Document.Pending.finish?]
  rw [read?, Document.read?, Document.depthLimit, hread]
  simp [Document.toJson, Document.memberValues, Document.toJson_negated, ofMembers, insertMember]

end Json

/-- From 127 on the limit of a filter is never the reason to refuse a record that is read from a text, be it
in the condition or in the limit. Below 127 it is for some text, whichever of the two keys it uses. -/
theorem depth_limit_unreachable_from_text (columns : Columns) (maxDepth : Nat) :
    (127 ≤ maxDepth → ∀ text value, Json.read? text = some value →
      (∀ bound, Query.decode columns maxDepth value ≠ .error (.tooDeep bound)) ∧
        ∀ members key node, value = .obj members → Json.member? key members = some node →
          ∀ bound, Expr.decode columns maxDepth node ≠ .error (.tooDeep bound)) ∧
      (maxDepth < 127 → ∀ key ∈ ["where", "limit"], ∃ text members,
        Json.read? text = some (.obj members) ∧ members.map Prod.fst = [key] ∧
          Query.decode columns maxDepth (.obj members) = .error (.tooDeep maxDepth)) := by
  refine ⟨fun hmax text value hread => ?_, fun hmax key hkey => ?_⟩
  · have hdepth : value.depth ≤ 127 := Json.depth_le_of_read? hread
    have hmember (members : List (String × Json)) (key : String) (node : Json)
        (hvalue : value = .obj members) (hnode : Json.member? key members = some node)
        (bound : Nat) : Expr.decode columns maxDepth node ≠ .error (.tooDeep bound) := by
      intro h
      have hle : maxDepth ≤ node.depth := Expr.le_depth_of_tooDeep h
      have hlt : node.depth < value.depth := hvalue ▸ Json.depth_lt_of_member? hnode
      omega
    refine ⟨fun bound h => ?_, hmember⟩
    obtain ⟨members, key, node, hvalue, hnode, hx⟩ := Query.exists_member_of_tooDeep columns maxDepth h
    exact hmember members key node hvalue hnode bound hx
  · have hdecode : Expr.decode columns maxDepth (.negated 126) = .error (.tooDeep maxDepth) :=
      Expr.decodeAt_negated columns 126 1 (by omega)
    have hraised := DecodeError.raised_eq_some.mpr hdecode
    have hkeys : key = "where" ∨ key = "limit" := by simpa using hkey
    have hread : Json.read? (Json.obj [(key, .negated 126)]).text =
        some (.obj [(key, .negated 126)]) := by
      apply Json.read?_negated (by decide)
      rcases hkeys with rfl | rfl
      · rfl
      · rfl
    refine ⟨_, _, hread, rfl, DecodeError.raised_eq_some.mp ?_⟩
    rw [Query.raised_decode_obj]
    rcases hkeys with rfl | rfl
    · have hcondition := Query.raised_decodeCondition columns maxDepth (some (.negated 126))
      exact Option.or_eq_some_iff.mpr (.inl (hcondition.trans hraised))
    · have hlimit := (Query.raised_decodeLimit_tooDeep columns maxDepth
        (some (.negated 126))).mpr hraised
      exact Option.or_eq_some_iff.mpr (.inr ⟨rfl, hlimit⟩)

/-- The deepest text of its kind: 126 arrays in a record. -/
theorem depth_limit_unreachable_from_text_deepest :
    let value : Json := .obj [("where", .negated 126)]
    127 ≤ Query.defaultMaxDepth ∧ Json.read? value.text = some value ∧
      (∀ bound, Query.decode .empty Query.defaultMaxDepth value ≠ .error (.tooDeep bound)) ∧
      126 < 127 ∧ ∃ text members, Json.read? text = some (.obj members) ∧
        members.map Prod.fst = ["limit"] ∧
        Query.decode .empty 126 (.obj members) = .error (.tooDeep 126) := by
  intro value
  have hmax : 127 ≤ Query.defaultMaxDepth := by decide
  have hread : Json.read? value.text = some value := Json.read?_negated (by decide) rfl
  have hdefault := (depth_limit_unreachable_from_text .empty Query.defaultMaxDepth).1 hmax
  have hbelow := (depth_limit_unreachable_from_text .empty 126).2 (by decide)
  exact ⟨hmax, hread, (hdefault value.text value hread).1, by decide,
    hbelow "limit" (List.mem_cons_of_mem _ List.mem_cons_self)⟩

end FilterSql
