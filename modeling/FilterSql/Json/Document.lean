import FilterSql.Json.Token

/-!
JSON text as it is written: the members of an object stay in their order, repeated keys and the
spelling of keys included. `Document.toJson` gives the value. Reading takes one token at a time and
holds the open arrays and objects as a list, so the depth limit is a bound on its length.
-/

namespace FilterSql.Json

/-- A key as it stands between its quotes, and the text that it means. -/
structure Key where
  raw : String
  text : String
deriving DecidableEq

inductive Document where
  | scalar (value : Scalar)
  | arr (items : List Document)
  | obj (members : List (Key × Document))

namespace Document

mutual

/-- The value of a document: the last of several values for a key wins. -/
def toJson : Document → Json
  | .scalar s => .scalar s
  | .arr items => .arr (itemValues items)
  | .obj members => Json.ofMembers (memberValues members)

def itemValues : List Document → List Json
  | [] => []
  | item :: rest => toJson item :: itemValues rest

def memberValues : List (Key × Document) → List (String × Json)
  | [] => []
  | (key, value) :: rest => (key.text, toJson value) :: memberValues rest

end

/-- An array or object that waits for a value inside it; what it has is kept backwards. -/
inductive Frame where
  | arr (items : List Document)
  | obj (members : List (Key × Document)) (key : Key)

/-- What a document that is read up to some token waits for. -/
inductive Pending where
  | value (outer : List Frame)
  | valueOrClose (outer : List Frame)
  | commaOrArrClose (items : List Document) (outer : List Frame)
  | keyOrClose (outer : List Frame)
  | nextKey (members : List (Key × Document)) (outer : List Frame)
  | colon (members : List (Key × Document)) (key : Key) (outer : List Frame)
  | commaOrObjClose (members : List (Key × Document)) (outer : List Frame)
  | nothing (document : Document)

namespace Pending

/-- Puts a finished value where it was waited for. -/
def give (value : Document) : List Frame → Pending
  | [] => .nothing value
  | .arr items :: outer => .commaOrArrClose (value :: items) outer
  | .obj members key :: outer => .commaOrObjClose ((key, value) :: members) outer

/-- A value begins; an array or object is refused where it would be deeper than the limit. -/
def begin? (limit : Nat) (outer : List Frame) : Token → Option Pending
  | .bare s => some (give (.scalar s) outer)
  | .quoted _ text => some (give (.scalar (.str text)) outer)
  | .arrOpen => if outer.length < limit then some (.valueOrClose outer) else none
  | .objOpen => if outer.length < limit then some (.keyOrClose outer) else none
  | _ => none

def step? (limit : Nat) : Pending → Token → Option Pending
  | .value outer, t => begin? limit outer t
  | .valueOrClose outer, .arrClose => some (give (.arr []) outer)
  | .valueOrClose outer, t => begin? limit (.arr [] :: outer) t
  | .commaOrArrClose items outer, .comma => some (.value (.arr items :: outer))
  | .commaOrArrClose items outer, .arrClose => some (give (.arr items.reverse) outer)
  | .keyOrClose outer, .objClose => some (give (.obj []) outer)
  | .keyOrClose outer, .quoted raw text => some (.colon [] ⟨raw, text⟩ outer)
  | .nextKey members outer, .quoted raw text => some (.colon members ⟨raw, text⟩ outer)
  | .colon members key outer, .colon => some (.value (.obj members key :: outer))
  | .commaOrObjClose members outer, .comma => some (.nextKey members outer)
  | .commaOrObjClose members outer, .objClose => some (give (.obj members.reverse) outer)
  | _, _ => none

def finish? : Pending → Option Document
  | .nothing document => some document
  | _ => none

end Pending

/-- Arrays and objects nest at most this deep in a text. -/
def depthLimit : Nat := 127

/-- Reads a text whose arrays and objects nest at most `limit` deep. -/
def readWithin? (limit : Nat) (text : String) : Option Document := do
  let tokens ← Token.scan? text.toList
  let pending ← tokens.foldlM (Pending.step? limit) (.value [])
  pending.finish?

def read? (text : String) : Option Document := readWithin? depthLimit text

end Document

/-- Reads a text as a value. -/
def read? (text : String) : Option Json := (Document.read? text).map Document.toJson

end FilterSql.Json
