import FilterSql.Json.Number

/-!
JSON values and their compact text. The members of an object are kept in increasing order of their
keys, one for each key; `Json.ofMembers` brings them there, the last of several values for a key
winning.
-/

namespace FilterSql

/-- The values that are neither arrays nor objects. They are also the literals of a filter. -/
inductive Scalar where
  | null
  | bool (value : Bool)
  | num (value : Number)
  | str (value : String)
deriving DecidableEq

inductive Json where
  | scalar (value : Scalar)
  | arr (items : List Json)
  | obj (members : List (String × Json))

namespace Scalar

/-- Equality of values. -/
def same : Scalar → Scalar → Bool
  | .null, .null => true
  | .bool a, .bool b => a == b
  | .num a, .num b => a.same b
  | .str a, .str b => a == b
  | _, _ => false

def isNull : Scalar → Bool
  | .null => true
  | _ => false

def hexDigit (n : Nat) : Char := Nat.digitChar (n % 16)

/-- Quotes, backslashes and control characters are escaped, and nothing else. -/
def escapeChar (c : Char) : List Char :=
  if c = '"' then ['\\', '"']
  else if c = '\\' then ['\\', '\\']
  else if c.toNat = 0x08 then ['\\', 'b']
  else if c.toNat = 0x09 then ['\\', 't']
  else if c.toNat = 0x0a then ['\\', 'n']
  else if c.toNat = 0x0c then ['\\', 'f']
  else if c.toNat = 0x0d then ['\\', 'r']
  else if c.toNat < 0x20 then ['\\', 'u', '0', '0', hexDigit (c.toNat / 16), hexDigit c.toNat]
  else [c]

def quote (s : String) : String :=
  String.ofList ('"' :: s.toList.flatMap escapeChar ++ ['"'])

def text : Scalar → String
  | .null => "null"
  | .bool true => "true"
  | .bool false => "false"
  | .num n => n.text
  | .str s => quote s

end Scalar

namespace Json

/-- Puts a member in its place among sorted ones, over an earlier value of its key. -/
def insertMember (key : String) (value : Json) : List (String × Json) → List (String × Json)
  | [] => [(key, value)]
  | (k, v) :: rest =>
    if key < k then (key, value) :: (k, v) :: rest
    else if key = k then (key, value) :: rest
    else (k, v) :: insertMember key value rest

def ofMembers (members : List (String × Json)) : Json :=
  .obj (members.foldl (fun sorted m => insertMember m.1 m.2 sorted) [])

/-- The value of a key. -/
def member? (key : String) (members : List (String × Json)) : Option Json :=
  (members.find? fun m => m.1 == key).map Prod.snd

mutual

/-- The compact text of a value. -/
def text : Json → String
  | .scalar s => s.text
  | .arr items => "[" ++ ",".intercalate (itemTexts items) ++ "]"
  | .obj members => "\x7b" ++ ",".intercalate (memberTexts members) ++ "\x7d"

def itemTexts : List Json → List String
  | [] => []
  | item :: rest => text item :: itemTexts rest

def memberTexts : List (String × Json) → List String
  | [] => []
  | (key, value) :: rest => (Scalar.quote key ++ ":" ++ text value) :: memberTexts rest

end

end Json

end FilterSql
