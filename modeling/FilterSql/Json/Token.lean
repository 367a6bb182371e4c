import FilterSql.Json.Basic

/-!
JSON text as a list of tokens. One step per character: between tokens, inside a bare word (a number
or a name) or inside quotes. A bare word runs as far as its characters do; two values side by side
are no JSON, so nothing is lost by not splitting `1null`.
-/

namespace FilterSql.Json

inductive Token where
  | arrOpen
  | arrClose
  | objOpen
  | objClose
  | comma
  | colon
  | bare (value : Scalar)
  /-- Quoted text, also as it stands between its quotes. -/
  | quoted (raw text : String)
deriving DecidableEq

namespace Token

def hexValue? (c : Char) : Option Nat :=
  if c.isDigit then some (c.toNat - '0'.toNat)
  else if 'a' ≤ c ∧ c ≤ 'f' then some (c.toNat - 'a'.toNat + 10)
  else if 'A' ≤ c ∧ c ≤ 'F' then some (c.toNat - 'A'.toNat + 10)
  else none

/-- The 16-bit unit of four hexadecimal digits. -/
def unit? (a b c d : Char) : Option Nat := do
  return (((← hexValue? a) * 16 + (← hexValue? b)) * 16 + (← hexValue? c)) * 16 + (← hexValue? d)

def isHighSurrogate (unit : Nat) : Bool := 0xd800 ≤ unit && unit < 0xdc00

def isLowSurrogate (unit : Nat) : Bool := 0xdc00 ≤ unit && unit < 0xe000

def pairChar (high low : Nat) : Char :=
  Char.ofNat (0x10000 + (high - 0xd800) * 0x400 + (low - 0xdc00))

/-- The character of a backslash and one letter. -/
def simpleEscape? : Char → Option Char
  | '"' => some '"'
  | '\\' => some '\\'
  | '/' => some '/'
  | 'b' => some '\x08'
  | 'f' => some '\x0c'
  | 'n' => some '\n'
  | 'r' => some '\r'
  | 't' => some '\t'
  | _ => none

/-- Replaces the escapes of a quoted text. A surrogate has to come with its other half. -/
def unescape? : List Char → Option (List Char)
  | [] => some []
  | '\\' :: 'u' :: a :: b :: c :: d :: rest => do
    let high ← unit? a b c d
    if isHighSurrogate high then
      match rest with
      | '\\' :: 'u' :: a :: b :: c :: d :: rest =>
        let low ← unit? a b c d
        if isLowSurrogate low then return pairChar high low :: (← unescape? rest) else none
      | _ => none
    else if isLowSurrogate high then none
    else return Char.ofNat high :: (← unescape? rest)
  | '\\' :: c :: rest => do
    let plain ← simpleEscape? c
    return plain :: (← unescape? rest)
  | ['\\'] => none
  | c :: rest => do
    return c :: (← unescape? rest)

def isBlank (c : Char) : Bool := c == ' ' || c == '\t' || c == '\n' || c == '\r'

/-- The characters of numbers and names. -/
def isBare (c : Char) : Bool := c.isAlphanum || c == '-' || c == '+' || c == '.'

def bareScalar? (cs : List Char) : Option Scalar :=
  if cs = ['n', 'u', 'l', 'l'] then some .null
  else if cs = ['t', 'r', 'u', 'e'] then some (.bool true)
  else if cs = ['f', 'a', 'l', 's', 'e'] then some (.bool false)
  else (Number.read? cs).map .num

def punctuation? : Char → Option Token
  | '[' => some .arrOpen
  | ']' => some .arrClose
  | '\x7b' => some .objOpen
  | '\x7d' => some .objClose
  | ',' => some .comma
  | ':' => some .colon
  | _ => none

/-- Where a scan stands; what has been read of a token is kept backwards. -/
inductive Mode where
  | between
  | inBare (read : List Char)
  | inQuotes (escaped : Bool) (read : List Char)

/-- The state of a scan, with the finished tokens backwards. -/
structure Scan where
  mode : Mode
  done : List Token

namespace Scan

def start : Scan := ⟨.between, []⟩

def between? (done : List Token) (c : Char) : Option Scan :=
  if isBlank c then some ⟨.between, done⟩
  else if c = '"' then some ⟨.inQuotes false [], done⟩
  else if isBare c then some ⟨.inBare [c], done⟩
  else (punctuation? c).map fun t => ⟨.between, t :: done⟩

def endBare? (read : List Char) (done : List Token) : Option (List Token) :=
  (bareScalar? read.reverse).map fun s => .bare s :: done

def endQuotes? (read : List Char) (done : List Token) : Option Scan :=
  (unescape? read.reverse).map fun text =>
    ⟨.between, .quoted (String.ofList read.reverse) (String.ofList text) :: done⟩

def step? (s : Scan) (c : Char) : Option Scan :=
  match s.mode with
  | .between => between? s.done c
  | .inBare read =>
    if isBare c then some { s with mode := .inBare (c :: read) }
    else (endBare? read s.done).bind fun done => between? done c
  | .inQuotes escaped read =>
    if c.toNat < 0x20 then none
    else if escaped then some { s with mode := .inQuotes false (c :: read) }
    else if c = '"' then endQuotes? read s.done
    else some { s with mode := .inQuotes (c == '\\') (c :: read) }

def finish? (s : Scan) : Option (List Token) :=
  match s.mode with
  | .between => some s.done.reverse
  | .inBare read => (endBare? read s.done).map List.reverse
  | .inQuotes _ _ => none

end Scan

/-- The tokens of a text. -/
def scan? (cs : List Char) : Option (List Token) :=
  (cs.foldlM Scan.step? Scan.start).bind Scan.finish?

end Token

end FilterSql.Json
