/-!
Text without terminal control. Where a text is written for a terminal and goes elsewhere, control
characters and escape sequences are left out of it: `visible` keeps the rest.

A text may break off inside a sequence, so what follows it counts: the reading goes on with the state
in which the text before has left it.
-/

namespace FilterSql.Text

/-- What is being read: shown text, or the inside of a sequence that an escape has begun. -/
inductive Control where
  | ground
  | escape
  /-- An escape with intermediate characters, which one final character ends. -/
  | escapeIntermediate
  /-- A control sequence, from the opening bracket to its final character. -/
  | sequence
  /-- The head of a device control string: at its start, at its parameters or behind them. -/
  | deviceStart
  | deviceParameters
  | deviceIntermediate
  /-- The body of a device control string, or another string that a terminator ends. -/
  | string
  /-- A command of the operating system, which a bell ends. -/
  | systemCommand
deriving DecidableEq

/-- Whether a code point is in a closed range. -/
def inRange (c : Char) (low high : Nat) : Bool := low ≤ c.toNat && c.toNat ≤ high

def isAscii (c : Char) : Bool := c.toNat < 0x80

/-- The controls that lay out text: tab, line feed, form feed and carriage return. -/
def isLayout (c : Char) : Bool := c == '\t' || c == '\n' || c == '\x0c' || c == '\r'

/-- A byte of the character is the terminator of control strings. In such a string bytes are read
for themselves, so a character ends it that only has this byte among others. -/
def hasTerminator (c : Char) : Bool := !isAscii c && (String.utf8EncodeChar c).contains 0x9c

namespace Control

/-- The state after a character that is not shown. An escape begins anew in every state, and the
two cancelling controls end every sequence. -/
def next (control : Control) (c : Char) : Control :=
  if c = '\x18' ∨ c = '\x1a' then .ground
  else if c = '\x1b' then .escape
  else
    match control with
    | .ground => .ground
    | .escape =>
      if inRange c 0x20 0x2f then .escapeIntermediate
      else if c = '[' then .sequence
      else if c = ']' then .systemCommand
      else if c = 'P' then .deviceStart
      else if c = 'X' ∨ c = '^' ∨ c = '_' then .string
      else if inRange c 0x30 0x7e then .ground
      else .escape
    | .escapeIntermediate => if inRange c 0x30 0x7e then .ground else .escapeIntermediate
    | .sequence => if inRange c 0x40 0x7e then .ground else .sequence
    | .deviceStart =>
      if inRange c 0x20 0x2f then .deviceIntermediate
      else if inRange c 0x30 0x3f then .deviceParameters
      else if inRange c 0x40 0x7e then .string
      else .deviceStart
    | .deviceParameters =>
      if inRange c 0x20 0x2f then .deviceIntermediate
      else if inRange c 0x3c 0x7e then .string
      else .deviceParameters
    | .deviceIntermediate => if inRange c 0x30 0x7e then .string else .deviceIntermediate
    | .string => if hasTerminator c then .ground else .string
    | .systemCommand => if c = '\x07' then .ground else .systemCommand

/-- Whether a character is shown. Layout is shown also inside a sequence that is not a string. -/
def shows (control : Control) (c : Char) : Bool :=
  match control with
  | .ground => isLayout c || (0x20 ≤ c.toNat && c.toNat != 0x7f)
  | .escape => isLayout c
  | .escapeIntermediate => isLayout c
  | .sequence => isLayout c
  | _ => false

end Control

/-- The shown part of a text, read in a state. A run of shown characters may begin inside a
sequence; the sequence then goes on behind the run, unless a character beyond ASCII was in it. -/
def visibleFrom (control : Control) (inRun : Bool) : List Char → List Char
  | [] => []
  | c :: rest =>
    if (if inRun then Control.ground else control).shows c then
      c :: visibleFrom (if isAscii c then control else .ground) true rest
    else visibleFrom (control.next c) false rest

/-- A text without control characters and escape sequences, layout apart. -/
def visible (text : String) : String := String.ofList (visibleFrom .ground false text.toList)

end FilterSql.Text
