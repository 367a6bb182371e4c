import FilterSql.Sql.Dialect
import FilterSql.Text.Terminal

/-!
Arguments of the command line. They are taken from left to right. The value of an option given as an
argument of its own is held back until the next argument that is understood, and only then checked;
an argument that is not understood is reported before a fault in the value held back.
-/

namespace FilterSql.CommandLine

/-- The options with a value. -/
inductive ValueOption where
  | config
  | dialect
deriving DecidableEq

def ValueOption.usage : ValueOption → String
  | .config => "--config <CONFIG>"
  | .dialect => "--dialect <DIALECT>"

inductive UsageError where
  | unexpectedArgument (argument : String)
  | unexpectedValue (value option : String)
  | repeated (option : String)
  | missingValue (option : ValueOption)
  | unknownDialect (value : String)
deriving DecidableEq

/-- Text that stands out on a terminal, in the rendition of the given number. -/
def emphasized (rendition text : String) : String :=
  "\x1b[" ++ rendition ++ "m" ++ text ++ "\x1b[0m"

def boldText (text : String) : String := emphasized "1" text

def redText (text : String) : String := emphasized "31" text

def yellowText (text : String) : String := emphasized "33" text

namespace UsageError

/-- The cause as it is written for a terminal. What the user has given stands out in it, but for its
second place in the report of an unknown dialect. -/
def cause : UsageError → String
  | .unexpectedArgument argument => "unexpected argument '" ++ yellowText argument ++ "' found"
  | .unexpectedValue value option =>
    "unexpected value '" ++ yellowText value ++ "' for '" ++ boldText option
      ++ "' found; no more were expected"
  | .repeated option => "the argument '" ++ boldText option ++ "' cannot be used multiple times"
  | .missingValue option =>
    "a value is required for '" ++ boldText option.usage ++ "' but none was supplied"
  | .unknownDialect value =>
    "invalid value '" ++ yellowText value ++ "' for '" ++ boldText ValueOption.dialect.usage ++ "': "
      ++ Dialect.unknownMessage value

/-- The report of a usage error, without the control of a terminal. It is stripped as a whole: a
sequence that the user's text leaves open takes its end from the text behind it. -/
def report (error : UsageError) : String :=
  Text.visible (redText "error:" ++ " " ++ error.cause ++ "\n\nFor more information, try '"
    ++ boldText "--help" ++ "'.\n")

end UsageError

/-- What a run is asked to do. -/
structure Invocation where
  config : Option String
  dialect : Option Dialect
  demo : Bool
  query : Option String
deriving DecidableEq

inductive Request where
  | run (invocation : Invocation)
  | help
  | longHelp
  | version
deriving DecidableEq

/-- Why the reading of arguments stops before their end. -/
inductive Stop where
  | answer (request : Request)
  | refuse (error : UsageError)
deriving DecidableEq

/-- Arguments read so far. -/
structure Reading where
  invocation : Invocation
  /-- An option that waits for its value, or whose value waits to be checked. -/
  pending : Option (ValueOption × Option String)
  /-- Whether nothing is an option any more. -/
  positionalOnly : Bool
deriving DecidableEq

/-- The value of an option. A second one is refused before its value is looked at. -/
def Invocation.set (invocation : Invocation) (option : ValueOption) (value : String) :
    Except Stop Invocation :=
  match option with
  | .config =>
    if invocation.config.isSome then .error (.refuse (.repeated option.usage))
    else if value.isEmpty then .error (.refuse (.missingValue option))
    else .ok { invocation with config := some value }
  | .dialect =>
    if invocation.dialect.isSome then .error (.refuse (.repeated option.usage))
    else
      match Dialect.ofName? value with
      | none => .error (.refuse (.unknownDialect value))
      | some dialect => .ok { invocation with dialect := some dialect }

namespace Reading

def start : Reading := ⟨⟨none, none, false, none⟩, none, false⟩

/-- The invocation with the pending value in it. -/
def settle (reading : Reading) : Except Stop Invocation :=
  match reading.pending with
  | none => .ok reading.invocation
  | some (option, none) => .error (.refuse (.missingValue option))
  | some (option, some value) => reading.invocation.set option value

/-- An option with a value, which may be attached to it. -/
def valueOption (reading : Reading) (option : ValueOption) (attached : Option String) :
    Except Stop Reading := do
  let invocation ← reading.settle
  match attached with
  | some value => return { reading with invocation := ← invocation.set option value, pending := none }
  | none => return { reading with invocation, pending := some (option, none) }

/-- An option without a value. -/
def flag (reading : Reading) (name : String) (attached : Option String)
    (act : Invocation → Except Stop Invocation) : Except Stop Reading :=
  match attached with
  | some value => .error (.refuse (.unexpectedValue value ("--" ++ name)))
  | none => do
    let invocation ← act (← reading.settle)
    return { reading with invocation, pending := none }

def setDemo (invocation : Invocation) : Except Stop Invocation :=
  if invocation.demo then .error (.refuse (.repeated "--demo"))
  else .ok { invocation with demo := true }

def answer (request : Request) (_ : Invocation) : Except Stop Invocation := .error (.answer request)

/-- An argument with two dashes. -/
def long (reading : Reading) (name : String) (attached : Option String) : Except Stop Reading :=
  match name with
  | "config" => reading.valueOption .config attached
  | "dialect" => reading.valueOption .dialect attached
  | "demo" => reading.flag name attached setDemo
  | "help" => reading.flag name attached (answer .longHelp)
  | "version" => reading.flag name attached (answer .version)
  | _ => .error (.refuse (.unexpectedArgument ("--" ++ name)))

/-- An argument with one dash. Its first letter decides. -/
def short (reading : Reading) (letter : Char) : Except Stop Reading :=
  match letter with
  | 'h' => reading.flag "help" none (answer .help)
  | 'V' => reading.flag "version" none (answer .version)
  | _ => .error (.refuse (.unexpectedArgument (String.ofList ['-', letter])))

def positional (reading : Reading) (argument : String) : Except Stop Reading :=
  if reading.invocation.query.isSome then .error (.refuse (.unexpectedArgument argument))
  else do
    let invocation ← reading.settle
    return { reading with invocation := { invocation with query := some argument }, pending := none }

/-- The value of the option before it, or the query. -/
def plain (reading : Reading) (argument : String) : Except Stop Reading :=
  match reading.pending with
  | some (option, none) => .ok { reading with pending := some (option, some argument) }
  | _ => reading.positional argument

/-- The name of an option, and the value after an equals sign. -/
def splitAttached (cs : List Char) : String × Option String :=
  (String.ofList (cs.takeWhile (· != '=')),
    match cs.dropWhile (· != '=') with
    | [] => none
    | _ :: value => some (String.ofList value))

def step (reading : Reading) (argument : String) : Except Stop Reading :=
  if reading.positionalOnly then reading.positional argument
  else
    match argument.toList with
    | ['-', '-'] => .ok { reading with positionalOnly := true }
    | '-' :: '-' :: rest => reading.long (splitAttached rest).1 (splitAttached rest).2
    | '-' :: letter :: _ => reading.short letter
    | _ => reading.plain argument

end Reading

/-- Reads all arguments. -/
def Request.read (arguments : List String) : Except UsageError Request :=
  match arguments.foldlM Reading.step Reading.start >>= Reading.settle with
  | .ok invocation => .ok (.run invocation)
  | .error (.answer request) => .ok request
  | .error (.refuse error) => .error error

end FilterSql.CommandLine
