import FilterSql.CommandLine.Arguments
import FilterSql.Settings
import FilterSql.Text.Lines

/-!
A run of the program as a function: arguments, the files as they can be read and the bytes of the
standard input give the two outputs and the exit code. A batch takes one record a line; a line that
fails is reported and the next one is taken, and only a line that is no text ends the batch. How the
reader of JSON words its complaints is open.
-/

namespace FilterSql.CommandLine

/-- Why a file cannot be read: the system refuses, what it gives is no text, or something else. -/
inductive ReadError where
  | system (reason : String) (code : Nat)
  | notText
  | other (reason : String)

namespace ReadError

def notFound : ReadError := .system "No such file or directory" 2

def notDirectory : ReadError := .system "Not a directory" 20

def isDirectory : ReadError := .system "Is a directory" 21

def nameTooLong : ReadError := .system "File name too long" 36

def message : ReadError → String
  | .system reason code => reason ++ " (os error " ++ Number.intText code ++ ")"
  | .notText => "stream did not contain valid UTF-8"
  | .other reason => reason

end ReadError

/-- What is printed by a part of a run, and whether it went well. -/
structure Output where
  ok : Bool
  out : String
  err : String
deriving DecidableEq

namespace Output

def silent : Output := ⟨true, "", ""⟩

def append (a b : Output) : Output := ⟨a.ok && b.ok, a.out ++ b.out, a.err ++ b.err⟩

instance : Append Output := ⟨append⟩

def success (out : String) : Output := ⟨true, out, ""⟩

def failure (err : String) : Output := ⟨false, "", err⟩

end Output

/-- What the reader of JSON says about a text that is no value, and about one that is no settings. -/
structure Complaints where
  value : String → String
  settings : String → String

/-- Why a record gives no statement. -/
inductive CompileError where
  | notJson (complaint : String)
  | refused (error : DecodeError)

def CompileError.message : CompileError → String
  | .notJson complaint => "Error reading query: " ++ complaint
  | .refused error => "Error building query: " ++ error.message

section Records

variable (complaints : Complaints)

/-- The query of a record given as text. -/
def compile (settings : Settings) (text : String) : Except CompileError Query :=
  match Json.read? text with
  | none => .error (.notJson (complaints.value text))
  | some value => (Query.decode settings.columns settings.maxDepth value).mapError .refused

/-- The line of a statement, which names its dialect unless that is the only one. -/
def statementLine (settings : Settings) (dialects : List Dialect) (query : Query)
    (dialect : Dialect) : String :=
  let label := if dialects.length = 1 then "" else dialect.name ++ ": "
  label ++ query.sql dialect settings.table ++ "\n"

/-- The output for one record: its statements, or a report with the record in it. -/
def compileOutput (settings : Settings) (dialects : List Dialect) (text : String) : Output :=
  match compile complaints settings text with
  | .ok query => .success (String.join (dialects.map (statementLine settings dialects query)))
  | .error error => .failure (error.message ++ "\n:" ++ text ++ "\n")

def isBlankLine (text : String) : Bool := text.toList.all Text.isBlank

/-- The output for lines of records. -/
def batch (settings : Settings) (dialects : List Dialect) : List (List UInt8) → Output
  | [] => .silent
  | line :: rest =>
    match Text.decode? line with
    | none => .failure (ReadError.notText.message ++ "\n")
    | some text =>
      if isBlankLine text then batch settings dialects rest
      else compileOutput complaints settings dialects text ++ batch settings dialects rest

/-- The columns without a settings file. -/
def sampleColumns : Columns :=
  .ofList [(1, "id"), (2, "name"), (3, "date_joined"), (4, "age")]

/-- Sample records as text, each with a dialect. -/
def samples : List (Dialect × String) :=
  [(.sqlServer, "\x7b\"limit\":10,\"where\":[\"=\",[\"field\",2],\"cam\"]\x7d"),
   (.mySql, "\x7b\"limit\":10,\"where\":[\"=\",[\"field\",4],25,26,27]\x7d"),
   (.mySql, "\x7b\"where\":[\"and\",[\"or\",[\"is-empty\",null],[\"not-empty\",[\"field\",3]]],"
      ++ "[\"=\",[\"field\",2],\"cam\"]]\x7d")]

def sampleOutput (dialect : Dialect) (text : String) : Output :=
  let heading := "\n" ++ dialect.name ++ " " ++ text ++ "\n"
  match compile complaints { Settings.default with columns := sampleColumns } text with
  | .ok query => .success (heading ++ "=> " ++ query.sql dialect Query.defaultTable ++ "\n")
  | .error error => ⟨true, heading, error.message ++ "\n"⟩

def demoOutput : Output :=
  (samples.map fun sample => sampleOutput complaints sample.1 sample.2).foldr (· ++ ·) .silent

abbrev Files := String → Except ReadError (List UInt8)

/-- The settings of a run, or the report of why there are none. -/
def loadSettings (files : Files) : Option String → Except String Settings
  | none => .ok { Settings.default with columns := sampleColumns }
  | some path =>
    let unreadable (error : ReadError) := "could not read " ++ path ++ ": " ++ error.message
    match files path with
    | .error error => .error (unreadable error)
    | .ok bytes =>
      match Text.decode? bytes with
      | none => .error (unreadable .notText)
      | some text =>
        match Settings.read? text with
        | none => .error ("invalid config: " ++ complaints.settings text)
        | some settings => .ok settings

/-- The dialects to print: the one asked for, the one set, or all. -/
def selectDialects (asked set : Option Dialect) : List Dialect :=
  match asked.or set with
  | some dialect => [dialect]
  | none => Dialect.all

def Invocation.output (invocation : Invocation) (files : Files) (input : List UInt8) : Output :=
  if invocation.demo then demoOutput complaints
  else
    match loadSettings complaints files invocation.config with
    | .error report => .failure (report ++ "\n")
    | .ok settings =>
      let dialects := selectDialects invocation.dialect settings.dialect
      match invocation.query with
      | some text => compileOutput complaints settings dialects text
      | none => batch complaints settings dialects (Text.lines input)

end Records

def version : String := "query_expr 0.1.0\n"

/-- Lines with their ends. -/
def unlines (lines : List String) : String := String.join (lines.map (· ++ "\n"))

def help : String :=
  unlines
    ["Compiles tagged-array query records to SQL",
     "",
     "Usage: query_expr [OPTIONS] [QUERY]",
     "",
     "Arguments:",
     "  [QUERY]  Query record; read one per line from stdin when omitted",
     "",
     "Options:",
     "      --config <CONFIG>    JSON config file with the field map, table name and depth limit",
     "      --dialect <DIALECT>  Render a single dialect (MySQL, PostgreSQL, SQLServer); all by default",
     "      --demo               Print the sample queries",
     "  -h, --help               Print help (see more with '--help')",
     "  -V, --version            Print version"]

def longHelp : String :=
  unlines
    ["Compiles tagged-array query records to SQL.",
     "",
     "A record looks like `\x7b\"where\": [\"=\", [\"field\", 2], \"cam\"], \"limit\": 10\x7d`.",
     "",
     "Usage: query_expr [OPTIONS] [QUERY]",
     "",
     "Arguments:",
     "  [QUERY]",
     "          Query record; read one per line from stdin when omitted",
     "",
     "Options:",
     "      --config <CONFIG>",
     "          JSON config file with the field map, table name and depth limit",
     "",
     "      --dialect <DIALECT>",
     "          Render a single dialect (MySQL, PostgreSQL, SQLServer); all by default",
     "",
     "      --demo",
     "          Print the sample queries",
     "",
     "  -h, --help",
     "          Print help (see a summary with '-h')",
     "",
     "  -V, --version",
     "          Print version"]

/-- The end of a run. -/
structure Outcome where
  code : Nat
  out : String
  err : String
deriving DecidableEq

def run (complaints : Complaints) (arguments : List String) (files : Files) (input : List UInt8) :
    Outcome :=
  match Request.read arguments with
  | .error error => ⟨2, "", error.report⟩
  | .ok .help => ⟨0, help, ""⟩
  | .ok .longHelp => ⟨0, longHelp, ""⟩
  | .ok .version => ⟨0, version, ""⟩
  | .ok (.run invocation) =>
    let output := invocation.output complaints files input
    ⟨if output.ok then 0 else 1, output.out, output.err⟩

end FilterSql.CommandLine
