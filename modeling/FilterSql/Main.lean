import FilterSql.CommandLine.Run

/-!
The program: reads what a run needs, runs it, prints and leaves with its exit code.
-/

namespace FilterSql.CommandLine

def readError : IO.Error → ReadError
  | .noFileOrDirectory .. => .notFound
  | .inappropriateType _ 21 _ => .isDirectory
  | .inappropriateType .. => .notDirectory
  | .invalidArgument .. => .nameTooLong
  | .permissionDenied .. => .system "Permission denied" 13
  | error => .other (toString error)

def readFile (path : String) : IO (Except ReadError (List UInt8)) := do
  try
    return .ok (← IO.FS.readBinFile path).toList
  catch error =>
    return .error (readError error)

partial def readAll (stream : IO.FS.Stream) (read : ByteArray) : IO ByteArray := do
  let chunk ← stream.read 65536
  if chunk.isEmpty then return read else readAll stream (read ++ chunk)

/-- Short words of this program, where a reader may have longer ones with a place in the text. -/
def plainComplaints : Complaints where
  value _ := "the text is no JSON value"
  settings _ := "the text is no settings value"

end FilterSql.CommandLine

open FilterSql.CommandLine in
def main (arguments : List String) : IO UInt32 := do
  let mut file : Except ReadError (List UInt8) := .error ReadError.notFound
  let mut input : List UInt8 := []
  if let .ok (.run invocation) := Request.read arguments then
    unless invocation.demo do
      if let some path := invocation.config then
        file ← readFile path
      if invocation.query.isNone then
        input := (← readAll (← IO.getStdin) ByteArray.empty).toList
  let outcome := run plainComplaints arguments (fun _ => file) input
  (← IO.getStdout).putStr outcome.out
  (← IO.getStderr).putStr outcome.err
  return outcome.code.toUInt32
