/-
The command line of the program: reads the file that a request names, and writes the answer.
-/
import HookScript.CommandLine.Response

namespace HookScript

/-- The number of an error of the system: opening a file gives it negated, reading as it is. -/
def errorNumber (code : UInt32) : UInt32 := min code (-code)

/-- The contents of a file. -/
def readContents (file : String) : IO FileContents := do
  try
    return .ok (← IO.FS.readBinFile file)
  catch e =>
    return .error <|
      match e with
      | .noFileOrDirectory .. => .notFound
      | .permissionDenied .. => .permissionDenied
      | .inappropriateType _ code _ =>
        if errorNumber code = 21 then .isADirectory else .notADirectory
      | .invalidArgument _ code _ =>
        if errorNumber code = 36 then .nameTooLong else .other (toString e)
      | e => .other (toString e)

/-- The line of an event. -/
def Event.line (e : Event) : String :=
  let level :=
    match e.level with
    | .debug => "DEBUG"
    | .warning => "WARN"
    | .error => "ERROR"
  let value : Event.Value → String
    | .text s => s
    | .number n => toString n
  level ++ " " ++ e.target ++ ": " ++ e.message ++
    String.join (e.fields.map fun (name, v) => " " ++ name ++ "=" ++ value v)

end HookScript

open HookScript in
/-- Answers a command line. -/
def main (words : List String) : IO UInt32 := do
  let request := Request.ofWords words
  let contents ←
    match request.file? with
    | some file => readContents file
    | none => pure (.error .notFound)
  let response := request.respond contents
  for e in response.events do
    IO.println e.line
  IO.print response.output
  IO.eprint response.errors
  return response.code.toUInt32
