/-
The answers to command lines: an exit code and what is written where.

* `Request.respond` is the answer to a request, given what the file that it names holds.
-/
import HookScript.CommandLine.Request
import HookScript.Compile.Script
import HookScript.Registry.Listing
import HookScript.Registry.Registration
import HookScript.Token.Listing
import HookScript.Program.Listing

namespace HookScript

/-- Why a file cannot be read. -/
inductive FileError where
  | notFound
  | permissionDenied
  | notADirectory
  | isADirectory
  | nameTooLong
  | invalidText
  | other (reason : String)
deriving DecidableEq, Repr

/-- The wording of the error. -/
def FileError.message : FileError → String
  | notFound => "No such file or directory (os error 2)"
  | permissionDenied => "Permission denied (os error 13)"
  | notADirectory => "Not a directory (os error 20)"
  | isADirectory => "Is a directory (os error 21)"
  | nameTooLong => "File name too long (os error 36)"
  | invalidText => "stream did not contain valid UTF-8"
  | other reason => reason

/-- An answer to a command line. -/
structure Response where
  code : UInt8 := 0
  output : String := ""
  errors : String := ""
  events : List Event := []
deriving DecidableEq, Repr

/-- The contents of a file, or why they cannot be read. -/
abbrev FileContents := Except FileError ByteArray

namespace Command

/-- The file that a command reads. -/
def file? : Command → Option String
  | run file .. | tokens file _ | disasm file _ => some file
  | ops _ => none

/-- The text of a script file. -/
def sourceOf (file : String) (contents : FileContents) : Except String String := do
  let failed (e : FileError) : String := "Failed to read '" ++ file ++ "': " ++ e.message
  match contents with
  | .error e => throw (failed e)
  | .ok bytes =>
    match String.fromUTF8? bytes with
    | some source => return source
    | none => throw (failed .invalidText)

/-- The registry of a command. -/
def registryOf (registers : Nat) : Except String Registry :=
  (Registry.standard? { registers }).mapError fun e => "Invalid configuration: " ++ e.message

/-- The text of a rejected script of the given file. -/
def rejection (file : String) (e : CompileError) : String :=
  file ++ ":" ++ e.message ++ "\n  " ++ e.statement ++
    (match e.hint? with
      | some hint => "\n  hint: " ++ hint
      | none => "")

/-- The program of a script file. -/
def programOf (r : Registry) (file : String) (contents : FileContents) : Except String Program := do
  let source ← sourceOf file contents
  (compile r none source).mapError (rejection file)

/-- The output of a command and its events, or its error. -/
def execute (contents : FileContents) : Command → Except String (String × List Event)
  | run file inputs registers budget => do
    let r ← registryOf registers
    let p ← programOf r file contents
    let run := p.run budget .fresh inputs
    match run.result with
    | .ok value => return (toString value ++ "\n", p.compiledEvent :: run.log.toList)
    | .error e => throw ("Runtime error: " ++ e.message)
  | tokens file color => do
    let source ← sourceOf file contents
    return (TokenListing.render { color } (tokenize source), [])
  | disasm file registers => do
    let r ← registryOf registers
    let p ← programOf r file contents
    return (p.fullListing, [p.compiledEvent])
  | ops registers => do
    return ((← registryOf registers).listing, [])

end Command

namespace Request

/-- The name and version of the program. -/
def versionText : String := "modscript 0.1.0\n"

/-- The explanation of the commands. -/
def helpText : String :=
  "Compile and run mod scripts\n\n" ++
  "Usage: modscript [OPTIONS] <COMMAND>\n\n" ++
  "Commands:\n" ++
  "  run     Compile and run a script, printing its result\n" ++
  "  tokens  Show the tokens of a script\n" ++
  "  disasm  Compile a script and show its bytecode\n" ++
  "  ops     List every type, constant and operation scripts can use\n" ++
  "  help    Print this message or the help of the given subcommand(s)\n\n" ++
  "Options:\n" ++
  "  -v, --verbose  Log at debug level\n" ++
  "  -h, --help     Print help\n" ++
  "  -V, --version  Print version\n"

/-- The file that a request reads. -/
def file? : Request → Option String
  | command c _ => c.file?
  | _ => none

/-- The answer to a request. -/
def respond (contents : FileContents) : Request → Response
  | version => { output := versionText }
  | help => { output := helpText }
  | misuse => { code := 2, errors := helpText }
  | command c verbose =>
    match c.execute contents with
    | .ok (output, events) => { output, events := if verbose then events else [] }
    | .error message => { code := 1, errors := message ++ "\n" }

end Request

end HookScript
