/-
The requests that a command line can make.

* `Request.ofWords` is the request that the words of a command line make.
-/
import HookScript.CommandLine.Options
import HookScript.Machine.Run
import HookScript.Registry

namespace HookScript

/-- A command. -/
inductive Command where
  /-- compiles and runs a script -/
  | run (file : String) (inputs : List Int32) (registers budget : Nat)
  /-- lists the tokens of a script -/
  | tokens (file : String) (color : Bool)
  /-- compiles a script and lists its code -/
  | disasm (file : String) (registers : Nat)
  /-- lists all that scripts can use -/
  | ops (registers : Nat)
deriving DecidableEq, Repr

/-- What a command line asks for. -/
inductive Request where
  | command (command : Command) (verbose : Bool)
  | version
  | help
  | misuse
deriving DecidableEq, Repr

namespace Request

/-- The answer to a command line that ends early. -/
def ofStop : Options.Stop → Request
  | .misuse => misuse
  | .help => help
  | .version => version

def verboseOption : OptionSpec := { long := "verbose", short := some 'v' }
def helpOption : OptionSpec := { long := Options.helpName, short := some 'h' }
def versionOption : OptionSpec := { long := Options.versionName, short := some 'V' }

def argumentOption : OptionSpec :=
  { long := "arg", short := some 'a', bounds := some (Int32.minValue.toInt, Int32.maxValue.toInt),
    takesNegative := true, repeatable := true }

def registersOption : OptionSpec := { long := "registers", bounds := some (0, 255) }
def budgetOption : OptionSpec := { long := "max-steps", bounds := some (1, UInt32.size - 1) }
def noColorOption : OptionSpec := { long := "no-color" }

/-- The options that every command has. -/
def sharedOptions : List OptionSpec := [verboseOption, helpOption]

/-- The number that an option of a command gives. -/
def number (f : Options.Found) (o : OptionSpec) (default : Nat) : Nat :=
  ((f.valuesOf o).head?.map Int.toNat).getD default

/-- The number of registers that a command asks for. -/
def registers (f : Options.Found) : Nat := number f registersOption maxRegisters

/-- The budget that a command asks for. -/
def budget (f : Options.Found) : Nat := number f budgetOption Program.defaultBudget

/-- The inputs that a command gives. -/
def inputs (f : Options.Found) : List Int32 := (f.valuesOf argumentOption).map Int32.ofInt

/-- How a command reads its words: its options, the number of its operands, and the command that
they make; there is none where an operand is missing. -/
structure Form where
  options : List OptionSpec
  operands : Nat
  build : Options.Found → Option Command

/-- The file among the operands. -/
def operandFile? (f : Options.Found) : Option String := f.operands.head?

/-- The form of the command with the given name. -/
def form? : String → Option Form
  | "run" => some
    { options := [argumentOption, registersOption, budgetOption], operands := 1
      build f := (operandFile? f).map fun file => .run file (inputs f) (registers f) (budget f) }
  | "tokens" => some
    { options := [noColorOption], operands := 1
      build f := (operandFile? f).map fun file => .tokens file !f.has noColorOption }
  | "disasm" => some
    { options := [registersOption], operands := 1
      build f := (operandFile? f).map fun file => .disasm file (registers f) }
  | "ops" => some
    { options := [registersOption], operands := 0
      build f := some (.ops (registers f)) }
  | _ => none

/-- The name of the command that explains the others. -/
def helpCommand : String := "help"

/-- The request of the words after a command's name. -/
def ofCommand (form : Form) (verbose : Bool) (words : List String) : Request :=
  match Options.read (form.options ++ sharedOptions) form.operands words with
  | .error stop => ofStop stop
  | .ok found =>
    match form.build found with
    | some c => command c (verbose || found.has verboseOption)
    | none => misuse

/-- The request for an explanation of the named commands. -/
def ofHelp : List String → Request
  | [] => help
  | [name] => if (form? name).isSome || name = helpCommand then help else misuse
  | _ => misuse

/-- The request of the words, after options that hold for all commands. -/
def ofWordsAfter (f : Options.Found) : List String → Request
  | [] => misuse
  | word :: words =>
    if word = helpCommand then ofHelp words
    else
      match form? word with
      | some form => ofCommand form (f.has verboseOption) words
      | none =>
        if Options.isOptionLike word.toList && word ≠ "--" then
          match Options.readOption (versionOption :: sharedOptions) f word.toList with
          | .error stop => ofStop stop
          | .ok (f, _) => ofWordsAfter f words
        else
          misuse

/-- The request of a command line. -/
def ofWords (words : List String) : Request := ofWordsAfter {} words

end Request

end HookScript
