/-
Errors of scripts.

An error has a cause and the statement that it belongs to.

* `CompileError.Kind.message` is the wording of a cause, `CompileError.message` has its place
  in front.
* `CompileError.hint?` is a hint for the author of the script.
-/
import HookScript.Argument
import HookScript.Program.Verify
import HookScript.Statement

namespace HookScript

namespace CompileError

/-- What is wrong with the form of a statement. -/
inductive Malformation where
  | refused (refusal : Statement.Refusal)
  | unexpectedToken (kind : Token.Kind)
  | endWithArguments
  /-- an objection of a keyword of the host -/
  | objection (message : String)
deriving DecidableEq, Repr

/-- The wording of the malformation. -/
def Malformation.message : Malformation → String
  | refused refusal => refusal.message
  | unexpectedToken kind => "unexpected " ++ kind.describe
  | endWithArguments => "'end' takes no arguments"
  | objection message => message

/-- What is wrong with a condition. -/
inductive ConditionFault where
  | wrongCount (count : Nat)
  | noComparison (first second third : String)
deriving DecidableEq, Repr

/-- The wording of the fault. -/
def ConditionFault.message : ConditionFault → String
  | wrongCount count => "expected three arguments, found " ++ toString count
  | noComparison first second third =>
    "no comparison in '" ++ first ++ " " ++ second ++ " " ++ third ++ "'"

/-- What is wrong with the declaration of a variable. -/
inductive VariableFault where
  | missingTypeAndName
  | missingTypeAfterPointer
  | unknownType (text : String)
  | integerPointer
  | plainHostType
  | missingName
  | invalidName (text : String)
  | missingValue
  | tooManyArguments
  | initialisedPointer
deriving DecidableEq, Repr

/-- The wording of the fault. -/
def VariableFault.message : VariableFault → String
  | missingTypeAndName => "missing type and name"
  | missingTypeAfterPointer => "missing type after pointer kind"
  | unknownType text => "unknown type '" ++ text ++ "'"
  | integerPointer => "'int' cannot be a pointer"
  | plainHostType => "host types are declared with 'ptr' or 'ptre'"
  | missingName => "missing variable name"
  | invalidName text => "'" ++ text ++ "' is not a valid variable name"
  | missingValue => "missing value after '='"
  | tooManyArguments => "too many arguments"
  | initialisedPointer => "pointer variables cannot be initialised"

/-- A defect of the compiler or of a keyword of the host, not of the script. -/
inductive Defect where
  | label (fault : LabelFault)
  | missingOperation (name : String)
  | unencodable (argument : Argument) (parameter : Parameter)
  | opcodeOutOfRange
  | encoding (error : EncodeError)
  | missingVersion
  | verification (error : VerifyError)
deriving DecidableEq, Repr

/-- The wording of the defect. -/
def Defect.message : Defect → String
  | label fault => fault.describe
  | missingOperation name => "operation '" ++ name ++ "' is missing"
  | unencodable argument parameter =>
    argument.inspect ++ " cannot be encoded as " ++ parameter.inspect
  | opcodeOutOfRange => "opcode out of range"
  | encoding error => error.message
  | missingVersion => "native version is missing"
  | verification error => error.message

/-- Why a script is rejected. -/
inductive Kind where
  | malformed (fault : Malformation)
  | invalidNumber (text : String)
  | unknownOperation (name : String)
  | noMatchingOverload (name arguments : String)
  | conflictingOverloads (name arguments : String)
  | undeclaredSymbol (name : String)
  | unterminatedBlock
  | unexpectedElse
  | unexpectedEnd
  | duplicateElse
  | invalidCondition (fault : ConditionFault)
  | labelRedefined (name : String)
  | labelNotDeclared (name : String)
  | variableRedefined (name : String)
  | variableInBlock (name : String)
  | tooManyRegisters (name : String)
  | invalidVariable (fault : VariableFault)
  | codeTooLarge
  | internal (defect : Defect)
deriving DecidableEq, Repr

/-- The wording of the cause. -/
def Kind.message : Kind → String
  | malformed fault => fault.message
  | invalidNumber text => "invalid number '" ++ text ++ "'"
  | unknownOperation name => "unknown operation '" ++ name ++ "'"
  | noMatchingOverload name arguments =>
    "no overload of '" ++ name ++ "' accepts (" ++ arguments ++ ")"
  | conflictingOverloads name arguments =>
    "conflicting overloads of '" ++ name ++ "' match (" ++ arguments ++ ")"
  | undeclaredSymbol name => "undeclared symbol '" ++ name ++ "'"
  | unterminatedBlock => "block opened here is never closed with 'end'"
  | unexpectedElse => "'else' outside of an 'if' block"
  | unexpectedEnd => "'end' outside of an 'if' block"
  | duplicateElse => "block already has an unconditional 'else'"
  | invalidCondition fault => "invalid condition: " ++ fault.message
  | labelRedefined name => "label '" ++ name ++ "' is already defined"
  | labelNotDeclared name => "label '" ++ name ++ "' referenced but never declared"
  | variableRedefined name => "variable '" ++ name ++ "' is already defined"
  | variableInBlock name => "variable '" ++ name ++ "' declared inside a block"
  | tooManyRegisters name => "no free register for variable '" ++ name ++ "'"
  | invalidVariable fault => "invalid variable declaration: " ++ fault.message
  | codeTooLarge => "script is too large"
  | internal defect => "internal compiler error: " ++ defect.message

/-- A hint for the author of the script. -/
def Kind.hint? : Kind → Option String
  | unknownOperation name =>
    if name.toList.contains '.' then
      some "methods are called on pointer variables, e.g. 'unit.getHealth unit x;'"
    else
      some "run 'modscript ops' to list every available operation"
  | noMatchingOverload .. =>
    some "the first argument of most operations must be a writable variable"
  | conflictingOverloads .. => some "two host functions accept the same argument types"
  | unterminatedBlock => some "add 'end;' after the last branch"
  | variableInBlock _ => some "declare variables at the top of the script, before any 'if'"
  | invalidCondition _ => some "conditions look like 'if le a b;' or 'if a le b;'"
  | invalidVariable _ => some "e.g. 'var int x 5;' or 'var ptr Unit u;'"
  | _ => none

end CompileError

/-- Why a script is rejected, and the statement at fault: where it begins and its text, which is
empty if the error does not belong to a whole statement. -/
structure CompileError where
  kind : CompileError.Kind
  line : Nat
  column : Nat
  statement : String
deriving DecidableEq, Repr

namespace CompileError

/-- The error of the statement that the span covers in `source`. -/
def inStatement (source : String) (span : Span) (kind : Kind) : CompileError :=
  ⟨kind, span.start.line, span.start.column, span.textIn source⟩

/-- The error of a statement whose form is refused. -/
def ofSyntaxError (e : SyntaxError) : CompileError :=
  ⟨.malformed (.refused e.cause), e.position.line, e.position.column, ""⟩

/-- The error of a script as a whole. -/
def ofScript (kind : Kind) : CompileError :=
  ⟨kind, 0, 0, ""⟩

/-- The wording of the error, its place first. -/
def message (e : CompileError) : String :=
  toString e.line ++ ":" ++ toString e.column ++ ": " ++ e.kind.message

/-- A hint for the author of the script. -/
def hint? (e : CompileError) : Option String := e.kind.hint?

end CompileError

end HookScript
