/-
Registries: the vocabulary that scripts are compiled against.

A registry knows types, global names, operations with their overloads, host functions and the
signatures of hooks.  Global names and operations are found by name; types, host functions and
hooks are numbered from zero on.

* `Registry.operation?` and `Registry.operationJoined?` find an operation, by its whole name or by
  two pieces of it.
* `Registry.parameterName` and `Registry.typeName` say what messages call a parameter or a type.
-/
import HookScript.Compile.Expansion
import HookScript.Hook.Signature
import HookScript.Program

namespace HookScript

/-- The sizes that a registry fixes. -/
structure RegistryConfig where
  /-- the registers of a script -/
  registers : Nat := 64
  /-- the leading registers that the host fills with inputs -/
  inputRegisters : Nat := 2
  /-- the arguments of a statement -/
  maxArguments : Nat := 16
deriving DecidableEq, Repr

/-- Where the instructions of an overload come from; its versions follow each other. -/
inductive Target where
  /-- an instruction, by its first opcode -/
  | builtin (base : Nat)
  /-- a host function, by its first number -/
  | native (first : Nat)
deriving DecidableEq, Repr

/-- One way to use an operation. -/
structure Overload where
  params : List Parameter
  target : Target
  doc : String
deriving DecidableEq, Repr

/-- How the statements of an operation are read. -/
inductive StatementForm where
  /-- the arguments pick an overload -/
  | call
  | ifBlock
  | elseBranch
  | endBlock
  | declaration
  /-- a form of the host -/
  | custom (expand : Statement → Expansion)

/-- An operation; keywords are those with a form of their own instead of overloads. -/
structure Operation where
  name : String
  overloads : List Overload
  form : StatementForm
  keyword : Bool

/-- A value type, with the type of the host that it stands for. -/
structure TypeInfo where
  name : String
  tag : TypeTag
  host : Option HostType
deriving DecidableEq, Repr

/-- The vocabulary of scripts. -/
structure Registry where
  config : RegistryConfig
  globals : SymbolTable := .empty
  types : Array TypeInfo := #[]
  operations : NameTable Operation := ∅
  natives : Array NativeBinding := #[]
  hooks : Array HookSignature := #[]

namespace Registry

/-- The type with the given tag. -/
def type? (r : Registry) (tag : TypeTag) : Option TypeInfo :=
  r.types[tag.index]?

/-- The tag of a type of the host. -/
def tagOf? (r : Registry) (host : HostType) : Option TypeTag :=
  (r.types.find? fun t => t.host == some host).map (·.tag)

/-- The operation with the given name. -/
def operation? (r : Registry) (name : String) : Option Operation :=
  r.operations.find? name

/-- The operation with the name `front ++ back`. -/
def operationJoined? (r : Registry) (front back : String) : Option Operation :=
  r.operations.findJoined? front back

theorem operationJoined?_eq (r : Registry) (front back : String) :
    r.operationJoined? front back = r.operation? (front ++ back) :=
  NameTable.findJoined?_eq

/-- The host function with the given number. -/
def native? (r : Registry) (id : Nat) : Option NativeBinding :=
  r.natives[id]?

/-- The hook with the given name. -/
def hook? (r : Registry) (name : String) : Option HookSignature :=
  r.hooks.find? fun h => h.name == name

/-- What messages call the type with the given tag. -/
def tagName (r : Registry) (tag : TypeTag) : String :=
  match r.type? tag with
  | some info => info.name
  | none => "#" ++ toString tag.index

/-- What messages call a parameter. -/
def parameterName (r : Registry) : Parameter → String
  | .int => "int"
  | .intVar => "var int"
  | .label => "label"
  | .ptr tag => "ptr " ++ r.tagName tag
  | .ptre tag => "ptre " ++ r.tagName tag
  | .native => "native"
  | .raw => "raw"

/-- What messages call a type. -/
def typeName (r : Registry) : ValueType → String
  | .int => "int"
  | .ptr tag => r.parameterName (.ptr tag)
  | .ptre tag => r.parameterName (.ptre tag)

end Registry

end HookScript
