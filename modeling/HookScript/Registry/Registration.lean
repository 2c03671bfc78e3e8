/-
Filling a registry.

The host fills its registry at startup, one registration after the other.  A registration that
fails leaves the registry as it was, and the next one goes on from there.

* `Registry.bare?` is a registry with the builtin vocabulary, `Registry.standard?` has the standing
  registers `r0` and `r1` besides.
* `Registration.type`, `standingRegister`, `constant`, `function`, `method`, `getter`, `setter`,
  `keyword` and `hook` add to it.
-/
import HookScript.Code.Opcode
import HookScript.Registry

namespace HookScript

namespace RegistryError

/-- What is wrong with a configuration. -/
inductive ConfigFault where
  | registersOutOfRange
  | moreInputsThanRegisters
  | tooManyArguments
deriving DecidableEq, Repr

/-- What is wrong with a hook. -/
inductive HookFault where
  | moreArgumentsThanRegisters
  | repeatedName
  | unknownType
  | tooManyResults
  | resultNotWritable
deriving DecidableEq, Repr

/-- The greatest number of arguments of a statement. -/
def argumentLimit : Nat := 16

/-- The wording of the fault. -/
def ConfigFault.message : ConfigFault → String
  | registersOutOfRange => "registers must be between 1 and " ++ toString maxRegisters
  | moreInputsThanRegisters => "more input registers than registers"
  | tooManyArguments => "max_args must be at most " ++ toString argumentLimit

/-- The wording of the fault. -/
def HookFault.message : HookFault → String
  | moreArgumentsThanRegisters => "more arguments than registers"
  | repeatedName => "argument names must be unique"
  | unknownType => "argument type is not registered"
  | tooManyResults => "hooks return at most one value"
  | resultNotWritable => "the result lives in a writable int first argument"

end RegistryError

/-- Why a registration fails. -/
inductive RegistryError where
  | duplicate (name : String)
  | unknownType (host : HostType)
  | registerOutOfRange (index capacity : Nat)
  | config (fault : RegistryError.ConfigFault)
  | tooManyParameters (name : String) (count limit : Nat)
  | invalidParameter (name : String) (index : Nat)
  | nativeSpace
  | versionSpace (name : String)
  | hook (name : String) (fault : RegistryError.HookFault)
deriving DecidableEq, Repr

/-- The wording of the error. -/
def RegistryError.message : RegistryError → String
  | duplicate name => "name '" ++ name ++ "' is already registered"
  | unknownType host => "type " ++ host.name ++ " is not registered"
  | registerOutOfRange index capacity =>
    "register r" ++ toString index ++ " is outside the " ++ toString capacity ++
      " configured registers"
  | config fault => "invalid registry configuration: " ++ fault.message
  | tooManyParameters name count limit =>
    "'" ++ name ++ "' takes " ++ toString count ++ " arguments, at most " ++ toString limit ++
      " are allowed"
  | invalidParameter name index =>
    "parameter " ++ toString index ++ " of '" ++ name ++ "' is not available to host functions"
  | nativeSpace => "native function table is full"
  | versionSpace name => "'" ++ name ++ "' has too many integer parameters to encode every version"
  | hook name fault => "hook '" ++ name ++ "': " ++ fault.message

/-- A change of a registry that may fail. -/
abbrev Registration := EStateM RegistryError Registry

namespace Registration

/-- Gives a global name a meaning. -/
def globalName (name : String) (meaning : Meaning) : Registration Unit := do
  let r ← get
  if (r.operation? name).isSome then
    throw (.duplicate name)
  match r.globals.insert name meaning with
  | .error _ => throw (.duplicate name)
  | .ok globals => set { r with globals }

/-- Adds an operation with a new name. -/
def operation (op : Operation) : Registration Unit := do
  let r ← get
  if (r.globals.find? op.name).isSome || r.operations.contains op.name then
    throw (.duplicate op.name)
  set { r with operations := r.operations.insert op.name op }

/-- Adds an overload to an operation, which is made if there is none. -/
def overload (name : String) (o : Overload) : Registration Unit := do
  let r ← get
  match r.operation? name with
  | some op =>
    if op.keyword then
      throw (.duplicate name)
    set { r with
      operations := r.operations.insert name { op with overloads := op.overloads ++ [o] } }
  | none => operation ⟨name, [o], .call, false⟩

/-- Adds an operation whose statements have a form of their own. -/
def keyword (name : String) (form : StatementForm) : Registration Unit :=
  operation ⟨name, [], form, true⟩

/-- Adds a type of the host; the answer is its tag. -/
def type (host : HostType) (name : String) : Registration TypeTag := do
  let r ← get
  if (r.tagOf? host).isSome || UInt16.size ≤ r.types.size then
    throw (.duplicate name)
  let tag : TypeTag := ⟨r.types.size⟩
  globalName name (.typeName (.ptr tag))
  modify fun r => { r with types := r.types.push ⟨name, tag, some host⟩ }
  return tag

/-- Names a register, which every script may then read and write as an integer. -/
def standingRegister (name : String) (index : UInt8) : Registration Unit := do
  let capacity := (← get).config.registers
  if capacity ≤ index.toNat then
    throw (.registerOutOfRange index.toNat capacity)
  globalName name (.register index .int true)

/-- Names a constant. -/
def constant (name : String) (value : Int32) : Registration Unit :=
  globalName name (.constant value)

/-- Whether a host function may have the parameter. -/
def isAvailable (r : Registry) : Parameter → Bool
  | .int | .intVar => true
  | .ptr tag | .ptre tag => tag ≠ .int && (r.type? tag).isSome
  | .label | .native | .raw => false

/-- The number of versions of a host function with the given parameters, or why it cannot have
them. -/
def checkParameters (r : Registry) (name : String) (params : List Parameter) :
    Except RegistryError Nat :=
  if r.config.maxArguments < params.length then
    .error (.tooManyParameters name params.length r.config.maxArguments)
  else
    match params.findIdx? fun p => !isAvailable r p with
    | some index => .error (.invalidParameter name index)
    | none =>
      match versionCount? params with
      | some versions => .ok versions
      | none => .error (.versionSpace name)

/-- The versions of a host function, numbered from `first` on. -/
def bindings (first versions : Nat) (name : String) (params : List Parameter)
    (routine : HostRoutine) : List NativeBinding :=
  (List.range versions).map fun version =>
    ⟨first + version, name, Codec.layoutOf params version, routine⟩

/-- Adds a host function, as a new operation or as another overload of an old one. -/
def function (name : String) (params : List Parameter) (doc : String) (routine : HostRoutine) :
    Registration Unit := do
  let r ← get
  match checkParameters r name params with
  | .error e => throw e
  | .ok versions =>
    let first := r.natives.size
    if UInt32.size ≤ first then
      throw .nativeSpace
    overload name ⟨params, .native first, doc⟩
    modify fun r =>
      { r with natives := r.natives.appendList (bindings first versions name params routine) }

/-- The tag of a type of the host, and its name in scripts. -/
def hostTag (host : HostType) : Registration (TypeTag × String) := do
  let r ← get
  match r.tagOf? host with
  | none => throw (.unknownType host)
  | some tag => return (tag, ((r.type? tag).map (·.name)).getD "")

/-- Adds the function `Type.name`, whose first argument is a handle; `handle` says of which
kind. -/
def member (handle : TypeTag → Parameter) (host : HostType) (name : String)
    (params : List Parameter) (doc : String) (routine : HostRoutine) : Registration Unit := do
  let (tag, typeName) ← hostTag host
  function (typeName ++ "." ++ name) (handle tag :: params) doc routine

/-- Adds a function on objects of a type that only reads them. -/
def method (host : HostType) (name : String) (params : List Parameter) (doc : String)
    (routine : HostRoutine) : Registration Unit :=
  member .ptr host name params doc routine

/-- Adds a function on objects of a type that may change them. -/
def editingMethod (host : HostType) (name : String) (params : List Parameter) (doc : String)
    (routine : HostRoutine) : Registration Unit :=
  member .ptre host name params doc routine

/-- Adds a method that stores a value of the object into a variable. -/
def getter (host : HostType) (name : String) (read : Fields → Int32) : Registration Unit :=
  method host name [.intVar] "" (.getter host read)

/-- Adds a method that changes the object by a value. -/
def setter (host : HostType) (name : String) (write : Fields → Int32 → Fields) :
    Registration Unit :=
  editingMethod host name [.int] "" (.setter host write)

/-- What is wrong with the arguments of a hook, after those named in `earlier`. -/
def argumentFault? (r : Registry) (earlier : List String) :
    List HookArgument → Option RegistryError.HookFault
  | [] => none
  | a :: arguments =>
    if earlier.contains a.name then some .repeatedName
    else if (r.type? a.type.tag).isNone then some .unknownType
    else argumentFault? r (a.name :: earlier) arguments

/-- What is wrong with the result of a hook, which lives in its first argument. -/
def resultFault? (h : HookSignature) : Option RegistryError.HookFault :=
  if 1 < h.returns then some .tooManyResults
  else if h.returns = 1 then
    match h.arguments with
    | a :: _ => if a.type.isInt && a.writable then none else some .resultNotWritable
    | [] => some .resultNotWritable
  else none

/-- What is wrong with a hook. -/
def hookFault? (r : Registry) (h : HookSignature) : Option RegistryError.HookFault :=
  if r.config.registers < h.arguments.length then some .moreArgumentsThanRegisters
  else argumentFault? r [] h.arguments <|> resultFault? h

/-- Adds a hook. -/
def hook (h : HookSignature) : Registration Unit := do
  let r ← get
  if (r.hook? h.name).isSome then
    throw (.duplicate h.name)
  match hookFault? r h with
  | some fault => throw (.hook h.name fault)
  | none => set { r with hooks := r.hooks.push h }

/-- The keywords of every registry. -/
def keywords : List (String × StatementForm) :=
  [("if", .ifBlock), ("else", .elseBranch), ("end", .endBlock), ("var", .declaration)]

/-- The vocabulary of every registry: integers, the builtin instructions, the keywords. -/
def builtinVocabulary : Registration Unit := do
  globalName "int" (.typeName .int)
  modify fun r => { r with types := r.types.push ⟨"int", .int, none⟩ }
  Builtin.all.forM fun b => overload b.name ⟨b.params, .builtin b.base, b.doc⟩
  keywords.forM fun (name, form) => keyword name form

/-- The two standing registers that scripts expect, the second only if there is one. -/
def standingRegisters : Registration Unit := do
  standingRegister "r0" 0
  if 1 < (← get).config.registers then
    standingRegister "r1" 1

end Registration

namespace RegistryConfig

/-- What is wrong with a configuration. -/
def fault? (c : RegistryConfig) : Option RegistryError.ConfigFault :=
  if maxRegisters < c.registers || c.registers = 0 then some .registersOutOfRange
  else if c.registers < c.inputRegisters then some .moreInputsThanRegisters
  else if RegistryError.argumentLimit < c.maxArguments then some .tooManyArguments
  else none

end RegistryConfig

namespace Registry

/-- The registry after a registration. -/
def after {α : Type} (change : Registration α) (r : Registry) : Except RegistryError Registry :=
  match change.run r with
  | .ok _ r => .ok r
  | .error e _ => .error e

/-- A registry with the builtin vocabulary. -/
def bare? (c : RegistryConfig) : Except RegistryError Registry :=
  match c.fault? with
  | some fault => .error (.config fault)
  | none => after Registration.builtinVocabulary { config := c }

/-- A registry with the builtin vocabulary and the standing registers `r0` and `r1`. -/
def standard? (c : RegistryConfig) : Except RegistryError Registry := do
  after Registration.standingRegisters (← bare? c)

end Registry

end HookScript
