/-
Code for one operation.

The arguments pick an overload, unknown names among them become labels that are declared later, and
the overload's instruction is appended to the code: its opcode and operands, or a call of a host
function with the operands of that function in a block of their own.

* `Drafting.emit` appends the code of an operation, `Drafting.emitNamed` that of the operation with
  a given name.
-/
import HookScript.Code.Opcode
import HookScript.Compile.Draft
import HookScript.Compile.Overload

namespace HookScript.Drafting

/-- The arguments with every unknown name made a label. -/
def bindForward : List Argument → Drafting (List Argument)
  | [] => return []
  | .unknown name :: arguments => do
    let label ← forwardLabel name
    return .label label :: (← bindForward arguments)
  | a :: arguments => return a :: (← bindForward arguments)

/-- The choice that an argument makes for its parameter, and the operand that it becomes. -/
def payload? : Parameter → Argument → Option (Nat × Payload)
  | .int, .constant value => some (0, .constant value)
  | .int, .register index _ _ => some (1, .register index)
  | _, .register index _ _ => some (0, .register index)
  | _, .label label => some (0, .label label)
  | _, _ => none

/-- Counts the register of an operand as in use. -/
def touchPayload : Payload → Drafting Unit
  | .register index => modify fun d => d.touch index
  | _ => return ()

/-- The choices and the operands of arguments. -/
def payloads : List Parameter → List Argument → Drafting (List (Nat × Payload))
  | p :: params, a :: arguments =>
    match payload? p a with
    | none => throw (.internal (.unencodable a p))
    | some (choice, payload) => do
      touchPayload payload
      return (choice, payload) :: (← payloads params arguments)
  | _, _ => return []

/-- Appends one byte. -/
def push (byte : UInt8) : Drafting Unit :=
  modify fun d => { d with buffer := d.buffer.push byte }

/-- Appends an operand. -/
def write (codec : Codec) (payload : Payload) : Drafting Unit :=
  if codec.canEncode payload then
    modify fun d => { d with buffer := codec.write payload d.buffer }
  else
    throw (.internal (.encoding ⟨codec, payload⟩))

/-- Appends operands, each by the codec in its place. -/
def writeAll : List Codec → List Payload → Drafting Unit
  | codec :: layout, payload :: payloads => do
    write codec payload
    writeAll layout payloads
  | _, _ => return ()

/-- Appends a builtin instruction. -/
def emitBuiltin (base : Nat) (params : List Parameter) (version : Nat) (operands : List Payload) :
    Drafting Unit := do
  if 256 ≤ base + version then
    throw (.internal .opcodeOutOfRange)
  push (UInt8.ofNat (base + version))
  writeAll (Codec.layoutOf params version) operands

/-- The place of a host function in the script's own table, where it is entered if need be. -/
def nativeSlot (binding : NativeBinding) : Drafting UInt16 := do
  let natives := (← get).natives
  let slot ←
    match natives.findIdx? fun n => n.id == binding.id with
    | some slot => pure slot
    | none =>
      modify fun d => { d with natives := d.natives.push binding }
      pure natives.size
  if UInt16.size ≤ slot then
    throw .codeTooLarge
  return UInt16.ofNat slot

/-- The operands of a host function as bytes. -/
def operandBlock (layout : List Codec) (operands : List Payload) :
    Except CompileError.Kind (List UInt8) :=
  match Codec.encodeAll layout operands .empty with
  | .error e => .error (.internal (.encoding e))
  | .ok buffer =>
    match buffer.finish with
    | .error fault => .error (.internal (.label fault))
    | .ok bytes => .ok bytes.toList

/-- Appends a call of a version of a host function. -/
def emitNative (r : Registry) (first version : Nat) (operands : List Payload) : Drafting Unit := do
  match r.native? (first + version) with
  | none => throw (.internal .missingVersion)
  | some binding =>
    let slot ← nativeSlot binding
    let block ← ofExcept (operandBlock binding.layout operands)
    push (UInt8.ofNat Builtin.call.base)
    write .native (.native slot)
    write .raw (.raw block)

/-- Appends the code of an operation. -/
def emit (r : Registry) (op : Operation) (arguments : List Argument) : Drafting Unit := do
  let overload ← ofExcept (op.select r arguments)
  let bound ← bindForward arguments
  let chosen ← payloads overload.params bound
  let version := versionOf overload.params (chosen.map (·.1))
  let operands := chosen.map (·.2)
  match overload.target with
  | .builtin base => emitBuiltin base overload.params version operands
  | .native first => emitNative r first version operands

/-- Appends the code of the operation with the given name. -/
def emitNamed (r : Registry) (name : String) (arguments : List Argument) : Drafting Unit :=
  match r.operation? name with
  | some op => emit r op arguments
  | none => throw (.internal (.missingOperation name))

end HookScript.Drafting
