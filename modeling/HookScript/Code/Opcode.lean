/-
Opcodes: one for each version of each builtin instruction.

The opcodes of one instruction follow each other in the order of its versions, and the
instructions in the order of `Builtin.all`.

* `Opcode.table` lists what every opcode stands for, `Opcode.find?` looks one up.
* `Builtin.base` is the first opcode of an instruction.
* `Instruction.decode?` reads a whole instruction from the code.
-/
import HookScript.Code.Builtin
import HookScript.Code.Codec

namespace HookScript

/-- What an opcode stands for: a version of an instruction and the codecs of its operands. -/
structure Opcode where
  builtin : Builtin
  version : Nat
  layout : List Codec
deriving DecidableEq, Repr

namespace Builtin

/-- The opcodes of the instruction. -/
def opcodes (b : Builtin) : List Opcode :=
  (List.range b.versions).map fun version => ⟨b, version, Codec.layoutOf b.params version⟩

/-- The first opcode of the instruction. -/
def base (b : Builtin) : Nat :=
  (all.takeWhile (· ≠ b)).foldl (fun count earlier => count + earlier.versions) 0

/-- The place of the instruction among all. -/
def index (b : Builtin) : Nat :=
  all.idxOf b

/-- The instruction with the given name and number of parameters. -/
def find? (name : String) (arity : Nat) : Option Builtin :=
  all.find? fun b => b.name == name && b.params.length == arity

end Builtin

namespace Opcode

/-- What the opcodes stand for, from opcode 0 on. -/
def table : Array Opcode :=
  (Builtin.all.flatMap Builtin.opcodes).toArray

/-- What a byte stands for as an opcode. -/
def find? (byte : UInt8) : Option Opcode :=
  table[byte.toNat]?

/-- Whether every opcode fits a byte. -/
def fits : Bool := table.size ≤ 256

/-- The name in scripts of the instruction. -/
def name (o : Opcode) : String := o.builtin.name

end Opcode

end HookScript
