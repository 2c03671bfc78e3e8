/-
Listings of code: one line per instruction with its position, its name and its operands.

A call shows the name of the host function and that function's own arguments.  An instruction that
a jump leads to is marked with an arrow, below a line of its own.  Reading stops at the first
position that holds no instruction.

* `Program.sweep` are the instructions from the front of the code on.
* `Program.listing` is their text.
-/
import HookScript.Machine.Instruction
import HookScript.Program
import Std.Data.TreeSet

namespace HookScript

/-- The text of an operand. -/
def Operand.text : Operand → String
  | .register r => "r" ++ toString r
  | .immediate v => toString v
  | .label target => positionText target
  | .native index => "native#" ++ toString index
  | .raw _ length => "<" ++ toString length ++ " bytes>"

namespace Program

/-- The instructions from `place` on, after those in `found`, and the position that holds none, if
the code does not end there. -/
def sweepOnto (p : Program) (found : Array (Nat × Instruction)) (place : Nat) :
    Array (Nat × Instruction) × Option Nat :=
  if place < p.code.size then
    match h : Instruction.fetch p.code place with
    | .error _ => (found, some place)
    | .ok instruction =>
      have := Instruction.lt_of_fetch h
      p.sweepOnto (found.push (place, instruction)) instruction.next
  else
    (found, none)
termination_by p.code.size - place

/-- The instructions of the code, and the first position that holds none, if any. -/
def sweep (p : Program) : Array (Nat × Instruction) × Option Nat :=
  p.sweepOnto #[] 0

/-- The texts of operands, when those before them named the host function `native`. -/
def operandTexts (p : Program) : Option NativeBinding → List Operand → List String
  | _, [] => []
  | _, .native index :: rest => p.operandTexts (p.native? index) rest
  | native, .raw start length :: rest =>
    let arguments := native.bind fun binding =>
      Codec.decodeAll? binding.layout p.code (start + length) start
    match arguments with
    | some (arguments, _) => arguments.map Operand.text ++ p.operandTexts native rest
    | none => (Operand.raw start length).text :: p.operandTexts native rest
  | native, operand :: rest => operand.text :: p.operandTexts native rest

/-- The host function that operands name. -/
def called? (p : Program) (operands : List Operand) : Option NativeBinding :=
  operands.findSome? fun
    | .native index => p.native? index
    | _ => none

/-- The text of an instruction. -/
def instructionText (p : Program) (instruction : Instruction) : String :=
  let name :=
    match p.called? instruction.operands with
    | some binding => binding.symbol
    | none => instruction.opcode.name
  match p.operandTexts none instruction.operands with
  | [] => name
  | texts => Text.padRight 12 name ++ ", ".intercalate texts

/-- The positions that an instruction may jump to. -/
def targetsOf (instruction : Instruction) : List Nat :=
  instruction.operands.filterMap fun
    | .label target => some target
    | _ => none

/-- The line above an instruction that a jump leads to. -/
def targetRule : String :=
  "      ┌" ++ String.ofList (List.replicate 34 '─') ++ "\n"

/-- The line of an instruction, and the one above it if a jump leads there. -/
def listingLine (p : Program) (targets : Std.TreeSet Nat) (place : Nat)
    (instruction : Instruction) : String :=
  let target := targets.contains place
  (if target then targetRule else "") ++ Text.zeroPadded 4 place ++ " " ++
    (if target then "► " else "  ") ++ p.instructionText instruction ++ "\n"

/-- The listing of the code. -/
def listing (p : Program) : String :=
  let (instructions, broken) := p.sweep
  let targets := instructions.foldl (fun set (_, i) => set.insertMany (targetsOf i)) ∅
  let lines := instructions.foldl
    (fun text (place, i) => text ++ p.listingLine targets place i) ""
  match broken with
  | some place => lines ++ Text.zeroPadded 4 place ++ "   <invalid code>\n"
  | none => lines

/-- The listing below a heading with the size of the program. -/
def fullListing (p : Program) : String :=
  "=== BYTECODE ===\n\n" ++ toString p.code.size ++ " bytes, " ++ toString p.registers ++
    " registers, " ++ toString p.natives.size ++ " natives\n\n" ++ p.listing

end Program

end HookScript
