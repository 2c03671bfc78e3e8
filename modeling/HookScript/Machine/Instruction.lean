/-
Whole instructions.

* `Instruction.fetch` reads the instruction at a position, or says what is wrong with it.
* `Instruction.lt_of_fetch`: the next instruction lies behind it.
-/
import HookScript.Code.Opcode
import HookScript.Machine.Fault

namespace HookScript

/-- An instruction with its operands and the position after it, which has no bound here, as in
`Machine`. -/
structure Instruction where
  opcode : Opcode
  operands : List Operand
  next : Nat
deriving DecidableEq, Repr

namespace Instruction

/-- The name of an operation that could not be read. -/
def unknownName : String := "?"

/-- The instruction at `place`, or a fault and the name of the operation at fault. -/
def fetch (code : Array UInt8) (place : Nat) : Except (Fault × String) Instruction :=
  match code[place]? with
  | none => .error (.truncated, unknownName)
  | some byte =>
    match Opcode.find? byte with
    | none => .error (.unknownOpcode byte, unknownName)
    | some opcode =>
      match Codec.decodeAll? opcode.layout code code.size (place + 1) with
      | none => .error (.truncated, opcode.name)
      | some (operands, next) => .ok ⟨opcode, operands, next⟩

theorem lt_of_fetch {code : Array UInt8} {place : Nat} {instruction : Instruction}
    (h : fetch code place = .ok instruction) : place < instruction.next := by
  unfold fetch at h
  split at h
  · simp at h
  · split at h
    · simp at h
    · split at h
      · simp at h
      · rename_i hd
        cases h
        exact Codec.le_of_decodeAll? hd

theorem lt_size_of_fetch {code : Array UInt8} {place : Nat} {instruction : Instruction}
    (h : fetch code place = .ok instruction) : place < code.size := by
  unfold fetch at h
  split at h
  · simp at h
  · rename_i hb
    exact (Array.getElem?_eq_some_iff.1 hb).1

end Instruction

end HookScript
