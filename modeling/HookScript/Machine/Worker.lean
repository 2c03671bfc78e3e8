/-
Workers: the registers and the host objects that a run works on, seen through operands.

* `Worker.value` is the integer that an operand stands for, zero if it stands for none.
* `Worker.store` writes to an operand, which does nothing unless that is a register.
-/
import HookScript.Code.Codec
import HookScript.Host.Objects
import HookScript.Machine.Registers

namespace HookScript

/-- The state that instructions and host functions work on. -/
structure Worker where
  registers : RegisterFile := .zero
  objects : HostObjects := .empty
deriving DecidableEq, Repr

namespace Worker

/-- A worker with zero registers and no host objects. -/
def fresh : Worker := {}

/-- The integer that operand `i` stands for. -/
def value (w : Worker) (operands : List Operand) (i : Nat) : Int32 :=
  match operands[i]? with
  | some (.register r) => w.registers.get r
  | some (.immediate v) => v
  | _ => 0

/-- The worker after writing to operand `i`. -/
def store (w : Worker) (operands : List Operand) (i : Nat) (value : Int32) : Worker :=
  match operands[i]? with
  | some (.register r) => { w with registers := w.registers.set r value }
  | _ => w

end Worker

end HookScript
