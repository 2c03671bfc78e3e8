/-
The registers of a worker.

There are 64 of them.  Reading any other gives zero and writing any other does nothing.

* `RegisterFile.get` and `RegisterFile.set` read and write one register.
* `RegisterFile.reset` prepares a run: it clears the registers that the program uses and stores
  the inputs from register 0 on.
-/
namespace HookScript

/-- The number of registers. -/
def maxRegisters : Nat := 64

/-- The values of the registers. -/
structure RegisterFile where
  slots : Vector Int32 maxRegisters
deriving DecidableEq, Repr

namespace RegisterFile

/-- All registers are zero. -/
def zero : RegisterFile := ⟨Vector.replicate maxRegisters 0⟩

/-- The value of a register. -/
def get (r : RegisterFile) (index : UInt8) : Int32 :=
  r.slots[index.toNat]?.getD 0

/-- The registers after writing one. -/
def set (r : RegisterFile) (index : UInt8) (value : Int32) : RegisterFile :=
  ⟨r.slots.setIfInBounds index.toNat value⟩

/-- The value of register `i` after a reset. -/
def resetSlot (used : Nat) (inputs : List Int32) (i : Nat) (old : Int32) : Int32 :=
  inputs[i]?.getD (if i < used then 0 else old)

/-- The first `used` registers cleared, and the inputs stored from register 0 on. -/
def reset (r : RegisterFile) (used : Nat) (inputs : List Int32) : RegisterFile :=
  ⟨r.slots.mapIdx (resetSlot used inputs)⟩

/-- All values in order. -/
def toList (r : RegisterFile) : List Int32 :=
  r.slots.toList

end RegisterFile

end HookScript
