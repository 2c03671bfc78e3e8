/-
Programs: finished code with the number of registers it uses and the host functions it calls.
-/
import HookScript.Host.Routine

namespace HookScript

/-- A finished script. -/
structure Program where
  code : Array UInt8
  /-- the number of registers in use, which a run clears at its start -/
  registers : UInt8
  natives : Array NativeBinding

namespace Program

/-- The host function at a place of the program's own table. -/
def native? (p : Program) (index : Nat) : Option NativeBinding :=
  p.natives[index]?

/-- The program in a few words. -/
def describe (p : Program) : String :=
  "Program \x7b code_len: " ++ toString p.code.size ++ ", registers: " ++ toString p.registers ++
    ", natives: " ++ toString p.natives.size ++ " \x7d"

end Program

end HookScript
