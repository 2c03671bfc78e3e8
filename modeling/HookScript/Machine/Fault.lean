/-
Faults: why an instruction stops a script for good, and where that happened.
-/
import HookScript.Code.Buffer

namespace HookScript

/-- Why an instruction stops the script. -/
inductive Fault where
  | divisionByZero
  | nonPositivePeriod
  | unknownOpcode (byte : UInt8)
  /-- the code ends inside an instruction -/
  | truncated
  /-- the run has used up its budget of instructions -/
  | stepLimit (budget : Nat)
  /-- a host function failed -/
  | native (reason : String)
deriving DecidableEq, Repr

/-- The wording of a fault. -/
def Fault.message : Fault → String
  | divisionByZero => "division by zero"
  | nonPositivePeriod => "wave period must be positive"
  | unknownOpcode byte => "unknown opcode " ++ Text.hexByte byte
  | truncated => "program ends inside an instruction"
  | stepLimit budget => "step budget of " ++ toString budget ++ " instructions exhausted"
  | native reason => "native function failed: " ++ reason

/-- A fault with the operation and the position of its instruction, without a bound on positions. -/
structure RuntimeError where
  fault : Fault
  /-- the name of the operation, `?` if there is none -/
  operation : String
  position : Nat
deriving DecidableEq, Repr

/-- The wording of a runtime error. -/
def RuntimeError.message (e : RuntimeError) : String :=
  e.fault.message ++ " in '" ++ e.operation ++ "' at " ++ positionText e.position

/-- What an instruction or a host function does to the run. -/
inductive Outcome where
  | proceed
  /-- ends the script; register 0 holds the result -/
  | stop
  | fail (fault : Fault)
deriving DecidableEq, Repr

end HookScript
