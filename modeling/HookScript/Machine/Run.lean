/-
Runs of a program.

A run clears the registers in use, stores its inputs and carries out one instruction after the
other, until one of them ends the script, one fails, or the budget of instructions is used up.  Its
result is register 0.

* `Machine.step` carries out one instruction.
* `Program.run` is a whole run.
-/
import HookScript.Machine.Effect

namespace HookScript

/-- A run that has come to its end. -/
structure Run where
  result : Except RuntimeError Int32
  worker : Worker
  log : Array Event

namespace Machine

/-- What one instruction leads to. -/
inductive Step where
  | running (machine : Machine)
  | ended (result : Except RuntimeError Int32) (machine : Machine)

/-- Carries out the instruction that the machine goes on at. -/
def step (p : Program) (m : Machine) : Step :=
  match Instruction.fetch p.code m.position with
  | .error (fault, operation) => .ended (.error ⟨fault, operation, m.position⟩) m
  | .ok instruction =>
    let following := { m with position := instruction.next }
    match instruction.opcode.builtin.effect.perform p instruction.operands following with
    | (.proceed, after) => .running after
    | (.stop, after) => .ended (.ok (after.worker.registers.get 0)) after
    | (.fail fault, after) =>
      .ended (.error ⟨fault, instruction.opcode.name, m.position⟩) after

/-- The end of a run with `result`. -/
def finish (m : Machine) (result : Except RuntimeError Int32) : Run :=
  ⟨result, m.worker, m.log⟩

/-- Goes on for at most `left` instructions of a run that has a budget of `budget`. -/
def runFor (p : Program) (budget : Nat) : Nat → Machine → Run
  | 0, m => m.finish (.error ⟨.stepLimit budget, Instruction.unknownName, m.position⟩)
  | left + 1, m =>
    match m.step p with
    | .running m => m.runFor p budget left
    | .ended result m => m.finish result

end Machine

namespace Program

/-- The machine at the start of a run. -/
def start (p : Program) (worker : Worker) (inputs : List Int32) : Machine :=
  ⟨0, { worker with registers := worker.registers.reset p.registers.toNat inputs }, #[]⟩

/-- Runs a program with a budget of instructions. -/
def run (p : Program) (budget : Nat) (worker : Worker) (inputs : List Int32) : Run :=
  (p.start worker inputs).runFor p budget budget

/-- The budget of a run when none is asked for. -/
def defaultBudget : Nat := 65536

end Program

end HookScript
