/-
What runs leave as it is in the host objects.

Instructions reach the objects of a worker only through the host functions that they call.

* `Effect.objects_perform` — no other instruction changes an object;
* `HostRoutine.Observes` — a host function that changes none either;
* `Machine.objects_runFor` and `Program.objects_run` — with host functions that only observe, all
  objects are after a run as they were before it.
-/
import HookScript.Proofs.Machine.Registers

namespace HookScript

theorem Worker.objects_store (w : Worker) (operands : List Operand) (i : Nat) (value : Int32) :
    (w.store operands i value).objects = w.objects := by
  rw [store]
  split <;> rfl

/-- The host function leaves all objects as they are, whatever it is called with. -/
def HostRoutine.Observes (routine : HostRoutine) : Prop :=
  ∀ operands w, (routine.run operands w).2.objects = w.objects

/-- All host functions of the program leave all objects as they are. -/
def Program.Observes (p : Program) : Prop :=
  ∀ binding ∈ p.natives, binding.routine.Observes

namespace Effect

/-- An instruction that is no call leaves all objects as they are. -/
theorem objects_perform {effect : Effect} (hc : effect ≠ .call) (p : Program)
    (operands : List Operand) (m : Machine) :
    (effect.perform p operands m).2.worker.objects = m.worker.objects := by
  cases effect with
  | assign compute =>
    simp only [perform]
    split
    · exact Worker.objects_store _ _ _ _
    · rfl
  | exchange =>
    simp only [perform]
    rw [Worker.objects_store, Worker.objects_store]
  | jump choose =>
    simp only [perform]
    split <;> rfl
  | call => exact absurd rfl hc
  | stop | yield | log count => rfl

theorem objects_performCall {p : Program} (h : p.Observes) (operands : List Operand)
    (m : Machine) : (performCall p operands m).2.worker.objects = m.worker.objects := by
  unfold performCall
  split
  · split
    · rfl
    · rename_i binding hbinding
      split
      · rfl
      · exact h binding (Array.mem_of_getElem? hbinding) _ _
  · rfl

end Effect

namespace Machine

variable {p : Program}

/-- With host functions that only observe, an instruction leaves all objects as they are. -/
theorem objects_step (h : p.Observes) (m : Machine) :
    (m.step p).machine.worker.objects = m.worker.objects := by
  cases hfetch : Instruction.fetch p.code m.position with
  | error e =>
    rw [step, hfetch]
    rfl
  | ok i =>
    rw [machine_step_of_fetch hfetch]
    by_cases hcall : i.opcode.builtin.effect = .call
    · rw [hcall]
      exact Effect.objects_performCall h i.operands _
    · exact Effect.objects_perform hcall p i.operands _

theorem objects_runFor (h : p.Observes) (budget left : Nat) (m : Machine) :
    (m.runFor p budget left).worker.objects = m.worker.objects := by
  -- the machine changes with every step, so it is part of what the induction is about
  induction left generalizing m with
  | zero => rfl
  | succ left ih =>
    have hstep := objects_step h m
    rw [runFor]
    split
    · rename_i next hnext
      rw [hnext] at hstep
      exact (ih next).trans hstep
    · rename_i result last hlast
      rw [hlast] at hstep
      exact hstep

end Machine

/-- With host functions that only observe, a run leaves all objects as they are. -/
theorem Program.objects_run {p : Program} (h : p.Observes) (budget : Nat) (worker : Worker)
    (inputs : List Int32) : (p.run budget worker inputs).worker.objects = worker.objects :=
  Machine.objects_runFor h budget budget _

end HookScript
