/-
What a fault leaves behind.

Instructions look at everything that speaks against them before they write anything.  Hence the
instruction that ends a run by a fault has done nothing, unless it has called a host function and
the host function has failed.

* `Effect.eq_of_fail` and `Effect.performCall_fail_cases` — an instruction that fails has changed
  nothing, or it has called a host function that has failed;
* `Machine.worker_of_error` — so does a step that ends by an error;
* `Program.StopsAt` — where a run has ended by an error, and what it reports;
* `Program.faults_change_nothing` — what such a run leaves behind.
-/
import HookScript.Proofs.Machine.Budget
import HookScript.Proofs.Machine.Safety

namespace HookScript

/-! ### Instructions -/

/-- An instruction that is no call and fails has changed nothing. -/
theorem Effect.eq_of_fail {effect : Effect} {p : Program} {operands : List Operand}
    {m m' : Machine} {fault : Fault} (hc : effect ≠ .call)
    (h : effect.perform p operands m = (.fail fault, m')) : m' = m := by
  cases effect with
  | assign compute =>
    -- the value is there before it is stored, whatever register it is computed from
    simp only [perform] at h
    split at h
    · cases h
    · exact (Prod.mk.inj h).2.symm
  | jump choose =>
    simp only [perform] at h
    split at h <;> cases h
  | call => exact absurd rfl hc
  | exchange | stop | yield | log count => cases h

/-- A call that fails has changed nothing, or its host function has failed. -/
theorem Effect.performCall_fail_cases {p : Program} {i : Instruction} {place : Nat}
    (fetched : Instruction.fetch p.code place = .ok i) (hc : i.opcode.builtin = .call)
    {m m' : Machine} {fault : Fault} (h : performCall p i.operands m = (.fail fault, m')) :
    m' = m ∨ ∃ binding arguments, p.Calls i binding arguments ∧
      (binding.routine.run arguments m.worker).1 = .fail fault := by
  obtain ⟨index, start, length, ho, -⟩ := Instruction.operands_of_call fetched hc
  rw [ho, performCall] at h
  dsimp only at h
  split at h
  · exact .inl (Prod.mk.inj h).2.symm
  · rename_i binding hb
    split at h
    · exact .inl (Prod.mk.inj h).2.symm
    · rename_i arguments ha
      exact .inr ⟨binding, arguments, ⟨index, start, length, ho, hb, ha⟩, (Prod.mk.inj h).1⟩

/-! ### Steps -/

/-- The machine stands in front of a call of a host function that fails with the fault. -/
def Program.HostFailsAt (p : Program) (m : Machine) (fault : Fault) : Prop :=
  ∃ i binding arguments, Instruction.fetch p.code m.position = .ok i ∧
    i.opcode.builtin = .call ∧ p.Calls i binding arguments ∧
    (binding.routine.run arguments m.worker).1 = .fail fault

namespace Machine

variable {p : Program} {m m' : Machine} {e : RuntimeError}

/-- A step that ends by an error has changed nothing, or a host function has failed. -/
theorem worker_of_error (h : m.step p = .ended (.error e) m') :
    p.HostFailsAt m e.fault ∨ m'.worker = m.worker ∧ m'.log = m.log := by
  cases hfetch : Instruction.fetch p.code m.position with
  | error failure =>
    rw [step, hfetch] at h
    cases h
    exact .inr ⟨rfl, rfl⟩
  | ok i =>
    rw [step_of_fetch hfetch] at h
    split at h
    · cases h
    · cases h
    · rename_i fault after hperform
      cases h
      by_cases hc : i.opcode.builtin.effect = .call
      · have hcall := Builtin.eq_call_of_effect hc
        rw [hc] at hperform
        rcases Effect.performCall_fail_cases hfetch hcall hperform with rfl | hhost
        · exact .inr ⟨rfl, rfl⟩
        · obtain ⟨binding, arguments, hcalls, hfail⟩ := hhost
          exact .inl ⟨i, binding, arguments, hfetch, hcall, hcalls, hfail⟩
      · obtain rfl := Effect.eq_of_fail hc hperform
        exact .inr ⟨rfl, rfl⟩

/-- The error of a step names the instruction that the machine stands in front of, if there is
one. -/
theorem operation_of_error {i : Instruction} (fetched : Instruction.fetch p.code m.position = .ok i)
    (h : m.step p = .ended (.error e) m') : e.operation = i.opcode.name := by
  rw [step_of_fetch fetched] at h
  split at h <;> cases h
  rfl

end Machine

/-! ### Runs -/

namespace Program

/-- The run has ended by the error `e` after `n` instructions, in front of the instruction that the
machine `m` goes on at. -/
structure StopsAt (p : Program) (budget : Nat) (worker : Worker) (inputs : List Int32)
    (e : RuntimeError) (n : Nat) (m : Machine) : Prop where
  within : n ≤ budget
  completed : (p.start worker inputs).after p n = .running m
  position : e.position = m.position
  /-- with its budget used up, the run does not look at the next instruction -/
  limit : n = budget → e.fault = .stepLimit budget ∧ e.operation = Instruction.unknownName
  /-- otherwise it fails at that instruction, and names it -/
  failed : n < budget → ∃ m', m.step p = .ended (.error e) m'
  named : n < budget → (∃ i, Instruction.fetch p.code m.position = .ok i ∧
      e.operation = i.opcode.name) ∨
    m.position = p.code.size ∧ e.fault = .truncated ∧ e.operation = Instruction.unknownName

/-- What a run of verified code leaves behind that has ended by an error is what it had come to by
the instructions that it has completed, unless a host function has failed.  Registers, host objects
and log are as they were in front of the instruction at the position that is reported.  Positions
have no bound, as in `Machine`. -/
theorem faults_change_nothing (p : Program) (hv : p.verify = .ok ()) (worker : Worker)
    (inputs : List Int32) (budget : Nat) (e : RuntimeError)
    (he : (p.run budget worker inputs).result = .error e) :
    ∃ n m, p.StopsAt budget worker inputs e n m ∧
      (n < budget ∧ p.HostFailsAt m e.fault ∨
        (p.run budget worker inputs).worker = m.worker ∧
          (p.run budget worker inputs).log = m.log) := by
  obtain ⟨-, tiles, ht, hc⟩ := verify_eq_ok_iff.mp hv
  cases hafter : (p.start worker inputs).after p budget with
  | running m =>
    rw [run_of_running hafter] at he ⊢
    cases he
    refine ⟨budget, m, ⟨Nat.le_refl _, hafter, rfl, fun _ => ⟨rfl, rfl⟩, ?_, ?_⟩, .inr ⟨rfl, rfl⟩⟩
    · exact fun hlt => absurd hlt (Nat.lt_irrefl _)
    · exact fun hlt => absurd hlt (Nat.lt_irrefl _)
  | ended result m' =>
    obtain ⟨n, m, hlt, hn, hstep⟩ := Machine.exists_last_of_after hafter
    rw [run_of_ended hafter] at he ⊢
    obtain rfl : result = .error e := he
    have hposition := Machine.position_of_ended hstep
    refine ⟨n, m, ⟨Nat.le_of_lt hlt, hn, hposition, fun heq => ?_, fun _ => ⟨m', hstep⟩,
      fun _ => ?_⟩, ?_⟩
    · exact absurd heq (Nat.ne_of_lt hlt)
    · -- in verified code there is an instruction, or the code is at its end
      have hreach := Machine.reaches_of_after hn
      rcases Machine.position_of_reaches ht hc hreach ht.place_mem with hm | hm
      · obtain ⟨⟨place, i⟩, hi, rfl⟩ := List.mem_map.mp hm
        have fetched := (ht.of_mem hi).1
        exact .inl ⟨i, fetched, Machine.operation_of_error fetched hstep⟩
      · rw [Machine.step_at_end hm] at hstep
        cases hstep
        exact .inr ⟨hm, rfl, rfl⟩
    · exact (Machine.worker_of_error hstep).imp (fun hhost => ⟨hlt, hhost⟩) fun h => h

/-- Exchanges two registers, and then divides the first by the second. -/
def exchangedDivision : Program where
  code := #[8, 0, 1, 32, 0, 1, 0]
  registers := 2
  natives := #[]

theorem faults_change_nothing_exchangedDivision :
    exchangedDivision.verify = .ok () ∧
      (exchangedDivision.run 10 .fresh [0, 7]).result = .error ⟨.divisionByZero, "div", 3⟩ ∧
      ∃ n m, exchangedDivision.StopsAt 10 .fresh [0, 7] ⟨.divisionByZero, "div", 3⟩ n m ∧
        (n < 10 ∧ exchangedDivision.HostFailsAt m .divisionByZero ∨
          (exchangedDivision.run 10 .fresh [0, 7]).worker = m.worker ∧
            (exchangedDivision.run 10 .fresh [0, 7]).log = m.log) := by
  have hv : exchangedDivision.verify = .ok () := by decide +kernel
  have he : (exchangedDivision.run 10 .fresh [0, 7]).result
      = .error ⟨.divisionByZero, "div", 3⟩ := by decide +kernel
  exact ⟨hv, he, faults_change_nothing exchangedDivision hv .fresh [0, 7] 10 _ he⟩

end Program

end HookScript
