/-
Budgets of runs.

A run goes round a loop: it looks at what is left of its budget, then carries out one instruction.
Without the budget the loop goes on until an instruction ends it, or for ever.  The budget says how
many rounds there are at most, and nothing else.

* `Machine.after` — what the loop without a budget has come to after some rounds;
* `Machine.trace` — the instructions that these rounds carry out, as the machines in front of them;
* `Machine.runFor_eq` — a run is this loop, cut short where the budget is used up;
* `Program.budget_only_cuts_short` — a run that is not cut short is the same under all greater
  budgets.
-/
import HookScript.Proofs.Machine.Execution

namespace HookScript

/-! ### The loop without a budget -/

namespace Machine

/-- What the machine has come to after so many rounds, if there is no budget. -/
def after (p : Program) : Nat → Machine → Step
  | 0, m => .running m
  | n + 1, m =>
    match m.step p with
    | .running m => m.after p n
    | .ended result m => .ended result m

/-- The machines in front of the instructions that so many rounds carry out.  What is no instruction
is not carried out. -/
def trace (p : Program) : Nat → Machine → List Machine
  | 0, _ => []
  | n + 1, m =>
    match Instruction.fetch p.code m.position with
    | .error _ => []
    | .ok _ =>
      m :: match m.step p with
        | .running m' => m'.trace p n
        | .ended _ _ => []

variable {p : Program} {n : Nat} {m m' : Machine}

/-- A machine that goes on has carried out an instruction. -/
theorem exists_fetch_of_running (h : m.step p = .running m') :
    ∃ i, Instruction.fetch p.code m.position = .ok i := by
  rw [step] at h
  split at h
  · cases h
  · exact ⟨_, ‹_›⟩

theorem trace_of_running (h : m.step p = .running m') :
    m.trace p (n + 1) = m :: m'.trace p n := by
  obtain ⟨i, hi⟩ := exists_fetch_of_running h
  rw [trace, hi, h]

theorem trace_of_ended {result : Except RuntimeError Int32} (h : m.step p = .ended result m') :
    m.trace p (n + 1) = m.trace p 1 := by
  simp only [trace, h]

/-- The loop has an end, and more rounds lead nowhere else. -/
theorem after_of_le {more : Nat} {result : Except RuntimeError Int32} (hle : n ≤ more)
    (h : m.after p n = .ended result m') :
    m.after p more = .ended result m' ∧ m.trace p more = m.trace p n := by
  induction n generalizing m more with
  | zero => cases h
  | succ n ih =>
    obtain ⟨more, rfl⟩ : ∃ k, more = k + 1 := ⟨more - 1, by omega⟩
    cases hs : m.step p with
    | running m₁ =>
      rw [after, hs] at h ⊢
      obtain ⟨ha, ht⟩ := ih (Nat.le_of_succ_le_succ hle) h
      exact ⟨ha, by rw [trace_of_running hs, trace_of_running hs, ht]⟩
    | ended result₁ m₁ =>
      rw [after, hs] at h ⊢
      exact ⟨h, by rw [trace_of_ended hs, ← trace_of_ended hs]⟩

theorem length_trace_le (p : Program) (n : Nat) (m : Machine) : (m.trace p n).length ≤ n := by
  induction n generalizing m with
  | zero => exact Nat.le_refl 0
  | succ n ih =>
    rw [trace]
    split
    · exact Nat.zero_le _
    · rw [List.length_cons]
      split
      · exact Nat.succ_le_succ (ih _)
      · exact Nat.succ_le_succ (Nat.zero_le n)

/-- While the loop goes on, every round carries out an instruction. -/
theorem length_trace_of_running (h : m.after p n = .running m') {i : Instruction}
    (fetched : Instruction.fetch p.code m'.position = .ok i) :
    (m.trace p (n + 1)).length = n + 1 := by
  induction n generalizing m with
  | zero =>
    cases h
    rw [trace, fetched, List.length_cons]
    split <;> rfl
  | succ n ih =>
    rw [after] at h
    cases hs : m.step p with
    | running m₁ =>
      rw [hs] at h
      rw [trace_of_running hs, List.length_cons, ih h]
    | ended result m₁ =>
      rw [hs] at h
      cases h

theorem reaches_of_after (h : m.after p n = .running m') : Reaches p m m' := by
  induction n generalizing m with
  | zero =>
    cases h
    exact .refl
  | succ n ih =>
    rw [after] at h
    cases hs : m.step p with
    | running m₁ =>
      rw [hs] at h
      exact (ih h).head hs
    | ended result m₁ =>
      rw [hs] at h
      cases h

/-- Instructions that are carried out can be read, where the run comes to. -/
theorem exists_fetch_of_mem_trace (h : m' ∈ m.trace p n) :
    Reaches p m m' ∧ ∃ i, Instruction.fetch p.code m'.position = .ok i := by
  induction n generalizing m with
  | zero => cases h
  | succ n ih =>
    rw [trace] at h
    split at h
    · cases h
    · rename_i i hi
      rcases List.mem_cons.mp h with rfl | h
      · exact ⟨.refl, i, hi⟩
      · split at h
        · rename_i m₁ hs
          obtain ⟨hr, hfetch⟩ := ih h
          exact ⟨hr.head hs, hfetch⟩
        · cases h

/-- What ends the loop is the last of its rounds. -/
theorem exists_last_of_after {result : Except RuntimeError Int32}
    (h : m.after p n = .ended result m') :
    ∃ k last, k < n ∧ m.after p k = .running last ∧ last.step p = .ended result m' := by
  induction n generalizing m with
  | zero => cases h
  | succ n ih =>
    rw [after] at h
    cases hs : m.step p with
    | running m₁ =>
      rw [hs] at h
      obtain ⟨k, last, hlt, hk, hlast⟩ := ih h
      exact ⟨k + 1, last, Nat.succ_lt_succ hlt, by rw [after, hs]; exact hk, hlast⟩
    | ended result₁ m₁ =>
      rw [hs] at h
      exact ⟨0, m, Nat.succ_pos n, rfl, hs.trans h⟩

/-- What ends the loop is the step of a machine that is reached. -/
theorem exists_step_of_after {result : Except RuntimeError Int32}
    (h : m.after p n = .ended result m') : ∃ last, Reaches p m last ∧
      last.step p = .ended result m' := by
  obtain ⟨k, last, -, hk, hlast⟩ := exists_last_of_after h
  exact ⟨last, reaches_of_after hk, hlast⟩

/-- A run is the loop for as many rounds as its budget has left. -/
theorem runFor_eq (p : Program) (budget left : Nat) (m : Machine) :
    m.runFor p budget left =
      match m.after p left with
      | .running m' => m'.finish (.error ⟨.stepLimit budget, Instruction.unknownName, m'.position⟩)
      | .ended result m' => m'.finish result := by
  induction left generalizing m with
  | zero => rfl
  | succ left ih =>
    rw [runFor, after]
    cases m.step p with
    | running m₁ => exact ih m₁
    | ended result m₁ => rfl

end Machine

/-! ### The limit -/

/-- The run reports that the budget is used up, of itself and not because an instruction says so. -/
def Run.CutShort (run : Run) (budget position : Nat) : Prop :=
  run.result = .error ⟨.stepLimit budget, Instruction.unknownName, position⟩

theorem Builtin.name_ne_unknownName (b : Builtin) : b.name ≠ Instruction.unknownName := by
  cases b <;> decide

/-- What cannot be read has a fault of its own, and what can be read has a name. -/
theorem Machine.not_cutShort_of_step {p : Program} {m m' : Machine}
    {result : Except RuntimeError Int32} (h : m.step p = .ended result m') (budget position : Nat) :
    ¬ (m'.finish result).CutShort budget position := by
  intro hcut
  obtain rfl : result = .error ⟨.stepLimit budget, Instruction.unknownName, position⟩ := hcut
  unfold step at h
  split at h
  · rename_i fault operation hf
    obtain ⟨he, -⟩ := Step.ended.inj h
    obtain ⟨rfl, -, -⟩ := RuntimeError.mk.inj (Except.error.inj he)
    unfold Instruction.fetch at hf
    repeat' split at hf
    all_goals cases hf
  · dsimp only at h
    split at h
    · cases h
    · cases h
    · obtain ⟨he, -⟩ := Step.ended.inj h
      obtain ⟨-, hname, -⟩ := RuntimeError.mk.inj (Except.error.inj he)
      exact Builtin.name_ne_unknownName _ hname

namespace Program

variable {p : Program} {worker : Worker} {inputs : List Int32} {budget : Nat} {m : Machine}

/-- A run that is not over after as many rounds as it has budget is cut short in front of its next
instruction. -/
theorem run_of_running (h : (p.start worker inputs).after p budget = .running m) :
    p.run budget worker inputs =
      m.finish (.error ⟨.stepLimit budget, Instruction.unknownName, m.position⟩) := by
  rw [run, Machine.runFor_eq, h]

theorem run_of_ended {result : Except RuntimeError Int32}
    (h : (p.start worker inputs).after p budget = .ended result m) :
    p.run budget worker inputs = m.finish result := by
  rw [run, Machine.runFor_eq, h]

theorem cutShort_iff (p : Program) (worker : Worker) (inputs : List Int32)
    (budget position : Nat) :
    (p.run budget worker inputs).CutShort budget position ↔
      ∃ m, (p.start worker inputs).after p budget = .running m ∧ m.position = position := by
  constructor
  · intro hcut
    cases h : (p.start worker inputs).after p budget with
    | running m =>
      rw [run_of_running h] at hcut
      obtain ⟨-, -, hposition⟩ := RuntimeError.mk.inj (Except.error.inj hcut)
      exact ⟨m, rfl, hposition⟩
    | ended result m =>
      obtain ⟨last, -, hlast⟩ := Machine.exists_step_of_after h
      rw [run_of_ended h] at hcut
      exact absurd hcut (Machine.not_cutShort_of_step hlast budget position)
  · rintro ⟨m, h, rfl⟩
    rw [run_of_running h]
    rfl

/-- A run carries out no more instructions than it has budget.  If it is not cut short, then the run
with any greater budget is the same, instruction by instruction.  It is cut short at the instruction
that it would go on with if the loop without a budget is not over after as many rounds, and only
then.  Positions have no bound, as in `Machine`. -/
theorem budget_only_cuts_short (p : Program) (worker : Worker) (inputs : List Int32)
    (budget : Nat) :
    ((p.start worker inputs).trace p budget).length ≤ budget ∧
    ((∀ position, ¬ (p.run budget worker inputs).CutShort budget position) →
      ∀ more, budget ≤ more → p.run more worker inputs = p.run budget worker inputs ∧
        (p.start worker inputs).trace p more = (p.start worker inputs).trace p budget) ∧
    ∀ position, (p.run budget worker inputs).CutShort budget position ↔
      ∃ m, (p.start worker inputs).after p budget = .running m ∧ m.position = position := by
  refine ⟨Machine.length_trace_le p budget _, fun hnot more hle => ?_,
    cutShort_iff p worker inputs budget⟩
  cases h : (p.start worker inputs).after p budget with
  | running m => exact absurd ((cutShort_iff ..).mpr ⟨m, h, rfl⟩) (hnot m.position)
  | ended result m =>
    obtain ⟨hafter, htrace⟩ := Machine.after_of_le hle h
    exact ⟨(run_of_ended hafter).trans (run_of_ended h).symm, htrace⟩

end Program

end HookScript
