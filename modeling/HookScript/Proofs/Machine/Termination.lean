/-
Runs that only go ahead.

If no jump of a program leads back, a run goes from each instruction to one behind it.  So it
carries out no instruction twice, and it is over after as many instructions as the code has, unless
it comes to the end of the code.

* `Program.JumpsAhead` — no jump leads back, or to itself;
* `Machine.position_lt_of_step` — a step leads ahead;
* `Machine.nodup_trace` — hence a run carries out each instruction at most once;
* `Program.RunsAhead` — what that means for the runs of a program.
-/
import HookScript.Proofs.Control.Correctness
import HookScript.Proofs.Machine.Budget
import HookScript.Proofs.Machine.Safety
import Mathlib.Data.List.Nodup

namespace HookScript

/-- All instructions that may jump lie in front of where they lead. -/
def Program.JumpsAhead (tiles : List (Nat × Instruction)) : Prop :=
  ∀ tile ∈ tiles, ∀ target, .label target ∈ tile.2.operands → tile.1 < target

namespace Machine

variable {p : Program} {tiles : List (Nat × Instruction)} {m m' : Machine}

/-- Whether an instruction jumps or not, the run goes on behind it. -/
theorem position_lt_of_step (ht : p.Tiling 0 tiles) (ha : Program.JumpsAhead tiles)
    (hm : m.position ∈ tiles.map Prod.fst ∨ m.position = p.code.size)
    (hs : m.step p = .running m') : m.position < m'.position := by
  obtain ⟨i, fetched⟩ := exists_fetch_of_running hs
  have hi := exists_tile_of_fetch ht hm fetched
  rw [step_of_fetch fetched] at hs
  split at hs
  · rename_i after hp
    cases hs
    rcases Effect.perform_position hp with hnext | hlabel
    · rw [hnext]
      exact Instruction.lt_of_fetch fetched
    · exact ha _ hi _ hlabel
  · cases hs
  · cases hs

/-- What a run comes to is not in front of where it is. -/
theorem position_le_of_reaches (ht : p.Tiling 0 tiles) (hc : Program.Closed tiles)
    (ha : Program.JumpsAhead tiles)
    (hm : m.position ∈ tiles.map Prod.fst ∨ m.position = p.code.size) (hr : Reaches p m m') :
    m.position ≤ m'.position := by
  induction hr with
  | refl => exact Nat.le_refl _
  | tail hbefore hs ih =>
    have hlt := position_lt_of_step ht ha (position_of_reaches ht hc hbefore hm) hs
    exact Nat.le_trans ih (Nat.le_of_lt hlt)

/-- No instruction is carried out twice. -/
theorem nodup_trace (ht : p.Tiling 0 tiles) (hc : Program.Closed tiles)
    (ha : Program.JumpsAhead tiles) (n : Nat)
    (hm : m.position ∈ tiles.map Prod.fst ∨ m.position = p.code.size) :
    ((m.trace p n).map position).Nodup := by
  induction n generalizing m with
  | zero => exact List.nodup_nil
  | succ n ih =>
    cases hs : m.step p with
    | running m₁ =>
      have hm₁ := position_of_step ht hc hs hm
      rw [trace_of_running hs, List.map_cons, List.nodup_cons]
      refine ⟨fun hmem => ?_, ih hm₁⟩
      -- what is carried out later lies behind this instruction
      obtain ⟨later, hlater, heq⟩ := List.mem_map.mp hmem
      have hlt := position_lt_of_step ht ha hm hs
      have hle := position_le_of_reaches ht hc ha hm₁ (exists_fetch_of_mem_trace hlater).1
      omega
    | ended result m₁ =>
      rw [trace]
      split
      · exact List.nodup_nil
      · rw [hs]
        exact List.nodup_singleton _

/-- A run that stays inside the code is over after as many instructions as there are. -/
theorem ended_of_length_le (ht : p.Tiling 0 tiles) (hc : Program.Closed tiles)
    (ha : Program.JumpsAhead tiles)
    (hm : m.position ∈ tiles.map Prod.fst ∨ m.position = p.code.size)
    (inside : ∀ m', Reaches p m m' → m'.position ≠ p.code.size) {n : Nat}
    (hn : tiles.length ≤ n) : ∃ result m', m.after p n = .ended result m' := by
  cases h : m.after p n with
  | ended result m' => exact ⟨result, m', rfl⟩
  | running m' =>
    -- with the instruction that comes next, more would be carried out than there are
    have hr := reaches_of_after h
    have hplace := (position_of_reaches ht hc hr hm).resolve_right (inside m' hr)
    obtain ⟨⟨place, i⟩, hi, rfl⟩ := List.mem_map.mp hplace
    have fetched := (ht.of_mem hi).1
    have hsub : (m.trace p (n + 1)).map position ⊆ tiles.map Prod.fst := by
      intro place hplace
      obtain ⟨m₁, hm₁, rfl⟩ := List.mem_map.mp hplace
      obtain ⟨hr₁, j, hj⟩ := exists_fetch_of_mem_trace hm₁
      exact List.mem_map_of_mem (exists_tile_of_fetch ht (position_of_reaches ht hc hr₁ hm) hj)
    have hlength := (nodup_trace ht hc ha (n + 1) hm).length_le_of_subset hsub
    rw [List.length_map, List.length_map, length_trace_of_running h fetched] at hlength
    omega

end Machine

/-- The runs of the program with the given worker and inputs only go ahead. -/
structure Program.RunsAhead (p : Program) (worker : Worker) (inputs : List Int32) : Prop where
  /-- an instruction is followed by one behind it -/
  ahead : ∀ m m', (p.start worker inputs).Reaches p m → m.step p = .running m' →
    m.position < m'.position
  /-- no instruction is carried out twice -/
  once : ∀ n, (((p.start worker inputs).trace p n).map Machine.position).Nodup
  /-- as many instructions as the code has are enough for a run, unless a host function reports
  otherwise -/
  ends : (∀ binding ∈ p.natives, ∀ operands worker limit,
      (binding.routine.run operands worker).1 ≠ .fail (.stepLimit limit)) →
    ∀ budget, p.sweep.1.size ≤ budget → ∀ e, (p.run budget worker inputs).result = .error e →
      ∀ limit, e.fault ≠ .stepLimit limit

/-- If no jump leads back and no run comes to the end of the code, all runs only go ahead. -/
theorem Program.runsAhead_of_tiling {p : Program} {tiles : List (Nat × Instruction)}
    (ht : p.Tiling 0 tiles) (hc : Closed tiles) (ha : JumpsAhead tiles)
    (hn : ∀ binding ∈ p.natives, binding.layout.length ≤ maxOperands) {worker : Worker}
    {inputs : List Int32}
    (inside : ∀ m, (p.start worker inputs).Reaches p m → m.position ≠ p.code.size) :
    p.RunsAhead worker inputs := by
  have positions : ∀ m, (p.start worker inputs).Reaches p m →
      m.position ∈ tiles.map Prod.fst ∨ m.position = p.code.size :=
    fun m hr => Machine.position_of_reaches ht hc hr ht.place_mem
  refine ⟨fun m m' hr => Machine.position_lt_of_step ht ha (positions m hr),
    fun n => Machine.nodup_trace ht hc ha n (positions _ .refl),
    fun hosts budget hbudget e he limit hlimit => ?_⟩
  have hsize : p.sweep.1.size = tiles.length := by rw [ht.sweep_eq, List.size_toArray]
  obtain ⟨result, m', hend⟩ :=
    Machine.ended_of_length_le ht hc ha (positions _ .refl) inside (hsize ▸ hbudget)
  obtain ⟨last, hr, hlast⟩ := Machine.exists_step_of_after hend
  rw [run_of_ended hend] at he
  obtain rfl : result = .error e := he
  -- only a host function could have reported a used up budget
  rcases fault_of_step ht hn hr (positions last hr) hlast with
    ⟨m, i, binding, arguments, -, -, -, ⟨index, -, -, -, hb, -⟩, hfail⟩ | h | h | ⟨h, -⟩
  · exact hosts binding (Array.mem_of_getElem? hb) _ _ limit (hlimit ▸ hfail)
  · cases hlimit.symm.trans h
  · cases hlimit.symm.trans h
  · cases hlimit.symm.trans h

end HookScript
