/-
Verified code executes safely.

Verification sweeps over the code once, but a run follows jumps and reads every instruction again,
and a call reads a block of operands inside an instruction.  All of them see the same instructions:

* `Machine.position_of_reaches` — a run is always at the beginning of a tile, or at the end of the
  code;
* `Program.SafeAt` — what verification knows of an instruction, and the run finds of it;
* `Program.fault_of_step` — the faults that the machine itself can raise in verified code;
* `Program.verified_runs_are_safe` — all of it together, for programs such as registries build.
-/
import HookScript.Proofs.Machine.Execution

namespace HookScript

namespace Machine

variable {p : Program} {tiles : List (Nat × Instruction)}

/-- An instruction that goes on does so at the beginning of an instruction or at the end of the
code. -/
theorem position_of_step (ht : p.Tiling 0 tiles) (hc : Program.Closed tiles) {m m' : Machine}
    (hs : m.step p = .running m')
    (hm : m.position ∈ tiles.map Prod.fst ∨ m.position = p.code.size) :
    m'.position ∈ tiles.map Prod.fst ∨ m'.position = p.code.size := by
  rcases hm with hm | hm
  · obtain ⟨⟨q, i⟩, hi, rfl⟩ := List.mem_map.mp hm
    have fetched := (ht.of_mem hi).1
    rw [step_of_fetch fetched] at hs
    split at hs
    · rename_i after hp
      cases hs
      rcases Effect.perform_position hp with hpos | hl
      · -- behind the instruction comes the next tile
        rw [hpos]
        exact ht.next_mem hi
      · -- a jump leads to a tile, since verification has seen its target
        refine .inl (hc _ hi _ ?_)
        exact List.mem_filterMap.mpr ⟨_, hl, rfl⟩
    · cases hs
    · cases hs
  · -- behind the last instruction there is nothing to fetch
    rw [step_at_end hm] at hs
    cases hs

theorem position_of_reaches (ht : p.Tiling 0 tiles) (hc : Program.Closed tiles) {m m' : Machine}
    (hr : Reaches p m m') (hm : m.position ∈ tiles.map Prod.fst ∨ m.position = p.code.size) :
    m'.position ∈ tiles.map Prod.fst ∨ m'.position = p.code.size := by
  induction hr with
  | refl => exact hm
  | tail _ hs ih => exact position_of_step ht hc hs ih

/-- Where an instruction can be read, the run is at one of the tiles. -/
theorem exists_tile_of_fetch (ht : p.Tiling 0 tiles) {m : Machine}
    (hm : m.position ∈ tiles.map Prod.fst ∨ m.position = p.code.size) {i : Instruction}
    (fetched : Instruction.fetch p.code m.position = .ok i) : (m.position, i) ∈ tiles := by
  rcases hm with hm | hend
  · obtain ⟨⟨place, j⟩, hj, rfl⟩ := List.mem_map.mp hm
    rw [(ht.of_mem hj).1] at fetched
    cases fetched
    exact hj
  · have hlt := Instruction.lt_size_of_fetch fetched
    exact absurd hend (Nat.ne_of_lt hlt)

end Machine

/-- The operand is a register or an immediate. -/
def Codec.OfHost : Codec → Prop
  | .register | .immediate => True
  | .label | .native | .raw => False

namespace Program

/-- A program such as registries build: its positions have 32 bits, the machine has all registers in
use, and host functions have operands that the machine has room for, which are registers and
immediates. -/
structure Bounded (p : Program) : Prop where
  size : p.code.size < UInt32.size
  registers : p.registers.toNat ≤ maxRegisters
  few : ∀ binding ∈ p.natives, binding.layout.length ≤ maxOperands
  ofHost : ∀ binding ∈ p.natives, ∀ codec ∈ binding.layout, codec.OfHost

/-- The operand is no register, or one that is in use and that the machine has. -/
def Backs (p : Program) : Operand → Prop
  | .register index => index < p.registers ∧ index.toNat < maxRegisters
  | .immediate _ | .label _ | .native _ | .raw _ _ => True

theorem Bounded.backs {p : Program} (h : p.Bounded) {o : Operand} (hu : o.InUse p.registers) :
    p.Backs o := by
  cases o with
  | register index => exact ⟨hu, Nat.lt_of_lt_of_le (UInt8.lt_iff_toNat_lt.mp hu) h.registers⟩
  | immediate _ | label _ | native _ | raw _ _ => trivial

/-- What a run meets at a position where verification has found an instruction: the operands and
the length that were checked, no registers but those in use, and in a call one operand for each
codec of the layout, a register in use or an immediate, which are what the host function is
given. -/
structure SafeAt (p : Program) (place : Nat) (i : Instruction) : Prop where
  fetched : Instruction.fetch p.code place = .ok i
  checked : ∃ h : place < p.code.size,
    p.checkInstruction place p.code[place] = .ok (i.targets, i.next)
  registers : ∀ o ∈ i.operands, p.Backs o
  calls : i.opcode.builtin = .call → ∃ binding arguments, p.Calls i binding arguments ∧
    arguments.map Operand.codec = binding.layout ∧
    (∀ o ∈ arguments, p.Backs o ∧ o.codec.OfHost) ∧
    ∀ m, i.opcode.builtin.effect.perform p i.operands m =
      ((binding.routine.run arguments m.worker).1,
        { m with worker := (binding.routine.run arguments m.worker).2 })

theorem safeAt_of_mem {p : Program} {tiles : List (Nat × Instruction)} (ht : p.Tiling 0 tiles)
    (hp : p.Bounded) {place : Nat} {i : Instruction} (hi : (place, i) ∈ tiles) :
    p.SafeAt place i := by
  obtain ⟨fetched, accepted⟩ := ht.of_mem hi
  have hlt := Instruction.lt_size_of_fetch fetched
  refine ⟨fetched, ⟨hlt, ?_⟩, fun o ho => hp.backs (accepted.inUse o ho), fun hc => ?_⟩
  · exact (checkInstruction_eq_ok_iff hlt).mpr ⟨i, fetched, accepted, rfl, rfl⟩
  · obtain ⟨binding, arguments, hcalls, hcodecs, hu⟩ := exists_calls fetched accepted hc hp.few
    refine ⟨binding, arguments, hcalls, hcodecs, fun o ho => ⟨hp.backs (hu o ho), ?_⟩, fun m => ?_⟩
    · obtain ⟨index, -, -, -, hb, -⟩ := hcalls
      have hmem : o.codec ∈ binding.layout := hcodecs ▸ List.mem_map_of_mem ho
      exact hp.ofHost binding (Array.mem_of_getElem? hb) _ hmem
    · rw [hc]
      exact hcalls.perform m

/-- The run of a program with the given inputs comes to a call of a host function that fails with
the fault of the error, at its position. -/
def HostFails (p : Program) (worker : Worker) (inputs : List Int32) (e : RuntimeError) : Prop :=
  ∃ m i binding arguments, (p.start worker inputs).Reaches p m ∧ m.position = e.position ∧
    Instruction.fetch p.code m.position = .ok i ∧ p.Calls i binding arguments ∧
    (binding.routine.run arguments m.worker).1 = .fail e.fault

/-- Where an instruction ends a run by an error, a host function has failed, or a computation has,
or the code has come to its end. -/
theorem fault_of_step {p : Program} {tiles : List (Nat × Instruction)} (ht : p.Tiling 0 tiles)
    (hn : ∀ binding ∈ p.natives, binding.layout.length ≤ maxOperands) {worker : Worker}
    {inputs : List Int32} {m m' : Machine} {e : RuntimeError}
    (hr : (p.start worker inputs).Reaches p m)
    (hm : m.position ∈ tiles.map Prod.fst ∨ m.position = p.code.size)
    (hs : m.step p = .ended (.error e) m') :
    p.HostFails worker inputs e ∨ e.fault = .divisionByZero ∨ e.fault = .nonPositivePeriod ∨
      e.fault = .truncated ∧ e.position = p.code.size := by
  rcases hm with hm | hm
  · obtain ⟨⟨q, i⟩, hi, rfl⟩ := List.mem_map.mp hm
    obtain ⟨fetched, accepted⟩ := ht.of_mem hi
    rw [Machine.step_of_fetch fetched] at hs
    split at hs
    · cases hs
    · cases hs
    · rename_i fault after hp
      cases hs
      rcases Builtin.perform_fail hp with hc | hf | hf
      · obtain ⟨binding, arguments, hcalls, -, -⟩ := exists_calls fetched accepted hc hn
        rw [hc] at hp
        exact .inl ⟨m, i, binding, arguments, hr, rfl, fetched, hcalls,
          (Prod.mk.inj ((hcalls.perform _).symm.trans hp)).1⟩
      · exact .inr (.inl hf)
      · exact .inr (.inr (.inl hf))
  · rw [Machine.step_at_end hm] at hs
    cases hs
    exact .inr (.inr (.inr ⟨rfl, rfl⟩))

/-- The runs of a program with the given worker and inputs, for any budget, as far as the survey of
its code has seen them coming. -/
structure RunsSafely (p : Program) (survey : Survey) (worker : Worker) (inputs : List Int32) :
    Prop where
  /-- the instruction at every start that was found is the one that was checked -/
  starts : ∀ place, survey.starts.contains place = true → ∃ i, p.SafeAt place i
  /-- a run is always at one of these starts, or at the end of the code, at a position that has 32
  bits -/
  positions : ∀ m, (p.start worker inputs).Reaches p m → m.position < UInt32.size ∧
    (survey.starts.contains m.position = true ∨ m.position = p.code.size)
  /-- a run ends by an error because a host function has failed, a computation has no value, the
  budget is used up, or the code is at its end -/
  faults : ∀ budget e, (p.run budget worker inputs).result = .error e →
    p.HostFails worker inputs e ∨ e.fault = .divisionByZero ∨ e.fault = .nonPositivePeriod ∨
      e.fault = .stepLimit budget ∨ e.fault = .truncated ∧ e.position = p.code.size

/-- Verified code executes safely, with any worker, inputs, budget and host functions, in programs
such as registries build. -/
theorem verified_runs_are_safe (p : Program) (hp : p.Bounded) (hv : p.verify = .ok ())
    (worker : Worker) (inputs : List Int32) :
    ∃ survey, p.surveyFrom 0 {} = .ok survey ∧ p.RunsSafely survey worker inputs := by
  obtain ⟨-, tiles, ht, hc⟩ := verify_eq_ok_iff.mp hv
  have starts : ∀ place, (tiles.foldl Survey.add {}).starts.contains place = true ↔
      place ∈ tiles.map Prod.fst := by
    intro place
    rw [contains_starts_foldl, Std.TreeSet.contains_emptyc]
    simp
  have positions : ∀ m, (p.start worker inputs).Reaches p m →
      m.position ∈ tiles.map Prod.fst ∨ m.position = p.code.size :=
    fun m hr => Machine.position_of_reaches ht hc hr ht.place_mem
  refine ⟨_, surveyFrom_of_tiling ht, fun place hplace => ?_, fun m hr => ?_, fun budget e he => ?_⟩
  · obtain ⟨⟨q, i⟩, hi, rfl⟩ := List.mem_map.mp ((starts place).mp hplace)
    exact ⟨i, safeAt_of_mem ht hp hi⟩
  · rw [starts]
    refine ⟨Nat.lt_of_le_of_lt ?_ hp.size, positions m hr⟩
    rcases positions m hr with hm | hm
    · obtain ⟨⟨q, i⟩, hi, rfl⟩ := List.mem_map.mp hm
      exact Nat.le_of_lt (Instruction.lt_size_of_fetch (ht.of_mem hi).1)
    · exact Nat.le_of_eq hm
  · -- a run ends in a machine that it reaches, whose step is known
    obtain ⟨m, hr, hend⟩ := Machine.runFor_ends p budget budget (p.start worker inputs)
    rcases hend with hend | ⟨result, m', hs, hend⟩
    · rw [run, hend] at he
      cases he
      exact .inr (.inr (.inr (.inl rfl)))
    · rw [run, hend] at he
      obtain rfl : result = .error e := he
      rcases fault_of_step ht hp.few hr (positions m hr) hs with h | h | h | h
      · exact .inl h
      · exact .inr (.inl h)
      · exact .inr (.inr (.inl h))
      · exact .inr (.inr (.inr (.inr h)))

/-- A call of a host function that doubles a register, between a jump and the end. -/
def doubling : Program where
  code := #[4, 5, 0, 0, 0, 90, 0, 0, 1, 1, 0]
  registers := 2
  natives := #[⟨0, "double", [.register], .get 0 fun x => .set 0 (x + x) (.finish .proceed)⟩]

theorem verified_runs_are_safe_doubling :
    doubling.Bounded ∧ doubling.verify = .ok () ∧
      ∃ survey, doubling.surveyFrom 0 {} = .ok survey ∧ doubling.RunsSafely survey .fresh [3] := by
  have hv : doubling.verify = .ok () := by decide +kernel
  have hp : doubling.Bounded :=
    ⟨by decide, by decide, by simp [doubling, maxOperands], by simp [doubling, Codec.OfHost]⟩
  exact ⟨hp, hv, verified_runs_are_safe doubling hp hv .fresh [3]⟩

/-- A call of a host function that reports an opcode as unknown. -/
def reporting : Program where
  code := #[90, 0, 0, 0]
  registers := 0
  natives := #[⟨0, "report", [], .finish (.fail (.unknownOpcode 7))⟩]

/-- A run of verified code may end by an unknown opcode, since a host function may fail with any
fault. -/
theorem unknownOpcode_of_host_function :
    reporting.Bounded ∧ reporting.verify = .ok () ∧
      (reporting.run 10 .fresh []).result = .error ⟨.unknownOpcode 7, "call", 0⟩ := by
  refine ⟨⟨by decide, by decide, ?_, ?_⟩, by decide +kernel, by decide +kernel⟩
  · simp [reporting, maxOperands]
  · simp [reporting]

end Program

end HookScript
