/-
Do runs depend on what a worker did before?

A run clears the registers that its program uses and stores its inputs; what the others hold is left
over from earlier runs.  Two runs that differ in left-over registers only proceed in lockstep:

* `HostRoutine.run_agree` and `Effect.perform_agree` — host functions and instructions keep two
  workers in agreement on the registers in use;
* `Machine.runFor_agree` — hence two runs end alike, or each returns register 0, which is not in
  use, as it was left;
* `Program.run_forgets_registers_iff` — when old registers show in the result of a run.
-/
import HookScript.Proofs.Compile.Outcome
import HookScript.Proofs.Machine.Safety
import HookScript.Proofs.Program.Linking

namespace HookScript

namespace RegisterFile

theorem get_set (f : RegisterFile) (r s : UInt8) (v : Int32) :
    (f.set r v).get s = if r = s ∧ r.toNat < maxRegisters then v else f.get s := by
  simp only [get, set, Vector.getElem?_setIfInBounds, UInt8.toNat_inj]
  split
  · rename_i h
    subst h
    split
    · simp_all
    · rename_i hr
      simp [hr]
  · rename_i h
    simp [h]

theorem get_reset (f : RegisterFile) (used : Nat) (inputs : List Int32) (r : UInt8) :
    (f.reset used inputs).get r =
      if r.toNat < maxRegisters then resetSlot used inputs r.toNat (f.get r) else 0 := by
  simp only [get, reset, Vector.getElem?_mapIdx]
  split
  · rename_i h
    simp [h]
  · rename_i h
    simp [h]

end RegisterFile

/-- The workers have the same host objects and agree on the first `n` registers. -/
structure Worker.Agree (n : Nat) (w w' : Worker) : Prop where
  objects : w.objects = w'.objects
  registers : ∀ r : UInt8, r.toNat < n → w.registers.get r = w'.registers.get r

namespace Worker.Agree

variable {n : Nat} {w w' : Worker} {registers : UInt8} {operands : List Operand}

theorem value (h : w.Agree n w') (hn : registers.toNat ≤ n)
    (hu : ∀ o ∈ operands, o.InUse registers) (i : Nat) :
    w.value operands i = w'.value operands i := by
  simp only [Worker.value]
  split
  · rename_i r hr
    have := hu _ (List.mem_of_getElem? hr)
    exact h.registers r (Nat.lt_of_lt_of_le (UInt8.lt_iff_toNat_lt.mp this) hn)
  · rfl
  · rfl

theorem set (h : w.Agree n w') (r : UInt8) (v : Int32) :
    Worker.Agree n { w with registers := w.registers.set r v }
      { w' with registers := w'.registers.set r v } := by
  refine ⟨h.objects, fun s hs => ?_⟩
  simp only [RegisterFile.get_set]
  split
  · rfl
  · exact h.registers s hs

theorem store (h : w.Agree n w') (i : Nat) (v : Int32) :
    (w.store operands i v).Agree n (w'.store operands i v) := by
  simp only [Worker.store]
  split
  · exact h.set _ v
  · exact h

end Worker.Agree

/-- A host function cannot tell workers apart that agree on the registers among its arguments. -/
theorem HostRoutine.run_agree {n : Nat} {registers : UInt8} (hn : registers.toNat ≤ n)
    {operands : List Operand} (hu : ∀ o ∈ operands, o.InUse registers) (routine : HostRoutine)
    {w w' : Worker} (h : w.Agree n w') :
    (routine.run operands w).1 = (routine.run operands w').1 ∧
      (routine.run operands w).2.Agree n (routine.run operands w').2 := by
  induction routine generalizing w w' with
  | finish outcome => exact ⟨rfl, h⟩
  | count next ih => exact ih _ h
  | get i next ih =>
    simp only [run, h.value hn hu i]
    exact ih _ h
  | set i v next ih => exact ih (h.store i v)
  | object i type next ih =>
    simp only [run, h.value hn hu i, h.objects]
    exact ih _ h
  | modify i type change next ih =>
    simp only [run, h.value hn hu i, h.objects]
    split
    · exact ih _ ⟨rfl, h.registers⟩
    · exact ih _ h

/-- Fewer codecs read fewer operands, and the same ones. -/
theorem Codec.decodeAll?_take {layout : List Codec} {code : Array UInt8} {stop place next : Nat}
    {operands : List Operand} (h : decodeAll? layout code stop place = some (operands, next))
    (k : Nat) :
    ∃ last, decodeAll? (layout.take k) code stop place = some (operands.take k, last) := by
  induction layout generalizing place operands k with
  | nil =>
    obtain ⟨rfl, rfl⟩ : [] = operands ∧ place = next := by simpa [decodeAll?] using h
    exact ⟨place, by simp [decodeAll?]⟩
  | cons codec layout ih =>
    obtain ⟨operand, middle, rest, hd, hr, rfl⟩ := decodeAll?_cons_eq_some_iff.mp h
    cases k with
    | zero => exact ⟨place, rfl⟩
    | succ k =>
      obtain ⟨last, hlast⟩ := ih hr k
      exact ⟨last, decodeAll?_cons_eq_some_iff.mpr ⟨operand, middle, _, hd, hlast, rfl⟩⟩

theorem Program.BlockFits.arguments_inUse {p : Program} {binding : NativeBinding}
    {start length : Nat} (h : p.BlockFits binding start length) {arguments : List Operand}
    (ha : binding.arguments? p.code start length = some arguments) :
    ∀ o ∈ arguments, o.InUse p.registers := by
  obtain ⟨whole, hd, hu⟩ := h
  -- the machine reads no more operands than it has room for, verification all of them
  obtain ⟨last, ht⟩ := Codec.decodeAll?_take hd maxOperands
  rw [NativeBinding.arguments?, ht] at ha
  split at ha
  · obtain rfl : whole.take maxOperands = arguments := by simpa using ha
    exact fun o ho => hu o (List.mem_of_mem_take ho)
  · cases ha

/-- The machines are at the same position with the same log, and their workers agree. -/
structure Machine.Agree (n : Nat) (m m' : Machine) : Prop where
  position : m.position = m'.position
  log : m.log = m'.log
  worker : m.worker.Agree n m'.worker

namespace Effect

variable {p : Program} {n : Nat} {operands : List Operand} {m m' : Machine}

theorem performCall_agree (hn : p.registers.toNat ≤ n) (accepted : p.Accepts none operands)
    (h : m.Agree n m') :
    (performCall p operands m).1 = (performCall p operands m').1 ∧
      (performCall p operands m).2.Agree n (performCall p operands m').2 := by
  unfold performCall
  split
  · rename_i index start length rest
    split
    · exact ⟨rfl, h⟩
    · rename_i binding hb
      split
      · exact ⟨rfl, h⟩
      · rename_i arguments ha
        obtain ⟨binding', hb', ⟨_, hbb, hfits⟩, -⟩ := accepted
        obtain rfl : binding = binding' := by simpa [hb] using hb'
        cases hbb
        have hr := HostRoutine.run_agree hn (hfits.arguments_inUse ha) binding.routine h.worker
        exact ⟨hr.1, h.position, h.log, hr.2⟩
  · exact ⟨rfl, h⟩

/-- An accepted instruction cannot tell machines apart that agree on the registers in use. -/
theorem perform_agree (hn : p.registers.toNat ≤ n) (accepted : p.Accepts none operands)
    (effect : Effect) (h : m.Agree n m') :
    (effect.perform p operands m).1 = (effect.perform p operands m').1 ∧
      (effect.perform p operands m).2.Agree n (effect.perform p operands m').2 := by
  -- all that an effect reads is the values of operands
  have hvalue : m.worker.value operands = m'.worker.value operands :=
    funext fun i => h.worker.value hn accepted.inUse i
  cases effect with
  | assign compute =>
    simp only [perform, hvalue]
    split
    · exact ⟨rfl, h.position, h.log, h.worker.store 0 _⟩
    · exact ⟨rfl, h⟩
  | exchange =>
    simp only [perform, hvalue]
    exact ⟨trivial, h.position, h.log, (h.worker.store 0 _).store 1 _⟩
  | jump choose =>
    simp only [perform, hvalue]
    split
    · exact ⟨rfl, rfl, h.log, h.worker⟩
    · exact ⟨rfl, h⟩
  | stop => exact ⟨rfl, h⟩
  | yield =>
    simp only [perform, hvalue]
    exact ⟨trivial, h.position, h.log, h.worker.set 0 _⟩
  | call => exact performCall_agree hn accepted h
  | log count =>
    simp only [perform, hvalue, h.log]
    exact ⟨trivial, h.position, rfl, h.worker⟩

end Effect

/-! ### Programs without registers -/

theorem Worker.store_of_inUse_zero {operands : List Operand} (hu : ∀ o ∈ operands, o.InUse 0)
    (w : Worker) (i : Nat) (v : Int32) : w.store operands i v = w := by
  simp only [store]
  split
  · rename_i r hr
    exact absurd (hu _ (List.mem_of_getElem? hr)) (by simp [Operand.InUse])
  · rfl

/-- Without registers in use, host functions leave the registers as they are. -/
theorem HostRoutine.run_registers {operands : List Operand} (hu : ∀ o ∈ operands, o.InUse 0)
    (routine : HostRoutine) (w : Worker) :
    (routine.run operands w).2.registers = w.registers := by
  induction routine generalizing w with
  | finish outcome => rfl
  | count next ih => exact ih _ w
  | get i next ih => exact ih _ w
  | set i v next ih =>
    rw [run, Worker.store_of_inUse_zero hu]
    exact ih w
  | object i type next ih => exact ih _ w
  | modify i type change next ih =>
    rw [run]
    split
    · exact ih _ _
    · exact ih _ w

namespace Effect

variable {p : Program} {operands : List Operand}

theorem performCall_registers (hz : p.registers = 0) (accepted : p.Accepts none operands)
    (m : Machine) :
    (performCall p operands m).2.worker.registers = m.worker.registers := by
  unfold performCall
  split
  · rename_i index start length rest
    split
    · rfl
    · rename_i binding hb
      split
      · rfl
      · rename_i arguments ha
        obtain ⟨binding', hb', ⟨_, hbb, hfits⟩, -⟩ := accepted
        obtain rfl : binding = binding' := by simpa [hb] using hb'
        cases hbb
        have hu := hfits.arguments_inUse ha
        rw [hz] at hu
        exact HostRoutine.run_registers hu binding.routine m.worker
  · rfl

/-- Without registers in use, only the instruction that ends the script with a value writes to a
register. -/
theorem perform_registers (hz : p.registers = 0) (accepted : p.Accepts none operands)
    (effect : Effect) (m : Machine) :
    effect = .yield ∨
      (effect.perform p operands m).2.worker.registers = m.worker.registers := by
  have hu := accepted.inUse
  rw [hz] at hu
  cases effect with
  | yield => exact .inl rfl
  | call => exact .inr (performCall_registers hz accepted m)
  | assign compute =>
    simp only [perform]
    split <;> simp [Worker.store_of_inUse_zero hu]
  | exchange => simp [perform, Worker.store_of_inUse_zero hu]
  | jump choose =>
    simp only [perform]
    split <;> simp
  | stop | log count => exact .inr rfl

end Effect

/-! ### Runs -/

namespace Machine

variable {p : Program} {tiles : List (Nat × Instruction)} {n : Nat}

/-- The results are equal, or both are what the machines hold in register 0, on which they need not
agree. -/
def SameResult (n : Nat) (m m' : Machine) (result result' : Except RuntimeError Int32) : Prop :=
  result = result' ∨
    n = 0 ∧ result = .ok (m.worker.registers.get 0) ∧ result' = .ok (m'.worker.registers.get 0)

/-- What an instruction does to machines that agree: both go on in agreement, or both runs end. -/
theorem step_agree (ht : p.Tiling 0 tiles) (hn : p.registers.toNat ≤ n) {m m' : Machine}
    (hm : m.position ∈ tiles.map Prod.fst ∨ m.position = p.code.size) (h : m.Agree n m') :
    (∃ a a', m.step p = .running a ∧ m'.step p = .running a' ∧ a.Agree n a' ∧
        (n = 0 → a.worker.registers = m.worker.registers ∧
          a'.worker.registers = m'.worker.registers)) ∨
      ∃ result result' a a', m.step p = .ended result a ∧ m'.step p = .ended result' a' ∧
        a.Agree n a' ∧ SameResult n m m' result result' := by
  rcases hm with hm | hm
  · obtain ⟨⟨q, i⟩, hi, hq⟩ := List.mem_map.mp hm
    obtain ⟨fetched, accepted⟩ := ht.of_mem hi
    simp only at hq
    rw [step_of_fetch (hq ▸ fetched), step_of_fetch (h.position ▸ hq ▸ fetched)]
    have hm : Agree n { m with position := i.next } { m' with position := i.next } :=
      ⟨rfl, h.log, h.worker⟩
    obtain ⟨ho, ha⟩ := Effect.perform_agree hn accepted i.opcode.builtin.effect hm
    -- in a program without registers only the end of the script writes to one
    have keeps : ∀ {b b' : Machine} {outcome : Outcome},
        i.opcode.builtin.effect.perform p i.operands b = (outcome, b') → n = 0 →
        i.opcode.builtin.effect ≠ .yield → b'.worker.registers = b.worker.registers := by
      intro b b' outcome hb hz hy
      have hr : p.registers = 0 := by
        rw [← UInt8.toNat_inj, UInt8.toNat_zero]
        omega
      have := (Effect.perform_registers hr accepted _ b).resolve_left hy
      rwa [hb] at this
    generalize hp : i.opcode.builtin.effect.perform p i.operands { m with position := i.next }
      = x at ho ha
    generalize hp' : i.opcode.builtin.effect.perform p i.operands { m' with position := i.next }
      = x' at ho ha
    obtain ⟨outcome, a⟩ := x
    obtain ⟨outcome', a'⟩ := x'
    obtain rfl : outcome = outcome' := ho
    cases outcome with
    | proceed =>
      have hy : i.opcode.builtin.effect ≠ .yield := fun hy => by
        rw [hy] at hp
        cases hp
      refine .inl ⟨a, a', rfl, rfl, ha, fun hz => ?_⟩
      have hk := keeps hp hz hy
      have hk' := keeps hp' hz hy
      exact ⟨hk, hk'⟩
    | stop =>
      refine .inr ⟨_, _, a, a', rfl, rfl, ha, ?_⟩
      by_cases hy : i.opcode.builtin.effect = .yield
      · -- the script ends with the value of an operand, on which the machines agree
        have hv := h.worker.value hn accepted.inUse 0
        rw [hy] at hp hp'
        obtain ⟨-, rfl⟩ := Prod.mk.inj hp
        obtain ⟨-, rfl⟩ := Prod.mk.inj hp'
        refine .inl (congrArg Except.ok ?_)
        simpa [RegisterFile.get_set, maxRegisters] using hv
      · by_cases hz : n = 0
        · exact .inr ⟨hz, by rw [keeps hp hz hy], by rw [keeps hp' hz hy]⟩
        · exact .inl (congrArg Except.ok (ha.worker.registers 0 (by simp; omega)))
    | fail fault =>
      refine .inr ⟨_, _, a, a', rfl, rfl, ha, .inl ?_⟩
      rw [h.position]
  · have hm' : m'.position = p.code.size := h.position ▸ hm
    exact .inr ⟨_, _, m, m', step_at_end hm, step_at_end hm', h, .inl rfl⟩

/-- The runs of machines that agree end in agreement. -/
theorem runFor_agree (ht : p.Tiling 0 tiles) (hc : Program.Closed tiles)
    (hn : p.registers.toNat ≤ n) (budget left : Nat) {m m' : Machine}
    (hm : m.position ∈ tiles.map Prod.fst ∨ m.position = p.code.size) (h : m.Agree n m') :
    (m.runFor p budget left).worker.Agree n (m'.runFor p budget left).worker ∧
      SameResult n m m' (m.runFor p budget left).result (m'.runFor p budget left).result := by
  -- agreement is the invariant; where the result is register 0, nothing has written to it
  induction left generalizing m m' with
  | zero =>
    refine ⟨h.worker, .inl ?_⟩
    simp only [runFor, finish, h.position]
  | succ left ih =>
    rw [runFor, runFor]
    rcases step_agree ht hn hm h with
      ⟨a, a', hs, hs', ha, hk⟩ | ⟨result, result', a, a', hs, hs', ha, hsame⟩
    · rw [hs, hs']
      obtain ⟨hw, hr⟩ := ih (position_of_step ht hc hs hm) ha
      refine ⟨hw, hr.imp id ?_⟩
      rintro ⟨hz, hr, hr'⟩
      rw [(hk hz).1] at hr
      rw [(hk hz).2] at hr'
      exact ⟨hz, hr, hr'⟩
    · rw [hs, hs']
      exact ⟨ha.worker, hsame⟩

end Machine

namespace Program

/-- The start of a run agrees with that on other registers, on those in use and the inputs. -/
theorem start_agree (p : Program) (objects : HostObjects) (f f' : RegisterFile)
    (inputs : List Int32) :
    (p.start ⟨f, objects⟩ inputs).Agree (max p.registers.toNat inputs.length)
      (p.start ⟨f', objects⟩ inputs) := by
  refine ⟨rfl, rfl, rfl, fun r hr => ?_⟩
  simp only [start, RegisterFile.get_reset, RegisterFile.resetSlot]
  split
  · by_cases hi : r.toNat < inputs.length
    · simp [List.getElem?_eq_getElem hi]
    · rw [if_pos (by omega), if_pos (by omega)]
  · rfl

theorem start_get_zero {p : Program} (hz : p.registers = 0) (objects : HostObjects)
    (f : RegisterFile) : (p.start ⟨f, objects⟩ []).worker.registers.get 0 = f.get 0 := by
  simp [start, RegisterFile.get_reset, RegisterFile.resetSlot, hz, maxRegisters]

/-- A program that a host can come to run: a compiled script or a linked image. -/
inductive Obtained (r : Registry) (p : Program) : Prop where
  | compiled {hook : Option HookSignature} {source : String}
      (h : compile r hook source = .ok p)
  | linked {image : ProgramImage} (h : image.link r = .ok p)

theorem Obtained.verify {r : Registry} {p : Program} (h : p.Obtained r) : p.verify = .ok () := by
  cases h with
  | compiled h => exact verify_of_compile h
  | linked h => exact (ProgramImage.link_eq_ok_iff.mp h).verified

/-- Old registers show in the result of a run just if the program has no registers, the run has no
inputs, and it ends without a value: it then returns register 0 as it was left.  They never show in
the host objects. -/
theorem run_forgets_registers_iff {r : Registry} {p : Program} (obtained : p.Obtained r)
    (budget : Nat) (objects : HostObjects) (inputs : List Int32) :
    (∀ f f', (p.run budget ⟨f, objects⟩ inputs).worker.objects
        = (p.run budget ⟨f', objects⟩ inputs).worker.objects) ∧
      ((∀ f f', (p.run budget ⟨f, objects⟩ inputs).result
          = (p.run budget ⟨f', objects⟩ inputs).result) ↔
        ¬ (p.registers = 0 ∧ inputs = [] ∧
          ∀ f, (p.run budget ⟨f, objects⟩ []).result = .ok (f.get 0))) := by
  obtain ⟨-, tiles, ht, hc⟩ := verify_eq_ok_iff.mp obtained.verify
  have agree := fun f f' => Machine.runFor_agree ht hc (Nat.le_max_left _ inputs.length) budget
    budget ht.place_mem (p.start_agree objects f f' inputs)
  refine ⟨fun f f' => (agree f f').1.objects, fun same => ?_, fun fresh f f' => ?_⟩
  · rintro ⟨-, rfl, stale⟩
    -- a run that returns its old register 0 tells 0 and 1 apart
    have := same (RegisterFile.zero.set 0 1) .zero
    rw [stale, stale] at this
    revert this
    decide
  · refine Classical.byContradiction fun hne => ?_
    obtain ⟨hn, hf, hf'⟩ := (agree f f').2.resolve_left hne
    have hz : p.registers = 0 := by
      rw [← UInt8.toNat_inj, UInt8.toNat_zero]
      omega
    obtain rfl : inputs = [] := List.eq_nil_of_length_eq_zero (by omega)
    refine fresh ⟨hz, rfl, fun g => ?_⟩
    -- a third worker cannot return the same as both
    rcases (agree g f).2 with hg | ⟨-, hg, -⟩
    · rcases (agree g f').2 with hg' | ⟨-, hg', -⟩
      · exact absurd (hg.symm.trans hg') hne
      · rwa [start_get_zero hz] at hg'
    · rwa [start_get_zero hz] at hg

/-- The sizes of a registry that hands no inputs to its scripts. -/
def inputless : RegistryConfig where
  inputRegisters := 0

/-- The worker of a run that has left 7 in register 0. -/
def usedWorker : Worker where
  registers := RegisterFile.zero.set 0 7

theorem exists_exit : ∃ r p, Registry.standard? inputless = .ok r ∧ compile r none "exit;" = .ok p ∧
    ((p.run 10 .fresh []).result = .ok 0 ∧ (p.run 10 usedWorker []).result = .ok 7) := by
  refine exists_compiled (fun p => (p.run 10 .fresh []).result = .ok 0 ∧
    (p.run 10 usedWorker []).result = .ok 7) ?_
  decide +kernel

theorem run_forgets_registers_iff_exit : ∃ (r : Registry) (p : Program), p.Obtained r ∧
    (∀ f f', (p.run 10 ⟨f, .empty⟩ []).worker.objects = (p.run 10 ⟨f', .empty⟩ []).worker.objects) ∧
    ((∀ f f', (p.run 10 ⟨f, .empty⟩ []).result = (p.run 10 ⟨f', .empty⟩ []).result) ↔
      ¬ (p.registers = 0 ∧ ([] : List Int32) = [] ∧
        ∀ f, (p.run 10 ⟨f, .empty⟩ []).result = .ok (f.get 0))) := by
  obtain ⟨r, p, -, hp, -⟩ := exists_exit
  exact ⟨r, p, .compiled hp, run_forgets_registers_iff (.compiled hp) 10 .empty []⟩

/-- A compiled script may return what an earlier run has left in register 0. -/
theorem result_of_used_worker : ∃ r p, Registry.standard? inputless = .ok r ∧
    compile r none "exit;" = .ok p ∧ usedWorker.objects = Worker.fresh.objects ∧
    (p.run 10 .fresh []).result ≠ (p.run 10 usedWorker []).result := by
  obtain ⟨r, p, hr, hp, h, h'⟩ := exists_exit
  refine ⟨r, p, hr, hp, rfl, ?_⟩
  rw [h, h']
  decide

end Program

end HookScript
