/-
What instructions and runs leave as it is in the registers.

An instruction writes to the registers that stand where it stores, to register 0 where it returns a
value, and to what a host function stores into.

* `Effect.get_perform` and `HostRoutine.StoresOnly.get_run` — all other registers keep their values;
* `Machine.get_of_reaches` — so does a register that all instructions of the code spare, in every
  run;
* `Machine.get_of_reachesUnwritten` — and any register, up to the first instruction of a run that
  can write to it (`Program.WritesTo`).
-/
import HookScript.Proofs.Machine.Isolation

namespace HookScript

/-! ### Instructions -/

theorem Worker.get_store {operands : List Operand} {i : Nat} {index : UInt8}
    (h : operands[i]? ≠ some (.register index)) (w : Worker) (value : Int32) :
    (w.store operands i value).registers.get index = w.registers.get index := by
  rw [store]
  split
  · rename_i other hother
    refine (RegisterFile.get_set _ _ _ _).trans (if_neg ?_)
    rintro ⟨rfl, -⟩
    exact h hother
  · rfl

/-- The host function stores only into the given places, whatever it is answered. -/
def HostRoutine.StoresOnly (places : Nat → Prop) : HostRoutine → Prop
  | finish _ => True
  | count next => ∀ n, (next n).StoresOnly places
  | get _ next => ∀ value, (next value).StoresOnly places
  | set i _ next => places i ∧ next.StoresOnly places
  | object _ _ next => ∀ fields, (next fields).StoresOnly places
  | modify _ _ _ next => ∀ found, (next found).StoresOnly places

theorem HostRoutine.StoresOnly.get_run {places : Nat → Prop} {routine : HostRoutine}
    (h : routine.StoresOnly places) {operands : List Operand} {index : UInt8}
    (ho : ∀ i, places i → operands[i]? ≠ some (.register index)) (w : Worker) :
    (routine.run operands w).2.registers.get index = w.registers.get index := by
  induction routine generalizing w with
  | finish outcome => rfl
  | count next ih => exact ih _ (h _) w
  | get i next ih => exact ih _ (h _) w
  | set i value next ih =>
    exact (ih h.2 _).trans (Worker.get_store (ho i h.1) w value)
  | object i type next ih => exact ih _ (h _) w
  | modify i type change next ih =>
    rw [run]
    split
    · exact ih _ (h _) _
    · exact ih _ (h _) w

/-- The places of operands that an effect stores into. -/
def Effect.Stores : Effect → Nat → Prop
  | assign _, i => i = 0
  | exchange, i => i = 0 ∨ i = 1
  | jump _, _ | stop, _ | yield, _ | call, _ | log _, _ => False

/-- An instruction stores only where it takes a variable. -/
theorem Builtin.params_of_stores {b : Builtin} {i : Nat} (h : b.effect.Stores i) :
    b.params[i]? = some .intVar := by
  cases b <;> first | cases h; done | (cases h; rfl) | (rcases h with rfl | rfl <;> rfl)

/-- An instruction that is no call leaves all registers as they are, apart from those that it stores
into, and from that of the result where it returns a value. -/
theorem Effect.get_perform {effect : Effect} {operands : List Operand} {index : UInt8}
    (hi : effect = .yield → index ≠ 0)
    (ho : ∀ i, effect.Stores i → operands[i]? ≠ some (.register index))
    (hc : effect ≠ .call) (p : Program) (m : Machine) :
    (effect.perform p operands m).2.worker.registers.get index = m.worker.registers.get index := by
  cases effect with
  | assign compute =>
    simp only [perform]
    split
    · exact Worker.get_store (ho 0 rfl) _ _
    · rfl
  | exchange =>
    simp only [perform]
    rw [Worker.get_store (ho 1 (.inr rfl)), Worker.get_store (ho 0 (.inl rfl))]
  | jump choose =>
    simp only [perform]
    split <;> rfl
  | yield =>
    refine (RegisterFile.get_set _ _ _ _).trans (if_neg ?_)
    rintro ⟨rfl, -⟩
    exact hi rfl rfl
  | call => exact absurd rfl hc
  | stop | log count => rfl

/-- The instruction leaves the register as it is. -/
def Program.Spares (p : Program) (index : UInt8) (i : Instruction) : Prop :=
  ∀ m, (i.opcode.builtin.effect.perform p i.operands m).2.worker.registers.get index
    = m.worker.registers.get index

/-- The instruction can write to the register: it stores into an operand that is the register,
returns a value and the register is that of results, or calls a host function that stores into such
an operand. -/
inductive Program.WritesTo (p : Program) (index : UInt8) (i : Instruction) : Prop where
  | stores {k : Nat} (effect : i.opcode.builtin.effect.Stores k)
      (operand : i.operands[k]? = some (.register index))
  | returns (effect : i.opcode.builtin.effect = .yield) (result : index = 0)
  | calls {binding : NativeBinding} {operands : List Operand}
      (effect : i.opcode.builtin.effect = .call) (calls : p.Calls i binding operands)
      (stores : ¬ binding.routine.StoresOnly fun k => operands[k]? ≠ some (.register index))

/-- An instruction that cannot write to a register leaves it as it is. -/
theorem Program.spares_of_not_writesTo {p : Program} {index : UInt8} {place : Nat} {i : Instruction}
    (fetched : Instruction.fetch p.code place = .ok i) (h : ¬ p.WritesTo index i) :
    p.Spares index i := by
  intro m
  by_cases hc : i.opcode.builtin.effect = .call
  · obtain ⟨slot, start, length, ho, -⟩ :=
      Instruction.operands_of_call fetched (Builtin.eq_call_of_effect hc)
    -- a call that does not come to pass changes nothing
    rw [hc, ho, Effect.perform, Effect.performCall]
    dsimp only
    split
    · rfl
    · rename_i binding hb
      split
      · rfl
      · rename_i operands ha
        have honly : binding.routine.StoresOnly fun k => operands[k]? ≠ some (.register index) := by
          by_contra hstores
          exact h (.calls hc ⟨slot, start, length, ho, hb, ha⟩ hstores)
        exact honly.get_run (fun _ hk => hk) m.worker
  · exact Effect.get_perform (fun hy hi => h (.returns hy hi))
      (fun k hk ho => h (.stores hk ho)) hc p m

/-! ### Runs -/

namespace Machine

/-- The machine that a step leads to, whether the run goes on or not. -/
def Step.machine : Step → Machine
  | running m => m
  | ended _ m => m

variable {p : Program} {tiles : List (Nat × Instruction)} {index : UInt8} {m m' : Machine}

/-- An instruction leads to the machine that its effect makes of the one behind it. -/
theorem machine_step_of_fetch {i : Instruction}
    (fetched : Instruction.fetch p.code m.position = .ok i) :
    (m.step p).machine
      = (i.opcode.builtin.effect.perform p i.operands { m with position := i.next }).2 := by
  rw [step_of_fetch fetched]
  split
  all_goals
    rename_i hp
    rw [hp, Step.machine]

theorem get_of_fetch {i : Instruction} (fetched : Instruction.fetch p.code m.position = .ok i)
    (hs : p.Spares index i) :
    (m.step p).machine.worker.registers.get index = m.worker.registers.get index := by
  rw [machine_step_of_fetch fetched]
  exact hs { m with position := i.next }

/-- The second machine comes after the first by instructions none of which can write to the
register. -/
inductive ReachesUnwritten (p : Program) (index : UInt8) (m : Machine) : Machine → Prop where
  | refl : ReachesUnwritten p index m m
  | tail {m' m'' : Machine} {i : Instruction} (before : ReachesUnwritten p index m m')
      (fetched : Instruction.fetch p.code m'.position = .ok i) (unwritten : ¬ p.WritesTo index i)
      (step : m'.step p = .running m'') : ReachesUnwritten p index m m''

/-- Until it is first written to, a register keeps its value. -/
theorem get_of_reachesUnwritten (h : m.ReachesUnwritten p index m') :
    m'.worker.registers.get index = m.worker.registers.get index := by
  induction h with
  | refl => rfl
  | tail before fetched unwritten step ih =>
    have hget := get_of_fetch fetched (Program.spares_of_not_writesTo fetched unwritten)
    rw [step] at hget
    exact hget.trans ih

end Machine

end HookScript
