/-
Runs as sequences of steps.

* `Machine.Reaches` — one machine leads to another by instructions that let the run go on;
* `Machine.runFor_ends` — a run stops in a machine that it reaches, by an instruction or because its
  budget is used up;
* `Effect.perform_position` and `Builtin.perform_fail` — where an instruction goes on, and which
  faults it can have of its own;
* `Program.Calls` — a call of a host function, and what verification knows of it
  (`Program.exists_calls`).
-/
import HookScript.Machine.Run
import HookScript.Proofs.Code.Encoding
import HookScript.Proofs.Code.Versions

namespace HookScript

namespace Machine

/-- The second machine comes after the first by instructions that let the run go on. -/
inductive Reaches (p : Program) (m : Machine) : Machine → Prop where
  | refl : Reaches p m m
  | tail {m' m'' : Machine} (before : Reaches p m m') (step : m'.step p = .running m'') :
      Reaches p m m''

theorem Reaches.head {p : Program} {m m' m'' : Machine} (step : m.step p = .running m')
    (after : Reaches p m' m'') : Reaches p m m'' := by
  induction after with
  | refl => exact .tail .refl step
  | tail _ hs ih => exact .tail ih hs

/-- A run stops in a machine that it reaches, at the end of its budget or by an instruction. -/
theorem runFor_ends (p : Program) (budget left : Nat) (m : Machine) :
    ∃ m', Reaches p m m' ∧
      (m.runFor p budget left
          = m'.finish (.error ⟨.stepLimit budget, Instruction.unknownName, m'.position⟩) ∨
        ∃ result m'', m'.step p = .ended result m'' ∧
          m.runFor p budget left = m''.finish result) := by
  -- the machine changes with every step, so it is part of what the induction is about
  induction left generalizing m with
  | zero => exact ⟨m, .refl, .inl rfl⟩
  | succ left ih =>
    rw [runFor]
    cases hs : m.step p with
    | running m₁ =>
      obtain ⟨m', hr, h⟩ := ih m₁
      exact ⟨m', hr.head hs, h⟩
    | ended result m₁ => exact ⟨m, .refl, .inr ⟨result, m₁, hs, rfl⟩⟩

/-- The step of a machine whose instruction can be fetched. -/
theorem step_of_fetch {p : Program} {m : Machine} {i : Instruction}
    (h : Instruction.fetch p.code m.position = .ok i) :
    m.step p =
      match i.opcode.builtin.effect.perform p i.operands { m with position := i.next } with
      | (.proceed, after) => .running after
      | (.stop, after) => .ended (.ok (after.worker.registers.get 0)) after
      | (.fail fault, after) => .ended (.error ⟨fault, i.opcode.name, m.position⟩) after := by
  unfold step
  exact h ▸ rfl

/-- At the end of the code there is no instruction to carry out. -/
theorem step_at_end {p : Program} {m : Machine} (h : m.position = p.code.size) :
    m.step p = .ended (.error ⟨.truncated, Instruction.unknownName, p.code.size⟩) m := by
  simp [step, Instruction.fetch, h]

/-- An error is reported where the machine is. -/
theorem position_of_ended {p : Program} {m m' : Machine} {e : RuntimeError}
    (h : m.step p = .ended (.error e) m') : e.position = m.position := by
  rw [step] at h
  split at h
  · cases h
    rfl
  · dsimp only at h
    split at h <;> cases h
    rfl

end Machine

/-! ### Effects -/

theorem Effect.performCall_position (p : Program) (operands : List Operand) (m : Machine) :
    (performCall p operands m).2.position = m.position := by
  unfold performCall
  split
  · split
    · rfl
    · split <;> rfl
  · rfl

/-- An instruction goes on behind itself, or at one of its labels. -/
theorem Effect.perform_position {p : Program} {operands : List Operand} {effect : Effect}
    {m m' : Machine} {outcome : Outcome} (h : effect.perform p operands m = (outcome, m')) :
    m'.position = m.position ∨ .label m'.position ∈ operands := by
  cases effect with
  | jump choose =>
    simp only [perform] at h
    split at h
    · rename_i target hl
      obtain ⟨-, rfl⟩ := Prod.mk.inj h
      exact .inr (List.mem_of_getElem? hl)
    · obtain ⟨-, rfl⟩ := Prod.mk.inj h
      exact .inl rfl
  | call =>
    have hp := performCall_position p operands m
    simp only [perform] at h
    rw [h] at hp
    exact .inl hp
  | assign compute =>
    simp only [perform] at h
    split at h <;> obtain ⟨-, rfl⟩ := Prod.mk.inj h <;> exact .inl rfl
  | exchange | stop | yield | log count =>
    obtain ⟨-, rfl⟩ := Prod.mk.inj h
    exact .inl rfl

/-- The computations of instructions fail on zero divisors and on periods that are not positive,
and on nothing else. -/
theorem Builtin.fault_of_assign {b : Builtin} {compute : Values → Except Fault Int32}
    {values : Values} {fault : Fault} (he : b.effect = .assign compute)
    (h : compute values = .error fault) :
    fault = .divisionByZero ∨ fault = .nonPositivePeriod := by
  cases b <;> simp only [effect, Effect.store, Effect.assign.injEq, reduceCtorEq] at he <;>
    subst he <;>
    simp only [Arithmetic.offsetMod, Arithmetic.divide, Arithmetic.remainder, Arithmetic.wave,
      reduceCtorEq] at h <;>
    split at h <;> cases h <;> simp

theorem Builtin.eq_call_of_effect {b : Builtin} (h : b.effect = .call) : b = .call := by
  cases b <;> first | rfl | cases h

/-- The faults of an instruction that is no call are those of its computation. -/
theorem Builtin.perform_fail {b : Builtin} {p : Program} {operands : List Operand}
    {m m' : Machine} {fault : Fault}
    (h : b.effect.perform p operands m = (.fail fault, m')) :
    b = .call ∨ fault = .divisionByZero ∨ fault = .nonPositivePeriod := by
  cases he : b.effect with
  | assign compute =>
    simp only [he, Effect.perform] at h
    split at h
    · cases h
    · rename_i fault' hc
      cases h
      exact .inr (fault_of_assign he hc)
  | jump choose =>
    simp only [he, Effect.perform] at h
    split at h <;> cases h
  | call => exact .inl (eq_call_of_effect he)
  | exchange | stop | yield | log count =>
    simp only [he, Effect.perform] at h
    cases h

/-! ### Calls -/

/-- The instruction calls the host function `binding` with the given operands. -/
def Program.Calls (p : Program) (i : Instruction) (binding : NativeBinding)
    (arguments : List Operand) : Prop :=
  ∃ index start length, i.operands = [.native index, .raw start length] ∧
    p.native? index = some binding ∧ binding.arguments? p.code start length = some arguments

theorem Program.Calls.perform {p : Program} {i : Instruction} {binding : NativeBinding}
    {arguments : List Operand} (h : p.Calls i binding arguments) (m : Machine) :
    Effect.call.perform p i.operands m =
      ((binding.routine.run arguments m.worker).1,
        { m with worker := (binding.routine.run arguments m.worker).2 }) := by
  obtain ⟨index, start, length, ho, hb, ha⟩ := h
  simp [Effect.perform, Effect.performCall, ho, hb, ha]

theorem Opcode.layout_of_find? {byte : UInt8} {o : Opcode} (h : find? byte = some o) :
    o.layout = Codec.layoutOf o.builtin.params o.version := by
  have hm : o ∈ table.toList := Array.mem_toList_iff.mpr (Array.mem_of_getElem? h)
  simp only [table, List.mem_flatMap, Builtin.opcodes, List.mem_map] at hm
  obtain ⟨b, -, version, -, rfl⟩ := hm
  rfl

/-- Only calls name host functions and hold blocks. -/
theorem Opcode.codec_ne_of_find? {byte : UInt8} {o : Opcode} (h : find? byte = some o)
    (hc : o.builtin ≠ .call) : ∀ codec ∈ o.layout, codec ≠ .native ∧ codec ≠ .raw := by
  have hparams : ∀ b : Builtin, b ≠ .call → ∀ p ∈ b.params, p ≠ .native ∧ p ≠ .raw := by
    intro b hb
    cases b <;> first | exact absurd rfl hb | decide
  intro codec hm
  rw [layout_of_find? h] at hm
  obtain ⟨p, hp, choice, rfl⟩ := Codec.exists_of_mem_layoutOf hm
  have hplain := hparams _ hc p hp
  cases p with
  | native => exact absurd rfl hplain.1
  | raw => exact absurd rfl hplain.2
  | int =>
    rw [Codec.ofParameter]
    split <;> simp
  | intVar | label | ptr _ | ptre _ => simp [Codec.ofParameter]

namespace Codec

theorem codec_of_decode? {codec : Codec} {code : Array UInt8} {stop place next : Nat}
    {operand : Operand} (h : codec.decode? code stop place = some (operand, next)) :
    operand.codec = codec := by
  obtain ⟨-, w, rfl, -, rfl, -⟩ := decode?_eq_some_iff.mp h
  exact w.codec_operand place

/-- Operands tell the layout that they have been read by. -/
theorem map_codec_of_decodeAll? {layout : List Codec} {code : Array UInt8} {stop place next : Nat}
    {operands : List Operand} (h : decodeAll? layout code stop place = some (operands, next)) :
    operands.map Operand.codec = layout := by
  induction layout generalizing place operands with
  | nil =>
    obtain ⟨rfl, -⟩ : [] = operands ∧ _ := by simpa [decodeAll?] using h
    rfl
  | cons codec layout ih =>
    obtain ⟨operand, middle, rest, hd, hr, rfl⟩ := decodeAll?_cons_eq_some_iff.mp h
    rw [List.map_cons, codec_of_decode? hd, ih hr]

theorem eq_raw_of_decode? {code : Array UInt8} {stop place next : Nat} {operand : Operand}
    (h : raw.decode? code stop place = some (operand, next)) :
    ∃ length, operand = .raw (place + 1) length ∧ next = place + 1 + length := by
  obtain ⟨-, w, hw, -, rfl, rfl⟩ := decode?_eq_some_iff.mp h
  cases w <;> cases hw
  refine ⟨_, rfl, ?_⟩
  rw [EncodedOperand.bytes, List.length_cons, Nat.add_assoc, Nat.add_comm 1]

end Codec

theorem Program.Accepts.inUse {p : Program} {native : Option NativeBinding}
    {operands : List Operand} (h : p.Accepts native operands) :
    ∀ o ∈ operands, o.InUse p.registers := by
  induction operands generalizing native with
  | nil => simp
  | cons operand rest ih =>
    intro o ho
    cases operand with
    | native index =>
      obtain ⟨binding, -, hr⟩ := h
      rcases List.mem_cons.mp ho with rfl | ho
      · trivial
      · exact ih hr o ho
    | raw start length =>
      rcases List.mem_cons.mp ho with rfl | ho
      · trivial
      · exact ih h.2 o ho
    | register _ | immediate _ | label _ =>
      rcases List.mem_cons.mp ho with rfl | ho
      · exact h.1
      · exact ih h.2 o ho

/-- Apart from host functions, verification asks of operands only that registers are in use. -/
theorem Program.accepts_iff_inUse {p : Program} {native : Option NativeBinding}
    {operands : List Operand} (h : ∀ o ∈ operands, o.codec ≠ .native ∧ o.codec ≠ .raw) :
    p.Accepts native operands ↔ ∀ o ∈ operands, o.InUse p.registers := by
  refine ⟨Accepts.inUse, fun hu => ?_⟩
  induction operands with
  | nil => trivial
  | cons o operands ih =>
    obtain ⟨ho, hrest⟩ := List.forall_mem_cons.mp h
    obtain ⟨hu, hurest⟩ := List.forall_mem_cons.mp hu
    cases o with
    | native index => exact absurd rfl ho.1
    | raw start length => exact absurd rfl ho.2
    | register _ | immediate _ | label _ => exact ⟨hu, ih hrest hurest⟩

/-- The operands of a call: the place of a host function in the table, and a block. -/
theorem Instruction.operands_of_call {code : Array UInt8} {place : Nat} {i : Instruction}
    (fetched : fetch code place = .ok i) (hc : i.opcode.builtin = .call) :
    ∃ index start length, i.operands = [.native index, .raw start length] ∧
      start + length ≤ code.size := by
  obtain ⟨byte, -, hop, hd⟩ := fetch_eq_ok_iff.mp fetched
  rw [Opcode.layout_of_find? hop, hc] at hd
  obtain ⟨first, middle, rest, hfirst, hd, ho⟩ := Codec.decodeAll?_cons_eq_some_iff.mp hd
  obtain ⟨second, last, others, hsecond, hnil, rfl⟩ := Codec.decodeAll?_cons_eq_some_iff.mp hd
  obtain ⟨rfl, -⟩ : [] = others ∧ _ := by simpa [Codec.decodeAll?] using hnil
  have hcodec : first.codec = .native := Codec.codec_of_decode? hfirst
  obtain ⟨length, rfl, rfl⟩ := Codec.eq_raw_of_decode? hsecond
  have hsize := Codec.le_stop_of_decode? hsecond
  cases first <;> cases hcodec
  exact ⟨_, _, _, ho, by omega⟩

/-- The machine reads a block that fits the layout in full, if it has room for its operands. -/
theorem Program.BlockFits.exists_arguments {p : Program} {binding : NativeBinding}
    {start length : Nat} (h : p.BlockFits binding start length)
    (hsize : start + length ≤ p.code.size) (hn : binding.layout.length ≤ maxOperands) :
    ∃ arguments, binding.arguments? p.code start length = some arguments ∧
      Codec.decodeAll? binding.layout p.code (start + length) start
        = some (arguments, start + length) ∧ ∀ o ∈ arguments, o.InUse p.registers := by
  obtain ⟨arguments, ha, hu⟩ := h
  refine ⟨arguments, ?_, ha, hu⟩
  rw [NativeBinding.arguments?, if_pos hsize, List.take_of_length_le hn, ha]
  rfl

/-- A call that has passed verification gives its host function one operand for each codec of the
layout, and registers among them are in use. -/
theorem Program.exists_calls {p : Program} {place : Nat} {i : Instruction}
    (fetched : Instruction.fetch p.code place = .ok i) (accepted : p.Accepts none i.operands)
    (hc : i.opcode.builtin = .call)
    (hn : ∀ binding ∈ p.natives, binding.layout.length ≤ maxOperands) :
    ∃ binding arguments, p.Calls i binding arguments ∧
      arguments.map Operand.codec = binding.layout ∧ ∀ o ∈ arguments, o.InUse p.registers := by
  obtain ⟨index, start, length, ho, hsize⟩ := Instruction.operands_of_call fetched hc
  rw [ho] at accepted
  obtain ⟨binding, hb, ⟨_, hbb, hfits⟩, -⟩ := accepted
  cases hbb
  obtain ⟨arguments, harguments, hd, hu⟩ :=
    hfits.exists_arguments hsize (hn binding (Array.mem_of_getElem? hb))
  exact ⟨binding, arguments, ⟨index, start, length, ho, hb, harguments⟩,
    Codec.map_codec_of_decodeAll? hd, hu⟩

end HookScript
