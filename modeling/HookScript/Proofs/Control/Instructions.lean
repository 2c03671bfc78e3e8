/-
Lines as the machine carries them out.

* `Program.Carries` — the code of the program consists of given lines;
* `World.Runs` — the machine does in a stretch of code what a statement does;
* `Operation.runs` — the line of an operation does what the operation does;
* `Draft.Tests.steps` and `Registry.Writes.goto_steps` — tests and jumps of blocks.
-/
import HookScript.Proofs.Control.Evaluation
import HookScript.Proofs.Machine.Execution

namespace HookScript

/-! ### Stretches of code -/

/-- The second machine comes after the first by so many instructions that let the run go on. -/
inductive Machine.Steps (p : Program) : Nat → Machine → Machine → Prop where
  | none (m : Machine) : Steps p 0 m m
  | more {n : Nat} {m m' m'' : Machine} (step : m.step p = .running m') (rest : Steps p n m' m'') :
      Steps p (n + 1) m m''

namespace Machine.Steps

variable {p : Program} {n n' : Nat} {m m' m'' : Machine}

theorem append (h : Steps p n m m') (h' : Steps p n' m' m'') : Steps p (n + n') m m'' := by
  induction h with
  | none => rwa [Nat.zero_add]
  | more step _ ih =>
    rw [Nat.add_right_comm]
    exact .more step (ih h')

theorem runFor (h : Steps p n m m') (budget left : Nat) :
    m.runFor p budget (n + left) = m'.runFor p budget left := by
  induction h with
  | none => rw [Nat.zero_add]
  | more step _ ih =>
    rw [Nat.add_right_comm, Machine.runFor, step]
    exact ih

end Machine.Steps

namespace World

/-- The machine that works on the world and goes on at the position. -/
def machine (world : World) (place : Nat) : Machine :=
  ⟨place, world.worker, world.log⟩

/-- From `place` on the machine comes to the ending, by at most `count` instructions: it goes on at
`stop`, or the script ends before that. -/
def Runs (p : Program) (world : World) (place stop count : Nat) : Ending → Prop
  | .next after => ∃ n ≤ count, Machine.Steps p n (world.machine place) (after.machine stop)
  | .ended result after => ∃ n < count, ∃ m place' e,
      Machine.Steps p n (world.machine place) m ∧ m.step p = .ended e (after.machine place') ∧
        e.mapError RuntimeError.fault = result

namespace Runs

variable {p : Program} {world world' : World} {place middle stop count count' : Nat}
  {ending : Ending}

theorem mono (h : world.Runs p place stop count ending) (hle : count ≤ count') :
    world.Runs p place stop count' ending := by
  cases ending with
  | next after =>
    obtain ⟨n, hn, hs⟩ := h
    exact ⟨n, by omega, hs⟩
  | ended result after =>
    obtain ⟨n, hn, hs⟩ := h
    exact ⟨n, by omega, hs⟩

/-- What comes after a stretch that is passed. -/
theorem after (h : Machine.Steps p count (world.machine place) (world'.machine middle))
    (h' : world'.Runs p middle stop count' ending) :
    world.Runs p place stop (count + count') ending := by
  cases ending with
  | next after =>
    obtain ⟨n, hn, hs⟩ := h'
    exact ⟨count + n, by omega, h.append hs⟩
  | ended result after =>
    obtain ⟨n, hn, m, place', e, hs, hstep, he⟩ := h'
    exact ⟨count + n, by omega, m, place', e, h.append hs, hstep, he⟩

theorem trans (h : world.Runs p place middle count (.next world'))
    (h' : world'.Runs p middle stop count' ending) :
    world.Runs p place stop (count + count') ending := by
  obtain ⟨n, hn, hs⟩ := h
  exact (Runs.after hs h').mono (by omega)

end Runs

end World

/-! ### Effects -/

/-- Carrying an effect out on a machine is carrying it out on the world of the machine. -/
theorem Effect.perform_of_apply {effect : Effect} {operands : List Operand} {world world' : World}
    {outcome : Outcome} (h : effect.apply operands world = some (outcome, world')) (p : Program)
    (place : Nat) :
    effect.perform p operands (world.machine place) = (outcome, world'.machine place) := by
  cases effect with
  | assign compute =>
    simp only [apply] at h
    simp only [perform, World.machine]
    cases hc : compute (world.worker.value operands) with
    | ok value =>
      rw [hc] at h
      cases h
      rfl
    | error fault =>
      rw [hc] at h
      cases h
      rfl
  | jump _ | call => cases h
  | exchange | stop | yield | log count =>
    cases h
    rfl

/-- An instruction that is carried out leads to what its outcome means. -/
theorem World.runs_of_perform {p : Program} {world world' : World} {place : Nat} {i : Instruction}
    {outcome : Outcome} (fetched : Instruction.fetch p.code place = .ok i)
    (h : i.opcode.builtin.effect.perform p i.operands (world.machine i.next)
      = (outcome, world'.machine i.next)) :
    world.Runs p place i.next 1 (outcome.ending world') := by
  have hstep := Machine.step_of_fetch (m := world.machine place) fetched
  rw [show ({ world.machine place with position := i.next } : Machine) = world.machine i.next
    from rfl, h] at hstep
  -- an instruction that goes on is one step, one that ends the script is no step yet
  cases outcome with
  | proceed => exact ⟨1, Nat.le_refl 1, .more hstep (.none _)⟩
  | stop => exact ⟨0, Nat.zero_lt_one, _, _, _, .none _, hstep, rfl⟩
  | fail fault => exact ⟨0, Nat.zero_lt_one, _, _, _, .none _, hstep, rfl⟩

/-- A call is a run of its host function. -/
theorem Program.Calls.perform_machine {p : Program} {i : Instruction} {binding : NativeBinding}
    {arguments : List Operand} (h : p.Calls i binding arguments) {world : World}
    {outcome : Outcome} {worker : Worker}
    (hrun : binding.routine.run arguments world.worker = (outcome, worker)) (place : Nat) :
    Effect.call.perform p i.operands (world.machine place)
      = (outcome, { world with worker : World }.machine place) := by
  rw [h.perform, show (world.machine place).worker = world.worker from rfl, hrun]
  rfl

/-! ### Operands -/

namespace Argument

theorem ofHost_of_score {a : Argument} {p : Parameter} (hv : a.isValue = true)
    (hs : (a.score p).isSome = true) : p.OfHost := by
  cases a with
  | constant _ | register _ _ _ => cases p <;> trivial
  | label _ | typeName _ | unknown _ => cases hv

/-- Constants and registers are read back as they are. -/
theorem operands_payload {arguments : List Argument} (hv : arguments.all isValue = true)
    (target : LabelId → Nat) (place : Nat) :
    Payload.operands target place (arguments.map payload) = arguments.map operand := by
  induction arguments generalizing place with
  | nil => rfl
  | cons a arguments ih =>
    rw [List.all_cons, Bool.and_eq_true] at hv
    rw [List.map_cons, List.map_cons, Payload.operands, ih hv.2]
    cases a with
    | constant _ | register _ _ _ => rfl
    | label _ | typeName _ | unknown _ => cases hv.1

end Argument

/-- An instruction without labels and host functions among its parameters neither jumps nor
calls. -/
theorem Builtin.exists_apply {b : Builtin} (hb : ∀ p ∈ b.params, p.OfHost) (operands : List Operand)
    (world : World) : ∃ outcome world', b.effect.apply operands world = some (outcome, world') := by
  have hassign : ∀ compute, b.effect = .assign compute →
      ∃ outcome world', b.effect.apply operands world = some (outcome, world') := by
    intro compute he
    rw [he]
    simp only [Effect.apply]
    split
    · exact ⟨_, _, rfl⟩
    · exact ⟨_, _, rfl⟩
  cases he : b.effect with
  | assign compute => exact he ▸ hassign compute he
  | exchange | stop | yield | log count => exact ⟨_, _, rfl⟩
  | jump choose => cases b <;> first | cases he; done | simp [params, Parameter.OfHost] at hb
  | call => cases b <;> first | cases he; done | simp [params, Parameter.OfHost] at hb

/-! ### Lines of a program -/

/-- The code of the program consists of the lines, with labels at the given positions. -/
structure Program.Carries (p : Program) (target : LabelId → Nat) (all : List Line) : Prop where
  code : p.code.toList = assemble target (piecesOf all)
  sound : ∀ l ∈ all, l.Sound p.natives p.registers.toNat
  range : ∀ l ∈ all, ∀ label, .label label ∈ l.payloads → target label < UInt32.size
  tiling : p.Tiling 0 (Line.tiles target 0 all)

/-- The lines of a draft begin the code of the program that is made of it. -/
structure Draft.Within (p : Program) (target : LabelId → Nat) (all lines : List Line) (d : Draft) :
    Prop where
  carries : p.Carries target all
  lines : lines <+: all
  natives : ∃ more, p.natives = d.natives ++ more
  positions : ∀ label place, d.buffer.position? label = some place → target label = place

theorem Draft.Within.of_grows {p : Program} {target : LabelId → Nat} {all lines lines' : List Line}
    {d d' : Draft} (h : d'.Within p target all lines') (hg : d.Grows d') (hl : lines <+: lines') :
    d.Within p target all lines := by
  obtain ⟨more, hm⟩ := hg.natives
  obtain ⟨more', hm'⟩ := h.natives
  exact ⟨h.carries, hl.trans h.lines, ⟨more ++ more', by rw [hm', hm, Array.append_assoc]⟩,
    fun label place hp => h.positions label place (hg.positions label place hp)⟩

/-- The line of a call hands the operands in its block to the host function. -/
theorem Line.calls {p : Program} {target : LabelId → Nat} {done rest : List UInt8} {slot : UInt16}
    {binding : NativeBinding} {operands : List Payload} {block : List UInt8}
    (hcode : p.code.toList
      = done ++ assemble target (pieces ⟨.call, 0, [.native slot, .raw block]⟩) ++ rest)
    (entered : p.natives[slot.toNat]? = some binding)
    (few : binding.layout.length ≤ maxOperands) (encodable : Encodable binding.layout operands)
    (flat : ∀ bs, .raw bs ∉ operands)
    (encoded : block = assemble (fun _ => 0) (operands.map Payload.piece)) :
    p.Calls (Line.instruction target done.length ⟨.call, 0, [.native slot, .raw block]⟩) binding
      (Payload.operands (fun _ => 0) (done.length + 1 + 2 + 1) operands) := by
  have hd := decodeAll?_block encodable flat encoded hcode
  have hsize : done.length + 1 + 2 + 1 + block.length ≤ p.code.size := by
    rw [← Array.length_toList, hcode]
    simp [pieces, Payload.piece, Piece.encode]
    omega
  refine ⟨slot.toNat, done.length + 1 + 2 + 1, block.length, rfl, entered, ?_⟩
  rw [NativeBinding.arguments?, if_pos hsize, List.take_of_length_le few]
  exact congrArg (Option.map Prod.fst) hd

namespace Program.Carries

variable {p : Program} {target : LabelId → Nat} {all done : List Line} {l : Line}

/-- Around a line. -/
theorem split (h : p.Carries target all) (hl : done ++ [l] <+: all) :
    ∃ rest, p.code.toList = assemble target (piecesOf done) ++ assemble target l.pieces ++ rest ∧
      l ∈ all := by
  obtain ⟨rest, rfl⟩ := hl
  refine ⟨assemble target (piecesOf rest), ?_, by simp⟩
  rw [h.code]
  simp

/-- The line is fetched at the size of the lines in front of it. -/
theorem fetch (h : p.Carries target all) (hl : done ++ [l] <+: all) :
    Instruction.fetch p.code (codeSize done) = .ok (l.instruction target (codeSize done)) := by
  obtain ⟨rest, rfl⟩ := hl
  have hm := Line.mem_tiles target 0 done l rest
  rw [Nat.zero_add] at hm
  rw [List.append_cons] at hm
  exact (h.tiling.of_mem hm).1

theorem next_eq (target : LabelId → Nat) (done : List Line) (l : Line) :
    (l.instruction target (codeSize done)).next = codeSize (done ++ [l]) := by
  rw [codeSize_append, codeSize_cons]
  rfl

theorem calls (h : p.Carries target all) {slot : UInt16} {binding : NativeBinding}
    {operands : List Payload} {block : List UInt8}
    (hl : done ++ [⟨.call, 0, [.native slot, .raw block]⟩] <+: all)
    (entered : p.natives[slot.toNat]? = some binding)
    (few : binding.layout.length ≤ maxOperands) (encodable : Encodable binding.layout operands)
    (flat : ∀ bs, .raw bs ∉ operands)
    (encoded : block = assemble (fun _ => 0) (operands.map Payload.piece)) :
    p.Calls (Line.instruction target (codeSize done) ⟨.call, 0, [.native slot, .raw block]⟩) binding
      (Payload.operands (fun _ => 0) (codeSize done + 1 + 2 + 1) operands) := by
  obtain ⟨rest, hcode, -⟩ := h.split hl
  have hcalls := Line.calls hcode entered few encodable flat encoded
  rwa [length_assemble] at hcalls

end Program.Carries

/-! ### Lines of operations -/

theorem Overload.ofHost_of_fits {o : Overload} {arguments : List Argument} {score : Nat}
    (hfits : o.score? arguments = some score) (hv : arguments.all Argument.isValue = true) :
    ∀ p ∈ o.params, p.OfHost := by
  have hs := forall_of_totalScore? hfits
  clear hfits
  generalize o.params = params at hs
  induction hs with
  | nil => simp
  | cons hscore _ ih =>
    rw [List.all_cons, Bool.and_eq_true] at hv
    intro p hp
    rcases List.mem_cons.mp hp with rfl | hp
    · exact Argument.ofHost_of_score hv.1 hscore
    · exact ih hv.2 p hp

/-- The line of an operation does what the operation does. -/
theorem Operation.runs {r : Registry} (hr : r.Sound) {p : Program} {target : LabelId → Nat}
    {all done : List Line} (hp : p.Carries target all) {name : String} {op : Operation}
    (hop : r.operation? name = some op) {arguments : List Argument} {o : Overload}
    (hsel : op.select r arguments = .ok o) {natives : Array NativeBinding} {l : Line}
    (hy : o.Yields r natives arguments l) (hn : ∃ more, p.natives = natives ++ more)
    (hl : done ++ [l] <+: all) (hv : arguments.all Argument.isValue = true) (world : World) :
    ∃ ending, op.evaluate r arguments world = some ending ∧
      world.Runs p (codeSize done) (codeSize (done ++ [l])) 1 ending := by
  obtain ⟨ho, score, hfits, -⟩ := select_eq_ok hsel
  have hfetch := hp.fetch hl
  have hnext := Program.Carries.next_eq target done l
  rw [← hnext]
  cases hy with
  | @builtin b doc bound version =>
    obtain ⟨outcome, world', ha⟩ := b.exists_apply (Overload.ofHost_of_fits hfits hv)
      (arguments.map Argument.operand) world
    refine ⟨outcome.ending world', ?_, World.runs_of_perform hfetch ?_⟩
    · have hzero : 0 < b.versions := by
        rw [b.versions_eq]
        exact choiceCount_pos _
      obtain ⟨-, hfind⟩ := b.find?_version hzero
      rw [Nat.add_zero] at hfind
      have happly : (b.opcode 0).builtin.effect.apply (arguments.map Argument.operand) world
          = some (outcome, world') := ha
      simp [evaluate, hsel, Except.toOption, hv, hfind, happly]
    · have hoperands : (Line.instruction target (codeSize done)
          ⟨b, version, arguments.map Argument.payload⟩).operands
            = arguments.map Argument.operand := Argument.operands_payload hv target _
      rw [hoperands]
      exact Effect.perform_of_apply ha p _
  | @native params first doc bound slot binding version registered valid entered encodable =>
    obtain ⟨more, hmore⟩ := hn
    cases hr.overloads name op hop _ ho with
    | native routine ofHost few versions =>
      -- all versions of the host function do the same
      have hfirst : r.native? first = some ⟨first, name, Codec.layoutOf params 0, routine⟩ :=
        versions 0 (choiceCount_pos _)
      have hbinding := registered.symm.trans (versions version valid)
      cases hbinding
      have hentered : p.natives[slot.toNat]?
          = some ⟨first + version, name, Codec.layoutOf params version, routine⟩ := by
        obtain ⟨hlt, -⟩ := Array.getElem?_eq_some_iff.mp entered
        rw [hmore, Array.getElem?_append_left hlt, entered]
      have hlayout : (Codec.layoutOf params version).length ≤ maxOperands := by
        exact Nat.le_trans (by simp [Codec.layoutOf]) few
      have hcalls := hp.calls hl hentered hlayout encodable (Argument.raw_notMem_payloads _) rfl
      rw [Argument.operands_payload hv] at hcalls
      rcases hrun : routine.run (arguments.map Argument.operand) world.worker with ⟨outcome, worker⟩
      refine ⟨outcome.ending { world with worker }, ?_, World.runs_of_perform hfetch ?_⟩
      · simp [evaluate, hsel, Except.toOption, hv, hfirst, hrun]
      · exact hcalls.perform_machine hrun _

theorem Argument.isValue_of_score {a : Argument} {p : Parameter} (h : (a.score p).isSome = true)
    (hu : ∀ name, a ≠ unknown name) (hl : ∀ id, a ≠ label id) : a.isValue = true := by
  cases a with
  | constant _ | register _ _ _ => rfl
  | label id => exact absurd rfl (hl id)
  | unknown name => exact absurd rfl (hu name)
  | typeName _ => cases p <;> trivial

/-- Arguments that fit are values, apart from labels and names that are still to be declared. -/
theorem Argument.all_isValue {params : List Parameter} {arguments : List Argument}
    (hs : List.Forall₂ (fun p a => (score a p).isSome = true) params arguments)
    (hu : ∀ name, unknown name ∉ arguments) (hl : ∀ id, label id ∉ arguments) :
    arguments.all isValue = true := by
  rw [List.all_eq_true]
  intro a ha
  obtain ⟨i, hi, rfl⟩ := List.getElem_of_mem ha
  obtain ⟨hlen, hget⟩ := List.forall₂_iff_get.mp hs
  refine isValue_of_score (hget i (hlen ▸ hi) hi) ?_ ?_
  · rintro name heq
    exact hu name (heq ▸ ha)
  · rintro id heq
    exact hl id (heq ▸ ha)

/-- The line of an operation without labels does what the operation does. -/
theorem Registry.Writes.runs {r : Registry} (hr : r.Sound) {p : Program} {target : LabelId → Nat}
    {all done : List Line} (hp : p.Carries target all) {natives : Array NativeBinding}
    {name : String} {arguments : List Argument} {l : Line} (h : r.Writes natives name arguments l)
    (hn : ∃ more, p.natives = natives ++ more) (hl : done ++ [l] <+: all)
    (hlabels : ∀ id, .label id ∉ arguments) {op : Operation} (hop : r.operation? name = some op)
    (world : World) :
    ∃ ending, op.evaluate r arguments world = some ending ∧
      world.Runs p (codeSize done) (codeSize (done ++ [l])) 1 ending := by
  obtain ⟨op', o, hop', hsel, hy, hu⟩ := h
  rw [hop] at hop'
  cases hop'
  obtain ⟨-, score, hfits, -⟩ := Operation.select_eq_ok hsel
  have hv := Argument.all_isValue (Overload.forall_of_totalScore? hfits) hu hlabels
  exact Operation.runs hr hp hop hsel hy hn hl hv world

/-! ### Tests and jumps of blocks -/

/-- With a label among its arguments, an operation is a builtin instruction. -/
theorem Registry.Writes.exists_builtin {r : Registry} (hr : r.Sound) {natives : Array NativeBinding}
    {name : String} {arguments : List Argument} {l : Line} (h : r.Writes natives name arguments l)
    {id : LabelId} (hid : .label id ∈ arguments) :
    ∃ b version, b.name = name ∧ l = ⟨b, version, arguments.map Argument.payload⟩ ∧
      List.Forall₂ (fun p a => (Argument.score a p).isSome = true) b.params arguments := by
  obtain ⟨op, o, hop, hsel, hy, -⟩ := h
  obtain ⟨i, hi⟩ := List.mem_iff_getElem?.mp hid
  obtain ⟨b, doc, rfl, hname, -⟩ := Operation.exists_builtin_of_label hr hop hsel hi trivial
  obtain ⟨version, rfl⟩ := hy.eq_of_builtin
  obtain ⟨-, score, hfits, -⟩ := Operation.select_eq_ok hsel
  exact ⟨b, version, hname, rfl, Overload.forall_of_totalScore? hfits⟩

theorem World.steps_of_perform {p : Program} {world world' : World} {place stop : Nat}
    {i : Instruction} (fetched : Instruction.fetch p.code place = .ok i)
    (h : i.opcode.builtin.effect.perform p i.operands (world.machine i.next)
      = (.proceed, world'.machine stop)) :
    Machine.Steps p 1 (world.machine place) (world'.machine stop) := by
  have hstep := Machine.step_of_fetch (m := world.machine place) fetched
  rw [show ({ world.machine place with position := i.next } : Machine) = world.machine i.next
    from rfl, h] at hstep
  exact .more hstep (.none _)

/-- A jump goes on at its label. -/
theorem Registry.Writes.goto_steps {r : Registry} (hr : r.Sound) {p : Program}
    {target : LabelId → Nat} {all lines : List Line} (hp : p.Carries target all)
    {natives : Array NativeBinding} {id : LabelId} {l : Line}
    (h : r.Writes natives Builtin.goto.name [.label id] l) (hl : lines ++ [l] <+: all)
    (world : World) :
    Machine.Steps p 1 (world.machine (codeSize lines)) (world.machine (target id)) := by
  have hid : Argument.label id ∈ [.label id] := List.mem_singleton.mpr rfl
  obtain ⟨b, version, hname, rfl, -⟩ := h.exists_builtin hr hid
  -- no other instruction has the name
  have hb : b = .goto := by
    cases b <;> first | rfl | exact absurd hname (by decide)
  subst hb
  exact World.steps_of_perform (hp.fetch hl) rfl

/-- An argument that fits an integer parameter has a value, which instructions read. -/
theorem Argument.exists_value {a : Argument} (h : (a.score .int).isSome = true) (w : Worker) :
    ∃ value, a.value? w = some value ∧ ∀ operands i (target : LabelId → Nat) (place : Nat),
      operands[i]? = some (a.payload.operand target place) → w.value operands i = value := by
  cases a with
  | constant value =>
    refine ⟨value, rfl, fun operands i target place hi => ?_⟩
    rw [Worker.value, hi]
    rfl
  | register index type writable =>
    refine ⟨_, rfl, fun operands i target place hi => ?_⟩
    rw [Worker.value, hi]
    rfl
  | label _ | typeName _ | unknown _ => trivial

/-- A test goes on at its first label if the comparison of its two values holds, and at its second
one if not. -/
theorem Builtin.test_steps {b : Builtin} {holds : Int32 → Int32 → Bool}
    (hb : b.effect = .jump fun x => if holds (x 0) (x 1) then 2 else 3) {p : Program}
    {target : LabelId → Nat} {all lines : List Line} (hp : p.Carries target all) {version : Nat}
    {x y : Argument} {yes no : LabelId}
    (hl : lines ++ [⟨b, version, [x, y, .label yes, .label no].map Argument.payload⟩] <+: all)
    {world : World} {vx vy : Int32}
    (hx : ∀ operands i (target : LabelId → Nat) (place : Nat),
      operands[i]? = some (x.payload.operand target place) → world.worker.value operands i = vx)
    (hy : ∀ operands i (target : LabelId → Nat) (place : Nat),
      operands[i]? = some (y.payload.operand target place) → world.worker.value operands i = vy) :
    Machine.Steps p 1 (world.machine (codeSize lines))
      (world.machine (if holds vx vy then target yes else target no)) := by
  refine World.steps_of_perform (hp.fetch hl) ?_
  have heffect : (Line.instruction target (codeSize lines)
      ⟨b, version, [x, y, .label yes, .label no].map Argument.payload⟩).opcode.builtin.effect
        = .jump fun x => if holds (x 0) (x 1) then 2 else 3 := hb
  have htwo : (Payload.operands target (codeSize lines + 1)
      ([x, y, .label yes, .label no].map Argument.payload))[2]? = some (.label (target yes)) := rfl
  have hthree : (Payload.operands target (codeSize lines + 1)
      ([x, y, .label yes, .label no].map Argument.payload))[3]? = some (.label (target no)) := rfl
  have hvx := hx _ 0 target _ (Eq.refl (Payload.operands target (codeSize lines + 1)
    ([x, y, .label yes, .label no].map Argument.payload))[0]?)
  have hvy := hy _ 1 target _ (Eq.refl (Payload.operands target (codeSize lines + 1)
    ([x, y, .label yes, .label no].map Argument.payload))[1]?)
  rw [heffect]
  simp only [Effect.perform, Line.instruction, World.machine, hvx, hvy]
  cases holds vx vy with
  | true => simp only [if_true, htwo]
  | false => simp only [Bool.false_eq_true, if_false, hthree]

section

variable {r : Registry} {p : Program} {target : LabelId → Nat} {all lines : List Line}
  {natives : Array NativeBinding} {l : Line}

/-- The test of an operation with the parameters of a comparison. -/
theorem Registry.Writes.test_steps (hr : r.Sound) (hp : p.Carries target all) {t : Builtin}
    (holds : Int32 → Int32 → Bool)
    (ht : t.effect = .jump fun x => if holds (x 0) (x 1) then 2 else 3)
    (only : ∀ b : Builtin, b.name = t.name → b = t)
    (hparams : t.params = [.int, .int, .label, .label])
    {x y : Argument} {yes no : LabelId}
    (h : r.Writes natives t.name [x, y, .label yes, .label no] l) (hl : lines ++ [l] <+: all)
    (world : World) :
    ∃ vx vy, x.value? world.worker = some vx ∧ y.value? world.worker = some vy ∧
      Machine.Steps p 1 (world.machine (codeSize lines))
        (world.machine (if holds vx vy then target yes else target no)) := by
  have hyes : Argument.label yes ∈ [x, y, .label yes, .label no] := by simp
  obtain ⟨b, version, hname, rfl, hs⟩ := h.exists_builtin hr hyes
  obtain rfl := only b hname
  rw [hparams] at hs
  cases hs with
  | cons hx hs =>
    cases hs with
    | cons hy _ =>
      obtain ⟨vx, hvx, hreadx⟩ := Argument.exists_value hx world.worker
      obtain ⟨vy, hvy, hready⟩ := Argument.exists_value hy world.worker
      exact ⟨vx, vy, hvx, hvy, Builtin.test_steps ht hp hl hreadx hready⟩

theorem Registry.Writes.testEq_steps (hr : r.Sound) (hp : p.Carries target all)
    {x y : Argument} {yes no : LabelId}
    (h : r.Writes natives Builtin.testEq.name [x, y, .label yes, .label no] l)
    (hl : lines ++ [l] <+: all) (world : World) :
    ∃ vx vy, x.value? world.worker = some vx ∧ y.value? world.worker = some vy ∧
      Machine.Steps p 1 (world.machine (codeSize lines))
        (world.machine (if decide (vx = vy) then target yes else target no)) := by
  refine h.test_steps hr hp (fun vx vy => decide (vx = vy)) ?_ ?_ rfl hl world
  · simp only [Builtin.effect, decide_eq_true_eq]
  · intro b hb
    cases b <;> first | rfl | exact absurd hb (by decide)

theorem Registry.Writes.testLe_steps (hr : r.Sound) (hp : p.Carries target all)
    {x y : Argument} {yes no : LabelId}
    (h : r.Writes natives Builtin.testLe.name [x, y, .label yes, .label no] l)
    (hl : lines ++ [l] <+: all) (world : World) :
    ∃ vx vy, x.value? world.worker = some vx ∧ y.value? world.worker = some vy ∧
      Machine.Steps p 1 (world.machine (codeSize lines))
        (world.machine (if decide (vx ≤ vy) then target yes else target no)) := by
  refine h.test_steps hr hp (fun vx vy => decide (vx ≤ vy)) ?_ ?_ rfl hl world
  · simp only [Builtin.effect, decide_eq_true_eq]
  · intro b hb
    cases b <;> first | rfl | exact absurd hb (by decide)

end

/-- The test of a condition goes on behind itself if the condition holds. -/
theorem Draft.Tests.steps {r : Registry} (hr : r.Sound) {p : Program} {target : LabelId → Nat}
    {all : List Line} {tokens : List Token} {elseLabel : LabelId} {lines : List Line} {l : Line}
    {d d' : Draft} (h : d.Tests r tokens elseLabel lines l d')
    (hw : d'.Within p target all (lines ++ [l])) (world : World) :
    ∃ holds, d.scope.condition r tokens world = some holds ∧
      Machine.Steps p 1 (world.machine (codeSize lines))
        (world.machine (if holds then codeSize (lines ++ [l]) else target elseLabel)) := by
  obtain ⟨thenLabel, c, first, second, a, b, hsplit, ha, hb, hwrites, hthen⟩ := h
  have hthen := hw.positions thenLabel _ hthen
  have hcondition : ∀ {va vb : Int32}, a.value? world.worker = some va →
      b.value? world.worker = some vb →
        d.scope.condition r tokens world = some (c.holds va vb) := by
    intro va vb hva hvb
    have ha' : d.scope.draft.resolve r first = .ok a := ha
    have hb' : d.scope.draft.resolve r second = .ok b := hb
    simp [Scope.condition, hsplit, ha', hb', Except.toOption, hva, hvb]
  -- the comparison is that of the instruction, with operands or labels exchanged
  cases c with
  | eq =>
    obtain ⟨va, vb, hva, hvb, hs⟩ := hwrites.testEq_steps hr hw.carries hw.lines world
    refine ⟨_, hcondition hva hvb, ?_⟩
    rwa [hthen] at hs
  | neq =>
    obtain ⟨va, vb, hva, hvb, hs⟩ := hwrites.testEq_steps hr hw.carries hw.lines world
    refine ⟨_, hcondition hva hvb, ?_⟩
    rw [hthen] at hs
    by_cases h : va = vb <;> simpa [Comparison.holds, h] using hs
  | le =>
    obtain ⟨va, vb, hva, hvb, hs⟩ := hwrites.testLe_steps hr hw.carries hw.lines world
    refine ⟨_, hcondition hva hvb, ?_⟩
    rwa [hthen] at hs
  | gt =>
    obtain ⟨va, vb, hva, hvb, hs⟩ := hwrites.testLe_steps hr hw.carries hw.lines world
    refine ⟨_, hcondition hva hvb, ?_⟩
    rw [hthen] at hs
    by_cases h : va ≤ vb <;> simpa [Comparison.holds, h, ← Int32.not_le] using hs
  | ge =>
    obtain ⟨vb, va, hvb, hva, hs⟩ := hwrites.testLe_steps hr hw.carries hw.lines world
    refine ⟨_, hcondition hva hvb, ?_⟩
    rwa [hthen] at hs
  | lt =>
    obtain ⟨vb, va, hvb, hva, hs⟩ := hwrites.testLe_steps hr hw.carries hw.lines world
    refine ⟨_, hcondition hva hvb, ?_⟩
    rw [hthen] at hs
    by_cases h : vb ≤ va <;> simpa [Comparison.holds, h, ← Int32.not_le] using hs

end HookScript
