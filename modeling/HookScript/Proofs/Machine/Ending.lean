/-
Where runs come to the end of the code.

Behind an instruction comes the next one, and jumps lead to instructions.  So there is one way only
to the end of the code: past the last instruction.  The compiler closes every script with `exit`,
and nothing goes past it.  An image may end in any instruction; linking does not ask for `exit`.

* `Effect.GoesOn` — the instructions that a run can go past;
* `Machine.exists_last_of_step` — a run comes to the end of the code only past the last instruction;
* `exit_of_compile` — the last instruction of a compiled script is `exit`;
* `Program.truncated_only_past_last_instruction` — which runs report that the code has come to its
  end.
-/
import HookScript.Proofs.Host.Calls
import HookScript.Proofs.Registry.Natives

namespace HookScript

/-- A run may go past the instruction; other instructions end it or jump. -/
def Effect.GoesOn : Effect → Prop
  | .assign _ | .exchange | .call | .log _ => True
  | .jump _ | .stop | .yield => False

/-! ### Jumps -/

/-- All operands that an instruction may jump to are labels. -/
theorem Builtin.layout_of_jump {b : Builtin} {choose : Values → Nat} (he : b.effect = .jump choose)
    (version : Nat) (values : Values) :
    (Codec.layoutOf b.params version)[choose values]? = some .label := by
  cases b <;> simp only [effect, Effect.store, reduceCtorEq] at he <;> cases he
  case goto => rfl
  all_goals
    show (Codec.layoutOf _ version)[if _ then 2 else 3]? = _
    split <;> rfl

/-- An instruction that proceeds can be gone past, or it has jumped to one of its labels. -/
theorem Instruction.goesOn_of_proceed {p : Program} {place : Nat} {i : Instruction} {m m' : Machine}
    (fetched : fetch p.code place = .ok i)
    (h : i.opcode.builtin.effect.perform p i.operands m = (.proceed, m')) :
    i.opcode.builtin.effect.GoesOn ∨ .label m'.position ∈ i.operands := by
  cases he : i.opcode.builtin.effect with
  | assign _ | exchange | call | log _ => exact .inl trivial
  | stop | yield =>
    rw [he] at h
    cases h
  | jump choose =>
    obtain ⟨byte, -, hop, hd⟩ := fetch_eq_ok_iff.mp fetched
    rw [Opcode.layout_of_find? hop] at hd
    -- the operand that the run goes on at is a label, since its codec is
    have hlabel := Builtin.layout_of_jump he i.opcode.version (m.worker.value i.operands)
    rw [← Codec.map_codec_of_decodeAll? hd, List.getElem?_map, Option.map_eq_some_iff] at hlabel
    obtain ⟨operand, ho, hcodec⟩ := hlabel
    cases operand <;> cases hcodec
    simp only [he, Effect.perform, ho] at h
    cases h
    exact .inr (List.mem_of_getElem? ho)

/-! ### The last instruction -/

namespace Program.Tiling

variable {p : Program} {place : Nat} {tiles : List (Nat × Instruction)}

/-- Only the last instruction is followed by the end of the code. -/
theorem getLast?_of_next (h : p.Tiling place tiles) {tile : Nat × Instruction} (hm : tile ∈ tiles)
    (hend : tile.2.next = p.code.size) : tiles.getLast? = some tile := by
  induction h with
  | stop => cases hm
  | @next place i rest fetched _ tail ih =>
    rcases List.mem_cons.mp hm with rfl | hm
    · simp only at hend
      rw [hend] at tail
      generalize hsize : p.code.size = after at tail
      cases tail with
      | stop => rfl
      | next fetched' _ _ =>
        exact absurd (Instruction.lt_size_of_fetch fetched') (by omega)
    · obtain ⟨first, others, rfl⟩ := List.exists_cons_of_ne_nil (List.ne_nil_of_mem hm)
      rw [List.getLast?_cons_cons]
      exact ih hm

theorem lt_size (h : p.Tiling 0 tiles) {q : Nat} (hq : q ∈ tiles.map Prod.fst) :
    q < p.code.size := by
  obtain ⟨⟨_, i⟩, hi, rfl⟩ := List.mem_map.mp hq
  exact Instruction.lt_size_of_fetch (h.of_mem hi).1

end Program.Tiling

namespace Machine

variable {p : Program} {tiles : List (Nat × Instruction)}

/-- A step to the end of the code is that of the last instruction, and goes past it. -/
theorem exists_last_of_step (ht : p.Tiling 0 tiles) (hc : Program.Closed tiles) {m m' : Machine}
    (hm : m.position ∈ tiles.map Prod.fst) (hs : m.step p = .running m')
    (hend : m'.position = p.code.size) :
    ∃ i, tiles.getLast? = some (m.position, i) ∧ i.opcode.builtin.effect.GoesOn := by
  obtain ⟨⟨q, i⟩, hi, hq⟩ := List.mem_map.mp hm
  simp only at hq
  subst hq
  have fetched := (ht.of_mem hi).1
  -- a label would lead to an instruction
  have hlabel : .label m'.position ∉ i.operands := fun hl =>
    have hlt := ht.lt_size (hc _ hi _ (List.mem_filterMap.mpr ⟨_, hl, rfl⟩))
    absurd hend (Nat.ne_of_lt hlt)
  rw [step_of_fetch fetched] at hs
  split at hs
  · rename_i after hp
    cases hs
    have hnext := (Effect.perform_position hp).resolve_right hlabel
    have hgoes := (Instruction.goesOn_of_proceed fetched hp).resolve_right hlabel
    exact ⟨i, ht.getLast?_of_next hi (hnext.symm.trans hend), hgoes⟩
  · cases hs
  · cases hs

end Machine

/-- The last instruction of a compiled script is `exit`. -/
theorem exit_of_compile {r : Registry} (hr : r.Built) {hook : Option HookSignature}
    {source : String} {p : Program} (h : compile r hook source = .ok p)
    {tiles : List (Nat × Instruction)} (ht : p.Tiling 0 tiles) :
    ∃ last, tiles.getLast? = some last ∧ last.2.opcode.builtin = .exit := by
  obtain ⟨d, lines, l, op, o, hd, hlined, hp, hop, hsel, hyields⟩ :=
    Draft.exists_lines_of_compile (A := fun _ => True) hr.sound h trivial
      fun _ s d _ _ => .any r s d
  obtain rfl := Registry.select_exit hr hop hsel
  have hexit : l.builtin = .exit := by
    obtain ⟨version, rfl⟩ := hyields.eq_of_builtin
    rfl
  have hcode := hlined.code hp
  have hsize : p.code.size = codeSize lines + l.size := by
    rw [← Array.length_toList, hcode, length_assemble, piecesOf_append, sizeOfPieces_append]
    simp [codeSize, Line.size, piecesOf]
  -- the code has no other tiling than its lines, of which this is the last one
  have htiles : tiles = Line.tiles d.buffer.target ([] : List UInt8).length (lines ++ [l]) :=
    Line.eq_tiles_of_tiling (fun l hl => (hlined.written l hl).fits)
      (fun _ _ id _ => hd.target_lt id) hcode ht
  have hmem := Line.mem_tiles d.buffer.target 0 lines l []
  rw [Nat.zero_add] at hmem
  exact ⟨_, ht.getLast?_of_next (htiles ▸ hmem) hsize.symm, hexit⟩

/-! ### Runs -/

namespace Program

/-- The run goes past the instruction, to the end of the code. -/
def GoesPast (p : Program) (last : Nat × Instruction) (worker : Worker) (inputs : List Int32) :
    Prop :=
  ∃ m m', (p.start worker inputs).Reaches p m ∧ m.position = last.1 ∧ m.step p = .running m' ∧
    m'.position = p.code.size

variable {p : Program} {tiles : List (Nat × Instruction)} {last : Nat × Instruction}
  {worker : Worker} {inputs : List Int32}

/-- A run that comes to the end of the code has gone past the last instruction. -/
theorem goesPast_of_reaches (ht : p.Tiling 0 tiles) (hc : Closed tiles) (hne : p.code ≠ #[])
    (hlast : tiles.getLast? = some last) {m : Machine} (hr : (p.start worker inputs).Reaches p m)
    (hend : m.position = p.code.size) :
    p.GoesPast last worker inputs ∧ last.2.opcode.builtin.effect.GoesOn := by
  cases hr with
  | refl => exact absurd hend.symm (by simpa [start] using hne)
  | @tail before _ hbefore hs =>
    -- nothing goes on at the end of the code, so the step began at an instruction
    have hplace : before.position ∈ tiles.map Prod.fst := by
      refine (Machine.position_of_reaches ht hc hbefore ht.place_mem).resolve_right fun h => ?_
      rw [Machine.step_at_end h] at hs
      cases hs
    obtain ⟨i, hi, hgoes⟩ := Machine.exists_last_of_step ht hc hplace hs hend
    obtain rfl : last = (before.position, i) := Option.some.inj (hlast.symm.trans hi)
    exact ⟨⟨before, m, hbefore, rfl, hs, hend⟩, hgoes⟩

/-- If the function that doubles is the only one of the host, scripts call no other. -/
theorem routine_of_doublingRequest {r₀ r : Registry} (hr : r.Built) (hempty : r₀.natives.size = 0)
    (hrequest : doublingRequest.perform r₀ = .ok () r) (htwo : r.natives.size = 2)
    {hook : Option HookSignature} {source : String} {p : Program}
    (hp : compile r hook source = .ok p) : ∀ n ∈ p.natives, n.routine = doublingRoutine := by
  intro n hn
  have hfunction : doublingRequest.hostFunction? r₀
      = some ⟨"double", [.intVar, .int], "", doublingRoutine⟩ := rfl
  have hentered := (Registration.Request.enters hfunction).of_ok hrequest
  have hnative := natives_of_compile hr.sound hp n hn
  obtain ⟨hlt, -⟩ := Array.getElem?_eq_some_iff.mp hnative
  -- the registry has two host functions, the versions of this one
  have hversion := hentered n.id (by rw [htwo] at hlt; exact hlt)
  rw [hempty, Nat.zero_add, hnative] at hversion
  rw [Option.some.inj hversion]

end Program

end HookScript
