/-
What verification establishes.

Verification reads the code once from front to back.  This file says what its verdict means in terms
of whole instructions, as the machine fetches them:

* `Program.checkInstruction_eq_ok_iff` — an instruction passes iff it can be fetched and the program
  accepts its operands (`Program.Accepts`);
* `Program.surveyFrom_eq_ok_iff` — the survey of the code succeeds iff accepted instructions tile it
  (`Program.Tiling`), and then its starts and jumps are those of the tiles;
* `Program.verify_eq_ok_iff` — a program is verified iff its code is a nonempty tiling in which
  every jump leads to the beginning of a tile.
-/
import HookScript.Machine.Instruction
import HookScript.Program.Verify

namespace HookScript

instance decidableEqExcept {ε α : Type} [DecidableEq ε] [DecidableEq α] : DecidableEq (Except ε α)
  | .ok a, .ok b => decidable_of_iff (a = b) (by simp)
  | .error e, .error e' => decidable_of_iff (e = e') (by simp)
  | .ok _, .error _ | .error _, .ok _ => isFalse nofun

/-! ### Operands -/

/-- The operand is no register, or one of the first `registers`. -/
def Operand.InUse (registers : UInt8) : Operand → Prop
  | .register r => r < registers
  | _ => True

/-- The position that the operand leads to, if it is one. -/
def Operand.target? : Operand → Option Nat
  | .label target => some target
  | _ => none

/-- The codec that the operand is read by. -/
def Operand.codec : Operand → Codec
  | .register _ => .register
  | .immediate _ => .immediate
  | .label _ => .label
  | .native _ => .native
  | .raw _ _ => .raw

/-- The positions that the instruction may jump to. -/
def Instruction.targets (i : Instruction) : List Nat :=
  i.operands.filterMap Operand.target?

theorem Codec.decodeAll?_cons_eq_some_iff {codec : Codec} {layout : List Codec}
    {code : Array UInt8} {stop place next : Nat} {operands : List Operand} :
    decodeAll? (codec :: layout) code stop place = some (operands, next) ↔
      ∃ operand middle rest, codec.decode? code stop place = some (operand, middle) ∧
        decodeAll? layout code stop middle = some (rest, next) ∧ operands = operand :: rest := by
  simp only [decodeAll?, Option.bind_eq_bind, Option.bind_eq_some_iff, Option.pure_def,
    Option.some.injEq, Prod.mk.injEq, Prod.exists]
  constructor
  · rintro ⟨operand, middle, hd, rest, last, hr, rfl, rfl⟩
    exact ⟨operand, middle, rest, hd, hr, rfl⟩
  · rintro ⟨operand, middle, rest, hd, hr, rfl⟩
    exact ⟨operand, middle, hd, rest, next, hr, rfl, rfl⟩

/-- The first operand is known, and the others are read behind it. -/
theorem Codec.exists_decodeAll?_cons_iff {codec : Codec} {layout : List Codec}
    {code : Array UInt8} {stop place middle next : Nat} {operand : Operand}
    (hd : codec.decode? code stop place = some (operand, middle)) {P : List Operand → Prop} :
    (∃ operands, decodeAll? (codec :: layout) code stop place = some (operands, next) ∧
        P operands) ↔
      ∃ rest, decodeAll? layout code stop middle = some (rest, next) ∧ P (operand :: rest) := by
  constructor
  · rintro ⟨operands, h, hp⟩
    obtain ⟨operand', middle', rest, hd', hr, rfl⟩ := decodeAll?_cons_eq_some_iff.mp h
    obtain ⟨rfl, rfl⟩ : operand = operand' ∧ middle = middle' := by simpa [hd] using hd'
    exact ⟨rest, hr, hp⟩
  · rintro ⟨rest, hr, hp⟩
    exact ⟨_, decodeAll?_cons_eq_some_iff.mpr ⟨operand, middle, rest, hd, hr, rfl⟩, hp⟩

namespace Program

theorem checkOperand_eq_ok_iff {p : Program} {position : Nat} {operand : Operand} :
    p.checkOperand position operand = .ok () ↔ operand.InUse p.registers := by
  cases operand with
  | register r =>
    simp only [checkOperand, Operand.InUse]
    split
    · rename_i h
      simpa using h
    · rename_i h
      simpa using h
  | _ => simp [checkOperand, Operand.InUse]

theorem not_inUse_of_checkOperand {p : Program} {position : Nat} {operand : Operand}
    {e : VerifyError} (h : p.checkOperand position operand = .error e) :
    ¬ operand.InUse p.registers := by
  rw [← @checkOperand_eq_ok_iff p position, h]
  simp

/-- The `length` bytes from `start` on are operands of the host function, one for each codec of its
layout, and its registers are in use. -/
def BlockFits (p : Program) (binding : NativeBinding) (start length : Nat) : Prop :=
  ∃ arguments,
    Codec.decodeAll? binding.layout p.code (start + length) start
      = some (arguments, start + length) ∧
    ∀ a ∈ arguments, a.InUse p.registers

theorem checkBlock_eq_ok_iff {p : Program} {position stop : Nat} {layout : List Codec}
    {place : Nat} :
    p.checkBlock position stop layout place = .ok () ↔
      ∃ arguments, Codec.decodeAll? layout p.code stop place = some (arguments, stop) ∧
        ∀ a ∈ arguments, a.InUse p.registers := by
  -- the block is walked codec by codec, and must end where the layout does
  induction layout generalizing place with
  | nil =>
    simp only [checkBlock, Codec.decodeAll?]
    split
    · rename_i h
      subst h
      exact ⟨fun _ => ⟨[], rfl, by simp⟩, fun _ => rfl⟩
    · rename_i h
      simp [h]
  | cons codec layout ih =>
    simp only [checkBlock]
    cases hd : codec.decode? p.code stop place with
    | none => simp [Codec.decodeAll?_cons_eq_some_iff, hd]
    | some decoded =>
      obtain ⟨operand, next⟩ := decoded
      rw [Codec.exists_decodeAll?_cons_iff hd]
      simp only [List.forall_mem_cons]
      cases hc : p.checkOperand position operand with
      | error e => simp [not_inUse_of_checkOperand hc]
      | ok _ => simp [ih, checkOperand_eq_ok_iff.mp hc]

/-- What verification asks of operands, when those before them named the host function `native`:
registers are in use, a host function is in the program's table, and a block of operands follows
the host function that it belongs to. -/
def Accepts (p : Program) : Option NativeBinding → List Operand → Prop
  | _, [] => True
  | _, .native index :: rest =>
    ∃ binding, p.native? index = some binding ∧ p.Accepts (some binding) rest
  | native, .raw start length :: rest =>
    (∃ binding, native = some binding ∧ p.BlockFits binding start length) ∧ p.Accepts native rest
  | native, operand :: rest => operand.InUse p.registers ∧ p.Accepts native rest

/-- A label is checked later: it becomes one of the targets. -/
theorem checkOperands_label_eq_ok_iff {p : Program} {position : Nat} {codec : Codec}
    {layout : List Codec} {native : Option NativeBinding} {place target middle : Nat}
    {targets : List Nat} {next : Nat}
    (hd : codec.decode? p.code p.code.size place = some (.label target, middle)) :
    p.checkOperands position (codec :: layout) native place = .ok (targets, next) ↔
      ∃ found, p.checkOperands position layout native middle = .ok (found, next) ∧
        target :: found = targets := by
  simp only [checkOperands, hd]
  cases p.checkOperands position layout native middle with
  | error e => simp
  | ok answer =>
    obtain ⟨found, last⟩ := answer
    simp only [Except.ok.injEq, Prod.mk.injEq]
    constructor
    · rintro ⟨rfl, rfl⟩
      exact ⟨found, ⟨rfl, rfl⟩, rfl⟩
    · rintro ⟨_, ⟨rfl, rfl⟩, rfl⟩
      exact ⟨rfl, rfl⟩

theorem checkOperands_eq_ok_iff {p : Program} {position : Nat} {layout : List Codec}
    {native : Option NativeBinding} {place : Nat} {targets : List Nat} {next : Nat} :
    p.checkOperands position layout native place = .ok (targets, next) ↔
      ∃ operands, Codec.decodeAll? layout p.code p.code.size place = some (operands, next) ∧
        p.Accepts native operands ∧ operands.filterMap Operand.target? = targets := by
  induction layout generalizing native place targets with
  | nil =>
    simp only [checkOperands, Codec.decodeAll?, Except.ok.injEq, Prod.mk.injEq, Option.some.injEq]
    constructor
    · rintro ⟨rfl, rfl⟩
      exact ⟨[], ⟨rfl, rfl⟩, trivial, rfl⟩
    · rintro ⟨operands, ⟨rfl, rfl⟩, -, rfl⟩
      exact ⟨rfl, rfl⟩
  | cons codec layout ih =>
    cases hd : codec.decode? p.code p.code.size place with
    | none => simp [checkOperands, Codec.decodeAll?_cons_eq_some_iff, hd]
    | some decoded =>
      obtain ⟨operand, middle⟩ := decoded
      rw [Codec.exists_decodeAll?_cons_iff hd]
      -- the operand decides which check comes next, and every check leaves the rest to `ih`
      cases operand with
      | label target =>
        simp only [checkOperands_label_eq_ok_iff hd, ih, Accepts, List.filterMap_cons,
          Operand.target?, Operand.InUse, true_and]
        constructor
        · rintro ⟨_, ⟨rest, hd', ha, rfl⟩, ht⟩
          exact ⟨rest, hd', ha, ht⟩
        · rintro ⟨rest, hd', ha, ht⟩
          exact ⟨_, ⟨rest, hd', ha, rfl⟩, ht⟩
      | native index =>
        simp only [checkOperands, hd, Accepts, List.filterMap_cons, Operand.target?]
        cases hn : p.native? index with
        | none => simp
        | some binding => simp [ih]
      | raw start length =>
        simp only [checkOperands, hd, Accepts, List.filterMap_cons, Operand.target?]
        cases native with
        | none => simp
        | some binding =>
          cases hc : p.checkBlock position (start + length) binding.layout start with
          | error e =>
            have hb : ¬ p.BlockFits binding start length := by
              rw [BlockFits, ← @checkBlock_eq_ok_iff p position, hc]
              simp
            simp [hc, hb]
          | ok _ =>
            have hb : p.BlockFits binding start length := checkBlock_eq_ok_iff.mp hc
            simp [hc, ih, hb]
      | register r =>
        simp only [checkOperands, hd, Accepts, List.filterMap_cons, Operand.target?]
        cases hc : p.checkOperand position (.register r) with
        | error e => simp [not_inUse_of_checkOperand hc]
        | ok _ => simp [ih, checkOperand_eq_ok_iff.mp hc]
      | immediate v =>
        simp only [checkOperands, hd, Accepts, List.filterMap_cons, Operand.target?]
        cases hc : p.checkOperand position (.immediate v) with
        | error e => simp [not_inUse_of_checkOperand hc]
        | ok _ => simp [ih, checkOperand_eq_ok_iff.mp hc]

/-! ### Instructions -/

theorem checkInstruction_eq_ok_iff {p : Program} {place : Nat} (h : place < p.code.size)
    {targets : List Nat} {next : Nat} :
    p.checkInstruction place p.code[place] = .ok (targets, next) ↔
      ∃ i, Instruction.fetch p.code place = .ok i ∧ p.Accepts none i.operands ∧
        i.targets = targets ∧ i.next = next := by
  have hb : p.code[place]? = some p.code[place] := Array.getElem?_eq_getElem h
  simp only [checkInstruction, Instruction.fetch, hb]
  cases Opcode.find? p.code[place] with
  | none => simp
  | some opcode =>
    simp only [checkOperands_eq_ok_iff]
    cases Codec.decodeAll? opcode.layout p.code p.code.size (place + 1) with
    | none => simp
    | some decoded =>
      obtain ⟨operands, last⟩ := decoded
      constructor
      · rintro ⟨operands', hd, ha, ht⟩
        obtain ⟨rfl, rfl⟩ : operands = operands' ∧ last = next := by simpa using hd
        exact ⟨_, rfl, ha, ht, rfl⟩
      · rintro ⟨i, hi, ha, ht, hn⟩
        obtain rfl : _ = i := by simpa using hi
        exact ⟨operands, by simpa using hn, ha, ht⟩

end Program

theorem Codec.le_of_bytesAt? {code : Array UInt8} {stop place count : Nat} {bytes : List UInt8}
    (h : bytesAt? code stop place count = some bytes) : place + count ≤ min stop code.size := by
  unfold bytesAt? at h
  split at h
  · assumption
  · simp at h

/-- An operand ends in front of the end of what is read. -/
theorem Codec.le_stop_of_decode? {codec : Codec} {code : Array UInt8} {stop place next : Nat}
    {operand : Operand} (h : codec.decode? code stop place = some (operand, next)) :
    next ≤ min stop code.size := by
  cases codec <;> simp only [decode?, numberAt?, Option.bind_eq_bind, Option.bind_eq_some_iff,
    Option.map_eq_some_iff, Option.pure_def, Option.some.injEq, Prod.mk.injEq] at h
  -- a block ends behind its length byte and its bytes, all others behind a number
  case raw =>
    obtain ⟨length, -, h⟩ := h
    split at h
    · obtain ⟨hle, -⟩ := ‹_ ∧ _›
      obtain ⟨-, rfl⟩ : _ ∧ place + 1 + length = next := by simpa using h
      exact hle
    · simp at h
  all_goals
    obtain ⟨n, ⟨bytes, hb, -⟩, -, rfl⟩ := h
    exact le_of_bytesAt? hb

theorem Codec.le_stop_of_decodeAll? {layout : List Codec} {code : Array UInt8}
    {stop place next : Nat} {operands : List Operand}
    (h : decodeAll? layout code stop place = some (operands, next))
    (hp : place ≤ min stop code.size) : next ≤ min stop code.size := by
  induction layout generalizing place operands with
  | nil =>
    obtain ⟨-, rfl⟩ : _ ∧ place = next := by simpa [decodeAll?] using h
    exact hp
  | cons codec layout ih =>
    obtain ⟨operand, middle, rest, hd, hr, -⟩ := decodeAll?_cons_eq_some_iff.mp h
    exact ih hr (le_stop_of_decode? hd)

/-- What a fetched instruction is made of. -/
theorem Instruction.fetch_eq_ok_iff {code : Array UInt8} {place : Nat} {i : Instruction} :
    fetch code place = .ok i ↔
      ∃ byte, code[place]? = some byte ∧ Opcode.find? byte = some i.opcode ∧
        Codec.decodeAll? i.opcode.layout code code.size (place + 1)
          = some (i.operands, i.next) := by
  unfold fetch
  cases code[place]? with
  | none => simp
  | some byte =>
    cases ho : Opcode.find? byte with
    | none => simp [ho]
    | some opcode =>
      cases hd : Codec.decodeAll? opcode.layout code code.size (place + 1) with
      | none =>
        simp only [ho, hd, reduceCtorEq, false_iff]
        rintro ⟨b, hb, hop, hdec⟩
        obtain rfl : byte = b := by simpa using hb
        obtain rfl : opcode = i.opcode := by simpa [ho] using hop
        rw [hd] at hdec
        cases hdec
      | some decoded =>
        obtain ⟨operands, next⟩ := decoded
        simp only [ho, hd, Except.ok.injEq]
        constructor
        · rintro rfl
          exact ⟨byte, rfl, ho, hd⟩
        · rintro ⟨b, hb, hop, hdec⟩
          obtain rfl : byte = b := by simpa using hb
          obtain rfl : opcode = i.opcode := by simpa [ho] using hop
          obtain ⟨rfl, rfl⟩ : operands = i.operands ∧ next = i.next := by simpa [hd] using hdec
          rfl

theorem Instruction.next_le_size_of_fetch {code : Array UInt8} {place : Nat} {i : Instruction}
    (h : fetch code place = .ok i) : i.next ≤ code.size := by
  have hlt := lt_size_of_fetch h
  obtain ⟨byte, -, -, hd⟩ := fetch_eq_ok_iff.mp h
  have := Codec.le_stop_of_decodeAll? hd (by omega)
  omega

namespace Program

/-! ### Tilings -/

/-- The code from a position to its end is a sequence of accepted instructions, which are listed
with their positions. -/
inductive Tiling (p : Program) : Nat → List (Nat × Instruction) → Prop where
  | stop : p.Tiling p.code.size []
  | next {place : Nat} {i : Instruction} {rest : List (Nat × Instruction)}
      (fetched : Instruction.fetch p.code place = .ok i) (accepted : p.Accepts none i.operands)
      (tail : p.Tiling i.next rest) : p.Tiling place ((place, i) :: rest)

namespace Tiling

variable {p : Program} {place : Nat} {tiles : List (Nat × Instruction)}

/-- The same code has the same tiling, whatever else programs accept. -/
theorem unique_of_code {p' : Program} {tiles' : List (Nat × Instruction)} (hcode : p'.code = p.code)
    (h : p.Tiling place tiles) (h' : p'.Tiling place tiles') : tiles = tiles' := by
  induction h generalizing tiles' with
  | stop =>
    rw [← hcode] at h'
    cases h' with
    | stop => rfl
    | next fetched _ _ => exact absurd (Instruction.lt_size_of_fetch fetched) (by omega)
  | @next place i rest fetched _ _ ih =>
    rw [← hcode] at fetched
    generalize hplace : place = q at h' fetched
    cases h' with
    | stop => exact absurd (Instruction.lt_size_of_fetch fetched) (by omega)
    | next fetched' _ tail' =>
      cases fetched.symm.trans fetched'
      rw [ih tail']

theorem unique {tiles' : List (Nat × Instruction)} (h : p.Tiling place tiles)
    (h' : p.Tiling place tiles') : tiles = tiles' :=
  h.unique_of_code rfl h'

/-- Another program with the same code has the same tiling, if it accepts the instructions. -/
theorem of_code {p' : Program} (hcode : p'.code = p.code) (h : p.Tiling place tiles)
    (haccepts : ∀ tile ∈ tiles, p'.Accepts none tile.2.operands) : p'.Tiling place tiles := by
  induction h with
  | stop =>
    rw [← hcode]
    exact .stop
  | next fetched _ _ ih =>
    refine .next (hcode ▸ fetched) (haccepts _ List.mem_cons_self) (ih fun tile hm => ?_)
    exact haccepts tile (List.mem_cons_of_mem _ hm)

/-- Every tile is an accepted instruction at its position. -/
theorem of_mem (h : p.Tiling place tiles) {q : Nat} {i : Instruction} (hm : (q, i) ∈ tiles) :
    Instruction.fetch p.code q = .ok i ∧ p.Accepts none i.operands := by
  induction h with
  | stop => simp at hm
  | next fetched accepted _ ih =>
    rcases List.mem_cons.mp hm with heq | hm
    · cases heq
      exact ⟨fetched, accepted⟩
    · exact ih hm

theorem place_mem (h : p.Tiling place tiles) :
    place ∈ tiles.map Prod.fst ∨ place = p.code.size := by
  cases h with
  | stop => exact .inr rfl
  | next => exact .inl (by simp)

/-- After a tile comes the next one or the end of the code. -/
theorem next_mem (h : p.Tiling place tiles) {q : Nat} {i : Instruction} (hm : (q, i) ∈ tiles) :
    i.next ∈ tiles.map Prod.fst ∨ i.next = p.code.size := by
  induction h with
  | stop => simp at hm
  | next _ _ tail ih =>
    rcases List.mem_cons.mp hm with heq | hm
    · cases heq
      exact tail.place_mem.imp (fun h => by simp [h]) id
    · exact (ih hm).imp (fun h => by simp [h]) id

end Tiling

/-- The survey with one more instruction. -/
def Survey.add (survey : Survey) (tile : Nat × Instruction) : Survey where
  starts := survey.starts.insert tile.1
  jumps := tile.2.targets.foldl (fun jumps target => jumps.push (tile.1, target)) survey.jumps

theorem surveyFrom_eq_ok_iff {p : Program} {place : Nat} {survey survey' : Survey}
    (hle : place ≤ p.code.size) :
    p.surveyFrom place survey = .ok survey' ↔
      ∃ tiles, p.Tiling place tiles ∧ tiles.foldl Survey.add survey = survey' := by
  -- one case for each way the survey goes on: a bad instruction, a good one, the end
  fun_induction surveyFrom p place survey with
  | case1 place survey hlt e hc =>
    simp only [reduceCtorEq, false_iff]
    rintro ⟨tiles, ht, -⟩
    cases ht with
    | stop => omega
    | next fetched accepted _ =>
      have := (checkInstruction_eq_ok_iff hlt).mpr ⟨_, fetched, accepted, rfl, rfl⟩
      rw [hc] at this
      cases this
  | case2 place survey hlt targets next hc hn ih =>
    obtain ⟨i, fetched, accepted, rfl, rfl⟩ := (checkInstruction_eq_ok_iff hlt).mp hc
    rw [ih (Instruction.next_le_size_of_fetch fetched)]
    constructor
    · rintro ⟨rest, ht, rfl⟩
      exact ⟨(place, i) :: rest, .next fetched accepted ht, rfl⟩
    · rintro ⟨tiles, ht, rfl⟩
      cases ht with
      | stop => omega
      | next fetched' _ tail =>
        rw [fetched] at fetched'
        cases fetched'
        exact ⟨_, tail, rfl⟩
  | case3 place survey hlt =>
    obtain rfl : place = p.code.size := by omega
    simp only [Except.ok.injEq]
    constructor
    · rintro rfl
      exact ⟨[], .stop, rfl⟩
    · rintro ⟨tiles, ht, rfl⟩
      rw [ht.unique .stop]
      rfl

/-- Behind an accepted instruction the survey goes on. -/
theorem surveyFrom_of_fetch {p : Program} {place : Nat} {i : Instruction}
    (fetched : Instruction.fetch p.code place = .ok i) (accepted : p.Accepts none i.operands)
    (survey : Survey) :
    p.surveyFrom place survey = p.surveyFrom i.next (survey.add (place, i)) := by
  have hlt := Instruction.lt_size_of_fetch fetched
  have hcheck := (checkInstruction_eq_ok_iff hlt).mpr ⟨i, fetched, accepted, rfl, rfl⟩
  rw [surveyFrom, dif_pos hlt]
  split
  · rename_i hc
    cases hc.symm.trans hcheck
  · rename_i hc
    cases hc.symm.trans hcheck
    rfl

/-- With an instruction that is not accepted it ends. -/
theorem surveyFrom_of_error {p : Program} {place : Nat} (h : place < p.code.size) {e : VerifyError}
    (he : p.checkInstruction place p.code[place] = .error e) (survey : Survey) :
    p.surveyFrom place survey = .error e := by
  rw [surveyFrom, dif_pos h]
  split
  · rename_i hc
    cases hc.symm.trans he
    rfl
  · rename_i hc
    cases hc.symm.trans he

/-! ### Verdicts -/

theorem contains_starts_foldl {tiles : List (Nat × Instruction)} {survey : Survey} {q : Nat} :
    (tiles.foldl Survey.add survey).starts.contains q = true ↔
      survey.starts.contains q = true ∨ q ∈ tiles.map Prod.fst := by
  induction tiles generalizing survey with
  | nil => simp
  | cons tile tiles ih =>
    rw [List.foldl_cons, ih]
    simp only [Survey.add, Std.TreeSet.contains_insert, List.map_cons, List.mem_cons, beq_iff_eq,
      Bool.or_eq_true, Nat.compare_eq_eq, eq_comm (a := q), or_assoc, or_left_comm]

theorem mem_jumps_add {tile : Nat × Instruction} {survey : Survey} {jump : Nat × Nat} :
    jump ∈ (survey.add tile).jumps ↔
      jump ∈ survey.jumps ∨ jump.1 = tile.1 ∧ jump.2 ∈ tile.2.targets := by
  have push : ∀ (targets : List Nat) (jumps : Array (Nat × Nat)),
      jump ∈ targets.foldl (fun jumps target => jumps.push (tile.1, target)) jumps ↔
        jump ∈ jumps ∨ jump.1 = tile.1 ∧ jump.2 ∈ targets := by
    intro targets
    induction targets with
    | nil => simp
    | cons target targets ih =>
      intro jumps
      obtain ⟨q, t⟩ := jump
      rw [List.foldl_cons, ih]
      simp only [Array.mem_push, Prod.mk.injEq, List.mem_cons, and_or_left, or_assoc]
  exact push _ _

theorem mem_jumps_foldl {tiles : List (Nat × Instruction)} {survey : Survey} {jump : Nat × Nat} :
    jump ∈ (tiles.foldl Survey.add survey).jumps ↔
      jump ∈ survey.jumps ∨ ∃ tile ∈ tiles, jump.1 = tile.1 ∧ jump.2 ∈ tile.2.targets := by
  induction tiles generalizing survey with
  | nil => simp
  | cons tile tiles ih =>
    simp only [List.foldl_cons, ih, mem_jumps_add, List.mem_cons, exists_eq_or_imp, or_assoc]

theorem Survey.badJump?_eq_none_iff {survey : Survey} :
    survey.badJump? = none ↔ ∀ jump ∈ survey.jumps, survey.starts.contains jump.2 = true := by
  simp [badJump?]

/-- Every jump of the instructions leads to the beginning of one of them. -/
def Closed (tiles : List (Nat × Instruction)) : Prop :=
  ∀ tile ∈ tiles, ∀ target ∈ tile.2.targets, target ∈ tiles.map Prod.fst

theorem badJump?_foldl_eq_none_iff {tiles : List (Nat × Instruction)} :
    (tiles.foldl Survey.add {}).badJump? = none ↔ Closed tiles := by
  simp only [Survey.badJump?_eq_none_iff, mem_jumps_foldl, contains_starts_foldl,
    Std.TreeSet.contains_emptyc, Array.not_mem_empty, Bool.false_eq_true, false_or]
  constructor
  · intro h tile hm target ht
    exact h (tile.1, target) ⟨tile, hm, rfl, ht⟩
  · rintro h ⟨q, target⟩ ⟨tile, hm, -, ht⟩
    exact h tile hm target ht

/-- The survey of a tiling has found its instructions. -/
theorem surveyFrom_of_tiling {p : Program} {tiles : List (Nat × Instruction)}
    (h : p.Tiling 0 tiles) : p.surveyFrom 0 {} = .ok (tiles.foldl Survey.add {}) :=
  (surveyFrom_eq_ok_iff (Nat.zero_le _)).mpr ⟨tiles, h, rfl⟩

theorem verify_eq_ok_iff {p : Program} :
    p.verify = .ok () ↔ p.code ≠ #[] ∧ ∃ tiles, p.Tiling 0 tiles ∧ Closed tiles := by
  have hcode : p.code.isEmpty = true ↔ p.code = #[] := Array.isEmpty_iff
  rw [verify]
  split
  · rename_i he
    simp [hcode.mp he]
  · rename_i he
    rw [ne_eq, ← hcode, and_iff_right he]
    cases hs : p.surveyFrom 0 {} with
    | error e =>
      simp only [reduceCtorEq, false_iff]
      rintro ⟨tiles, ht, -⟩
      rw [surveyFrom_of_tiling ht] at hs
      cases hs
    | ok survey =>
      obtain ⟨tiles, ht, rfl⟩ := (surveyFrom_eq_ok_iff (Nat.zero_le _)).mp hs
      have unique : (∃ tiles, p.Tiling 0 tiles ∧ Closed tiles) ↔ Closed tiles :=
        ⟨fun ⟨_, ht', hc⟩ => ht.unique ht' ▸ hc, fun hc => ⟨tiles, ht, hc⟩⟩
      rw [unique, ← badJump?_foldl_eq_none_iff]
      cases hb : (tiles.foldl Survey.add {}).badJump? with
      | none => simp [hb]
      | some jump => simp [hb]

theorem verify_of_surveyFrom_error {p : Program} (hne : p.code ≠ #[]) {e : VerifyError}
    (h : p.surveyFrom 0 {} = .error e) : p.verify = .error e := by
  rw [verify, if_neg (by simpa using hne), h]

end Program

end HookScript
