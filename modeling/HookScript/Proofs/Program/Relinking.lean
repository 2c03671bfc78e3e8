/-
Linking a program against another registry.

An image keeps the numbers and the names of its host functions, but not the layouts of their
operands.  When it is linked against another registry, a host function may therefore have another
layout than the one that its calls were compiled for.  Verification notices that only by the
lengths of the blocks of operands and by the registers in them:

* `Program.Relinks` — what the program of such an image is;
* `Program.HandsOver` — what the host functions of a call are given before and after;
* `Program.relinks_iff` — linking succeeds just if every block fits the layout of its new host
  function, whose operands are the old ones only if the layout is the old one.
-/
import HookScript.Proofs.Registry.Natives

namespace HookScript

/-! ### Operands and layouts -/

/-- The number of bytes that the codec takes, in front of the bytes of a block. -/
def Codec.width : Codec → Nat
  | register | raw => 1
  | native => 2
  | immediate | label => 4

/-- The number of bytes that the operands of a host function take. -/
def NativeBinding.width (n : NativeBinding) : Nat :=
  (n.layout.map Codec.width).sum

namespace Codec

variable {code : Array UInt8} {stop place next : Nat}

theorem next_of_decode? {codec : Codec} (hc : codec.OfHost) {operand : Operand}
    (h : codec.decode? code stop place = some (operand, next)) : next = place + codec.width := by
  cases codec with
  | label | native | raw => exact hc.elim
  | register | immediate =>
    simp only [decode?, Option.bind_eq_bind, Option.bind_eq_some_iff, Option.pure_def,
      Option.some.injEq, Prod.mk.injEq] at h
    obtain ⟨n, -, -, rfl⟩ := h
    rfl

/-- Operands of host functions take as many bytes as their layout says. -/
theorem next_of_decodeAll? {layout : List Codec} (hl : ∀ codec ∈ layout, codec.OfHost)
    {operands : List Operand} (h : decodeAll? layout code stop place = some (operands, next)) :
    next = place + (layout.map width).sum := by
  induction layout generalizing place operands with
  | nil =>
    obtain ⟨-, rfl⟩ : _ ∧ place = next := by simpa [decodeAll?] using h
    rfl
  | cons codec layout ih =>
    obtain ⟨hcodec, hl⟩ := List.forall_mem_cons.mp hl
    obtain ⟨operand, middle, rest, hd, hr, -⟩ := decodeAll?_cons_eq_some_iff.mp h
    rw [ih hl hr, next_of_decode? hcodec hd, List.map_cons, List.sum_cons, Nat.add_assoc]

theorem exists_decode? {codec : Codec} (hc : codec.OfHost)
    (h : place + codec.width ≤ min stop code.size) :
    ∃ operand, codec.decode? code stop place = some (operand, place + codec.width) := by
  cases codec with
  | label | native | raw => exact hc.elim
  | register | immediate => simp_all [decode?, numberAt?, bytesAt?, width]

/-- Operands of host functions can be read from any bytes, if there are enough of them. -/
theorem exists_decodeAll? {layout : List Codec} (hl : ∀ codec ∈ layout, codec.OfHost)
    (h : place + (layout.map width).sum ≤ min stop code.size) :
    ∃ operands, decodeAll? layout code stop place
      = some (operands, place + (layout.map width).sum) := by
  induction layout generalizing place with
  | nil => exact ⟨[], rfl⟩
  | cons codec layout ih =>
    obtain ⟨hcodec, hl⟩ := List.forall_mem_cons.mp hl
    rw [List.map_cons, List.sum_cons, ← Nat.add_assoc] at h ⊢
    obtain ⟨operand, hd⟩ := exists_decode? hcodec (Nat.le_trans (Nat.le_add_right _ _) h)
    obtain ⟨operands, hr⟩ := ih hl h
    exact ⟨_, decodeAll?_cons_eq_some_iff.mpr ⟨operand, _, operands, hd, hr, rfl⟩⟩

end Codec

/-- Of a block of operands only two things can be wrong: its length, or a register in it. -/
theorem Program.blockFits_iff {p : Program} {n : NativeBinding} (hn : n.Formed)
    {start length : Nat} (hsize : start + length ≤ p.code.size) :
    p.BlockFits n start length ↔ n.width = length ∧
      ∀ arguments, n.arguments? p.code start length = some arguments →
        ∀ o ∈ arguments, o.InUse p.registers := by
  constructor
  · intro h
    obtain ⟨arguments, ha, hd, hu⟩ := h.exists_arguments hsize hn.length_le
    refine ⟨(Nat.add_left_cancel (Codec.next_of_decodeAll? hn.ofHost hd)).symm, fun other ho => ?_⟩
    obtain rfl := Option.some.inj (ha.symm.trans ho)
    exact hu
  · rintro ⟨rfl, hu⟩
    obtain ⟨arguments, hd⟩ : ∃ arguments, Codec.decodeAll? n.layout p.code (start + n.width) start
        = some (arguments, start + n.width) :=
      Codec.exists_decodeAll? hn.ofHost (Nat.le_min.mpr ⟨Nat.le_refl _, hsize⟩)
    refine ⟨arguments, hd, hu arguments ?_⟩
    rw [NativeBinding.arguments?, if_pos hsize, List.take_of_length_le hn.length_le, hd]
    rfl

/-- Only calls have operands that name host functions or hold blocks. -/
theorem Instruction.codec_ne_of_fetch {code : Array UInt8} {place : Nat} {i : Instruction}
    (fetched : fetch code place = .ok i) (hc : i.opcode.builtin ≠ .call) :
    ∀ o ∈ i.operands, o.codec ≠ .native ∧ o.codec ≠ .raw := by
  obtain ⟨byte, -, hop, hd⟩ := fetch_eq_ok_iff.mp fetched
  intro o ho
  have hmem := List.mem_map_of_mem (f := Operand.codec) ho
  rw [Codec.map_codec_of_decodeAll? hd] at hmem
  exact Opcode.codec_ne_of_find? hop hc _ hmem

/-- Hence an instruction with such operands is a call. -/
theorem Instruction.call_of_operands {code : Array UInt8} {place index start length : Nat}
    {i : Instruction} (fetched : fetch code place = .ok i)
    (ho : i.operands = [.native index, .raw start length]) :
    i.opcode.builtin = .call ∧ start + length ≤ code.size := by
  have hc : i.opcode.builtin = .call := Classical.byContradiction fun hc =>
    (codec_ne_of_fetch fetched hc (.native index) (by simp [ho])).1 rfl
  obtain ⟨_, _, _, ho', hsize⟩ := operands_of_call fetched hc
  cases ho.symm.trans ho'
  exact ⟨hc, hsize⟩

namespace Program

variable {p p' : Program} {r : Registry} {tiles : List (Nat × Instruction)}

/-! ### Relinking -/

/-- Every block of operands is as long as the operands of the host function that the other program
has at its place, and names registers in use only. -/
def BlocksFit (tiles : List (Nat × Instruction)) (p' : Program) : Prop :=
  ∀ tile ∈ tiles, ∀ index start length, tile.2.operands = [.native index, .raw start length] →
    ∃ n', p'.native? index = some n' ∧ n'.width = length ∧
      ∀ arguments, n'.arguments? p'.code start length = some arguments →
        ∀ o ∈ arguments, o.InUse p'.registers

/-- The other program has the same code, and the host functions that the registry has under the
same numbers and names, whose operands fit into the blocks. -/
structure Relinks (p : Program) (r : Registry) (p' : Program) : Prop where
  capacity : p.registers.toNat ≤ r.config.registers
  code : p'.code = p.code
  registers : p'.registers = p.registers
  natives : List.Forall₂ (ProgramImage.Means r) p.image.natives p'.natives.toList
  blocks : ∀ tiles, p.Tiling 0 tiles → BlocksFit tiles p'

/-- Instructions other than calls are accepted again, and calls if their blocks fit. -/
theorem tiling_of_blocksFit (hregisters : p'.registers = p.registers) (hcode : p'.code = p.code)
    (formed : ∀ n ∈ p'.natives, n.Formed) (ht : p.Tiling 0 tiles) (hblocks : BlocksFit tiles p') :
    p'.Tiling 0 tiles := by
  refine ht.of_code hcode fun ⟨place, i⟩ hi => ?_
  obtain ⟨fetched, accepted⟩ := ht.of_mem hi
  by_cases hc : i.opcode.builtin = .call
  · obtain ⟨index, start, length, ho, hsize⟩ := Instruction.operands_of_call fetched hc
    obtain ⟨n', hn', hfits⟩ := hblocks _ hi index start length ho
    have hfits := (blockFits_iff (formed n' (Array.mem_of_getElem? hn'))
      (by rwa [hcode])).mpr hfits
    simp only [ho]
    exact ⟨n', hn', ⟨n', rfl, hfits⟩, trivial⟩
  · refine (accepts_iff_inUse (Instruction.codec_ne_of_fetch fetched hc)).mpr ?_
    rw [hregisters]
    exact accepted.inUse

theorem blocksFit_of_tiling (formed : ∀ n ∈ p'.natives, n.Formed) (ht : p'.Tiling 0 tiles) :
    BlocksFit tiles p' := by
  rintro ⟨place, i⟩ hi index start length ho
  obtain ⟨fetched, accepted⟩ := ht.of_mem hi
  obtain ⟨-, hsize⟩ := Instruction.call_of_operands fetched ho
  simp only at ho
  rw [ho] at accepted
  obtain ⟨n', hn', ⟨_, hb, hfits⟩, -⟩ := accepted
  cases hb
  exact ⟨n', hn', (blockFits_iff (formed n' (Array.mem_of_getElem? hn')) hsize).mp hfits⟩

/-- Of a verified program, linking asks nothing but that the registry has its registers and its host
functions, and that their operands fit. -/
theorem link_image_eq_ok_iff (hr : r.Built) (hp : p.verify = .ok ()) :
    p.image.link r = .ok p' ↔ p.Relinks r p' := by
  obtain ⟨hne, tiles, ht, hc⟩ := verify_eq_ok_iff.mp hp
  rw [ProgramImage.link_eq_ok_iff]
  constructor
  · intro h
    obtain ⟨-, tiles', ht', -⟩ := verify_eq_ok_iff.mp h.verified
    refine ⟨h.capacity, h.code, h.registers, h.natives, fun other hother => ?_⟩
    rw [hother.unique_of_code h.code ht']
    exact blocksFit_of_tiling (hr.formed_of_means h.natives) ht'
  · intro h
    refine ⟨rfl, h.capacity, h.code, h.registers, h.natives,
      verify_eq_ok_iff.mpr ⟨h.code ▸ hne, tiles, ?_, hc⟩⟩
    exact tiling_of_blocksFit h.registers h.code (hr.formed_of_means h.natives) ht
      (h.blocks tiles ht)

/-! ### Calls -/

/-- The instruction calls a host function of the one program and one of the other, which have the
same name, and hands over a block that is as long as the operands of either.  The operands are the
same in both programs just if the layouts are. -/
structure HandsOver (p p' : Program) (i : Instruction) (n n' : NativeBinding) : Prop where
  symbol : n'.symbol = n.symbol
  block : ∃ index start length, i.operands = [.native index, .raw start length] ∧
    n.width = length ∧ n'.width = length
  operands : ∃ arguments arguments', p.Calls i n arguments ∧ p'.Calls i n' arguments' ∧
    (arguments' = arguments ↔ n'.layout = n.layout)

theorem Relinks.symbol (h : p.Relinks r p') {index : Nat} {n n' : NativeBinding}
    (hn : p.native? index = some n) (hn' : p'.native? index = some n') : n'.symbol = n.symbol := by
  rw [native?, ← Array.getElem?_toList] at hn hn'
  obtain ⟨reference, hreference, hmeans⟩ := exists_left_of_forall₂ h.natives hn'
  rw [image, List.getElem?_map, hn, Option.map_some] at hreference
  rw [hmeans.symbol, ← Option.some.inj hreference]

/-- What the host functions of a call are given before and after. -/
theorem Relinks.exists_handsOver (h : p.Relinks r p') (ht : p.Tiling 0 tiles)
    (formed : ∀ n ∈ p.natives, n.Formed) (formed' : ∀ n ∈ p'.natives, n.Formed) {place : Nat}
    {i : Instruction} (hi : (place, i) ∈ tiles) (hc : i.opcode.builtin = .call) :
    ∃ n n', p.HandsOver p' i n n' := by
  obtain ⟨fetched, -⟩ := ht.of_mem hi
  obtain ⟨index, start, length, ho, hsize⟩ := Instruction.operands_of_call fetched hc
  obtain ⟨n, hn, hblock⟩ := blocksFit_of_tiling formed ht _ hi index start length ho
  obtain ⟨n', hn', hblock'⟩ := h.blocks tiles ht _ hi index start length ho
  have hsize' : start + length ≤ p'.code.size := by rwa [h.code]
  have hformed := formed n (Array.mem_of_getElem? hn)
  have hformed' := formed' n' (Array.mem_of_getElem? hn')
  obtain ⟨arguments, ha, hd, -⟩ :=
    ((blockFits_iff hformed hsize).mpr hblock).exists_arguments hsize hformed.length_le
  obtain ⟨arguments', ha', hd', -⟩ :=
    ((blockFits_iff hformed' hsize').mpr hblock').exists_arguments hsize' hformed'.length_le
  refine ⟨n, n', h.symbol hn hn', ⟨index, start, length, ho, hblock.1, hblock'.1⟩, arguments,
    arguments', ⟨index, start, length, ho, hn, ha⟩, ⟨index, start, length, ho, hn', ha'⟩,
    fun heq => ?_, fun heq => ?_⟩
  · -- operands tell the layout that they have been read by
    rw [← Codec.map_codec_of_decodeAll? hd, ← Codec.map_codec_of_decodeAll? hd', heq]
  · rw [heq, h.code, hd] at hd'
    exact (Prod.mk.inj (Option.some.inj hd')).1.symm

/-- The image of a program of one registry is linked against another registry just if that has the
registers and, under the same numbers and names, the host functions of the program, and every block
of operands is as long as those of its new host function and names registers in use only.  A call
then hands over the operands that it was compiled with if the layout is still the same, and other
ones if it is not. -/
theorem relinks_iff {r₁ r₂ : Registry} (h₁ : r₁.Built) (h₂ : r₂.Built) {p : Program}
    (obtained : p.Obtained r₁) (p' : Program) :
    (p.image.link r₂ = .ok p' ↔ p.Relinks r₂ p') ∧
      (p.image.link r₂ = .ok p' → ∃ tiles, p.Tiling 0 tiles ∧
        ∀ tile ∈ tiles, tile.2.opcode.builtin = .call → ∃ n n', p.HandsOver p' tile.2 n n') := by
  have hlink : p.image.link r₂ = .ok p' ↔ p.Relinks r₂ p' :=
    link_image_eq_ok_iff h₂ obtained.verify
  refine ⟨hlink, fun h => ?_⟩
  obtain ⟨-, tiles, ht, -⟩ := verify_eq_ok_iff.mp obtained.verify
  exact ⟨tiles, ht, fun tile hm hc => (hlink.mp h).exists_handsOver ht (obtained.formed h₁)
    ((Obtained.linked h).formed h₂) hm hc⟩

/-- A host function with an integer parameter. -/
def narrowRequest : Registration.Request :=
  .function "f" [.int] "" (.finish .proceed)

/-- A host function of the same name whose operands take as many bytes. -/
def wideRequest : Registration.Request :=
  .function "f" [.intVar, .intVar, .intVar, .intVar] "" (.set 0 7 (.finish .proceed))

/-- Whether a call of the one is linked to the other. -/
def rebinds (r₁ r₂ : Registry) : Bool :=
  (compile r₁ none "f 0;").toOption.any fun p => (p.image.link r₂).toOption.any fun p' : Program =>
    decide (p.natives.map NativeBinding.layout = #[[.immediate]] ∧
      p'.natives.map NativeBinding.layout = #[[.register, .register, .register, .register]] ∧
      (p.run 10 .fresh [3]).result = .ok 3 ∧ (p'.run 10 .fresh [3]).result = .ok 7)

theorem exists_rebinding : ∃ r₁ r₂, Registry.Built r₁ ∧ Registry.Built r₂ ∧
    rebinds r₁ r₂ = true := by
  obtain ⟨r, hr, h⟩ := Registry.exists_standard {} (fun r => narrowRequest.passes r fun r₁ =>
    wideRequest.passes r fun r₂ => rebinds r₁ r₂) (by decide +kernel)
  obtain ⟨r₁, hr₁, h⟩ := narrowRequest.exists_of_passes h
  obtain ⟨r₂, hr₂, h⟩ := wideRequest.exists_of_passes h
  have hbuilt := Registry.Built.of_standard hr
  exact ⟨r₁, r₂, hbuilt.of_request narrowRequest hr₁, hbuilt.of_request wideRequest hr₂, h⟩

theorem relinks_iff_rebinding : ∃ (r₁ r₂ : Registry) (p p' : Program), r₁.Built ∧ r₂.Built ∧
    p.Obtained r₁ ∧ p.image.link r₂ = .ok p' ∧ p.Relinks r₂ p' ∧ ∃ tiles, p.Tiling 0 tiles ∧
      ∀ tile ∈ tiles, tile.2.opcode.builtin = .call → ∃ n n', p.HandsOver p' tile.2 n n' := by
  obtain ⟨r₁, r₂, hr₁, hr₂, h⟩ := exists_rebinding
  obtain ⟨p, hp, h⟩ := exists_ok h
  obtain ⟨p', hp', -⟩ := exists_ok h
  obtain ⟨hiff, hcalls⟩ := relinks_iff hr₁ hr₂ (.compiled hp) p'
  exact ⟨r₁, r₂, p, p', hr₁, hr₂, .compiled hp, hp', hiff.mp hp', hcalls hp'⟩

/-- A call that was compiled with an immediate may be linked to a host function that takes its four
bytes for registers. -/
theorem immediate_rebound_to_registers : ∃ (r₁ r₂ : Registry) (p p' : Program),
    r₁.Built ∧ r₂.Built ∧ compile r₁ none "f 0;" = .ok p ∧ p.image.link r₂ = .ok p' ∧
    p.natives.map NativeBinding.layout = #[[.immediate]] ∧
    p'.natives.map NativeBinding.layout = #[[.register, .register, .register, .register]] ∧
    (p.run 10 .fresh [3]).result = .ok 3 ∧ (p'.run 10 .fresh [3]).result = .ok 7 := by
  obtain ⟨r₁, r₂, hr₁, hr₂, h⟩ := exists_rebinding
  obtain ⟨p, hp, h⟩ := exists_ok h
  obtain ⟨p', hp', h⟩ := exists_ok h
  exact ⟨r₁, r₂, p, p', hr₁, hr₂, hp, hp', of_decide_eq_true h⟩

end Program

end HookScript
