/-
The grammar of code, without a reader.

A text is a list of instructions, each an opcode with operands that have the codecs of its layout;
its bytes are those of its instructions in a row.  Whatever a program consists of, verification
accepts it just if it is such a text:

* `EncodedInstruction` — an instruction with its bytes;
* `Instruction.fetch_iff_bytes` — what is fetched at a place of the code has its bytes there;
* `Program.tiling_iff_text` — a tiling of code is a text whose instructions are in reach and
  accepted;
* `EncodedInstruction.text_unique` — bytes are those of one text at most;
* `Program.Admits` — what verification asks of an instruction of a text;
* `Program.Reaches` — the positions of all blocks have 32 bits, as they have in code of less than
  2^32 bytes;
* `Program.verify_exact` — code passes verification if and only if it is a text of admitted
  instructions in reach.
-/
import HookScript.Proofs.Code.Line
import HookScript.Proofs.Machine.Execution

namespace HookScript

/-! ### Instructions -/

/-- An instruction in the code: an opcode, and operands that have the codecs of its layout. -/
structure EncodedInstruction where
  byte : UInt8
  operands : List EncodedOperand
  opcode : Opcode
  known : Opcode.find? byte = some opcode
  layout : operands.map EncodedOperand.codec = opcode.layout

namespace EncodedInstruction

/-- The bytes of the instruction: the opcode and those of its operands. -/
def bytes (f : EncodedInstruction) : List UInt8 :=
  f.byte :: f.operands.flatMap EncodedOperand.bytes

/-- The bytes of a text, a list of instructions. -/
def bytesOf (text : List EncodedInstruction) : List UInt8 :=
  text.flatMap bytes

/-- The instruction that is read at `place`. -/
def instruction (place : Nat) (f : EncodedInstruction) : Instruction :=
  ⟨f.opcode, EncodedOperand.operands (place + 1) f.operands, place + f.bytes.length⟩

/-- The instructions that are read from `place` on, with their positions. -/
def tiles (place : Nat) : List EncodedInstruction → List (Nat × Instruction)
  | [] => []
  | f :: text => (place, f.instruction place) :: tiles (place + f.bytes.length) text

end EncodedInstruction

/-- What is fetched at a place is the instruction that has its bytes there, if it is in reach. -/
theorem Instruction.fetch_iff_bytes {code : Array UInt8} {place : Nat} {i : Instruction} :
    fetch code place = .ok i ↔
      i.InReach ∧ ∃ f : EncodedInstruction, f.bytes <+: Codec.ahead code code.size place ∧
        f.instruction place = i := by
  have hbyte : ∀ byte, code[place]? = some byte ↔ [byte] <+: Codec.ahead code code.size place := by
    intro byte
    have htake : code.toList.take code.size = code.toList :=
      List.take_of_length_le (Nat.le_of_eq Array.length_toList)
    rw [← Array.getElem?_toList, Codec.ahead, htake]
    constructor
    · intro h
      obtain ⟨hlt, rfl⟩ := List.getElem?_eq_some_iff.mp h
      exact ⟨code.toList.drop (place + 1), List.getElem_cons_drop hlt⟩
    · rintro ⟨rest, h⟩
      have := congrArg List.head? h
      rw [List.head?_drop] at this
      exact this.symm
  rw [fetch_eq_ok_iff]
  constructor
  · rintro ⟨byte, hb, hop, hd⟩
    obtain ⟨hreach, words, hlayout, hwords, hoperands, hnext⟩ :=
      Codec.decodeAll?_eq_some_iff.mp hd
    refine ⟨hreach, ⟨byte, words, i.opcode, hop, hlayout⟩,
      Codec.append_prefix_ahead.mpr ⟨(hbyte byte).mp hb, hwords⟩, ?_⟩
    rw [EncodedInstruction.instruction, hoperands, EncodedInstruction.bytes, List.length_cons,
      Nat.add_comm _ 1, ← Nat.add_assoc, hnext]
  · rintro ⟨hreach, f, hf, rfl⟩
    rw [EncodedInstruction.bytes, ← List.singleton_append] at hf
    obtain ⟨hb, hwords⟩ := Codec.append_prefix_ahead.mp hf
    refine ⟨f.byte, (hbyte _).mpr hb, f.known,
      Codec.decodeAll?_eq_some_iff.mpr ⟨hreach, f.operands, f.layout, hwords, rfl, ?_⟩⟩
    simp only [EncodedInstruction.instruction, EncodedInstruction.bytes, List.length_cons]
    omega

/-- From a place on, code is tiled by accepted instructions if and only if its bytes are those of a
text of such instructions, all of them in reach. -/
theorem Program.tiling_iff_text {p : Program} {place : Nat} (hle : place ≤ p.code.size)
    {tiles : List (Nat × Instruction)} :
    p.Tiling place tiles ↔
      ∃ text, Codec.ahead p.code p.code.size place = EncodedInstruction.bytesOf text ∧
        EncodedInstruction.tiles place text = tiles ∧
        ∀ tile ∈ tiles, tile.2.InReach ∧ p.Accepts none tile.2.operands := by
  constructor
  · intro h
    induction h with
    | stop => exact ⟨[], by simp [Codec.ahead, EncodedInstruction.bytesOf], rfl, by simp⟩
    | next fetched accepted _ ih =>
      obtain ⟨text, htext, rfl, haccepts⟩ := ih (Instruction.next_le_size_of_fetch fetched)
      obtain ⟨hreach, f, hf, rfl⟩ := Instruction.fetch_iff_bytes.mp fetched
      exact ⟨f :: text, Codec.ahead_eq_append_iff.mpr ⟨hf, htext⟩, rfl,
        List.forall_mem_cons.mpr ⟨⟨hreach, accepted⟩, haccepts⟩⟩
  · rintro ⟨text, htext, rfl, haccepts⟩
    induction text generalizing place with
    | nil =>
      -- nothing is left ahead, so this is the end
      have hlen := congrArg List.length htext
      rw [Codec.length_ahead, Nat.min_self] at hlen
      obtain rfl : place = p.code.size := by
        have : p.code.size - place = 0 := hlen
        omega
      exact .stop
    | cons f text ih =>
      obtain ⟨hf, htext⟩ := Codec.ahead_eq_append_iff.mp htext
      obtain ⟨⟨hreach, accepted⟩, haccepts⟩ := List.forall_mem_cons.mp haccepts
      have fetched := Instruction.fetch_iff_bytes.mpr ⟨hreach, f, hf, rfl⟩
      exact .next fetched accepted
        (ih (Instruction.next_le_size_of_fetch fetched) htext haccepts)

/-! ### Unique reading -/

namespace EncodedInstruction

/-- Instructions that begin the same bytes are the same. -/
theorem append_inj {f f' : EncodedInstruction} {more more' : List UInt8}
    (h : f.bytes ++ more = f'.bytes ++ more') : f = f' ∧ more = more' := by
  obtain ⟨byte, words, opcode, known, layout⟩ := f
  obtain ⟨byte', words', opcode', known', layout'⟩ := f'
  obtain ⟨rfl, h⟩ := List.cons.inj h
  obtain rfl : opcode = opcode' := Option.some.inj (known.symm.trans known')
  obtain ⟨rfl, hmore⟩ := EncodedOperand.appendAll_inj (layout.trans layout'.symm) h
  exact ⟨rfl, hmore⟩

/-- Bytes are those of one text at most. -/
theorem text_unique {text text' : List EncodedInstruction} (h : bytesOf text = bytesOf text') :
    text = text' := by
  induction text generalizing text' with
  | nil =>
    cases text' with
    | nil => rfl
    | cons f text' => cases h
  | cons f text ih =>
    cases text' with
    | nil => cases h
    | cons f' text' =>
      obtain ⟨rfl, hrest⟩ := append_inj h
      rw [ih hrest]

end EncodedInstruction

/-! ### What is asked of a text -/

namespace EncodedOperand

theorem exists_of_mem_operands {place : Nat} {words : List EncodedOperand} {o : Operand}
    (h : o ∈ operands place words) : ∃ w ∈ words, ∃ q, w.operand q = o := by
  induction words generalizing place with
  | nil => cases h
  | cons w words ih =>
    rcases List.mem_cons.mp h with rfl | h
    · exact ⟨w, List.mem_cons_self, place, rfl⟩
    · obtain ⟨w', hw', h⟩ := ih h
      exact ⟨w', List.mem_cons_of_mem _ hw', h⟩

theorem exists_mem_operands (place : Nat) {words : List EncodedOperand} {w : EncodedOperand}
    (h : w ∈ words) : ∃ q, w.operand q ∈ operands place words := by
  induction words generalizing place with
  | nil => cases h
  | cons w' words ih =>
    rcases List.mem_cons.mp h with rfl | h
    · exact ⟨place, List.mem_cons_self⟩
    · obtain ⟨q, hq⟩ := ih (place + w'.bytes.length) h
      exact ⟨q, List.mem_cons_of_mem _ hq⟩

theorem forall_inUse_iff {registers : UInt8} {place : Nat} {words : List EncodedOperand} :
    (∀ o ∈ operands place words, o.InUse registers) ↔
      ∀ r, .register r ∈ words → r < registers := by
  constructor
  · intro h r hr
    obtain ⟨q, hq⟩ := exists_mem_operands place hr
    exact h _ hq
  · intro h o ho
    obtain ⟨w, hw, q, rfl⟩ := exists_of_mem_operands ho
    cases w with
    | register r => exact h r hw
    | immediate _ | label _ | native _ | raw _ _ => trivial

theorem mem_targets_iff {place target : Nat} {words : List EncodedOperand} :
    target ∈ (operands place words).filterMap Operand.target? ↔
      ∃ t, .label t ∈ words ∧ t.toNat = target := by
  rw [List.mem_filterMap]
  constructor
  · rintro ⟨o, ho, htarget⟩
    obtain ⟨w, hw, q, rfl⟩ := exists_of_mem_operands ho
    cases w with
    | label t => exact ⟨t, hw, Option.some.inj htarget⟩
    | register _ | immediate _ | native _ | raw _ _ => cases htarget
  · rintro ⟨t, ht, rfl⟩
    obtain ⟨q, hq⟩ := exists_mem_operands place ht
    exact ⟨_, hq, rfl⟩

end EncodedOperand

/-- The bytes are operands of the host function, one for each codec of its layout and nothing
besides, and name registers in use only. -/
def Program.Fills (p : Program) (binding : NativeBinding) (content : List UInt8) : Prop :=
  ∃ words : List EncodedOperand, words.map EncodedOperand.codec = binding.layout ∧
    words.flatMap EncodedOperand.bytes = content ∧ ∀ r, .register r ∈ words → r < p.registers

/-- What a program asks of an instruction: registers are in use, host functions are in its table,
and a block holds operands of the host function that the instruction names. -/
structure Program.Admits (p : Program) (f : EncodedInstruction) : Prop where
  registers : ∀ r, .register r ∈ f.operands → r < p.registers
  natives : ∀ index, .native index ∈ f.operands → ∃ binding, p.native? index.toNat = some binding
  blocks : ∀ content short, .raw content short ∈ f.operands →
    ∃ index binding, .native index ∈ f.operands ∧ p.native? index.toNat = some binding ∧
      p.Fills binding content

/-- The positions of the blocks have 32 bits, if the instruction stands at `place`: that of its own
block, and those of blocks among the operands of the host function in it. -/
def Program.Reaches (p : Program) (place : Nat) (f : EncodedInstruction) : Prop :=
  (f.instruction place).InReach ∧
    ∀ index content short binding words, f.operands = [.native index, .raw content short] →
      p.native? index.toNat = some binding → words.map EncodedOperand.codec = binding.layout →
      words.flatMap EncodedOperand.bytes = content →
      ∀ o ∈ EncodedOperand.operands (place + 4) words, o.InReach

/-- Every jump of a text leads to the front of one of its instructions. -/
def EncodedInstruction.JumpsWithin (text : List EncodedInstruction) : Prop :=
  ∀ f ∈ text, ∀ target, .label target ∈ f.operands →
    ∃ before first after, text = before ++ first :: after ∧
      target.toNat = (bytesOf before).length

/-- A block that stands in the code fits a host function if it holds operands of it in reach. -/
theorem Program.blockFits_iff_fills {p : Program} {binding : NativeBinding} {start : Nat}
    {content : List UInt8} (h : content <+: Codec.ahead p.code p.code.size start) :
    p.BlockFits binding start content.length ↔
      p.Fills binding content ∧
        ∀ words : List EncodedOperand, words.map EncodedOperand.codec = binding.layout →
          words.flatMap EncodedOperand.bytes = content →
          ∀ o ∈ EncodedOperand.operands start words, o.InReach := by
  -- in front of the end of the block, the block is all that lies ahead of its start
  have hahead : Codec.ahead p.code (start + content.length) start = content := by
    have htake := List.prefix_iff_eq_take.mp h
    rw [Codec.ahead, List.take_of_length_le (Nat.le_of_eq Array.length_toList)] at htake
    rw [Codec.ahead, ← List.take_drop]
    exact htake.symm
  simp only [BlockFits, Codec.decodeAll?_eq_some_iff, hahead]
  constructor
  · rintro ⟨_, ⟨hreach, words, hlayout, hwords, rfl, hlen⟩, hu⟩
    have hcontent := hwords.eq_of_length (by omega)
    refine ⟨⟨words, hlayout, hcontent, EncodedOperand.forall_inUse_iff.mp hu⟩,
      fun words' hlayout' hcontent' => ?_⟩
    -- the content has been written as these operands only
    obtain ⟨rfl, -⟩ := @EncodedOperand.appendAll_inj words' words
      (hlayout'.trans hlayout.symm) [] [] (by rw [hcontent', hcontent])
    exact hreach
  · rintro ⟨⟨words, hlayout, rfl, hr⟩, hreach⟩
    exact ⟨_, ⟨hreach words hlayout rfl, words, hlayout, List.prefix_refl _, rfl, rfl⟩,
      EncodedOperand.forall_inUse_iff.mpr hr⟩

/-- A call is a host function and a block. -/
theorem EncodedInstruction.operands_of_call {f : EncodedInstruction}
    (hc : f.opcode.builtin = .call) :
    ∃ index content short, f.operands = [.native index, .raw content short] := by
  have hlayout := f.layout
  rw [Opcode.layout_of_find? f.known, hc] at hlayout
  obtain ⟨first, words, hwords, hfirst, hlayout⟩ := List.map_eq_cons_iff.mp hlayout
  obtain ⟨second, words, rfl, hsecond, hlayout⟩ := List.map_eq_cons_iff.mp hlayout
  obtain rfl : words = [] := List.map_eq_nil_iff.mp hlayout
  cases first <;> cases hfirst
  cases second <;> cases hsecond
  exact ⟨_, _, _, hwords⟩

/-- The block of a call stands behind the opcode, the number of the host function and the length. -/
theorem EncodedInstruction.content_prefix_ahead {f : EncodedInstruction} {code : Array UInt8}
    {stop place : Nat} {index : UInt16} {content : List UInt8} {short : content.length < 256}
    (hoperands : f.operands = [.native index, .raw content short])
    (h : f.bytes <+: Codec.ahead code stop place) :
    content <+: Codec.ahead code stop (place + 1 + 2 + 1) := by
  rw [EncodedInstruction.bytes, hoperands] at h
  have hbytes : f.byte :: [EncodedOperand.native index, .raw content short].flatMap
      EncodedOperand.bytes = (f.byte :: bytesOfNat 2 index.toNat
        ++ [UInt8.ofNat content.length]) ++ content := by
    simp [EncodedOperand.bytes]
  rw [hbytes] at h
  simpa [Nat.add_assoc] using (Codec.append_prefix_ahead.mp h).2

section

variable {p : Program} {place : Nat} {f : EncodedInstruction}
  (hreach : (f.instruction place).InReach)

include hreach

theorem Program.accepts_iff_admits_of_call (h : f.bytes <+: Codec.ahead p.code p.code.size place)
    (hc : f.opcode.builtin = .call) :
    p.Accepts none (f.instruction place).operands ↔ p.Admits f ∧ p.Reaches place f := by
  obtain ⟨index, content, short, hoperands⟩ := EncodedInstruction.operands_of_call hc
  have hblock := EncodedInstruction.content_prefix_ahead hoperands h
  have hread : (f.instruction place).operands
      = [.native index.toNat, .raw (place + 1 + 2 + 1) content.length] := by
    simp [EncodedInstruction.instruction, hoperands, EncodedOperand.operands,
      EncodedOperand.operand, EncodedOperand.bytes]
  rw [hread]
  constructor
  · rintro ⟨binding, hb, ⟨_, hbb, hfits⟩, -⟩
    cases hbb
    obtain ⟨hfills, hwithin⟩ := (blockFits_iff_fills hblock).mp hfits
    refine ⟨⟨fun r hr => ?_, fun index' hi => ?_, fun content' short' hm => ?_⟩,
      hreach, fun index' content' short' binding' words heq hb' hlayout hwords => ?_⟩
    · simp [hoperands] at hr
    · obtain rfl : index' = index := by simpa [hoperands] using hi
      exact ⟨binding, hb⟩
    · obtain rfl : content' = content := by simpa [hoperands] using hm
      exact ⟨index, binding, by simp [hoperands], hb, hfills⟩
    · obtain ⟨rfl, rfl⟩ : index' = index ∧ content' = content := by
        simpa [hoperands, eq_comm] using heq
      cases hb.symm.trans hb'
      exact hwithin words hlayout hwords
  · rintro ⟨hadmits, -, hwithin⟩
    obtain ⟨index', binding, hi, hb, hfills⟩ := hadmits.blocks content short (by simp [hoperands])
    obtain rfl : index' = index := by simpa [hoperands] using hi
    have hfits := (blockFits_iff_fills hblock).mpr
      ⟨hfills, fun words => hwithin index' content short binding words hoperands hb⟩
    exact ⟨binding, hb, ⟨binding, rfl, hfits⟩, trivial⟩

theorem Program.accepts_iff_admits_of_ne_call (hc : f.opcode.builtin ≠ .call) :
    p.Accepts none (f.instruction place).operands ↔ p.Admits f ∧ p.Reaches place f := by
  have hplain := Opcode.codec_ne_of_find? f.known hc
  have hcodec : ∀ w ∈ f.operands, w.codec ≠ .native ∧ w.codec ≠ .raw := fun w hw =>
    hplain _ (f.layout ▸ List.mem_map_of_mem hw)
  have hread : ∀ o ∈ (f.instruction place).operands, o.codec ≠ .native ∧ o.codec ≠ .raw := by
    intro o ho
    obtain ⟨w, hw, q, rfl⟩ := EncodedOperand.exists_of_mem_operands ho
    rw [w.codec_operand]
    exact hcodec w hw
  rw [accepts_iff_inUse hread]
  constructor
  · intro hu
    refine ⟨⟨EncodedOperand.forall_inUse_iff.mp hu, fun index hi => ?_,
      fun content short hm => ?_⟩, hreach, fun index content short binding words heq => ?_⟩
    · exact absurd rfl (hcodec _ hi).1
    · exact absurd rfl (hcodec _ hm).2
    · exact absurd rfl (hcodec (.native index) (by simp [heq])).1
  · rintro ⟨hadmits, -⟩
    exact EncodedOperand.forall_inUse_iff.mpr hadmits.registers

end

/-- Verification accepts the operands of an instruction in the code if the program admits it and
reaches its blocks. -/
theorem Program.accepts_iff_admits {p : Program} {place : Nat} {f : EncodedInstruction}
    (h : f.bytes <+: Codec.ahead p.code p.code.size place) :
    (f.instruction place).InReach ∧ p.Accepts none (f.instruction place).operands ↔
      p.Admits f ∧ p.Reaches place f := by
  have hiff : (f.instruction place).InReach →
      (p.Accepts none (f.instruction place).operands ↔ p.Admits f ∧ p.Reaches place f) := by
    intro hreach
    by_cases hc : f.opcode.builtin = .call
    · exact accepts_iff_admits_of_call hreach h hc
    · exact accepts_iff_admits_of_ne_call hreach hc
  constructor
  · rintro ⟨hreach, haccepts⟩
    exact (hiff hreach).mp haccepts
  · intro hadmits
    have hreach := hadmits.2.1
    exact ⟨hreach, (hiff hreach).mpr hadmits⟩

namespace EncodedInstruction

@[simp] theorem bytesOf_append (text more : List EncodedInstruction) :
    bytesOf (text ++ more) = bytesOf text ++ bytesOf more :=
  List.flatMap_append

@[simp] theorem bytesOf_cons (f : EncodedInstruction) (text : List EncodedInstruction) :
    bytesOf (f :: text) = f.bytes ++ bytesOf text := rfl

/-- A tile of a text is one of its instructions, at the number of bytes in front of it. -/
theorem mem_tiles_iff {place : Nat} {text : List EncodedInstruction} {tile : Nat × Instruction} :
    tile ∈ tiles place text ↔ ∃ before f after, text = before ++ f :: after ∧
      tile = (place + (bytesOf before).length,
        f.instruction (place + (bytesOf before).length)) := by
  constructor
  · intro h
    induction text generalizing place with
    | nil => cases h
    | cons f text ih =>
      rcases List.mem_cons.mp h with rfl | h
      · exact ⟨[], f, text, rfl, rfl⟩
      · obtain ⟨before, f', after, rfl, heq⟩ := ih h
        refine ⟨f :: before, f', after, rfl, ?_⟩
        rwa [bytesOf_cons, List.length_append, ← Nat.add_assoc]
  · rintro ⟨before, f, after, rfl, rfl⟩
    induction before generalizing place with
    | nil => exact List.mem_cons_self
    | cons f' before ih =>
      have := @ih (place + f'.bytes.length)
      rw [Nat.add_assoc, ← List.length_append, ← bytesOf_cons] at this
      exact List.mem_cons_of_mem _ this

theorem closed_iff_jumpsWithin {text : List EncodedInstruction} :
    Program.Closed (tiles 0 text) ↔ JumpsWithin text := by
  have htargets : ∀ {f : EncodedInstruction} {place target : Nat},
      target ∈ (f.instruction place).targets ↔ ∃ t, .label t ∈ f.operands ∧ t.toNat = target :=
    EncodedOperand.mem_targets_iff
  have hstarts : ∀ {q : Nat}, q ∈ (tiles 0 text).map Prod.fst ↔
      ∃ before first after, text = before ++ first :: after ∧ q = (bytesOf before).length := by
    intro q
    simp only [List.mem_map, mem_tiles_iff, Nat.zero_add]
    constructor
    · rintro ⟨_, ⟨before, first, after, hsplit, rfl⟩, rfl⟩
      exact ⟨before, first, after, hsplit, rfl⟩
    · rintro ⟨before, first, after, hsplit, rfl⟩
      exact ⟨_, ⟨before, first, after, hsplit, rfl⟩, rfl⟩
  constructor
  · intro h f hf target ht
    obtain ⟨before, after, hsplit⟩ := List.append_of_mem hf
    exact hstarts.mp (h _ (mem_tiles_iff.mpr ⟨before, f, after, hsplit, rfl⟩) _
      (htargets.mpr ⟨target, ht, rfl⟩))
  · intro h tile hm target ht
    obtain ⟨before, f, after, hsplit, rfl⟩ := mem_tiles_iff.mp hm
    obtain ⟨t, htm, rfl⟩ := htargets.mp ht
    exact hstarts.mpr (h f (hsplit ▸ by simp) t htm)

end EncodedInstruction

theorem Program.ahead_zero (p : Program) :
    Codec.ahead p.code p.code.size 0 = p.code.toList := by
  rw [Codec.ahead, List.drop_zero, List.take_of_length_le (Nat.le_of_eq Array.length_toList)]

/-- The program reaches all blocks of a text. -/
def Program.ReachesAll (p : Program) (text : List EncodedInstruction) : Prop :=
  ∀ before f after, text = before ++ f :: after →
    p.Reaches (EncodedInstruction.bytesOf before).length f

/-- The tiles of a text are in reach and accepted if the program admits its instructions and reaches
their blocks. -/
theorem Program.accepts_tiles_iff {p : Program} {text : List EncodedInstruction}
    (htext : p.code.toList = EncodedInstruction.bytesOf text) :
    (∀ tile ∈ EncodedInstruction.tiles 0 text, tile.2.InReach ∧ p.Accepts none tile.2.operands) ↔
      (∀ f ∈ text, p.Admits f) ∧ p.ReachesAll text := by
  have hread : ∀ before f after, text = before ++ f :: after →
      ((f.instruction (0 + (EncodedInstruction.bytesOf before).length)).InReach ∧
        p.Accepts none (f.instruction (0 + (EncodedInstruction.bytesOf before).length)).operands ↔
          p.Admits f ∧ p.Reaches (EncodedInstruction.bytesOf before).length f) := by
    rintro before f after rfl
    rw [EncodedInstruction.bytesOf_append, EncodedInstruction.bytesOf_cons, ← p.ahead_zero]
      at htext
    rw [Nat.zero_add]
    refine accepts_iff_admits ?_
    rw [← Nat.zero_add (EncodedInstruction.bytesOf before).length,
      (Codec.ahead_eq_append_iff.mp htext).2]
    exact List.prefix_append _ _
  constructor
  · intro h
    have hall : ∀ before f after, text = before ++ f :: after →
        p.Admits f ∧ p.Reaches (EncodedInstruction.bytesOf before).length f :=
      fun before f after hsplit => (hread before f after hsplit).mp
        (h _ (EncodedInstruction.mem_tiles_iff.mpr ⟨before, f, after, hsplit, rfl⟩))
    refine ⟨fun f hf => ?_, fun before f after hsplit => (hall before f after hsplit).2⟩
    obtain ⟨before, after, hsplit⟩ := List.append_of_mem hf
    exact (hall before f after hsplit).1
  · rintro ⟨hadmits, hreaches⟩ tile hm
    obtain ⟨before, f, after, hsplit, rfl⟩ := EncodedInstruction.mem_tiles_iff.mp hm
    exact (hread before f after hsplit).mpr
      ⟨hadmits f (hsplit ▸ by simp), hreaches before f after hsplit⟩

namespace EncodedOperand

/-- Operands that end where positions have 32 bits are in reach. -/
theorem inReach_of_lt {place : Nat} {words : List EncodedOperand}
    (h : place + (words.flatMap bytes).length < UInt32.size) :
    ∀ o ∈ operands place words, o.InReach := by
  induction words generalizing place with
  | nil => simp [operands]
  | cons w words ih =>
    rw [List.flatMap_cons, List.length_append] at h
    refine List.forall_mem_cons.mpr ⟨?_, ih (by omega)⟩
    cases w with
    | raw content short =>
      rw [bytes, List.length_cons] at h
      show place + 1 < UInt32.size
      omega
    | register _ | immediate _ | label _ | native _ => trivial

end EncodedOperand

/-- In code of less than 2^32 bytes all blocks are in reach. -/
theorem Program.reachesAll_of_lt {p : Program} (h : p.code.size < UInt32.size)
    {text : List EncodedInstruction} (htext : p.code.toList = EncodedInstruction.bytesOf text) :
    p.ReachesAll text := by
  rintro before f after rfl
  have hsize := congrArg List.length htext
  simp only [EncodedInstruction.bytesOf_append, EncodedInstruction.bytesOf_cons, List.length_append,
    EncodedInstruction.bytes, List.length_cons, Array.length_toList] at hsize
  refine ⟨EncodedOperand.inReach_of_lt (by omega),
    fun index content short binding words heq _ _ hwords => EncodedOperand.inReach_of_lt ?_⟩
  rw [heq] at hsize
  simp only [List.flatMap_cons, List.flatMap_nil, EncodedOperand.bytes, List.length_append,
    length_bytesOfNat, List.length_cons, List.length_nil] at hsize
  rw [hwords]
  omega

/-- Code passes verification if and only if it is a text, a list of at least one instruction, each
of which the program admits and whose jumps lead to the fronts of instructions of the text, with all
blocks in reach.  Blocks are always in reach in code of less than 2^32 bytes.  There is no other
text with the same bytes. -/
theorem Program.verify_exact (p : Program) :
    (p.verify = .ok () ↔
      ∃ text : List EncodedInstruction, text ≠ [] ∧
        p.code.toList = EncodedInstruction.bytesOf text ∧ (∀ f ∈ text, p.Admits f) ∧
        EncodedInstruction.JumpsWithin text ∧ p.ReachesAll text) ∧
    (p.code.size < UInt32.size → ∀ text : List EncodedInstruction,
      p.code.toList = EncodedInstruction.bytesOf text → p.ReachesAll text) ∧
    ∀ text text' : List EncodedInstruction,
      EncodedInstruction.bytesOf text = EncodedInstruction.bytesOf text' → text = text' := by
  refine ⟨?_, fun hsize _ => reachesAll_of_lt hsize, fun _ _ => EncodedInstruction.text_unique⟩
  have hempty : p.code = #[] ↔ p.code.toList = [] := Array.toList_eq_nil_iff.symm
  rw [verify_eq_ok_iff]
  constructor
  · rintro ⟨hne, tiles, ht, hclosed⟩
    obtain ⟨text, htext, rfl, haccepted⟩ := (tiling_iff_text (Nat.zero_le _)).mp ht
    rw [p.ahead_zero] at htext
    obtain ⟨hadmits, hreaches⟩ := (accepts_tiles_iff htext).mp haccepted
    refine ⟨text, ?_, htext, hadmits, EncodedInstruction.closed_iff_jumpsWithin.mp hclosed,
      hreaches⟩
    rintro rfl
    exact hne (hempty.mpr htext)
  · rintro ⟨text, hne, htext, hadmits, hjumps, hreaches⟩
    refine ⟨fun hnil => hne ?_, EncodedInstruction.tiles 0 text, ?_,
      EncodedInstruction.closed_iff_jumpsWithin.mpr hjumps⟩
    · rw [hempty, htext] at hnil
      exact EncodedInstruction.text_unique hnil
    · exact (tiling_iff_text (Nat.zero_le _)).mpr
        ⟨text, p.ahead_zero.trans htext, rfl,
          (accepts_tiles_iff htext).mpr ⟨hadmits, hreaches⟩⟩

/-- A jump over its own five bytes to the end of the script. -/
def jumpToExit : List EncodedInstruction :=
  [⟨4, [.label 5], ⟨.goto, 0, [.label]⟩, by decide +kernel, rfl⟩,
    ⟨0, [], ⟨.exit, 0, []⟩, by decide +kernel, rfl⟩]

theorem Program.verify_exact_jumpToExit :
    (⟨#[4, 5, 0, 0, 0, 0], 0, #[]⟩ : Program).verify = .ok () ∧
      ∀ text, EncodedInstruction.bytesOf text = [4, 5, 0, 0, 0, 0] → text = jumpToExit := by
  obtain ⟨hexact, hreaches, hunique⟩ := verify_exact ⟨#[4, 5, 0, 0, 0, 0], 0, #[]⟩
  have hbytes : EncodedInstruction.bytesOf jumpToExit = [4, 5, 0, 0, 0, 0] := by decide
  refine ⟨hexact.mpr ⟨jumpToExit, List.cons_ne_nil _ _, hbytes.symm, ?_, ?_,
    hreaches (by decide) _ hbytes.symm⟩, fun text h => ?_⟩
  · intro f hf
    constructor <;> simp only [jumpToExit, List.mem_cons, List.not_mem_nil, or_false] at hf <;>
      rcases hf with rfl | rfl <;> simp
  · intro f hf target ht
    simp only [jumpToExit, List.mem_cons, List.not_mem_nil, or_false] at hf
    rcases hf with rfl | rfl
    · obtain rfl : target = 5 := by simpa using ht
      exact ⟨[_], _, [], rfl, rfl⟩
    · simp at ht
  · exact hunique text jumpToExit (h.trans hbytes.symm)

end HookScript
