/-
Lines: instructions of code under construction, whose labels have no positions yet.

Code that consists of lines is read back line by line, with the positions of labels in their places.
Only blocks can be out of reach, which begin where positions need more than 32 bits:

* `Codec.decodeAll?_pieces_iff` — operands that were written are read back, if all are in reach;
* `Line.fetch_iff` — so is a whole instruction;
* `Line.tiling` — hence code that consists of accepted lines in reach is a tiling;
* `Program.verify_of_lines` — and such a program passes verification;
* `Program.verify_of_far` — while one with a line out of reach does not.
-/
import HookScript.Proofs.Code.Assembly
import HookScript.Proofs.Code.Encoding
import HookScript.Proofs.Code.Versions

namespace HookScript

/-! ### Operands -/

namespace Payload

/-- The piece of code that an operand is written as. -/
def piece : Payload → Piece
  | constant value => .bytes (bytesOfNat 4 value.toUInt32.toNat)
  | register index => .bytes [index]
  | label id => .label id
  | native index => .bytes (bytesOfNat 2 index.toNat)
  | raw bs => .bytes (UInt8.ofNat bs.length :: bs)

/-- The operand that is read back at `place`, when the labels have the given positions. -/
def operand (target : LabelId → Nat) (place : Nat) : Payload → Operand
  | constant value => .immediate value
  | register index => .register index
  | label id => .label (target id)
  | native index => .native index.toNat
  | raw bs => .raw (place + 1) bs.length

/-- The operands that are read back from `place` on. -/
def operands (target : LabelId → Nat) (place : Nat) : List Payload → List Operand
  | [] => []
  | payload :: payloads =>
    payload.operand target place :: operands target (place + payload.piece.size) payloads

end Payload

namespace Payload

theorem operands_getElem? (target : LabelId → Nat) (place : Nat) (payloads : List Payload)
    (i : Nat) :
    (operands target place payloads)[i]? = payloads[i]?.map fun payload =>
      payload.operand target (place + sizeOfPieces ((payloads.take i).map piece)) := by
  induction payloads generalizing place i with
  | nil => rfl
  | cons payload payloads ih =>
    cases i with
    | zero => rfl
    | succ i =>
      rw [operands, List.getElem?_cons_succ, List.getElem?_cons_succ, ih, List.take_succ_cons,
        List.map_cons, sizeOfPieces_cons, Nat.add_assoc]

theorem operands_take (target : LabelId → Nat) (place : Nat) (payloads : List Payload) (i : Nat) :
    operands target place (payloads.take i) = (operands target place payloads).take i := by
  induction payloads generalizing place i with
  | nil => simp [operands]
  | cons payload payloads ih =>
    cases i with
    | zero => rfl
    | succ i => rw [List.take_succ_cons, operands, operands, List.take_succ_cons, ih]

end Payload

/-- The codec of each place has bytes for the operand there. -/
def Encodable (layout : List Codec) (payloads : List Payload) : Prop :=
  List.Forall₂ (fun codec payload => codec.canEncode payload = true) layout payloads

theorem CodeBuffer.Holds.write {b : CodeBuffer} {pieces : List Piece} (h : b.Holds pieces)
    {codec : Codec} {payload : Payload} (hc : codec.canEncode payload = true) :
    (codec.write payload b).Holds (pieces ++ [payload.piece]) := by
  cases codec <;> cases payload <;> simp only [Codec.canEncode, Bool.false_eq_true] at hc
  case register.register r => exact h.push r
  case immediate.constant v => exact h.append _
  case label.label id => exact h.pushLabel id
  case native.native index => exact h.append _
  case raw.raw bs =>
    constructor
    · simp [Codec.write, CodeBuffer.append, CodeBuffer.push, h.code, assemble, Payload.piece,
        Piece.encode]
    · simp [Codec.write, CodeBuffer.append, CodeBuffer.push, h.placeholders,
        placeholdersFrom_append, placeholdersFrom, Payload.piece]

/-- An operand that is written has the bytes of one that is read back as it. -/
theorem Payload.exists_encoded {codec : Codec} {payload : Payload} {target : LabelId → Nat}
    (hc : codec.canEncode payload = true)
    (ht : ∀ id, payload = .label id → target id < UInt32.size) :
    ∃ w : EncodedOperand, w.codec = codec ∧ w.bytes = payload.piece.encode target ∧
      ∀ place, w.operand place = payload.operand target place := by
  -- a codec takes one kind of operand only, which leaves five cases
  cases codec <;> cases payload <;> simp only [Codec.canEncode, Bool.false_eq_true] at hc
  case register.register r => exact ⟨.register r, rfl, rfl, fun _ => rfl⟩
  case immediate.constant v => exact ⟨.immediate v, rfl, rfl, fun _ => rfl⟩
  case label.label id =>
    have hid : (UInt32.ofNat (target id)).toNat = target id :=
      UInt32.toNat_ofNat_of_lt' (ht id rfl)
    refine ⟨.label (UInt32.ofNat (target id)), rfl, ?_, fun _ => ?_⟩
    · rw [EncodedOperand.bytes, hid]
      rfl
    · rw [EncodedOperand.operand, hid]
      rfl
  case native.native index => exact ⟨.native index, rfl, rfl, fun _ => rfl⟩
  case raw.raw bs => exact ⟨.raw bs (by simpa using hc), rfl, rfl, fun _ => rfl⟩

theorem Payload.exists_encodedAll {layout : List Codec} {payloads : List Payload}
    (hp : Encodable layout payloads) {target : LabelId → Nat}
    (ht : ∀ id, .label id ∈ payloads → target id < UInt32.size) :
    ∃ words : List EncodedOperand, words.map EncodedOperand.codec = layout ∧
      words.flatMap EncodedOperand.bytes = assemble target (payloads.map piece) ∧
      ∀ place, EncodedOperand.operands place words = operands target place payloads := by
  induction hp with
  | nil => exact ⟨[], rfl, rfl, fun _ => rfl⟩
  | @cons codec payload layout payloads hc _ ih =>
    obtain ⟨w, rfl, hw, hread⟩ := exists_encoded hc fun id hid => ht id (by simp [hid])
    obtain ⟨words, rfl, hwords, hreadAll⟩ := ih fun id hid => ht id (List.mem_cons_of_mem _ hid)
    refine ⟨w :: words, rfl, ?_, fun place => ?_⟩
    · rw [List.flatMap_cons, hw, hwords, List.map_cons, assemble_cons]
    · rw [EncodedOperand.operands, operands, hread, hw, Piece.length_encode, hreadAll]

/-- Operands that were written are read back and nothing else is, unless a block among them is out
of reach. -/
theorem Codec.decodeAll?_pieces_iff {code : Array UInt8} {done rest : List UInt8} {stop : Nat}
    {layout : List Codec} {payloads : List Payload} (hp : Encodable layout payloads)
    {target : LabelId → Nat}
    (h : code.toList = done ++ assemble target (payloads.map Payload.piece) ++ rest)
    (ht : ∀ id, .label id ∈ payloads → target id < UInt32.size)
    (hs : done.length + sizeOfPieces (payloads.map Payload.piece) ≤ stop)
    {operands : List Operand} {next : Nat} :
    decodeAll? layout code stop done.length = some (operands, next) ↔
      (∀ o ∈ operands, o.InReach) ∧ operands = Payload.operands target done.length payloads ∧
        next = done.length + sizeOfPieces (payloads.map Payload.piece) := by
  obtain ⟨words, hlayout, hwords, hread⟩ := Payload.exists_encodedAll hp ht
  have hahead : words.flatMap EncodedOperand.bytes <+: ahead code stop done.length := by
    rw [hwords]
    exact ahead_of_append h (by rwa [length_assemble])
  rw [decodeAll?_eq_some_iff]
  refine and_congr_right fun _ => ⟨?_, ?_⟩
  · rintro ⟨words', hlayout', ⟨more', hmore'⟩, rfl, rfl⟩
    obtain ⟨more, hmore⟩ := hahead
    -- what lies ahead begins with the bytes of the one operands and of the others
    obtain ⟨rfl, -⟩ := EncodedOperand.appendAll_inj (hlayout'.trans hlayout.symm)
      (hmore'.trans hmore.symm)
    exact ⟨hread _, by rw [hwords, length_assemble]⟩
  · rintro ⟨rfl, rfl⟩
    exact ⟨words, hlayout, hahead, hread _, by rw [hwords, length_assemble]⟩

/-! ### Instructions -/

/-- An instruction of code under construction. -/
structure Line where
  builtin : Builtin
  version : Nat
  payloads : List Payload

namespace Line

/-- The pieces of an instruction: its opcode and its operands. -/
def pieces (l : Line) : List Piece :=
  .bytes [UInt8.ofNat (l.builtin.base + l.version)] :: l.payloads.map Payload.piece

/-- The number of bytes of an instruction. -/
def size (l : Line) : Nat :=
  sizeOfPieces l.pieces

theorem size_pos (l : Line) : 0 < l.size := by
  simp only [size, pieces, sizeOfPieces_cons, Piece.size, List.length_singleton]
  omega

/-- The instruction that is read back at `place`, when the labels have the given positions. -/
def instruction (target : LabelId → Nat) (place : Nat) (l : Line) : Instruction where
  opcode := l.builtin.opcode l.version
  operands := Payload.operands target (place + 1) l.payloads
  next := place + l.size

/-- A line stands in front of the end of the code. -/
theorem lt_size {l : Line} {code : Array UInt8} {done rest : List UInt8} {target : LabelId → Nat}
    (h : code.toList = done ++ assemble target l.pieces ++ rest) : done.length < code.size := by
  have hpos := l.size_pos
  rw [size] at hpos
  rw [← Array.length_toList, h]
  simp only [List.length_append, length_assemble]
  omega

/-- The instruction has the version, and its codecs have bytes for the operands. -/
structure Fits (l : Line) : Prop where
  version : l.version < l.builtin.versions
  encodable : Encodable (Codec.layoutOf l.builtin.params l.version) l.payloads

/-- An instruction that was written is read back and no other one is, unless a block among its
operands is out of reach. -/
theorem fetch_iff {l : Line} (hf : l.Fits) {code : Array UInt8} {done rest : List UInt8}
    {target : LabelId → Nat} (h : code.toList = done ++ assemble target l.pieces ++ rest)
    (ht : ∀ id, .label id ∈ l.payloads → target id < UInt32.size) {i : Instruction} :
    Instruction.fetch code done.length = .ok i ↔
      i.InReach ∧ i = l.instruction target done.length := by
  obtain ⟨-, hop⟩ := l.builtin.find?_version hf.version
  rw [pieces, assemble_cons, Piece.encode, List.append_assoc, List.append_assoc,
    List.singleton_append] at h
  have hbyte : code[done.length]? = some (UInt8.ofNat (l.builtin.base + l.version)) := by
    rw [← Array.getElem?_toList, h]
    simp
  -- behind the opcode are the operands
  have h' : code.toList = (done ++ [UInt8.ofNat (l.builtin.base + l.version)])
      ++ assemble target (l.payloads.map Payload.piece) ++ rest := by
    rw [h]
    simp
  have hlen : (done ++ [UInt8.ofNat (l.builtin.base + l.version)]).length = done.length + 1 := by
    simp
  have hsize : (done ++ [UInt8.ofNat (l.builtin.base + l.version)]).length
      + sizeOfPieces (l.payloads.map Payload.piece) ≤ code.size := by
    rw [← Array.length_toList, h']
    simp
    omega
  have hd := @Codec.decodeAll?_pieces_iff _ _ _ _ _ _ hf.encodable _ h' ht hsize
  rw [hlen] at hd
  have hnext : (l.instruction target done.length).next
      = done.length + 1 + sizeOfPieces (l.payloads.map Payload.piece) := by
    simp only [instruction, size, pieces, sizeOfPieces_cons, Piece.size, List.length_singleton]
    omega
  rw [Instruction.fetch_eq_ok_iff]
  constructor
  · rintro ⟨byte, hb, hopcode, hdecoded⟩
    obtain ⟨opcode, operands, next⟩ := i
    obtain rfl : _ = byte := Option.some.inj (hbyte.symm.trans hb)
    obtain rfl : _ = opcode := Option.some.inj (hop.symm.trans hopcode)
    obtain ⟨hreach, rfl, rfl⟩ := hd.mp hdecoded
    exact ⟨hreach, by rw [← hnext]; rfl⟩
  · rintro ⟨hreach, rfl⟩
    exact ⟨_, hbyte, hop, hd.mpr ⟨hreach, rfl, hnext⟩⟩

/-- Behind the operands in front of it, the code holds the position of a label. -/
theorem bytesAt?_label {l : Line} (hf : l.Fits) {code : Array UInt8} {done rest : List UInt8}
    {target : LabelId → Nat} (h : code.toList = done ++ assemble target l.pieces ++ rest)
    (ht : ∀ id, .label id ∈ l.payloads → target id < UInt32.size)
    (hreach : (l.instruction target done.length).InReach) {i : Nat} {id : LabelId}
    (hi : l.payloads[i]? = some (.label id)) :
    ∃ place,
      Codec.decodeAll? ((l.builtin.opcode l.version).layout.take i) code code.size (done.length + 1)
        = some ((l.instruction target done.length).operands.take i, place) ∧
      Codec.bytesAt? code code.size place 4 = some (bytesOfNat 4 (target id)) := by
  obtain ⟨hlt, hget⟩ := List.getElem?_eq_some_iff.mp hi
  -- the label stands between the operands in front of it and those behind it
  have hsplit : l.payloads.take i ++ .label id :: l.payloads.drop (i + 1) = l.payloads := by
    rw [← hget, List.getElem_cons_drop, List.take_append_drop]
  have hoperands : assemble target (l.payloads.map Payload.piece)
      = assemble target ((l.payloads.take i).map Payload.piece) ++ (bytesOfNat 4 (target id)
        ++ assemble target ((l.payloads.drop (i + 1)).map Payload.piece)) := by
    conv_lhs => rw [← hsplit]
    simp [-List.map_take, -List.map_drop, Payload.piece, Piece.encode]
  have hcode : code.toList = (done ++ [UInt8.ofNat (l.builtin.base + l.version)])
      ++ assemble target ((l.payloads.take i).map Payload.piece)
      ++ (bytesOfNat 4 (target id)
        ++ (assemble target ((l.payloads.drop (i + 1)).map Payload.piece) ++ rest)) := by
    rw [h, pieces, assemble_cons, hoperands]
    simp [Piece.encode]
  have hlen : (done ++ [UInt8.ofNat (l.builtin.base + l.version)]).length = done.length + 1 := by
    simp
  have hsize := congrArg List.length hcode
  simp only [List.length_append, length_assemble, length_bytesOfNat, Array.length_toList,
    List.length_singleton] at hsize
  have hfirst : Encodable ((l.builtin.opcode l.version).layout.take i) (l.payloads.take i) :=
    List.forall₂_take i hf.encodable
  have hroom : (done ++ [UInt8.ofNat (l.builtin.base + l.version)]).length
      + sizeOfPieces ((l.payloads.take i).map Payload.piece) ≤ code.size := by
    rw [hlen]
    omega
  have hd := @Codec.decodeAll?_pieces_iff _ _ _ _ _ _ hfirst _ hcode
    (fun id hm => ht id (List.mem_of_mem_take hm)) hroom
  rw [hlen] at hd
  refine ⟨_, hd.mpr ⟨fun o ho => hreach o (List.mem_of_mem_take ho),
    (Payload.operands_take _ _ _ _).symm, rfl⟩, ?_⟩
  rw [← List.append_assoc] at hcode
  have hb : bytesOfNat 4 (target id) <+: Codec.ahead code code.size _ :=
    Codec.ahead_of_append hcode (by
      rw [List.length_append, length_assemble, length_bytesOfNat, hlen]
      omega)
  rw [List.length_append, length_assemble, hlen] at hb
  exact (Codec.bytesAt?_eq_some_iff (by decide)).mpr ⟨length_bytesOfNat _ _, hb⟩

end Line

/-- The pieces of lines. -/
def piecesOf (lines : List Line) : List Piece :=
  lines.flatMap Line.pieces

/-- The number of bytes of lines. -/
def codeSize (lines : List Line) : Nat :=
  sizeOfPieces (piecesOf lines)

@[simp] theorem piecesOf_append (lines more : List Line) :
    piecesOf (lines ++ more) = piecesOf lines ++ piecesOf more := by
  simp [piecesOf]

@[simp] theorem piecesOf_cons (l : Line) (lines : List Line) :
    piecesOf (l :: lines) = l.pieces ++ piecesOf lines := rfl

@[simp] theorem codeSize_append (lines more : List Line) :
    codeSize (lines ++ more) = codeSize lines + codeSize more := by
  simp [codeSize]

@[simp] theorem codeSize_cons (l : Line) (lines : List Line) :
    codeSize (l :: lines) = l.size + codeSize lines := by
  simp [codeSize, Line.size]

/-! ### Accepted lines -/

/-- The operand is no register, or one of the first `registers`, and has nothing to do with host
functions. -/
def Payload.Plain (registers : Nat) : Payload → Prop
  | .register index => index.toNat < registers
  | .constant _ | .label _ => True
  | .native _ | .raw _ => False

/-- What the compiler writes, for a table of host functions and a number of registers: instructions
with operands of scripts, and calls of host functions with such operands in a block. -/
inductive Line.Sound (natives : Array NativeBinding) (registers : Nat) : Line → Prop where
  | plain {b : Builtin} {version : Nat} {payloads : List Payload}
      (fits : Fits ⟨b, version, payloads⟩) (plain : ∀ o ∈ payloads, o.Plain registers) :
      Sound natives registers ⟨b, version, payloads⟩
  | call {slot : UInt16} {binding : NativeBinding} {operands : List Payload} {block : List UInt8}
      (entered : natives[slot.toNat]? = some binding)
      (encodable : Encodable binding.layout operands)
      (plain : ∀ o ∈ operands, o.Plain registers)
      (encoded : block = assemble (fun _ => 0) (operands.map Payload.piece))
      (short : block.length < 256) :
      Sound natives registers ⟨.call, 0, [.native slot, .raw block]⟩

theorem Payload.Plain.mono {registers registers' : Nat} (hle : registers ≤ registers')
    {payload : Payload} (h : payload.Plain registers) : payload.Plain registers' := by
  cases payload with
  | register r => exact Nat.lt_of_lt_of_le h hle
  | _ => exact h

namespace Line.Sound

variable {natives : Array NativeBinding} {registers : Nat} {l : Line}

theorem fits (h : Sound natives registers l) : l.Fits := by
  cases h with
  | plain fits _ => exact fits
  | call _ _ _ _ short =>
    have hv : 0 < Builtin.call.versions := by decide
    exact ⟨hv, .cons rfl (.cons (decide_eq_true short) .nil)⟩

/-- Further host functions and registers change nothing. -/
theorem mono (h : Sound natives registers l) (more : Array NativeBinding) {registers' : Nat}
    (hle : registers ≤ registers') : Sound (natives ++ more) registers' l := by
  cases h with
  | plain fits plain => exact .plain fits fun o ho => (plain o ho).mono hle
  | call entered encodable plain encoded short =>
    refine .call ?_ encodable (fun o ho => (plain o ho).mono hle) encoded short
    obtain ⟨hlt, heq⟩ := Array.getElem?_eq_some_iff.mp entered
    rw [Array.getElem?_append_left hlt, entered]

end Line.Sound

theorem Payload.Plain.inUse {p : Program} {payload : Payload}
    (h : payload.Plain p.registers.toNat) (target : LabelId → Nat) (place : Nat) :
    (payload.operand target place).InUse p.registers := by
  cases payload with
  | register r => exact UInt8.lt_iff_toNat_lt.mpr h
  | _ => trivial

theorem inUse_operands {p : Program} {payloads : List Payload}
    (h : ∀ o ∈ payloads, o.Plain p.registers.toNat) (target : LabelId → Nat) (place : Nat) :
    ∀ o ∈ Payload.operands target place payloads, o.InUse p.registers := by
  induction payloads generalizing place with
  | nil => simp [Payload.operands]
  | cons payload payloads ih =>
    intro o ho
    rcases List.mem_cons.mp ho with rfl | ho
    · exact (h payload (by simp)).inUse target place
    · exact ih (fun o ho => h o (List.mem_cons_of_mem _ ho)) _ o ho

theorem accepts_operands {p : Program} {native : Option NativeBinding} {payloads : List Payload}
    (h : ∀ o ∈ payloads, o.Plain p.registers.toNat) (target : LabelId → Nat) (place : Nat) :
    p.Accepts native (Payload.operands target place payloads) := by
  induction payloads generalizing place with
  | nil => trivial
  | cons payload payloads ih =>
    have hfirst := h payload (by simp)
    have hrest := ih (fun o ho => h o (List.mem_cons_of_mem _ ho)) (place + payload.piece.size)
    cases payload with
    | native _ | raw _ => exact hfirst.elim
    | constant _ | register _ | label _ => exact ⟨hfirst.inUse target place, hrest⟩

/-- Operands without blocks are in reach. -/
theorem Payload.inReach_operands {payloads : List Payload} (h : ∀ bs, .raw bs ∉ payloads)
    (target : LabelId → Nat) (place : Nat) : ∀ o ∈ operands target place payloads, o.InReach := by
  induction payloads generalizing place with
  | nil => simp [operands]
  | cons payload payloads ih =>
    refine List.forall_mem_cons.mpr
      ⟨?_, ih (fun bs hm => h bs (List.mem_cons_of_mem _ hm)) _⟩
    cases payload with
    | raw bs => exact absurd List.mem_cons_self (h bs)
    | constant _ | register _ | label _ | native _ => trivial

theorem Payload.Plain.flat {payloads : List Payload} {registers : Nat}
    (h : ∀ o ∈ payloads, o.Plain registers) (bs : List UInt8) : .raw bs ∉ payloads :=
  fun hm => h (.raw bs) hm

/-- The operands in the block of a call are read back; the block begins behind the opcode, the
number of the host function and the length. -/
theorem Line.decodeAll?_block {code : Array UInt8} {slot : UInt16} {layout : List Codec}
    {operands : List Payload} (encodable : Encodable layout operands)
    (flat : ∀ bs, .raw bs ∉ operands) {block : List UInt8}
    (encoded : block = assemble (fun _ => 0) (operands.map Payload.piece)) {done rest : List UInt8}
    {target : LabelId → Nat}
    (hcode : code.toList
      = done ++ assemble target (pieces ⟨.call, 0, [.native slot, .raw block]⟩) ++ rest) :
    Codec.decodeAll? layout code (done.length + 1 + 2 + 1 + block.length) (done.length + 1 + 2 + 1)
      = some (Payload.operands (fun _ => 0) (done.length + 1 + 2 + 1) operands,
          done.length + 1 + 2 + 1 + block.length) := by
  have hcode' : code.toList =
      (done ++ [UInt8.ofNat (Builtin.call.base + 0)] ++ bytesOfNat 2 slot.toNat
          ++ [UInt8.ofNat block.length])
        ++ assemble (fun _ => 0) (operands.map Payload.piece) ++ rest := by
    rw [hcode, ← encoded]
    simp [pieces, Payload.piece, Piece.encode, assemble]
  have hlen : (done ++ [UInt8.ofNat (Builtin.call.base + 0)] ++ bytesOfNat 2 slot.toNat
      ++ [UInt8.ofNat block.length]).length = done.length + 1 + 2 + 1 := by
    simp
  have hblock : block.length = sizeOfPieces (operands.map Payload.piece) := by
    rw [encoded, length_assemble]
  have hd := @Codec.decodeAll?_pieces_iff _ _ _ _ _ _ encodable _ hcode' (fun _ _ => by decide)
    (Nat.le_refl _)
  rw [hlen, ← hblock] at hd
  exact hd.mpr ⟨Payload.inReach_operands flat _ _, rfl, rfl⟩

/-- A program accepts the lines that the compiler writes for it. -/
theorem Line.Sound.accepts {p : Program} {l : Line} (h : Sound p.natives p.registers.toNat l)
    {done rest : List UInt8} {target : LabelId → Nat}
    (hcode : p.code.toList = done ++ assemble target l.pieces ++ rest) :
    p.Accepts none (l.instruction target done.length).operands := by
  cases h with
  | plain _ plain => exact accepts_operands plain target _
  | @call slot binding operands block entered encodable plain encoded short =>
    exact ⟨binding, entered,
      ⟨binding, rfl, _, decodeAll?_block encodable (Payload.Plain.flat plain) encoded hcode,
        inUse_operands plain _ _⟩,
      trivial⟩

/-! ### Tilings -/

namespace Line

/-- The instructions that are read back from lines that begin at `place`, with their positions. -/
def tiles (target : LabelId → Nat) (place : Nat) : List Line → List (Nat × Instruction)
  | [] => []
  | l :: lines => (place, l.instruction target place) :: tiles target (place + l.size) lines

/-- Code that consists of lines that the compiler writes is a tiling, if all lines are in reach. -/
theorem tiling {p : Program} {target : LabelId → Nat} {lines : List Line}
    (hs : ∀ l ∈ lines, Sound p.natives p.registers.toNat l)
    (ht : ∀ l ∈ lines, ∀ id, .label id ∈ l.payloads → target id < UInt32.size) {done : List UInt8}
    (hcode : p.code.toList = done ++ assemble target (piecesOf lines))
    (hreach : ∀ tile ∈ tiles target done.length lines, tile.2.InReach) :
    p.Tiling done.length (tiles target done.length lines) := by
  induction lines generalizing done with
  | nil =>
    have : done.length = p.code.size := by
      rw [← Array.length_toList, hcode]
      simp [piecesOf, assemble]
    rw [this]
    exact .stop
  | cons l lines ih =>
    rw [piecesOf_cons, assemble_append, ← List.append_assoc] at hcode
    have hl := hs l (by simp)
    obtain ⟨hfirst, hrest⟩ := List.forall_mem_cons.mp hreach
    have hfetch := (fetch_iff hl.fits hcode (ht l (by simp))).mpr ⟨hfirst, rfl⟩
    refine .next hfetch (hl.accepts hcode) ?_
    have hlen : (done ++ assemble target l.pieces).length = done.length + l.size := by
      simp [size]
    have := ih (fun l hl => hs l (List.mem_cons_of_mem _ hl))
      (fun l hl => ht l (List.mem_cons_of_mem _ hl)) hcode
    rw [hlen] at this
    exact this hrest

/-- Code that consists of lines has no other tiling. -/
theorem eq_tiles_of_tiling {p : Program} {target : LabelId → Nat} {lines : List Line}
    (hf : ∀ l ∈ lines, l.Fits)
    (ht : ∀ l ∈ lines, ∀ id, .label id ∈ l.payloads → target id < UInt32.size) {done : List UInt8}
    (hcode : p.code.toList = done ++ assemble target (piecesOf lines))
    {tiled : List (Nat × Instruction)} (h : p.Tiling done.length tiled) :
    tiled = tiles target done.length lines := by
  induction lines generalizing done tiled with
  | nil =>
    -- behind the last line there is no code left
    have hend : p.code.size = done.length := by
      rw [← Array.length_toList, hcode]
      simp [piecesOf, assemble]
    generalize done.length = place at h hend
    cases h with
    | stop => rfl
    | next fetched =>
      have hlt := Instruction.lt_size_of_fetch fetched
      omega
  | cons l lines ih =>
    rw [piecesOf_cons, assemble_append, ← List.append_assoc] at hcode
    have hfetch := fun i => @fetch_iff l (hf l (by simp)) _ _ _ _ hcode (ht l (by simp)) i
    have hlt := lt_size hcode
    generalize hplace : done.length = place at h hfetch
    cases h with
    | stop => exact absurd (hplace ▸ hlt) (Nat.lt_irrefl _)
    | next fetched _ tail =>
      obtain ⟨-, rfl⟩ := (hfetch _).mp fetched
      subst hplace
      have hlen : (done ++ assemble target l.pieces).length = done.length + l.size := by
        simp [size]
      have htail : p.Tiling (done.length + l.size) _ := tail
      rw [← hlen] at htail
      rw [ih (fun l hl => hf l (List.mem_cons_of_mem _ hl))
        (fun l hl => ht l (List.mem_cons_of_mem _ hl)) hcode htail, hlen]
      rfl

theorem mem_tiles (target : LabelId → Nat) (place : Nat) (done : List Line) (l : Line)
    (rest : List Line) :
    (place + codeSize done, l.instruction target (place + codeSize done))
      ∈ tiles target place (done ++ l :: rest) := by
  induction done generalizing place with
  | nil => exact List.mem_cons_self
  | cons first done ih =>
    have := ih (place + first.size)
    rw [Nat.add_assoc, ← codeSize_cons] at this
    exact List.mem_cons_of_mem _ this

/-- A tile of lines is one of the lines, at the size of those in front of it. -/
theorem exists_of_mem_tiles {target : LabelId → Nat} {place : Nat} {lines : List Line}
    {tile : Nat × Instruction} (h : tile ∈ tiles target place lines) :
    ∃ done l rest, lines = done ++ l :: rest ∧
      tile = (place + codeSize done, l.instruction target (place + codeSize done)) := by
  induction lines generalizing place with
  | nil => cases h
  | cons l lines ih =>
    rcases List.mem_cons.mp h with rfl | h
    · exact ⟨[], l, lines, rfl, rfl⟩
    · obtain ⟨done, l', rest, rfl, heq⟩ := ih h
      refine ⟨l :: done, l', rest, rfl, ?_⟩
      rw [codeSize_cons, ← Nat.add_assoc]
      exact heq

/-- An instruction jumps to the positions of its labels. -/
theorem exists_of_mem_targets {target : LabelId → Nat} {l : Line} {place goal : Nat}
    (h : goal ∈ (l.instruction target place).targets) :
    ∃ id, .label id ∈ l.payloads ∧ goal = target id := by
  obtain ⟨operand, ho, hgoal⟩ := List.mem_filterMap.mp h
  simp only [instruction] at ho
  generalize place + 1 = start at ho
  generalize l.payloads = payloads at ho ⊢
  induction payloads generalizing start with
  | nil => cases ho
  | cons payload payloads ih =>
    rcases List.mem_cons.mp ho with rfl | ho
    · cases payload <;> cases hgoal
      exact ⟨_, by simp, rfl⟩
    · obtain ⟨id, hid, heq⟩ := ih _ ho
      exact ⟨id, List.mem_cons_of_mem _ hid, heq⟩

end Line

/-- Code that consists of lines in reach whose labels lead to the fronts of lines passes
verification. -/
theorem Program.verify_of_lines {p : Program} {target : LabelId → Nat} {lines : List Line}
    (hcode : p.code.toList = assemble target (piecesOf lines)) (hne : lines ≠ [])
    (hs : ∀ l ∈ lines, l.Sound p.natives p.registers.toNat)
    (hreach : ∀ tile ∈ Line.tiles target 0 lines, tile.2.InReach)
    (ht : ∀ l ∈ lines, ∀ id, .label id ∈ l.payloads → target id < UInt32.size ∧
      ∃ done first rest, lines = done ++ first :: rest ∧ target id = codeSize done) :
    p.verify = .ok () := by
  have htiling : p.Tiling 0 (Line.tiles target 0 lines) :=
    @Line.tiling p _ _ hs (fun l hl id hm => (ht l hl id hm).1) [] hcode hreach
  refine verify_eq_ok_iff.mpr ⟨fun hempty => ?_, _, htiling, fun tile hm goal hgoal => ?_⟩
  · obtain ⟨l, rest, rfl⟩ := List.exists_cons_of_ne_nil hne
    have hsize : codeSize (l :: rest) = 0 := by
      rw [codeSize, ← length_assemble, ← hcode, hempty]
      rfl
    have hpos := l.size_pos
    rw [codeSize_cons] at hsize
    omega
  · obtain ⟨before, l, after, hsplit, rfl⟩ := Line.exists_of_mem_tiles hm
    obtain ⟨id, hid, rfl⟩ := Line.exists_of_mem_targets hgoal
    obtain ⟨-, done, first, rest, hlines, hplace⟩ := ht l (by simp [hsplit]) id hid
    have hmem := Line.mem_tiles target 0 done first rest
    rw [← hlines, Nat.zero_add, ← hplace] at hmem
    exact List.mem_map_of_mem hmem

/-! ### Out of reach -/

namespace Line

variable {p : Program} {target : LabelId → Nat} {lines : List Line}

/-- Only a call can be out of reach, whose block begins four bytes behind it.  Verification takes it
for one that is cut short. -/
theorem Sound.checkInstruction_of_far {l : Line} (h : Sound p.natives p.registers.toNat l)
    {done rest : List UInt8} (hcode : p.code.toList = done ++ assemble target l.pieces ++ rest)
    (far : ¬ (l.instruction target done.length).InReach) (hlt : done.length < p.code.size) :
    UInt32.size ≤ p.code.size ∧
      p.checkInstruction done.length p.code[done.length] = .error (.truncated done.length) := by
  cases h with
  | plain _ plain => exact absurd (Payload.inReach_operands (Payload.Plain.flat plain) _ _) far
  | @call slot binding operands block entered encodable plain encoded short =>
    have hfar : UInt32.size ≤ done.length + 4 := by
      by_contra hnear
      refine far (List.forall_mem_cons.mpr ⟨trivial, List.forall_mem_singleton.mpr ?_⟩)
      show done.length + 1 + 2 + 1 < UInt32.size
      omega
    have hop := (Builtin.call.find?_version (show 0 < Builtin.call.versions by decide)).2
    have hcode' : p.code.toList = (done ++ [UInt8.ofNat (Builtin.call.base + 0)])
        ++ (EncodedOperand.native slot).bytes
        ++ (UInt8.ofNat block.length :: block ++ rest) := by
      rw [hcode]
      simp [pieces, Payload.piece, Piece.encode, assemble, EncodedOperand.bytes]
    have hbyte : p.code[done.length] = UInt8.ofNat (Builtin.call.base + 0) := by
      refine Option.some.inj ((Array.getElem?_eq_getElem hlt).symm.trans ?_)
      rw [← Array.getElem?_toList, hcode']
      simp
    have hsize := congrArg List.length hcode'
    simp only [List.length_append, List.length_cons, EncodedOperand.bytes, length_bytesOfNat,
      Array.length_toList] at hsize
    refine ⟨by omega, ?_⟩
    -- the number of the host function is read, but not the block behind it
    have hnative : Codec.native.decode? p.code p.code.size (done.length + 1)
        = some (.native slot.toNat, done.length + 1 + 2) := by
      have hread := @Codec.decode?_of_append _ p.code.size (.native slot) _ _ hcode' (by
        rw [← Array.length_toList, hcode']
        simp only [List.length_append]
        omega) trivial
      rwa [List.length_append, List.length_singleton, EncodedOperand.bytes, length_bytesOfNat]
        at hread
    have hraw : Codec.raw.decode? p.code p.code.size (done.length + 1 + 2) = none :=
      Codec.decode?_raw_of_far hfar
    have hentered : p.native? slot.toNat = some binding := entered
    have hlayout : (Builtin.call.opcode 0).layout = [.native, .raw] := rfl
    simp only [Program.checkInstruction, hbyte, hop, hlayout, Program.checkOperands, hnative,
      hentered, hraw]

/-- A survey of lines that are not all in reach ends at the first one that is not. -/
theorem exists_surveyFrom_of_far (hs : ∀ l ∈ lines, l.Sound p.natives p.registers.toNat)
    (ht : ∀ l ∈ lines, ∀ id, .label id ∈ l.payloads → target id < UInt32.size) {done : List UInt8}
    (hcode : p.code.toList = done ++ assemble target (piecesOf lines))
    (far : ¬ ∀ tile ∈ tiles target done.length lines, tile.2.InReach) (survey : Program.Survey) :
    UInt32.size ≤ p.code.size ∧ ∃ place,
      p.surveyFrom done.length survey = .error (.truncated place) := by
  induction lines generalizing done survey with
  | nil => exact absurd nofun far
  | cons l lines ih =>
    obtain ⟨hl, hs⟩ := List.forall_mem_cons.mp hs
    obtain ⟨htl, ht⟩ := List.forall_mem_cons.mp ht
    rw [piecesOf_cons, assemble_append, ← List.append_assoc] at hcode
    by_cases hfirst : (l.instruction target done.length).InReach
    · have hfetch := (fetch_iff hl.fits hcode htl).mpr ⟨hfirst, rfl⟩
      have hlen : (done ++ assemble target l.pieces).length = done.length + l.size := by
        simp [size]
      rw [Program.surveyFrom_of_fetch hfetch (hl.accepts hcode)]
      have := ih hs ht hcode (fun hrest => far (List.forall_mem_cons.mpr ⟨hfirst, hlen ▸ hrest⟩))
      rw [hlen] at this
      exact this _
    · have hlt := lt_size hcode
      obtain ⟨hsize, hcheck⟩ := hl.checkInstruction_of_far hcode hfirst hlt
      exact ⟨hsize, _, Program.surveyFrom_of_error hlt hcheck survey⟩

end Line

/-- Code that consists of lines that are not all in reach is long, and does not pass
verification. -/
theorem Program.verify_of_far {p : Program} {target : LabelId → Nat} {lines : List Line}
    (hcode : p.code.toList = assemble target (piecesOf lines))
    (hs : ∀ l ∈ lines, l.Sound p.natives p.registers.toNat)
    (ht : ∀ l ∈ lines, ∀ id, .label id ∈ l.payloads → target id < UInt32.size)
    (far : ¬ ∀ tile ∈ Line.tiles target 0 lines, tile.2.InReach) :
    UInt32.size ≤ p.code.size ∧ ∃ place, p.verify = .error (.truncated place) := by
  obtain ⟨hsize, place, hsurvey⟩ :=
    @Line.exists_surveyFrom_of_far p _ _ hs ht [] hcode far {}
  refine ⟨hsize, place, verify_of_surveyFrom_error ?_ hsurvey⟩
  rintro hempty
  rw [hempty] at hsize
  exact absurd hsize (by decide)

end HookScript
