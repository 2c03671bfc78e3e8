/-
Operands in the code.

What is read at a place of the code is what has its bytes there:

* `EncodedOperand` — an operand with its bytes, without a reader;
* `Codec.ahead` — the bytes from a place on;
* `Operand.InReach` — the positions of blocks have 32 bits;
* `Codec.decode?_eq_some_iff` and `Codec.decodeAll?_eq_some_iff` — an operand in reach is read just
  if its bytes lie ahead, and so are several of them;
* `EncodedOperand.appendAll_inj` — bytes are those of one list of operands at most.
-/
import HookScript.Proofs.Program.Verification
import Mathlib.Algebra.GroupWithZero.Nat

namespace HookScript

/-! ### Numbers and bytes -/

theorem natOfBytes_lt (bytes : List UInt8) : natOfBytes bytes < 256 ^ bytes.length := by
  induction bytes with
  | nil => decide
  | cons b bytes ih =>
    have := b.toNat_lt
    rw [natOfBytes, List.length_cons, Nat.pow_succ]
    omega

theorem bytesOfNat_natOfBytes (bytes : List UInt8) :
    bytesOfNat bytes.length (natOfBytes bytes) = bytes := by
  induction bytes with
  | nil => rfl
  | cons b bytes ih =>
    have hb := b.toNat_lt
    rw [List.length_cons, bytesOfNat, natOfBytes]
    have hrest : (b.toNat + 256 * natOfBytes bytes) / 256 = natOfBytes bytes := by omega
    have hfirst : UInt8.ofNat (b.toNat + 256 * natOfBytes bytes) = b := by
      rw [← UInt8.toNat_inj, UInt8.toNat_ofNat']
      omega
    rw [hrest, hfirst, ih]

theorem natOfBytes_bytesOfNat {width n : Nat} (h : n < 256 ^ width) :
    natOfBytes (bytesOfNat width n) = n := by
  induction width generalizing n with
  | zero =>
    have : n = 0 := by simpa using h
    rw [this]
    rfl
  | succ width ih =>
    have hlt : n / 256 < 256 ^ width := by
      rw [Nat.div_lt_iff_lt_mul (by decide)]
      exact h
    rw [bytesOfNat, natOfBytes, ih hlt, UInt8.toNat_ofNat']
    omega

theorem bytesOfNat_inj {width n n' : Nat} (hn : n < 256 ^ width) (hn' : n' < 256 ^ width)
    (h : bytesOfNat width n = bytesOfNat width n') : n = n' := by
  rw [← natOfBytes_bytesOfNat hn, h, natOfBytes_bytesOfNat hn']

/-! ### What lies ahead -/

namespace Codec

/-- The bytes from `place` on in front of `stop`. -/
def ahead (code : Array UInt8) (stop place : Nat) : List UInt8 :=
  (code.toList.take stop).drop place

variable {code : Array UInt8} {stop place : Nat}

theorem length_ahead : (ahead code stop place).length = min stop code.size - place := by
  simp [ahead]

theorem add_length_le_of_ahead {bs : List UInt8} (h : bs <+: ahead code stop place)
    (hpos : 0 < bs.length) : place + bs.length ≤ min stop code.size := by
  have := h.length_le
  rw [length_ahead] at this
  omega

/-- What lies ahead, divided behind the first bytes of it. -/
theorem ahead_eq_append_iff {bs more : List UInt8} :
    ahead code stop place = bs ++ more ↔
      bs <+: ahead code stop place ∧ ahead code stop (place + bs.length) = more := by
  have hdrop : ahead code stop (place + bs.length) = (ahead code stop place).drop bs.length := by
    rw [ahead, ahead, List.drop_drop]
  rw [hdrop]
  constructor
  · intro h
    rw [h]
    exact ⟨List.prefix_append _ _, List.drop_left⟩
  · rintro ⟨⟨rest, h⟩, rfl⟩
    rw [← h, List.drop_left]

/-- Bytes stand one behind the other. -/
theorem append_prefix_ahead {bs more : List UInt8} :
    bs ++ more <+: ahead code stop place ↔
      bs <+: ahead code stop place ∧ more <+: ahead code stop (place + bs.length) := by
  constructor
  · rintro ⟨rest, h⟩
    rw [List.append_assoc] at h
    obtain ⟨hbs, hmore⟩ := ahead_eq_append_iff.mp h.symm
    exact ⟨hbs, rest, hmore.symm⟩
  · rintro ⟨hbs, rest, hmore⟩
    exact ⟨rest, by rw [ahead_eq_append_iff.mpr ⟨hbs, hmore.symm⟩, List.append_assoc]⟩

/-- Bytes that stand in the code lie ahead of their place. -/
theorem ahead_of_append {done bs rest : List UInt8} (h : code.toList = done ++ bs ++ rest)
    (hs : done.length + bs.length ≤ stop) : bs <+: ahead code stop done.length := by
  have hahead : ahead code stop done.length = (bs ++ rest).take (stop - done.length) := by
    rw [ahead, List.drop_take, h, List.append_assoc, List.drop_left]
  rw [hahead]
  refine List.prefix_take_iff.mpr ⟨List.prefix_append _ _, by omega⟩

theorem bytesAt?_eq_some_iff {count : Nat} {bs : List UInt8} (hpos : 0 < count) :
    bytesAt? code stop place count = some bs ↔
      bs.length = count ∧ bs <+: ahead code stop place := by
  rw [bytesAt?]
  split
  · rename_i hle
    have htake : (code.extract place (place + count)).toList
        = (ahead code stop place).take count := by
      rw [ahead, List.take_drop, List.take_take, Array.toList_extract, List.extract_eq_drop_take',
        Nat.min_eq_left (by omega)]
    have hlen : ((ahead code stop place).take count).length = count := by
      rw [List.length_take, length_ahead]
      omega
    rw [htake, Option.some.injEq]
    constructor
    · rintro rfl
      exact ⟨hlen, List.take_prefix _ _⟩
    · rintro ⟨rfl, h⟩
      exact (List.prefix_iff_eq_take.mp h).symm
  · rename_i hgt
    simp only [reduceCtorEq, false_iff]
    rintro ⟨rfl, h⟩
    exact hgt (add_length_le_of_ahead h hpos)

theorem numberAt?_eq_some_iff {count n : Nat} (hpos : 0 < count) :
    numberAt? code stop place count = some n ↔
      n < 256 ^ count ∧ bytesOfNat count n <+: ahead code stop place := by
  simp only [numberAt?, Option.map_eq_some_iff, bytesAt?_eq_some_iff hpos]
  constructor
  · rintro ⟨bs, ⟨rfl, h⟩, rfl⟩
    exact ⟨natOfBytes_lt bs, by rwa [bytesOfNat_natOfBytes]⟩
  · rintro ⟨hlt, h⟩
    exact ⟨_, ⟨length_bytesOfNat _ _, h⟩, natOfBytes_bytesOfNat hlt⟩

end Codec

/-! ### Operands -/

/-- An operand in the code. -/
inductive EncodedOperand where
  | register (index : UInt8)
  | immediate (value : Int32)
  | label (target : UInt32)
  | native (index : UInt16)
  | raw (content : List UInt8) (short : content.length < 256)

namespace EncodedOperand

/-- The codec of the operand. -/
def codec : EncodedOperand → Codec
  | register _ => .register
  | immediate _ => .immediate
  | label _ => .label
  | native _ => .native
  | raw _ _ => .raw

/-- The bytes of the operand: those of its number, or a length byte and as many bytes. -/
def bytes : EncodedOperand → List UInt8
  | register index => [index]
  | immediate value => bytesOfNat 4 value.toUInt32.toNat
  | label target => bytesOfNat 4 target.toNat
  | native index => bytesOfNat 2 index.toNat
  | raw content _ => UInt8.ofNat content.length :: content

/-- The operand that is read at `place`. -/
def operand (place : Nat) : EncodedOperand → Operand
  | register index => .register index
  | immediate value => .immediate value
  | label target => .label target.toNat
  | native index => .native index.toNat
  | raw content _ => .raw (place + 1) content.length

theorem codec_operand (w : EncodedOperand) (place : Nat) : (w.operand place).codec = w.codec := by
  cases w <;> rfl

/-- The operands that are read from `place` on. -/
def operands (place : Nat) : List EncodedOperand → List Operand
  | [] => []
  | w :: words => w.operand place :: operands (place + w.bytes.length) words

end EncodedOperand

/-- The operand can be kept: the position at which a block begins has 32 bits.  The position that a
label stands for always has, since it is read from four bytes. -/
def Operand.InReach : Operand → Prop
  | .raw start _ => start < UInt32.size
  | .register _ | .immediate _ | .label _ | .native _ => True

namespace Codec

variable {code : Array UInt8} {stop place next : Nat}

/-- What is read has been written there. -/
theorem exists_encoded_of_decode? {codec : Codec} {operand : Operand}
    (h : codec.decode? code stop place = some (operand, next)) :
    operand.InReach ∧ ∃ w : EncodedOperand, w.codec = codec ∧ w.bytes <+: ahead code stop place ∧
      w.operand place = operand ∧ place + w.bytes.length = next := by
  have one : 0 < 1 := by decide
  have two : 0 < 2 := by decide
  have four : 0 < 4 := by decide
  cases codec <;> simp only [decode?, Option.bind_eq_bind, Option.bind_eq_some_iff,
    Option.pure_def, Option.some.injEq, Prod.mk.injEq, numberAt?_eq_some_iff one,
    numberAt?_eq_some_iff two, numberAt?_eq_some_iff four] at h
  case register =>
    obtain ⟨n, ⟨-, h⟩, rfl, rfl⟩ := h
    exact ⟨trivial, .register (UInt8.ofNat n), rfl, h, rfl, rfl⟩
  case immediate =>
    obtain ⟨n, ⟨hlt, h⟩, rfl, rfl⟩ := h
    refine ⟨trivial, .immediate (Int32.ofNat n), rfl, ?_, rfl, by simp [EncodedOperand.bytes]⟩
    have hn : (Int32.ofNat n).toUInt32.toNat = n := UInt32.toNat_ofNat_of_lt' hlt
    rwa [EncodedOperand.bytes, hn]
  case label =>
    obtain ⟨n, ⟨hlt, h⟩, rfl, rfl⟩ := h
    have hn : (UInt32.ofNat n).toNat = n := UInt32.toNat_ofNat_of_lt' hlt
    refine ⟨trivial, .label (UInt32.ofNat n), rfl, ?_, ?_, by simp [EncodedOperand.bytes]⟩
    · rwa [EncodedOperand.bytes, hn]
    · rw [EncodedOperand.operand, hn]
  case native =>
    obtain ⟨n, ⟨hlt, h⟩, rfl, rfl⟩ := h
    have hn : (UInt16.ofNat n).toNat = n := UInt16.toNat_ofNat_of_lt' hlt
    refine ⟨trivial, .native (UInt16.ofNat n), rfl, ?_, ?_, by simp [EncodedOperand.bytes]⟩
    · rwa [EncodedOperand.bytes, hn]
    · rw [EncodedOperand.operand, hn]
  case raw =>
    obtain ⟨length, ⟨hlt, hfirst⟩, h⟩ := h
    split at h
    · obtain ⟨hle, hreach⟩ := ‹_ ∧ _›
      obtain ⟨rfl, rfl⟩ : _ = operand ∧ _ = next := by simpa using h
      -- behind the length byte there are enough bytes for the content
      have hlen : ((ahead code stop (place + 1)).take length).length = length := by
        rw [List.length_take, length_ahead]
        omega
      refine ⟨hreach, .raw ((ahead code stop (place + 1)).take length) (by omega), rfl, ?_, ?_, ?_⟩
      · have := append_prefix_ahead.mpr ⟨hfirst, List.take_prefix length _⟩
        simpa [EncodedOperand.bytes, bytesOfNat, hlen] using this
      · rw [EncodedOperand.operand, hlen]
      · rw [EncodedOperand.bytes, List.length_cons, hlen]
        omega
    · cases h

/-- What has been written is read. -/
theorem decode?_of_encoded {w : EncodedOperand} (hreach : (w.operand place).InReach)
    (hw : w.bytes <+: ahead code stop place) :
    w.codec.decode? code stop place = some (w.operand place, place + w.bytes.length) := by
  have one : 0 < 1 := by decide
  have two : 0 < 2 := by decide
  have four : 0 < 4 := by decide
  cases w with
  | register index =>
    have hb : [index] = bytesOfNat 1 index.toNat := by simp [bytesOfNat]
    rw [EncodedOperand.bytes, hb] at hw
    have := (numberAt?_eq_some_iff one).mpr ⟨index.toNat_lt, hw⟩
    simp [decode?, this, EncodedOperand.codec, EncodedOperand.operand, EncodedOperand.bytes]
  | immediate value =>
    have := (numberAt?_eq_some_iff four).mpr ⟨value.toUInt32.toNat_lt, hw⟩
    have hv : Int32.ofNat value.toUInt32.toNat = value :=
      congrArg Int32.ofUInt32 (UInt32.ofNat_toNat (x := value.toUInt32))
    simp [decode?, this, hv, EncodedOperand.codec, EncodedOperand.operand, EncodedOperand.bytes]
  | label target =>
    have := (numberAt?_eq_some_iff four).mpr ⟨target.toNat_lt, hw⟩
    simp [decode?, this, EncodedOperand.codec, EncodedOperand.operand, EncodedOperand.bytes]
  | native index =>
    have := (numberAt?_eq_some_iff two).mpr ⟨index.toNat_lt, hw⟩
    simp [decode?, this, EncodedOperand.codec, EncodedOperand.operand, EncodedOperand.bytes]
  | raw content short =>
    have hb : UInt8.ofNat content.length :: content
        = bytesOfNat 1 content.length ++ content := rfl
    rw [EncodedOperand.bytes, hb] at hw
    have hle := add_length_le_of_ahead hw (by rw [List.length_append, length_bytesOfNat]; omega)
    have := (numberAt?_eq_some_iff one).mpr ⟨short, (append_prefix_ahead.mp hw).1⟩
    simp only [List.length_append, length_bytesOfNat] at hle
    simp only [decode?, this, EncodedOperand.codec, EncodedOperand.operand, EncodedOperand.bytes,
      Option.bind_eq_bind, Option.bind_some]
    rw [if_pos ⟨by omega, hreach⟩]
    simp
    omega

/-- An operand that stands in the code is read. -/
theorem decode?_of_append {w : EncodedOperand} {done rest : List UInt8}
    (hcode : code.toList = done ++ w.bytes ++ rest) (hstop : done.length + w.bytes.length ≤ stop)
    (hreach : (w.operand done.length).InReach) :
    w.codec.decode? code stop done.length
      = some (w.operand done.length, done.length + w.bytes.length) :=
  decode?_of_encoded hreach (ahead_of_append hcode hstop)

theorem decode?_eq_some_iff {codec : Codec} {operand : Operand} :
    codec.decode? code stop place = some (operand, next) ↔
      operand.InReach ∧ ∃ w : EncodedOperand, w.codec = codec ∧ w.bytes <+: ahead code stop place ∧
        w.operand place = operand ∧ place + w.bytes.length = next := by
  refine ⟨exists_encoded_of_decode?, ?_⟩
  rintro ⟨hreach, w, rfl, hw, rfl, rfl⟩
  exact decode?_of_encoded hreach hw

/-- A block that begins out of reach is not read. -/
theorem decode?_raw_of_far (far : UInt32.size ≤ place + 1) :
    raw.decode? code stop place = none := by
  refine Option.eq_none_iff_forall_ne_some.mpr fun ⟨operand, next⟩ hdecoded => ?_
  obtain ⟨hreach, w, hw, -, rfl, -⟩ := decode?_eq_some_iff.mp hdecoded
  cases w <;> cases hw
  exact absurd hreach (Nat.not_lt.mpr far)

theorem decodeAll?_eq_some_iff {layout : List Codec} {operands : List Operand} :
    decodeAll? layout code stop place = some (operands, next) ↔
      (∀ o ∈ operands, o.InReach) ∧ ∃ words : List EncodedOperand,
        words.map EncodedOperand.codec = layout ∧
        words.flatMap EncodedOperand.bytes <+: ahead code stop place ∧
        EncodedOperand.operands place words = operands ∧
        place + (words.flatMap EncodedOperand.bytes).length = next := by
  induction layout generalizing place operands with
  | nil =>
    simp only [decodeAll?, Option.some.injEq, Prod.mk.injEq, List.map_eq_nil_iff]
    constructor
    · rintro ⟨rfl, rfl⟩
      exact ⟨by simp, [], rfl, List.nil_prefix, rfl, rfl⟩
    · rintro ⟨-, _, rfl, -, rfl, rfl⟩
      exact ⟨rfl, rfl⟩
  | cons codec layout ih =>
    rw [decodeAll?_cons_eq_some_iff]
    constructor
    · rintro ⟨operand, middle, rest, hd, hr, rfl⟩
      obtain ⟨hfirst, w, rfl, hw, rfl, rfl⟩ := decode?_eq_some_iff.mp hd
      obtain ⟨hrest, words, rfl, hwords, rfl, rfl⟩ := ih.mp hr
      refine ⟨List.forall_mem_cons.mpr ⟨hfirst, hrest⟩, w :: words, rfl,
        append_prefix_ahead.mpr ⟨hw, hwords⟩, rfl, ?_⟩
      rw [List.flatMap_cons, List.length_append, Nat.add_assoc]
    · rintro ⟨hreach, words, hlayout, hwords, rfl, rfl⟩
      obtain ⟨w, words, rfl, rfl, rfl⟩ := List.map_eq_cons_iff.mp hlayout
      obtain ⟨hw, hwords⟩ := append_prefix_ahead.mp hwords
      obtain ⟨hfirst, hrest⟩ := List.forall_mem_cons.mp hreach
      refine ⟨_, _, _, decode?_eq_some_iff.mpr ⟨hfirst, w, rfl, hw, rfl, rfl⟩,
        ih.mpr ⟨hrest, words, rfl, hwords, rfl, ?_⟩, rfl⟩
      rw [List.flatMap_cons, List.length_append, Nat.add_assoc]

end Codec

/-- All operands of the instruction can be kept. -/
def Instruction.InReach (i : Instruction) : Prop :=
  ∀ o ∈ i.operands, o.InReach

theorem Instruction.inReach_of_fetch {code : Array UInt8} {place : Nat} {i : Instruction}
    (h : fetch code place = .ok i) : i.InReach := by
  obtain ⟨byte, -, -, hd⟩ := fetch_eq_ok_iff.mp h
  exact (Codec.decodeAll?_eq_some_iff.mp hd).1

/-! ### Unique reading -/

/-- Operands of one codec that begin the same bytes are the same. -/
theorem EncodedOperand.append_inj {w w' : EncodedOperand} (hc : w.codec = w'.codec)
    {more more' : List UInt8} (h : w.bytes ++ more = w'.bytes ++ more') :
    w = w' ∧ more = more' := by
  -- numbers of one width take the same number of bytes
  have number : ∀ {width n n'}, n < 256 ^ width → n' < 256 ^ width →
      bytesOfNat width n ++ more = bytesOfNat width n' ++ more' → n = n' ∧ more = more' := by
    intro width n n' hn hn' h
    obtain ⟨hb, hmore⟩ := List.append_inj h (by simp)
    exact ⟨bytesOfNat_inj hn hn' hb, hmore⟩
  cases w <;> cases w' <;> simp only [codec, reduceCtorEq] at hc
  case register.register i i' =>
    obtain ⟨rfl, hmore⟩ := List.cons.inj h
    exact ⟨rfl, hmore⟩
  case immediate.immediate v v' =>
    obtain ⟨hv, hmore⟩ := number v.toUInt32.toNat_lt v'.toUInt32.toNat_lt h
    have hv : v = v' := congrArg Int32.ofUInt32 (UInt32.toNat_inj.mp hv)
    exact ⟨by rw [hv], hmore⟩
  case label.label t t' =>
    obtain ⟨ht, hmore⟩ := number t.toNat_lt t'.toNat_lt h
    exact ⟨by rw [UInt32.toNat_inj.mp ht], hmore⟩
  case native.native i i' =>
    obtain ⟨hi, hmore⟩ := number i.toNat_lt i'.toNat_lt h
    exact ⟨by rw [UInt16.toNat_inj.mp hi], hmore⟩
  case raw.raw content short content' short' =>
    obtain ⟨hfirst, h⟩ := List.cons.inj h
    have hlen : content.length = content'.length := by
      rw [← UInt8.toNat_inj, UInt8.toNat_ofNat', UInt8.toNat_ofNat'] at hfirst
      omega
    obtain ⟨rfl, hmore⟩ := List.append_inj h hlen
    exact ⟨rfl, hmore⟩

theorem EncodedOperand.appendAll_inj {words words' : List EncodedOperand}
    (hc : words.map codec = words'.map codec) {more more' : List UInt8}
    (h : words.flatMap bytes ++ more = words'.flatMap bytes ++ more') :
    words = words' ∧ more = more' := by
  induction words generalizing words' with
  | nil =>
    obtain rfl : words' = [] := List.map_eq_nil_iff.mp hc.symm
    exact ⟨rfl, h⟩
  | cons w words ih =>
    obtain ⟨w', rest, rfl, hw, hrest⟩ := List.map_eq_cons_iff.mp hc.symm
    rw [List.flatMap_cons, List.flatMap_cons, List.append_assoc, List.append_assoc] at h
    obtain ⟨rfl, htail⟩ := append_inj hw.symm h
    obtain ⟨rfl, hmore⟩ := ih hrest.symm htail
    exact ⟨rfl, hmore⟩

end HookScript
