/-
Images survive being saved.

An image is read off the front of its bytes, whatever stands behind them, as long as its lengths are
numbers that its bytes have room for.  Bytes that stop anywhere before its end are refused.  Each
reader undoes one way of writing:

* `ByteReader.Reads` — the reader takes these bytes off the front and answers with the value;
* `ByteReader.RunsOut` — the reader refuses these bytes if the last of them are missing;
* `Varint.decode_encode` — numbers, up to the greatest one of their width;
* `ByteReader.reads_block`, `reads_text` and `reads_list` — bytes, texts and lists behind their
  lengths;
* `images_are_read_back_whole` — whole images.
-/
import HookScript.Program.Image
import Mathlib.Algebra.GroupWithZero.Nat

namespace HookScript

/-! ### Numbers -/

namespace Varint

/-- A number of one byte is read, unless it is too great for the last byte that is left. -/
theorem decodeWithin_small {lastByte left n : Nat} (h : n < 128)
    (hroom : ¬ (left = 0 ∧ lastByte < n)) (rest : List UInt8) :
    decodeWithin lastByte (left + 1) (encode n ++ rest) = .ok (n, rest) := by
  have hbyte : (UInt8.ofNat n).toNat = n := by
    rw [UInt8.toNat_ofNat']
    omega
  have hlt : UInt8.ofNat n < 128 := by
    rw [UInt8.lt_iff_toNat_lt, hbyte]
    exact h
  rw [encode, if_pos h, List.singleton_append, decodeWithin, if_pos hlt, hbyte, if_neg hroom]

/-- The byte that stands in front of further bytes of a number. -/
theorem toNat_continued (n : Nat) : (UInt8.ofNat (128 + n % 128)).toNat = 128 + n % 128 := by
  rw [UInt8.toNat_ofNat']
  omega

theorem not_lt_continued (n : Nat) : ¬ UInt8.ofNat (128 + n % 128) < 128 := by
  rw [UInt8.lt_iff_toNat_lt, toNat_continued]
  exact Nat.not_lt.mpr (Nat.le_add_right 128 _)

/-- What is left of a number has room in the bytes that are left. -/
theorem div_lt_of_lt {lastByte left n : Nat} (h : n < 128 ^ (left + 1) * (lastByte + 1)) :
    n / 128 < 128 ^ left * (lastByte + 1) := by
  rw [Nat.div_lt_iff_lt_mul (by decide), Nat.mul_right_comm, ← Nat.pow_succ]
  exact h

/-- A number that has room in the bytes that are left is read, and the bytes behind it stay. -/
theorem decodeWithin_encode {lastByte left n : Nat} (hlast : lastByte < 128)
    (h : n < 128 ^ left * (lastByte + 1)) (rest : List UInt8) :
    decodeWithin lastByte (left + 1) (encode n ++ rest) = .ok (n, rest) := by
  induction left generalizing n with
  | zero =>
    -- the last byte is the whole number
    rw [pow_zero, Nat.one_mul] at h
    exact decodeWithin_small (by omega) (by omega) rest
  | succ left ih =>
    by_cases hsmall : n < 128
    · exact decodeWithin_small hsmall (by omega) rest
    · rw [encode, if_neg hsmall, List.cons_append, decodeWithin, if_neg (not_lt_continued n),
        ih (div_lt_of_lt h), toNat_continued]
      have hsum : 128 + n % 128 - 128 + 128 * (n / 128) = n := by omega
      simp only [hsum]

/-- Of a number that has room in the bytes that are left, all bytes are needed. -/
theorem decodeWithin_short {lastByte left n : Nat} (hlast : lastByte < 128)
    (h : n < 128 ^ left * (lastByte + 1)) {front back : List UInt8} (he : encode n = front ++ back)
    (hb : back ≠ []) : decodeWithin lastByte (left + 1) front = .error .endOfBytes := by
  induction left generalizing n front with
  | zero =>
    -- the number is a single byte, which is missing
    rw [pow_zero, Nat.one_mul] at h
    rw [encode, if_pos (by omega)] at he
    rcases List.append_eq_singleton_iff.mp he.symm with ⟨rfl, -⟩ | ⟨-, hnil⟩
    · rfl
    · exact absurd hnil hb
  | succ left ih =>
    cases front with
    | nil => rfl
    | cons byte front =>
      by_cases hsmall : n < 128
      · rw [encode, if_pos hsmall, List.cons_append] at he
        have hnil := (List.cons.inj he).2
        exact absurd (List.append_eq_nil_iff.mp hnil.symm).2 hb
      · rw [encode, if_neg hsmall, List.cons_append] at he
        obtain ⟨rfl, hrest⟩ := List.cons.inj he
        rw [decodeWithin, if_neg (not_lt_continued n), ih (div_lt_of_lt h) hrest]

/-- The numbers of a width are those below this bound. -/
def Width.bound (width : Width) : Nat :=
  128 ^ (width.bytes - 1) * (width.lastByte + 1)

theorem decode_encode {width : Width} (hbytes : 0 < width.bytes) (hlast : width.lastByte < 128)
    {n : Nat} (h : n < width.bound) (rest : List UInt8) :
    decode width (encode n ++ rest) = .ok (n, rest) := by
  have := decodeWithin_encode hlast h rest
  rwa [Nat.sub_add_cancel hbytes] at this

theorem decode_short {width : Width} (hbytes : 0 < width.bytes) (hlast : width.lastByte < 128)
    {n : Nat} (h : n < width.bound) {front back : List UInt8} (he : encode n = front ++ back)
    (hb : back ≠ []) : decode width front = .error .endOfBytes := by
  have := decodeWithin_short hlast h he hb
  rwa [Nat.sub_add_cancel hbytes] at this

end Varint

/-! ### Readers -/

namespace ByteReader

/-- The reader takes the bytes off the front, whatever stands behind them, and answers with the
value. -/
def Reads {α : Type} (reader : ByteReader α) (bytes : List UInt8) (a : α) : Prop :=
  ∀ rest, reader (bytes ++ rest) = .ok (a, rest)

theorem reads_byte (b : UInt8) : Reads byte [b] b := fun _ => rfl

theorem reads_word (n : UInt32) : Reads word (Varint.encode n.toNat) n := by
  intro rest
  have hbound : n.toNat < Varint.Width.word.bound := n.toNat_lt
  rw [word, Varint.decode_encode (by decide) (by decide) hbound]
  simp only [bind, Except.bind, pure, Except.pure, UInt32.ofNat_toNat]

/-- The number of things in front of them, as far as lengths have room for it. -/
theorem decode_length {n : Nat} (h : n < UInt64.size) (rest : List UInt8) :
    Varint.decode .length (Varint.encode n ++ rest) = .ok (n, rest) :=
  Varint.decode_encode (by decide) (by decide) h rest

theorem reads_block {content : List UInt8} (h : content.length < UInt64.size) :
    Reads block (Varint.encode content.length ++ content) content := by
  intro rest
  rw [block, List.append_assoc, decode_length h]
  have hlen : ¬ (content ++ rest).length < content.length := by
    rw [List.length_append]
    omega
  simp only [bind, Except.bind, if_neg hlen, List.splitAt_eq, List.take_left, List.drop_left]
  rfl

/-- The bytes of a text are its text. -/
theorem fromUTF8?_toUTF8 (s : String) :
    String.fromUTF8? s.toUTF8.data.toList.toByteArray = some s := by
  have hbytes : s.toUTF8.data.toList.toByteArray = s.toUTF8 := by
    ext1
    simp
  rw [hbytes, String.fromUTF8?, String.toUTF8_eq_toByteArray, dif_pos s.isValidUTF8]
  rfl

theorem reads_text {s : String} (h : s.toUTF8.data.toList.length < UInt64.size) :
    Reads text (Varint.encode s.toUTF8.data.toList.length ++ s.toUTF8.data.toList) s := by
  intro rest
  rw [text, reads_block h]
  simp only [bind, Except.bind, fromUTF8?_toUTF8]
  rfl

theorem manyOnto_flatMap {α : Type} {reader : ByteReader α} {write : α → List UInt8}
    {values : List α} (h : ∀ a ∈ values, Reads reader (write a) a) (found : Array α)
    (rest : List UInt8) :
    manyOnto reader found values.length (values.flatMap write ++ rest)
      = .ok (found.toList ++ values, rest) := by
  induction values generalizing found with
  | nil => simp [manyOnto]
  | cons a values ih =>
    obtain ⟨ha, hvalues⟩ := List.forall_mem_cons.mp h
    rw [List.length_cons, List.flatMap_cons, List.append_assoc, manyOnto, ha]
    simp only
    rw [ih hvalues, Array.toList_push, List.append_assoc, List.singleton_append]

theorem reads_list {α : Type} {reader : ByteReader α} {write : α → List UInt8} {values : List α}
    (hlength : values.length < UInt64.size) (h : ∀ a ∈ values, Reads reader (write a) a) :
    Reads (list reader) (Varint.encode values.length ++ values.flatMap write) values := by
  intro rest
  rw [list, List.append_assoc, decode_length hlength]
  exact manyOnto_flatMap h #[] rest

/-! ### Bytes that stop too early -/

/-- Without the last of these bytes, however many of them are missing, the reader comes to the end
of what it is given. -/
def RunsOut {α : Type} (reader : ByteReader α) (bytes : List UInt8) : Prop :=
  ∀ front back, bytes = front ++ back → back ≠ [] → reader front = .error .endOfBytes

/-- One reader behind another, which depends on what the first has read. -/
def andThen {α β : Type} (reader : ByteReader α) (next : α → ByteReader β) : ByteReader β :=
  fun bytes => reader bytes >>= fun found => next found.1 found.2

section

variable {α β : Type} {reader : ByteReader α} {next : α → ByteReader β} {bytes more : List UInt8}
  {a : α}

theorem andThen_of_ok {rest : List UInt8} (h : reader bytes = .ok (a, rest)) :
    reader.andThen next bytes = next a rest := by
  rw [andThen, h]
  rfl

theorem andThen_of_error {e : DecodeError} (h : reader bytes = .error e) :
    reader.andThen next bytes = .error e := by
  rw [andThen, h]
  rfl

/-- What comes behind a reader that has run out makes no difference. -/
theorem RunsOut.before (h : RunsOut reader bytes) (next : α → ByteReader β) :
    RunsOut (reader.andThen next) bytes :=
  fun front back hcut hb => andThen_of_error (h front back hcut hb)

/-- Of two readers in a row, the first runs out in the bytes of the first, or it has read them all
and the second runs out in its own. -/
theorem RunsOut.andThen (h : RunsOut reader bytes) (reads : Reads reader bytes a)
    (hnext : RunsOut (next a) more) : RunsOut (reader.andThen next) (bytes ++ more) := by
  intro front back hcut hb
  rcases List.append_eq_append_iff.mp hcut with ⟨part, rfl, hmore⟩ | ⟨part, hbytes, rfl⟩
  · rw [andThen_of_ok (reads part)]
    exact hnext part back hmore hb
  · cases part with
    | nil =>
      rw [List.append_nil] at hbytes
      have hread := reads []
      rw [List.append_nil, hbytes] at hread
      rw [andThen_of_ok hread]
      exact hnext [] more rfl hb
    | cons byte part => exact andThen_of_error (h front _ hbytes (List.cons_ne_nil byte part))

end

theorem runsOut_byte (b : UInt8) : RunsOut byte [b] := by
  intro front back hcut hb
  rcases List.append_eq_singleton_iff.mp hcut.symm with ⟨rfl, -⟩ | ⟨-, hnil⟩
  · rfl
  · exact absurd hnil hb

theorem runsOut_word (n : UInt32) : RunsOut word (Varint.encode n.toNat) := by
  have hbound : n.toNat < Varint.Width.word.bound := n.toNat_lt
  intro front back hcut hb
  rw [word, Varint.decode_short (by decide) (by decide) hbound hcut hb]
  rfl

theorem runsOut_length {n : Nat} (h : n < UInt64.size) :
    RunsOut (Varint.decode .length) (Varint.encode n) :=
  fun _ _ hcut hb => Varint.decode_short (by decide) (by decide) h hcut hb

theorem block_eq : block = andThen (Varint.decode .length) fun length bytes =>
    if bytes.length < length then .error .endOfBytes else .ok (bytes.splitAt length) := by
  funext bytes
  simp only [block, andThen]
  congr 1

theorem runsOut_block {content : List UInt8} (h : content.length < UInt64.size) :
    RunsOut block (Varint.encode content.length ++ content) := by
  rw [block_eq]
  refine (runsOut_length h).andThen (decode_length h) ?_
  rintro front back rfl hb
  have hpos := List.length_pos_iff.mpr hb
  have hshort : front.length < (front ++ back).length := by
    rw [List.length_append]
    omega
  exact if_pos hshort

theorem runsOut_text {s : String} (h : s.toUTF8.data.toList.length < UInt64.size) :
    RunsOut text (Varint.encode s.toUTF8.data.toList.length ++ s.toUTF8.data.toList) := by
  intro front back hcut hb
  rw [text, runsOut_block h front back hcut hb]
  rfl

theorem runsOut_manyOnto {α : Type} {reader : ByteReader α} {write : α → List UInt8}
    {values : List α} (reads : ∀ a ∈ values, Reads reader (write a) a)
    (h : ∀ a ∈ values, RunsOut reader (write a)) (found : Array α) :
    RunsOut (manyOnto reader found values.length) (values.flatMap write) := by
  induction values generalizing found with
  | nil =>
    intro front back hcut hb
    exact absurd (List.append_eq_nil_iff.mp hcut.symm).2 hb
  | cons a values ih =>
    obtain ⟨ha, hvalues⟩ := List.forall_mem_cons.mp h
    obtain ⟨hreads, hrest⟩ := List.forall_mem_cons.mp reads
    have hfirst : manyOnto reader found (values.length + 1)
        = reader.andThen fun next => manyOnto reader (found.push next) values.length := by
      funext bytes
      rw [manyOnto, andThen]
      cases reader bytes <;> rfl
    rw [List.length_cons, List.flatMap_cons, hfirst]
    exact ha.andThen hreads (ih hrest hvalues _)

theorem runsOut_list {α : Type} {reader : ByteReader α} {write : α → List UInt8} {values : List α}
    (hlength : values.length < UInt64.size) (reads : ∀ a ∈ values, Reads reader (write a) a)
    (h : ∀ a ∈ values, RunsOut reader (write a)) :
    RunsOut (list reader) (Varint.encode values.length ++ values.flatMap write) :=
  (runsOut_length hlength).andThen (decode_length hlength) (runsOut_manyOnto reads h #[])

end ByteReader

/-! ### Images -/

/-- The length of the symbol is a number of 64 bits. -/
def NativeReference.Storable (n : NativeReference) : Prop :=
  n.symbol.toUTF8.data.toList.length < UInt64.size

theorem ByteReader.reads_nativeReference {n : NativeReference} (h : n.Storable) :
    Reads nativeReference n.toBytes n := by
  intro rest
  rw [NativeReference.toBytes, List.append_assoc, List.append_assoc, nativeReference, reads_word]
  simp only [bind, Except.bind]
  rw [← List.append_assoc, reads_text h]
  rfl

/-- All lengths in the image are numbers of 64 bits, as those of anything in memory are. -/
structure ProgramImage.Storable (i : ProgramImage) : Prop where
  code : i.code.size < UInt64.size
  natives : i.natives.length < UInt64.size
  symbols : ∀ n ∈ i.natives, n.Storable

theorem ByteReader.reads_image {i : ProgramImage} (h : i.Storable) :
    Reads image i.toBytes i := by
  intro rest
  have hcode : i.code.toList.length < UInt64.size := h.code
  have hreferences : ∀ n ∈ i.natives, Reads nativeReference n.toBytes n := fun n hn =>
    reads_nativeReference (h.symbols n hn)
  rw [ProgramImage.toBytes, ← Array.length_toList]
  simp only [List.append_assoc]
  rw [image, reads_word]
  simp only [bind, Except.bind]
  rw [reads_byte]
  simp only
  rw [← List.append_assoc (Varint.encode _), reads_block hcode]
  simp only
  rw [← List.append_assoc (Varint.encode _), reads_list h.natives hreferences]
  rfl

/-- An image is read from its bytes, whatever stands behind them. -/
theorem ProgramImage.ofBytes_toBytes {i : ProgramImage} (h : i.Storable) (rest : List UInt8) :
    ofBytes (i.toBytes ++ rest) = .ok i := by
  rw [ofBytes, ByteReader.reads_image h]

theorem ByteReader.nativeReference_eq : nativeReference =
    word.andThen fun id => text.andThen fun symbol bytes => .ok (⟨id, symbol⟩, bytes) :=
  rfl

theorem ByteReader.runsOut_nativeReference {n : NativeReference} (h : n.Storable) :
    RunsOut nativeReference n.toBytes := by
  rw [nativeReference_eq, NativeReference.toBytes, List.append_assoc]
  exact (runsOut_word n.id).andThen (reads_word n.id) ((runsOut_text h).before _)

/-- The fields of an image in the order they are read. -/
theorem ByteReader.image_eq : image =
    word.andThen fun format => byte.andThen fun registers => block.andThen fun code =>
      (list nativeReference).andThen fun natives bytes =>
        .ok (⟨format, registers, code.toArray, natives⟩, bytes) :=
  rfl

theorem ByteReader.runsOut_image {i : ProgramImage} (h : i.Storable) :
    RunsOut image i.toBytes := by
  have hcode : i.code.toList.length < UInt64.size := h.code
  have hnatives := runsOut_list h.natives (fun n hn => reads_nativeReference (h.symbols n hn))
    fun n hn => runsOut_nativeReference (h.symbols n hn)
  rw [image_eq, ProgramImage.toBytes, ← Array.length_toList]
  simp only [List.append_assoc]
  rw [← List.append_assoc (Varint.encode i.code.toList.length)]
  refine (runsOut_word i.format).andThen (reads_word i.format) ?_
  refine (runsOut_byte i.registers).andThen (reads_byte i.registers) ?_
  exact (runsOut_block hcode).andThen (reads_block hcode) (hnatives.before _)

/-- An image is read from its bytes, whatever stands behind them, and from no fewer: bytes that stop
before its end are refused, wherever they stop. -/
theorem images_are_read_back_whole {i : ProgramImage} (h : i.Storable) :
    (∀ rest, ProgramImage.ofBytes (i.toBytes ++ rest) = .ok i) ∧
      ∀ front back, i.toBytes = front ++ back → back ≠ [] →
        ProgramImage.ofBytes front = .error (.decode .endOfBytes) := by
  refine ⟨ProgramImage.ofBytes_toBytes h, fun front back hcut hb => ?_⟩
  rw [ProgramImage.ofBytes, ByteReader.runsOut_image h front back hcut hb]

/-- An image whose numbers take one, two and three bytes. -/
def variedImage : ProgramImage :=
  ⟨300, 2, Array.replicate 128 0, [⟨0, "f"⟩, ⟨16384, "Unité.zähle"⟩]⟩

theorem images_are_read_back_whole_variedImage : variedImage.Storable ∧
    (∀ rest, ProgramImage.ofBytes (variedImage.toBytes ++ rest) = .ok variedImage) ∧
      ∀ front back, variedImage.toBytes = front ++ back → back ≠ [] →
        ProgramImage.ofBytes front = .error (.decode .endOfBytes) := by
  have hsymbols : ∀ n ∈ variedImage.natives, n.symbol.toUTF8.data.toList.length < UInt64.size := by
    decide +kernel
  have storable : variedImage.Storable := ⟨by decide +kernel, by decide, hsymbols⟩
  exact ⟨storable, images_are_read_back_whole storable⟩

end HookScript
