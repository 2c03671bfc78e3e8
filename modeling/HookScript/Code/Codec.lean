/-
Operands and their encodings.

Every operand of an instruction has a codec, which fixes its bytes: one byte for a register, four
for an immediate or a position in the code, two for a host function, and a length byte followed by
that many bytes for the operands of a host function.  Numbers are little-endian.

* `Codec.decode?` reads an operand from the code; it reads nothing at or past a given end, and no
  block that begins where positions have more than 32 bits.
* `Codec.layoutOf` are the codecs of one version of an overload.
-/
import HookScript.Symbol

namespace HookScript

/-! ### Little-endian numbers -/

/-- The `width` lowest bytes of `n`, the lowest first. -/
def bytesOfNat : Nat → Nat → List UInt8
  | 0, _ => []
  | width + 1, n => UInt8.ofNat n :: bytesOfNat width (n / 256)

/-- The number whose bytes are given, the lowest first. -/
def natOfBytes : List UInt8 → Nat
  | [] => 0
  | b :: bytes => b.toNat + 256 * natOfBytes bytes

@[simp] theorem length_bytesOfNat (width n : Nat) : (bytesOfNat width n).length = width := by
  induction width generalizing n with
  | zero => rfl
  | succ width ih => simp [bytesOfNat, ih]

/-! ### Operands -/

/-- An operand as the machine sees it. -/
inductive Operand where
  | register (index : UInt8)
  | immediate (value : Int32)
  /-- a position in the code -/
  | label (target : Nat)
  /-- a host function, by its place in the program -/
  | native (index : Nat)
  /-- the operands of a host function: where their bytes begin and how many there are -/
  | raw (start length : Nat)
deriving DecidableEq, Repr

/-- The encoding of an operand. -/
inductive Codec where
  | register
  | immediate
  | label
  | native
  | raw
deriving DecidableEq, Repr

namespace Codec

/-- The name of the codec in messages. -/
def name : Codec → String
  | register => "register"
  | immediate => "immediate"
  | label => "label"
  | native => "native"
  | raw => "raw"

/-- The `count` bytes of the code from `at` on, if they lie in front of `stop`. -/
def bytesAt? (code : Array UInt8) (stop place count : Nat) : Option (List UInt8) :=
  if place + count ≤ min stop code.size then some (code.extract place (place + count)).toList
  else none

/-- The number in the `count` bytes from `place` on. -/
def numberAt? (code : Array UInt8) (stop place count : Nat) : Option Nat :=
  (bytesAt? code stop place count).map natOfBytes

/-- The operand at `place` in the code in front of `stop`, and the place after it.  The position at
which a block begins must have 32 bits. -/
def decode? (codec : Codec) (code : Array UInt8) (stop place : Nat) : Option (Operand × Nat) :=
  match codec with
  | register => do
    let n ← numberAt? code stop place 1
    return (.register (UInt8.ofNat n), place + 1)
  | immediate => do
    let n ← numberAt? code stop place 4
    return (.immediate (Int32.ofNat n), place + 4)
  | label => do
    let n ← numberAt? code stop place 4
    return (.label n, place + 4)
  | native => do
    let n ← numberAt? code stop place 2
    return (.native n, place + 2)
  | raw => do
    let length ← numberAt? code stop place 1
    if place + 1 + length ≤ min stop code.size ∧ place + 1 < UInt32.size then
      return (.raw (place + 1) length, place + 1 + length)
    else
      none

/-- The operands of a layout from `place` on, and the place after them. -/
def decodeAll? (layout : List Codec) (code : Array UInt8) (stop place : Nat) :
    Option (List Operand × Nat) :=
  match layout with
  | [] => some ([], place)
  | codec :: layout => do
    let (operand, place) ← codec.decode? code stop place
    let (operands, place) ← decodeAll? layout code stop place
    return (operand :: operands, place)

/-- An operand is never empty. -/
theorem lt_of_decode? {codec : Codec} {code : Array UInt8} {stop place next : Nat}
    {operand : Operand} (h : codec.decode? code stop place = some (operand, next)) :
    place < next := by
  cases codec <;> simp only [decode?, Option.bind_eq_bind, Option.bind_eq_some_iff,
    Option.pure_def, Option.some.injEq, Prod.mk.injEq] at h
  case raw =>
    obtain ⟨length, -, h⟩ := h
    split at h
    · simp only [Option.some.injEq, Prod.mk.injEq] at h; omega
    · simp at h
  all_goals obtain ⟨n, -, -, rfl⟩ := h; omega

theorem le_of_decodeAll? {layout : List Codec} {code : Array UInt8} {stop place next : Nat}
    {operands : List Operand} (h : decodeAll? layout code stop place = some (operands, next)) :
    place ≤ next := by
  induction layout generalizing place operands with
  | nil => simp [decodeAll?] at h; omega
  | cons codec layout ih =>
    simp only [decodeAll?, Option.bind_eq_bind, Option.bind_eq_some_iff, Option.pure_def,
      Option.some.injEq, Prod.mk.injEq, Prod.exists] at h
    obtain ⟨operand, middle, hd, operands, last, hr, -, rfl⟩ := h
    exact Nat.le_trans (Nat.le_of_lt (lt_of_decode? hd)) (ih hr)

/-! ### Layouts -/

/-- The codec of a parameter under one of its choices. -/
def ofParameter (p : Parameter) (choice : Nat) : Codec :=
  match p with
  | .int => if choice = 0 then immediate else register
  | .intVar | .ptr _ | .ptre _ => register
  | .label => label
  | .native => native
  | .raw => raw

/-- The codecs of one version of an overload. -/
def layoutOf (params : List Parameter) (version : Nat) : List Codec :=
  List.zipWith ofParameter params (choicesOf params version)

end Codec

end HookScript
