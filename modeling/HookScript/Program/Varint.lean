/-
Numbers of variable length.

A number is written in groups of seven bits, the lowest first; every byte but the last has its
highest bit set.  A reader fixes the greatest number of bytes and the greatest value of the last of
them, so that the number fits its type.  Forms with zero groups at the end are accepted.

* `Varint.encode` writes a number, `Varint.decode` reads one.
-/
namespace HookScript

/-- Why bytes cannot be read. -/
inductive DecodeError where
  | endOfBytes
  | unterminatedNumber
  | invalidText
deriving DecidableEq, Repr

/-- The wording of the error. -/
def DecodeError.message : DecodeError → String
  | endOfBytes => "Hit the end of buffer, expected more data"
  | unterminatedNumber =>
    "Found a varint that didn't terminate. Is the usize too big for this platform?"
  | invalidText => "Tried to parse invalid utf-8"

namespace Varint

/-- The bytes of a number. -/
def encode (n : Nat) : List UInt8 :=
  if n < 128 then [UInt8.ofNat n] else UInt8.ofNat (128 + n % 128) :: encode (n / 128)
termination_by n

/-- The width of a type of numbers: the most bytes of a number, and the greatest last byte if all
of them are used. -/
structure Width where
  bytes : Nat
  lastByte : Nat
deriving DecidableEq, Repr

/-- Numbers of 32 bits. -/
def Width.word : Width := ⟨5, 15⟩

/-- Lengths, which have 64 bits. -/
def Width.length : Width := ⟨10, 1⟩

/-- Reads a number of at most `left` bytes, and gives the bytes after it. -/
def decodeWithin (lastByte : Nat) : Nat → List UInt8 → Except DecodeError (Nat × List UInt8)
  | 0, _ => .error .unterminatedNumber
  | _ + 1, [] => .error .endOfBytes
  | left + 1, b :: bytes =>
    if b < 128 then
      if left = 0 ∧ lastByte < b.toNat then .error .unterminatedNumber else .ok (b.toNat, bytes)
    else
      match decodeWithin lastByte left bytes with
      | .error e => .error e
      | .ok (n, rest) => .ok (b.toNat - 128 + 128 * n, rest)

/-- Reads a number of a type of numbers, and gives the bytes after it. -/
def decode (width : Width) (bytes : List UInt8) : Except DecodeError (Nat × List UInt8) :=
  decodeWithin width.lastByte width.bytes bytes

end Varint

end HookScript
