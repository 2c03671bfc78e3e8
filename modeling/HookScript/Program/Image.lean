/-
Images: programs without their registry, as they are saved.

An image names the host functions of its program by number and by operation; linking finds them
again in a registry, if they still agree, and verifies the code.  The bytes of an image are its
fields in order: numbers of variable length, one byte for the number of registers, and lists and
texts with their lengths in front.  Bytes after an image are ignored.

* `Program.image` is the image of a program, `ProgramImage.link` the way back.
* `ProgramImage.toBytes` and `ProgramImage.ofBytes` write and read an image.
-/
import HookScript.Program.Varint
import HookScript.Program.Verify
import HookScript.Registry

namespace HookScript

/-- A host function that an image refers to. -/
structure NativeReference where
  id : UInt32
  symbol : String
deriving DecidableEq, Repr

/-- A program without its registry. -/
structure ProgramImage where
  format : UInt32
  registers : UInt8
  code : Array UInt8
  natives : List NativeReference
deriving DecidableEq, Repr

/-- Why an image cannot be read or linked. -/
inductive LinkError where
  | decode (error : DecodeError)
  | format (found : UInt32)
  | unknownNative (symbol : String)
  | tooManyRegisters (registers : UInt8) (capacity : Nat)
  | verify (error : VerifyError)
deriving DecidableEq, Repr

namespace ProgramImage

/-- The format of the images that can be linked. -/
def currentFormat : UInt32 := 1

end ProgramImage

/-- The wording of the error. -/
def LinkError.message : LinkError → String
  | decode error => "cannot decode program image: " ++ error.message
  | format found =>
    "image format " ++ toString found ++ " is not supported (expected " ++
      toString ProgramImage.currentFormat ++ ")"
  | unknownNative symbol => "native function '" ++ symbol ++ "' is not registered"
  | tooManyRegisters registers capacity =>
    "image uses " ++ toString registers ++ " registers but the registry provides " ++
      toString capacity
  | verify error => "image failed verification: " ++ error.message

/-- The image of a program. -/
def Program.image (p : Program) : ProgramImage where
  format := ProgramImage.currentFormat
  registers := p.registers
  code := p.code
  natives := p.natives.toList.map fun n => ⟨UInt32.ofNat n.id, n.symbol⟩

/-! ### Bytes -/

/-- A way to read a value off the front of bytes. -/
abbrev ByteReader (α : Type) := List UInt8 → Except DecodeError (α × List UInt8)

namespace ByteReader

/-- Reads one byte. -/
def byte : ByteReader UInt8
  | [] => .error .endOfBytes
  | b :: bytes => .ok (b, bytes)

/-- Reads a number of 32 bits. -/
def word : ByteReader UInt32 := fun bytes => do
  let (n, bytes) ← Varint.decode .word bytes
  return (UInt32.ofNat n, bytes)

/-- Reads as many bytes as the length in front of them says. -/
def block : ByteReader (List UInt8) := fun bytes => do
  let (length, bytes) ← Varint.decode .length bytes
  if bytes.length < length then
    throw .endOfBytes
  return bytes.splitAt length

/-- Reads a text. -/
def text : ByteReader String := fun bytes => do
  let (content, bytes) ← block bytes
  match String.fromUTF8? content.toByteArray with
  | some s => return (s, bytes)
  | none => throw .invalidText

/-- Reads `n` values after those in `found`. -/
def manyOnto {α : Type} (reader : ByteReader α) (found : Array α) : Nat → ByteReader (List α)
  | 0, bytes => .ok (found.toList, bytes)
  | n + 1, bytes =>
    match reader bytes with
    | .error e => .error e
    | .ok (a, bytes) => manyOnto reader (found.push a) n bytes

/-- Reads as many values as the length in front of them says. -/
def list {α : Type} (reader : ByteReader α) : ByteReader (List α) := fun bytes => do
  let (length, bytes) ← Varint.decode .length bytes
  manyOnto reader #[] length bytes

/-- Reads a reference to a host function. -/
def nativeReference : ByteReader NativeReference := fun bytes => do
  let (id, bytes) ← word bytes
  let (symbol, bytes) ← text bytes
  return (⟨id, symbol⟩, bytes)

/-- Reads an image. -/
def image : ByteReader ProgramImage := fun bytes => do
  let (format, bytes) ← word bytes
  let (registers, bytes) ← byte bytes
  let (code, bytes) ← block bytes
  let (natives, bytes) ← list nativeReference bytes
  return (⟨format, registers, code.toArray, natives⟩, bytes)

end ByteReader

/-- The bytes of a reference to a host function. -/
def NativeReference.toBytes (n : NativeReference) : List UInt8 :=
  let symbol := n.symbol.toUTF8.data.toList
  Varint.encode n.id.toNat ++ Varint.encode symbol.length ++ symbol

namespace ProgramImage

/-- The bytes of an image. -/
def toBytes (i : ProgramImage) : List UInt8 :=
  Varint.encode i.format.toNat ++ [i.registers] ++ Varint.encode i.code.size ++ i.code.toList ++
    Varint.encode i.natives.length ++ i.natives.flatMap NativeReference.toBytes

/-- The image at the front of bytes. -/
def ofBytes (bytes : List UInt8) : Except LinkError ProgramImage :=
  match ByteReader.image bytes with
  | .ok (i, _) => .ok i
  | .error e => .error (.decode e)

/-! ### Linking -/

/-- The host function that a reference means. -/
def findNative (r : Registry) (n : NativeReference) : Except LinkError NativeBinding :=
  match r.native? n.id.toNat with
  | some binding =>
    if binding.symbol = n.symbol then .ok binding else .error (.unknownNative n.symbol)
  | none => .error (.unknownNative n.symbol)

/-- The program of an image, with the host functions of a registry. -/
def link (r : Registry) (i : ProgramImage) : Except LinkError Program := do
  if i.format ≠ currentFormat then
    throw (.format i.format)
  if r.config.registers < i.registers.toNat then
    throw (.tooManyRegisters i.registers r.config.registers)
  let natives ← i.natives.mapM (findNative r)
  let p : Program := ⟨i.code, i.registers, natives.toArray⟩
  match p.verify with
  | .ok () => return p
  | .error e => throw (.verify e)

end ProgramImage

end HookScript
