/-
Code under construction.

Bytes are only ever appended.  A label operand is written as four zero bytes, its placeholder,
since the position of its label may not be known yet; when the code is complete, `finish` fills
every placeholder in.

* `CodeBuffer.labelFault?` says whether a label can be bound to the end of the code, and
  `CodeBuffer.bindLabel` binds it.
* `Codec.encode` appends the bytes of an operand.
* `CodeBuffer.finish` is the complete code.
-/
import HookScript.Code.Codec
import HookScript.Text

namespace HookScript

/-- A label that something is wrong with. -/
inductive LabelFault where
  /-- the label has a position already, or it is no label of this code -/
  | alreadyDefined (label : LabelId)
  | unresolved (label : LabelId)
  | codeTooLarge
deriving DecidableEq, Repr

namespace LabelFault

/-- The number of a label in messages. -/
def describeLabel (label : LabelId) : String :=
  "LabelId(" ++ toString label.index ++ ")"

/-- The wording of the fault. -/
def describe : LabelFault → String
  | alreadyDefined label => "AlreadyDefined(" ++ describeLabel label ++ ")"
  | unresolved label => "Unresolved(" ++ describeLabel label ++ ")"
  | codeTooLarge => "CodeTooLarge"

end LabelFault

/-- A placeholder in the code and the label that it waits for. -/
structure Placeholder where
  place : Nat
  label : LabelId
deriving DecidableEq, Repr

/-- Code under construction: its bytes, the positions of its labels, its placeholders. -/
structure CodeBuffer where
  code : Array UInt8 := #[]
  labels : Array (Option Nat) := #[]
  placeholders : Array Placeholder := #[]
deriving DecidableEq, Repr

/-- The position `n` of the code in messages and listings. -/
def positionText (n : Nat) : String :=
  "@" ++ Text.zeroPadded 4 n

namespace CodeBuffer

/-- No code and no labels. -/
def empty : CodeBuffer := {}

/-- The number of bytes. -/
def size (b : CodeBuffer) : Nat := b.code.size

/-- Appends one byte. -/
def push (b : CodeBuffer) (byte : UInt8) : CodeBuffer :=
  { b with code := b.code.push byte }

/-- Appends bytes. -/
def append (b : CodeBuffer) (bytes : List UInt8) : CodeBuffer :=
  { b with code := b.code.appendList bytes }

/-- Appends a value as four bytes. -/
def pushValue (b : CodeBuffer) (value : Int32) : CodeBuffer :=
  b.append (bytesOfNat 4 value.toUInt32.toNat)

/-- Appends a placeholder for the position of a label. -/
def pushLabel (b : CodeBuffer) (label : LabelId) : CodeBuffer :=
  let place := b.code.size
  { b with
    code := b.code.appendList (bytesOfNat 4 0)
    placeholders := b.placeholders.push ⟨place, label⟩ }

/-- The number of labels. -/
def labelCount (b : CodeBuffer) : Nat := b.labels.size

/-- The label that `newLabel` makes next. -/
def nextLabel (b : CodeBuffer) : LabelId := ⟨UInt16.ofNat b.labels.size⟩

/-- Makes a label without a position. -/
def newLabel (b : CodeBuffer) : CodeBuffer :=
  { b with labels := b.labels.push none }

/-- The position of a label, if it has one. -/
def position? (b : CodeBuffer) (label : LabelId) : Option Nat :=
  (b.labels[label.index.toNat]?).join

/-- Whether the label has a position. -/
def isDefined (b : CodeBuffer) (label : LabelId) : Bool :=
  (b.position? label).isSome

/-- What speaks against binding a label to the end of the code. -/
def labelFault? (b : CodeBuffer) (label : LabelId) : Option LabelFault :=
  if UInt32.size ≤ b.size then some .codeTooLarge
  else if b.labels[label.index.toNat]? = some none then none
  else some (.alreadyDefined label)

/-- Binds a label to the end of the code. -/
def bindLabel (b : CodeBuffer) (label : LabelId) : CodeBuffer :=
  let place := b.code.size
  { b with labels := b.labels.setIfInBounds label.index.toNat (some place) }

/-- The code with `bytes` written over those from `place` on. -/
def overwrite (code : Array UInt8) (place : Nat) : List UInt8 → Array UInt8
  | [] => code
  | byte :: bytes => overwrite (code.setIfInBounds place byte) (place + 1) bytes

/-- The code with the given placeholders filled in. -/
def fill (labels : Array (Option Nat)) (code : Array UInt8) :
    List Placeholder → Except LabelFault (Array UInt8)
  | [] => .ok code
  | p :: placeholders =>
    match (labels[p.label.index.toNat]?).join with
    | some target => fill labels (overwrite code p.place (bytesOfNat 4 target)) placeholders
    | none => .error (.unresolved p.label)

/-- The complete code. -/
def finish (b : CodeBuffer) : Except LabelFault (Array UInt8) :=
  fill b.labels b.code b.placeholders.toList

end CodeBuffer

/-! ### Encoding -/

/-- An operand that is to be written into the code. -/
inductive Payload where
  | constant (value : Int32)
  | register (index : UInt8)
  | label (id : LabelId)
  | native (index : UInt16)
  | raw (bytes : List UInt8)
deriving DecidableEq, Repr

/-- The payload in messages. -/
def Payload.describe : Payload → String
  | constant value => "Const(" ++ toString value ++ ")"
  | register index => "Reg(" ++ toString index ++ ")"
  | label id => "Label(" ++ LabelFault.describeLabel id ++ ")"
  | native index => "Native(" ++ toString index ++ ")"
  | raw bytes => "Raw([" ++ ", ".intercalate (bytes.map toString) ++ "])"

/-- A payload that a codec has no bytes for. -/
structure EncodeError where
  codec : Codec
  payload : Payload
deriving DecidableEq, Repr

/-- The wording of the error. -/
def EncodeError.message (e : EncodeError) : String :=
  e.codec.name ++ " codec cannot encode " ++ e.payload.describe

namespace Codec

/-- Whether the codec has bytes for the payload. -/
def canEncode : Codec → Payload → Bool
  | register, .register _ | immediate, .constant _ | label, .label _ | native, .native _ => true
  | raw, .raw bytes => bytes.length < 256
  | _, _ => false

/-- Appends the bytes of a payload; a payload of another kind leaves the code as it is. -/
def write (codec : Codec) (payload : Payload) (b : CodeBuffer) : CodeBuffer :=
  match codec, payload with
  | register, .register index => b.push index
  | immediate, .constant value => b.pushValue value
  | label, .label id => b.pushLabel id
  | native, .native index => b.append (bytesOfNat 2 index.toNat)
  | raw, .raw bytes => (b.push (UInt8.ofNat bytes.length)).append bytes
  | _, _ => b

/-- Appends the bytes of a payload, if the codec has bytes for it. -/
def encode (codec : Codec) (payload : Payload) (b : CodeBuffer) : Except EncodeError CodeBuffer :=
  if codec.canEncode payload then .ok (codec.write payload b) else .error ⟨codec, payload⟩

/-- Appends the bytes of payloads, each by the codec in its place. -/
def encodeAll : List Codec → List Payload → CodeBuffer → Except EncodeError CodeBuffer
  | codec :: layout, payload :: payloads, b => do
    let b ← codec.encode payload b
    encodeAll layout payloads b
  | _, _, b => .ok b

end Codec

end HookScript
