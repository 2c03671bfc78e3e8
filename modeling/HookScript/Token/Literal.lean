/-
The value of a number.

A number is a sign and digits.  After `0x` the digits are hexadecimal: without a minus they stand
for the 32 bits of the value, so that `0xFFFFFFFF` is `-1`; with a minus for the negated value.
All other digits are decimal and stand for the value itself.  A number has no value if it does not
fit the 32 bits of a register.

* `Literal.value?` is the value of a text, `Token.number?` that of a token.
-/
import HookScript.Token

namespace HookScript

namespace Literal

/-- The value of a digit, decimal or hexadecimal. -/
def digitValue (c : Char) : Nat :=
  if c.isDigit then c.toNat - '0'.toNat
  else if 'a' ≤ c then c.toNat - 'a'.toNat + 10
  else c.toNat - 'A'.toNat + 10

/-- The number that `digits` write in `base`. -/
def valueOf (base : Nat) (digits : List Char) : Nat :=
  digits.foldl (fun n c => n * base + digitValue c) 0

/-- The number that decimal digits write. -/
def decimal? (digits : List Char) : Option Nat :=
  if !digits.isEmpty && digits.all Char.isDigit then some (valueOf 10 digits) else none

/-- The number that hexadecimal digits write. -/
def hexadecimal? (digits : List Char) : Option Nat :=
  if !digits.isEmpty && digits.all isHexDigit then some (valueOf 16 digits) else none

/-- The text without a leading sign, and whether that was a minus. -/
def splitSign : List Char → Bool × List Char
  | '-' :: digits => (true, digits)
  | '+' :: digits => (false, digits)
  | digits => (false, digits)

/-- The text without one leading plus. -/
def dropPlus : List Char → List Char
  | '+' :: digits => digits
  | digits => digits

/-- `n` with its sign changed if `negative` holds. -/
def signed (negative : Bool) (n : Int) : Int :=
  if negative then -n else n

/-- The register value of `n`, if it has one. -/
def register? (n : Int) : Option Int32 :=
  if Int32.minValue.toInt ≤ n ∧ n ≤ Int32.maxValue.toInt then some (Int32.ofInt n) else none

/-- The value of hexadecimal digits after a sign. -/
def hexadecimalValue? (negative : Bool) (digits : List Char) : Option Int32 := do
  let n ← hexadecimal? (dropPlus digits)
  if n < UInt32.size then
    if negative then register? (-n) else some (Int32.ofNat n)
  else
    none

/-- The value of decimal digits after a sign.  They may carry a second sign of their own. -/
def decimalValue? (negative : Bool) (digits : List Char) : Option Int32 := do
  let (inner, digits) := splitSign digits
  let n ← decimal? digits
  register? (signed negative (signed inner n))

/-- The value of the characters of a number. -/
def valueOfChars? (cs : List Char) : Option Int32 :=
  match splitSign cs with
  | (negative, '0' :: 'x' :: hex) | (negative, '0' :: 'X' :: hex) => hexadecimalValue? negative hex
  | (negative, digits) => decimalValue? negative digits

/-- The value that the text of a number stands for. -/
def value? (text : String) : Option Int32 :=
  valueOfChars? text.toList

end Literal

namespace Token

/-- The value of a number token. -/
def number? (t : Token) : Option Int32 :=
  match t.kind with
  | .number => Literal.value? t.text
  | _ => none

end Token

end HookScript
