/-
The builtin instructions: their names, parameters and descriptions.

Several of them may share a name; they are then overloads of one operation.  `Builtin.all` lists
them in the order of their opcodes.
-/
import HookScript.Types

namespace HookScript

/-- A builtin instruction, before its operands have encodings. -/
inductive Builtin where
  | exit
  /-- `return` without a value -/
  | returnResult
  /-- `return` with a value -/
  | returnValue
  | goto
  | set
  | clear
  | swap
  | add
  | sub
  | mul
  | aggregate
  | offset
  | offsetMod
  | div
  | mod
  | shl
  | shr
  | abs
  | limit
  | limitUpper
  | limitLower
  | waveRect
  | waveSaw
  | waveTri
  | getColor
  | setColor
  | getShade
  | setShade
  | addShade
  | testLe
  | testEq
  | call
  /-- `debug_log` of one value -/
  | logOne
  /-- `debug_log` of two values -/
  | logTwo
deriving DecidableEq, Repr

namespace Builtin

/-- All builtin instructions in the order of their opcodes. -/
def all : List Builtin :=
  [exit, returnResult, returnValue, goto, set, clear, swap, add, sub, mul, aggregate, offset,
    offsetMod, div, mod, shl, shr, abs, limit, limitUpper, limitLower, waveRect, waveSaw, waveTri,
    getColor, setColor, getShade, setShade, addShade, testLe, testEq, call, logOne, logTwo]

/-- The name in scripts. -/
def name : Builtin → String
  | exit => "exit"
  | returnResult | returnValue => "return"
  | goto => "goto"
  | set => "set"
  | clear => "clear"
  | swap => "swap"
  | add => "add"
  | sub => "sub"
  | mul => "mul"
  | aggregate => "aggregate"
  | offset => "offset"
  | offsetMod => "offsetmod"
  | div => "div"
  | mod => "mod"
  | shl => "shl"
  | shr => "shr"
  | abs => "abs"
  | limit => "limit"
  | limitUpper => "limit_upper"
  | limitLower => "limit_lower"
  | waveRect => "wavegen_rect"
  | waveSaw => "wavegen_saw"
  | waveTri => "wavegen_tri"
  | getColor => "get_color"
  | setColor => "set_color"
  | getShade => "get_shade"
  | setShade => "set_shade"
  | addShade => "add_shade"
  | testLe => "test_le"
  | testEq => "test_eq"
  | call => "call"
  | logOne | logTwo => "debug_log"

/-- What the instruction takes. -/
def params : Builtin → List Parameter
  | exit | returnResult => []
  | returnValue | logOne => [.int]
  | logTwo => [.int, .int]
  | goto => [.label]
  | clear | abs => [.intVar]
  | swap => [.intVar, .intVar]
  | set | add | sub | mul | div | mod | shl | shr | limitUpper | limitLower
  | getColor | setColor | getShade | setShade | addShade => [.intVar, .int]
  | aggregate | offset | limit => [.intVar, .int, .int]
  | offsetMod | waveRect | waveSaw | waveTri => [.intVar, .int, .int, .int]
  | testLe | testEq => [.int, .int, .label, .label]
  | call => [.native, .raw]

/-- What the instruction does, in a few words about its operands `a`, `b`, `c`, `d`. -/
def doc : Builtin → String
  | exit | returnResult => "end the script, result is r0"
  | returnValue => "end the script with the given result"
  | goto => "jump to label"
  | set => "a = b"
  | clear => "a = 0"
  | swap => "exchange a and b"
  | add => "a = a + b"
  | sub => "a = a - b"
  | mul => "a = a * b"
  | aggregate => "a = a + b * c"
  | offset => "a = a * b + c"
  | offsetMod => "a = (a * b + c) modulo d, result in the sign of d"
  | div => "a = a / b, error if b is 0"
  | mod => "a = a % b, error if b is 0"
  | shl => "a = a << b"
  | shr => "a = a >> b (arithmetic)"
  | abs => "a = |a|"
  | limit => "clamp a into b..=c"
  | limitUpper => "a = min(a, b)"
  | limitLower => "a = max(a, b)"
  | waveRect => "rectangle wave: period b, width c, height d"
  | waveSaw => "sawtooth wave: period b, width c, height d"
  | waveTri => "triangle wave: period b, width c, height d"
  | getColor => "a = color group of pixel b"
  | setColor => "replace color group of a with b"
  | getShade => "a = shade of pixel b"
  | setShade => "replace shade of a with b"
  | addShade => "darken a by b, saturating"
  | testLe => "jump to c if a <= b, else to d"
  | testEq => "jump to c if a == b, else to d"
  | call => "call a host function"
  | logOne => "log a value"
  | logTwo => "log two values"

/-- The number of versions, one opcode each. -/
def versions (b : Builtin) : Nat :=
  (versionCount? b.params).getD 0

theorem mem_all (b : Builtin) : b ∈ all := by
  cases b <;> decide

end Builtin

end HookScript
