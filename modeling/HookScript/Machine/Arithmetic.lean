/-
The arithmetic of registers: 32-bit integers that wrap around.

Besides the usual operations there are a modulo whose result has the sign of the modulus, three
wave forms, and operations on pixels.  A pixel holds its shade in the low four bits and its colour
group in the four above.

* `offsetMod`, `divide` and `remainder` have no value for a zero divisor, the wave forms none for
  a period that is not positive.
* `addShade` darkens a pixel and stays within its colour group.
-/
import HookScript.Machine.Fault

namespace HookScript.Arithmetic

/-- `n` modulo `d`, in the sign of `d`; computed in 64 bits, which hold every step. -/
def floorMod (n d : Int32) : Int32 :=
  let n := n.toInt64
  let d := d.toInt64
  ((n % d + d) % d).toInt32

/-- `a * b + c` modulo `d`, in the sign of `d`. -/
def offsetMod (a b c d : Int32) : Except Fault Int32 :=
  if d = 0 then .error .divisionByZero else .ok (floorMod (a * b + c) d)

/-- The quotient toward zero. -/
def divide (a b : Int32) : Except Fault Int32 :=
  if b = 0 then .error .divisionByZero else .ok (a / b)

/-- The remainder of the quotient toward zero. -/
def remainder (a b : Int32) : Except Fault Int32 :=
  if b = 0 then .error .divisionByZero else .ok (a % b)

/-- `a` between `lower` and `upper`; where these cross, `lower` wins. -/
def limit (a lower upper : Int32) : Int32 :=
  max (min a upper) lower

/-! ### Waves -/

/-- The phase of `x` in a positive period, from zero on. -/
def phase (x period : Int32) : Int32 :=
  let r := x % period
  if r < 0 then r + period else r

/-- A wave of the given shape at `x`. -/
def wave (shape : Int32 → Int32 → Int32 → Int32) (x period width height : Int32) :
    Except Fault Int32 :=
  if period ≤ 0 then .error .nonPositivePeriod
  else .ok (shape (phase x period) width height)

/-- The height in the width of the wave, then zero. -/
def rectangle (phase width height : Int32) : Int32 :=
  if width < phase then 0 else height

/-- A ramp up to the height in the width of the wave, then zero. -/
def sawtooth (phase width height : Int32) : Int32 :=
  if width < phase then 0 else min phase height

/-- A ramp up and down in the width of the wave, cut off at the height, then zero. -/
def triangle (phase width height : Int32) : Int32 :=
  if width < phase then 0
  else min (if width / 2 < phase then width - phase else phase) height

/-! ### Pixels -/

/-- The bits of a pixel that hold its shade. -/
def shadeMask : Int32 := 0xF

/-- The bits of a palette pixel that hold its colour group. -/
def colorMask : Int32 := 0xF0

/-- The colour group of a pixel. -/
def color (pixel : Int32) : Int32 := pixel >>> 4

/-- The pixel in another colour group. -/
def withColor (pixel color : Int32) : Int32 := (pixel &&& shadeMask) ||| (color <<< 4)

/-- The shade of a pixel. -/
def shade (pixel : Int32) : Int32 := pixel &&& shadeMask

/-- The pixel in another shade. -/
def withShade (pixel shade : Int32) : Int32 := (pixel &&& colorMask) ||| (shade &&& shadeMask)

/-- The pixel darkened by `steps` within its colour group. -/
def addShade (pixel steps : Int32) : Int32 :=
  let shaded := (pixel &&& shadeMask) + steps
  if shadeMask < shaded then pixel ||| shadeMask
  else if 0 < shaded then (pixel &&& colorMask) ||| shaded
  else pixel &&& colorMask

end HookScript.Arithmetic
