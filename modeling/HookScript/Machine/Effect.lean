/-
What the builtin instructions do.

Most of them compute a value from their operands and store it into the first one
(`Effect.assign`); whatever speaks against the computation is found out before anything is stored.
The others jump, end the script, write to the log, or call a host function.

* `Builtin.effect` is the effect of each instruction.
* `Effect.perform` carries an effect out.
-/
import HookScript.Event
import HookScript.Machine.Arithmetic
import HookScript.Machine.Instruction
import HookScript.Program

namespace HookScript

/-- A program in the middle of a run: the position it goes on at, the worker, the events so far.
Positions have no bound here.  A machine that keeps them in 32 bits does the same in code of less
than 2^32 bytes, where no position needs more. -/
structure Machine where
  position : Nat
  worker : Worker
  log : Array Event
deriving DecidableEq, Repr

/-- The values of the operands of an instruction, by their places. -/
abbrev Values := Nat → Int32

/-- What an instruction does. -/
inductive Effect where
  /-- stores a value, computed from those of the operands, into operand 0 -/
  | assign (compute : Values → Except Fault Int32)
  /-- exchanges operands 0 and 1 -/
  | exchange
  /-- goes on at the label in the operand that is chosen by the values -/
  | jump (choose : Values → Nat)
  /-- ends the script -/
  | stop
  /-- ends the script with the value of operand 0 as its result -/
  | yield
  /-- calls the host function in operand 0 with the operands in operand 1 -/
  | call
  /-- writes the values of so many operands to the log -/
  | log (count : Nat)

namespace Effect

/-- Stores a computed value into operand 0; nothing can go wrong. -/
def store (compute : Values → Int32) : Effect :=
  .assign fun x => .ok (compute x)

end Effect

open Arithmetic in
/-- The effect of a builtin instruction. -/
def Builtin.effect : Builtin → Effect
  | exit | returnResult => .stop
  | returnValue => .yield
  | goto => .jump fun _ => 0
  | set => .store fun x => x 1
  | clear => .store fun _ => 0
  | swap => .exchange
  | add => .store fun x => x 0 + x 1
  | sub => .store fun x => x 0 - x 1
  | mul => .store fun x => x 0 * x 1
  | aggregate => .store fun x => x 0 + x 1 * x 2
  | offset => .store fun x => x 0 * x 1 + x 2
  | offsetMod => .assign fun x => Arithmetic.offsetMod (x 0) (x 1) (x 2) (x 3)
  | div => .assign fun x => divide (x 0) (x 1)
  | mod => .assign fun x => remainder (x 0) (x 1)
  | shl => .store fun x => x 0 <<< x 1
  | shr => .store fun x => x 0 >>> x 1
  | abs => .store fun x => (x 0).abs
  | limit => .store fun x => Arithmetic.limit (x 0) (x 1) (x 2)
  | limitUpper => .store fun x => min (x 0) (x 1)
  | limitLower => .store fun x => max (x 0) (x 1)
  | waveRect => .assign fun x => wave rectangle (x 0) (x 1) (x 2) (x 3)
  | waveSaw => .assign fun x => wave sawtooth (x 0) (x 1) (x 2) (x 3)
  | waveTri => .assign fun x => wave triangle (x 0) (x 1) (x 2) (x 3)
  | getColor => .store fun x => color (x 1)
  | setColor => .store fun x => withColor (x 0) (x 1)
  | getShade => .store fun x => shade (x 1)
  | setShade => .store fun x => withShade (x 0) (x 1)
  | addShade => .store fun x => Arithmetic.addShade (x 0) (x 1)
  | testLe => .jump fun x => if x 0 ≤ x 1 then 2 else 3
  | testEq => .jump fun x => if x 0 = x 1 then 2 else 3
  | call => .call
  | logOne => .log 1
  | logTwo => .log 2

/-- The most operands that a host function is given. -/
def maxOperands : Nat := 16

/-- The log's name for events of scripts. -/
def scriptTarget : String := "modscript::script"

/-- The names of the values that a script writes to the log. -/
def loggedNames : List String := ["a", "b"]

/-- The event of a script that writes the values of its operands to the log. -/
def loggedEvent (count : Nat) (values : Values) : Event :=
  ⟨.debug, scriptTarget, "debug_log",
    (loggedNames.take count).mapIdx fun i name => (name, .number (values i).toInt)⟩

/-- The operands of the host function `binding` in the bytes from `start` on. -/
def NativeBinding.arguments? (binding : NativeBinding) (code : Array UInt8) (start length : Nat) :
    Option (List Operand) :=
  if start + length ≤ code.size then
    (Codec.decodeAll? (binding.layout.take maxOperands) code (start + length) start).map (·.1)
  else
    none

namespace Effect

/-- Calls the host function that the operands name. -/
def performCall (p : Program) (operands : List Operand) (m : Machine) : Outcome × Machine :=
  match operands with
  | .native index :: .raw start length :: _ =>
    match p.native? index with
    | none => (.fail (.native "unknown native index"), m)
    | some binding =>
      match binding.arguments? p.code start length with
      | none => (.fail .truncated, m)
      | some arguments =>
        let (outcome, worker) := binding.routine.run arguments m.worker
        (outcome, { m with worker })
  | _ => (.fail (.native "malformed call"), m)

/-- Carries an effect out on a machine that goes on at the following instruction. -/
def perform (p : Program) (operands : List Operand) (effect : Effect) (m : Machine) :
    Outcome × Machine :=
  let values := m.worker.value operands
  match effect with
  | .assign compute =>
    match compute values with
    | .ok value => (.proceed, { m with worker := m.worker.store operands 0 value })
    | .error fault => (.fail fault, m)
  | .exchange =>
    let (a, b) := (values 0, values 1)
    (.proceed, { m with worker := (m.worker.store operands 0 b).store operands 1 a })
  | .jump choose =>
    match operands[choose values]? with
    | some (.label target) => (.proceed, { m with position := target })
    | _ => (.proceed, m)
  | .stop => (.stop, m)
  | .yield =>
    let registers := m.worker.registers.set 0 (values 0)
    (.stop, { m with worker := { m.worker with registers } })
  | .call => performCall p operands m
  | .log count => (.proceed, { m with log := m.log.push (loggedEvent count values) })

end Effect

end HookScript
