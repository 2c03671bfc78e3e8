/-
Host functions.

A host function is a tree of requests: it asks for an argument or an object, and what it does next
depends on the answer.  It can reach nothing but its own arguments and the objects behind them,
every path of it ends, and the same answers always lead the same way.

* `HostRoutine.run` carries a host function out.
* `HostRoutine.getter` and `HostRoutine.setter` read and write an object by a function of the host.
-/
import HookScript.Machine.Fault
import HookScript.Machine.Worker
import HookScript.Text.Quoted

namespace HookScript

/-- A host function, as its requests and their continuations. -/
inductive HostRoutine where
  /-- is done -/
  | finish (outcome : Outcome)
  /-- asks for the number of arguments -/
  | count (next : Nat → HostRoutine)
  /-- asks for the integer value of argument `i` -/
  | get (i : Nat) (next : Int32 → HostRoutine)
  /-- stores a value into argument `i` -/
  | set (i : Nat) (value : Int32) (next : HostRoutine)
  /-- asks for the object behind the handle in argument `i` -/
  | object (i : Nat) (type : HostType) (next : Option Fields → HostRoutine)
  /-- changes the lent object behind the handle in argument `i`, and asks whether there is one -/
  | modify (i : Nat) (type : HostType) (change : Fields → Fields) (next : Bool → HostRoutine)

namespace HostRoutine

/-- Carries the function out with the given operands as its arguments. -/
def run (operands : List Operand) : HostRoutine → Worker → Outcome × Worker
  | finish outcome, w => (outcome, w)
  | count next, w => run operands (next operands.length) w
  | get i next, w => run operands (next (w.value operands i)) w
  | set i value next, w => run operands next (w.store operands i value)
  | object i type next, w =>
    run operands (next (w.objects.find? type (w.value operands i))) w
  | modify i type change next, w =>
    match w.objects.update? type (w.value operands i) change with
    | some objects => run operands (next true) { w with objects }
    | none => run operands (next false) w

/-- Stores `read` of the object in argument 0 into argument 1, zero if there is no object. -/
def getter (type : HostType) (read : Fields → Int32) : HostRoutine :=
  object 0 type fun fields => set 1 ((fields.map read).getD 0) (finish .proceed)

/-- Changes the object in argument 0 by `write` and the value of argument 1. -/
def setter (type : HostType) (write : Fields → Int32 → Fields) : HostRoutine :=
  get 1 fun value => modify 0 type (write · value) fun _ => finish .proceed

end HostRoutine

/-- A version of a host function: its number in the registry, the name of its operation, the codecs
of its arguments, and what it does. -/
structure NativeBinding where
  id : Nat
  symbol : String
  layout : List Codec
  routine : HostRoutine

/-- The version in a few words, which leave out what it does. -/
def NativeBinding.describe (binding : NativeBinding) : String :=
  "NativeBinding \x7b id: NativeId(" ++ toString binding.id ++ "), symbol: " ++
    Text.quoted binding.symbol ++ ", layout: [" ++
    ", ".intercalate (binding.layout.map Codec.name) ++ "], .. \x7d"

end HookScript
