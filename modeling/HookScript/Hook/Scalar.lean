/-
Formula hooks: two integers in, one integer out.

The first input may be overwritten and is the result, the second is read-only.
-/
import HookScript.Hook.Script

namespace HookScript.ScalarHook

/-- The signature of a formula hook with the names of its two inputs. -/
def signature (name result input : String) : HookSignature :=
  (((HookSignature.named name).writable result .int).readOnly input .int).returning 1

/-- The formula applied to two values by a worker. -/
def callWith (h : ScriptHook) (worker : Worker) (value input : Int32) : ScriptHook.Invocation :=
  h.invoke worker [value, input]

/-- The formula applied to two values. -/
def call (h : ScriptHook) (value input : Int32) : ScriptHook.Invocation :=
  callWith h .fresh value input

end HookScript.ScalarHook
