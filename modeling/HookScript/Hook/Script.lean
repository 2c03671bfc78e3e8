/-
Scripts of hooks.

A hook runs the script of a mod.  If that script is missing or rejected the hook's default script
stands in for it, and if that is missing or rejected too, the hook hands its first input back.
A run that faults yields zero; it is counted, and reported at a limited rate.

* `ScriptHook.load` finds the script of a hook.
* `ScriptHook.invoke` runs it.
-/
import HookScript.Compile.Script
import HookScript.Hook.RateLimiter
import HookScript.Machine.Run

namespace HookScript

/-- Where the script of a hook comes from. -/
inductive ScriptOrigin where
  | mod
  | default
  /-- there is no script, and the first input is the result -/
  | identity
deriving DecidableEq, Repr

/-- A hook that is ready to run. -/
structure ScriptHook where
  name : String
  program : Option Program
  origin : ScriptOrigin
  budget : Nat := Program.defaultBudget
  faults : RateLimiter := .fresh

namespace ScriptHook

/-- The log's name for events of hooks. -/
def target : String := "modscript::hooks"

/-- The event of a mod's script that is rejected; `context` names the mod. -/
def rejectedEvent (hook context : String) (e : CompileError) : Event :=
  ⟨.warning, target, "script rejected, using default",
    [("hook", .text hook), ("context", .text context), ("line", .number e.line),
      ("statement", .text e.statement), ("err", .text e.message)]⟩

/-- The event of a default script that is rejected. -/
def defaultRejectedEvent (hook : String) (e : CompileError) : Event :=
  ⟨.warning, target, "default script rejected, using identity",
    [("hook", .text hook), ("err", .text e.message)]⟩

/-- The event of a run that faults for the `n`-th time. -/
def faultEvent (hook : String) (e : RuntimeError) (n : Nat) : Event :=
  ⟨.error, target, "script fault",
    [("hook", .text hook), ("opcode", .text e.operation), ("pos", .text (positionText e.position)),
      ("fault", .text e.fault.message), ("occurrences", .number n)]⟩

/-- A hook that runs a program. -/
def ofProgram (name : String) (p : Program) (origin : ScriptOrigin) : ScriptHook :=
  { name, program := some p, origin }

/-- A hook without a script. -/
def withoutScript (name : String) : ScriptHook :=
  { name, program := none, origin := .identity }

/-- The hook with another budget for its runs. -/
def withBudget (h : ScriptHook) (budget : Nat) : ScriptHook :=
  { h with budget }

/-- Tries one script of a hook: the hook that runs it, if it compiles, and the event of that or of
its rejection. -/
def attempt? (r : Registry) (signature : HookSignature) (origin : ScriptOrigin)
    (rejected : CompileError → Event) : Option String → Option ScriptHook × List Event
  | none => (none, [])
  | some source =>
    match compile r (some signature) source with
    | .ok p => (some (ofProgram signature.name p origin), [p.compiledEvent])
    | .error e => (none, [rejected e])

/-- The hook with the script of a mod, with its default script or without one, and the events on
the way. -/
def load (r : Registry) (signature : HookSignature) (source : Option String) (context : String) :
    ScriptHook × List Event :=
  match attempt? r signature .mod (rejectedEvent signature.name context) source with
  | (some hook, events) => (hook, events)
  | (none, events) =>
    match attempt? r signature .default (defaultRejectedEvent signature.name)
        signature.defaultScript with
    | (some hook, more) => (hook, events ++ more)
    | (none, more) => (withoutScript signature.name, events ++ more)

/-- What running a hook leads to. -/
structure Invocation where
  value : Int32
  hook : ScriptHook
  worker : Worker
  events : List Event

/-- Counts a fault of the hook, and reports it if it is its turn. -/
def countFault (h : ScriptHook) (e : RuntimeError) : ScriptHook × List Event :=
  let (turn, faults) := h.faults.count
  ({ h with faults }, (turn.map (faultEvent h.name e)).toList)

/-- Runs a program for the hook. -/
def runProgram (h : ScriptHook) (p : Program) (worker : Worker) (inputs : List Int32) :
    Invocation :=
  let run := p.run h.budget worker inputs
  match run.result with
  | .ok value => ⟨value, h, run.worker, run.log.toList⟩
  | .error e =>
    let (h, events) := h.countFault e
    ⟨0, h, run.worker, run.log.toList ++ events⟩

/-- Runs the hook. -/
def invoke (h : ScriptHook) (worker : Worker) (inputs : List Int32) : Invocation :=
  match h.program with
  | some p => h.runProgram p worker inputs
  | none => ⟨inputs.head?.getD 0, h, worker, []⟩

/-- The number of runs of the hook that faulted. -/
def faultCount (h : ScriptHook) : Nat := h.faults.seen

end ScriptHook

end HookScript
