/-
Faults of hooks, over many calls.

A hook counts the runs that fault, and reports the first few of them and then one in every 1024.
Several hooks are called in any order, on any workers and with any inputs; what one hook counts and
reports depends on its own calls only.

* `Machine.OnlyDebugs` — what scripts write to the log is never as serious as a fault;
* `ScriptHook.reported` — the events of some faults, as the rate lets them through
  (`ScriptHook.length_reported` says how many there are);
* `HookSet.after` — several hooks and their log, after some calls;
* `HookSet.Accounts` — the count and the reports of one hook are those of its faults, which each
  call preserves (`HookSet.Accounts.call`);
* `HookSet.faults_are_counted_and_reported` — what every call answers, and what it adds up to.
-/
import HookScript.Hook.Script
import HookScript.Proofs.Machine.Execution
import Mathlib.Data.List.Induction
import Mathlib.Logic.Function.Basic

namespace HookScript

/-! ### Logs of scripts -/

namespace Machine

/-- The log of the machine holds debugging events only. -/
def OnlyDebugs (m : Machine) : Prop :=
  ∀ event ∈ m.log, event.level = .debug

variable {p : Program} {m m' : Machine}

theorem OnlyDebugs.perform (h : m.OnlyDebugs) (effect : Effect) (operands : List Operand) :
    (effect.perform p operands m).2.OnlyDebugs := by
  cases effect with
  | log count =>
    intro event hevent
    rcases Array.mem_push.mp hevent with hold | rfl
    · exact h event hold
    · rfl
  | call =>
    simp only [Effect.perform, Effect.performCall]
    split
    · split
      · exact h
      · split <;> exact h
    · exact h
  | assign compute =>
    simp only [Effect.perform]
    split <;> exact h
  | jump choose =>
    simp only [Effect.perform]
    split <;> exact h
  | exchange | stop | yield => exact h

theorem OnlyDebugs.step (h : m.OnlyDebugs)
    (hstep : m.step p = .running m' ∨ ∃ result, m.step p = .ended result m') : m'.OnlyDebugs := by
  cases hfetch : Instruction.fetch p.code m.position with
  | error failure =>
    rw [Machine.step, hfetch] at hstep
    rcases hstep with hstep | ⟨_, hstep⟩ <;> cases hstep
    exact h
  | ok i =>
    have hafter := OnlyDebugs.perform (p := p) (m := { m with position := i.next }) h
      i.opcode.builtin.effect i.operands
    rw [step_of_fetch hfetch] at hstep
    split at hstep <;> rename_i heq <;> rw [heq] at hafter <;>
      rcases hstep with hstep | ⟨_, hstep⟩ <;> cases hstep <;> exact hafter

theorem OnlyDebugs.runFor (budget left : Nat) (h : m.OnlyDebugs) :
    ∀ event ∈ (m.runFor p budget left).log, event.level = .debug := by
  induction left generalizing m with
  | zero => exact h
  | succ left ih =>
    rw [Machine.runFor]
    split
    · rename_i heq
      exact ih (h.step (.inl heq))
    · rename_i heq
      exact h.step (.inr ⟨_, heq⟩)

end Machine

theorem Program.run_logs_debug (p : Program) (budget : Nat) (worker : Worker)
    (inputs : List Int32) : ∀ event ∈ (p.run budget worker inputs).log, event.level = .debug :=
  Machine.OnlyDebugs.runFor budget budget (m := p.start worker inputs) nofun

/-! ### Rates -/

namespace ScriptHook

/-- The events of the faults, in order, of which the rate lets some through; faults are numbered
from 1. -/
def reported (name : String) (faults : List RuntimeError) : List Event :=
  ((faults.zipIdx 1).filter fun x => x.2 ≤ 8 ∨ 1024 ∣ x.2).map fun x => faultEvent name x.1 x.2

variable {name : String} {faults : List RuntimeError} {e : RuntimeError}

theorem reported_snoc : reported name (faults ++ [e]) = reported name faults ++
    if faults.length + 1 ≤ 8 ∨ 1024 ∣ faults.length + 1
      then [faultEvent name e (faults.length + 1)] else [] := by
  simp only [reported, List.zipIdx_append, List.filter_append, List.map_append, Nat.add_comm 1,
    List.zipIdx_singleton, List.filter_cons, List.filter_nil, decide_eq_true_eq]
  split <;> rfl

/-- The number of reports. -/
theorem length_reported (name : String) (faults : List RuntimeError) :
    (reported name faults).length = min faults.length 8 + faults.length / 1024 := by
  induction faults using List.reverseRecOn with
  | nil => rfl
  | append_singleton faults e ih =>
    rw [reported_snoc, List.length_append, ih, List.length_append, List.length_singleton]
    split
    · simp only [List.length_singleton]
      omega
    · simp only [List.length_nil]
      omega

/-! ### One call -/

/-- The error that a run of the hook ends by, if it faults. -/
def fault? (h : ScriptHook) (worker : Worker) (inputs : List Int32) : Option RuntimeError :=
  match h.program with
  | some p =>
    match (p.run h.budget worker inputs).result with
    | .ok _ => none
    | .error e => some e
  | none => none

/-- The hook after so many faults. -/
def afterFaults (h : ScriptHook) (n : Nat) : ScriptHook :=
  { h with faults := ⟨n⟩ }

variable {h : ScriptHook} {p : Program} {n : Nat} {worker : Worker} {inputs : List Int32}

/-- A run that does not fault is what the hook answers, and is not counted. -/
theorem invoke_of_ok (program : h.program = some p) {value : Int32}
    (hok : (p.run h.budget worker inputs).result = .ok value) :
    (h.afterFaults n).invoke worker inputs = ⟨value, h.afterFaults n,
      (p.run h.budget worker inputs).worker, (p.run h.budget worker inputs).log.toList⟩ := by
  rw [invoke, show (h.afterFaults n).program = some p from program]
  show runProgram _ p worker inputs = _
  rw [runProgram, show (h.afterFaults n).budget = h.budget from rfl, hok]

/-- For a run that faults the hook answers zero; the fault is counted and, at the rate, reported. -/
theorem invoke_of_error (program : h.program = some p)
    (herr : (p.run h.budget worker inputs).result = .error e) :
    (h.afterFaults n).invoke worker inputs = ⟨0, h.afterFaults (n + 1),
      (p.run h.budget worker inputs).worker, (p.run h.budget worker inputs).log.toList ++
        if n + 1 ≤ 8 ∨ 1024 ∣ n + 1 then [faultEvent h.name e (n + 1)] else []⟩ := by
  rw [invoke, show (h.afterFaults n).program = some p from program]
  show runProgram _ p worker inputs = _
  rw [runProgram, show (h.afterFaults n).budget = h.budget from rfl, herr]
  have hrate : RateLimiter.reports (n + 1) = true ↔ n + 1 ≤ 8 ∨ 1024 ∣ n + 1 := by
    rw [RateLimiter.reports, Bool.or_eq_true, decide_eq_true_eq, decide_eq_true_eq,
      Nat.dvd_iff_mod_eq_zero]
    rfl
  simp only [countFault, RateLimiter.count, afterFaults, hrate]
  split <;> rfl

end ScriptHook

/-! ### Many calls -/

/-- A call of one of several hooks. -/
structure HookCall (ι : Type) where
  hook : ι
  worker : Worker
  inputs : List Int32

/-- Several hooks, and what they have written to the log: every event with the hook that it is
from. -/
structure HookSet (ι : Type) where
  hooks : ι → ScriptHook
  log : List (ι × Event) := []

namespace HookSet

variable {ι : Type} [DecidableEq ι]

/-- Calls one of the hooks. -/
def call (s : HookSet ι) (c : HookCall ι) : HookSet ι :=
  let answer := (s.hooks c.hook).invoke c.worker c.inputs
  ⟨Function.update s.hooks c.hook answer.hook, s.log ++ answer.events.map (c.hook, ·)⟩

/-- The hooks after some calls. -/
def after (hooks : ι → ScriptHook) (calls : List (HookCall ι)) : HookSet ι :=
  calls.foldl call ⟨hooks, []⟩

/-- The error events of one of the hooks. -/
def errorsOf (s : HookSet ι) (i : ι) : List Event :=
  (s.log.filter fun x => x.1 = i ∧ x.2.level = .error).map Prod.snd

/-- The errors of the calls of one of the hooks whose runs fault. -/
def faultsOf (hooks : ι → ScriptHook) (i : ι) (calls : List (HookCall ι)) : List RuntimeError :=
  (calls.filter (·.hook = i)).filterMap fun c => (hooks i).fault? c.worker c.inputs

variable {hooks : ι → ScriptHook} {i : ι} {p : Program} {calls : List (HookCall ι)}
  {s : HookSet ι} {c : HookCall ι} {faults : List RuntimeError}

theorem after_snoc : after hooks (calls ++ [c]) = (after hooks calls).call c := by
  rw [after, List.foldl_append]
  rfl

theorem faultsOf_snoc : faultsOf hooks i (calls ++ [c]) = faultsOf hooks i calls ++
    if c.hook = i then ((hooks i).fault? c.worker c.inputs).toList else [] := by
  simp only [faultsOf, List.filter_append, List.filterMap_append, List.filter_cons, List.filter_nil,
    decide_eq_true_eq]
  split
  · cases hfault : (hooks i).fault? c.worker c.inputs <;> simp [hfault]
  · rfl

theorem errorsOf_call : (s.call c).errorsOf i = s.errorsOf i ++
    if c.hook = i then ((s.hooks c.hook).invoke c.worker c.inputs).events.filter (·.level = .error)
    else [] := by
  rw [errorsOf, call, List.filter_append, List.map_append, ← errorsOf, List.filter_map,
    List.map_map]
  congr 1
  split
  · rename_i heq
    subst heq
    simp [Function.comp_def]
  · rename_i hne
    simp [Function.comp_def, hne]

/-- Since it was `h`, the hook has only had these faults, and has reported them. -/
structure Accounts (s : HookSet ι) (i : ι) (h : ScriptHook) (faults : List RuntimeError) :
    Prop where
  hook : s.hooks i = h.afterFaults faults.length
  errors : s.errorsOf i = ScriptHook.reported h.name faults

/-- A call of another hook is no concern of this one. -/
theorem Accounts.call_other {h : ScriptHook} (account : s.Accounts i h faults) (hne : c.hook ≠ i) :
    (s.call c).Accounts i h faults where
  hook := (Function.update_of_ne hne.symm _ _).trans account.hook
  errors := by rw [errorsOf_call, if_neg hne, List.append_nil, account.errors]

/-- A call of the hook adds its fault, if there is one. -/
theorem Accounts.call_self {h : ScriptHook} (program : h.program = some p)
    (account : s.Accounts i h faults) (heq : c.hook = i) :
    (s.call c).Accounts i h (faults ++ (h.fault? c.worker c.inputs).toList) := by
  subst heq
  have hdebugs := p.run_logs_debug h.budget c.worker c.inputs
  have hquiet : (p.run h.budget c.worker c.inputs).log.toList.filter (·.level = .error) = [] := by
    simpa using fun event hevent => by simp [hdebugs event hevent]
  cases hrun : (p.run h.budget c.worker c.inputs).result with
  | ok value =>
    have hfault : h.fault? c.worker c.inputs = none := by
      rw [ScriptHook.fault?, program]
      simp only [hrun]
    have hanswer := ScriptHook.invoke_of_ok (n := faults.length) program hrun
    rw [← account.hook] at hanswer
    rw [hfault, Option.toList_none, List.append_nil]
    refine ⟨?_, ?_⟩
    · exact (Function.update_self ..).trans (by rw [hanswer, account.hook])
    · rw [errorsOf_call, if_pos rfl, hanswer, hquiet, List.append_nil, account.errors]
  | error e =>
    have hfault : h.fault? c.worker c.inputs = some e := by
      rw [ScriptHook.fault?, program]
      simp only [hrun]
    have hanswer := ScriptHook.invoke_of_error (n := faults.length) program hrun
    rw [← account.hook] at hanswer
    rw [hfault, Option.toList_some]
    refine ⟨?_, ?_⟩
    · exact (Function.update_self ..).trans (by rw [hanswer, List.length_append]; rfl)
    · rw [errorsOf_call, if_pos rfl, hanswer, List.filter_append, hquiet, List.nil_append,
        account.errors, ScriptHook.reported_snoc]
      split <;> rfl

/-- Whatever calls there are, the count and the reports of a hook are those of its faults. -/
theorem accounts_after (program : (hooks i).program = some p)
    (fresh : (hooks i).faults = .fresh) (calls : List (HookCall ι)) :
    (after hooks calls).Accounts i (hooks i) (faultsOf hooks i calls) := by
  induction calls using List.reverseRecOn with
  | nil =>
    refine ⟨?_, rfl⟩
    show hooks i = { hooks i with faults := .fresh }
    rw [← fresh]
  | append_singleton calls c ih =>
    rw [after_snoc, faultsOf_snoc]
    split
    · rename_i heq
      exact ih.call_self program heq
    · rename_i hne
      rw [List.append_nil]
      exact ih.call_other hne

/-- However often several hooks are called, in any order, on any workers and with any inputs: a hook
with a program answers what its run results in, and zero if the run faults; it has counted the calls
whose runs have faulted; and its fault number `k` is reported, with that number, if `k` is at most 8
or a multiple of 1024.  Nothing else that it writes to the log is an error. -/
theorem faults_are_counted_and_reported (program : (hooks i).program = some p)
    (fresh : (hooks i).faults = .fresh) (calls : List (HookCall ι)) :
    let faults := faultsOf hooks i calls
    let s := after hooks calls
    (s.hooks i).faultCount = faults.length ∧
    s.errorsOf i = ScriptHook.reported (hooks i).name faults ∧
    (s.errorsOf i).length = min faults.length 8 + faults.length / 1024 ∧
    ∀ worker inputs,
      let run := p.run (hooks i).budget worker inputs
      let answer := (s.hooks i).invoke worker inputs
      let k := faults.length + 1
      answer.worker = run.worker ∧
      (∀ value, run.result = .ok value → answer.value = value ∧ answer.events = run.log.toList) ∧
      ∀ e, run.result = .error e → answer.value = 0 ∧ answer.events = run.log.toList ++
        if k ≤ 8 ∨ 1024 ∣ k then [ScriptHook.faultEvent (hooks i).name e k] else [] := by
  intro faults s
  obtain ⟨hhook, herrors⟩ := accounts_after program fresh calls
  refine ⟨?_, herrors, ?_, fun worker inputs => ?_⟩
  · exact congrArg ScriptHook.faultCount hhook
  · exact herrors ▸ ScriptHook.length_reported _ _
  · intro run answer k
    cases hrun : run.result with
    | ok value =>
      have hanswer : answer = _ := hhook ▸ ScriptHook.invoke_of_ok program hrun
      rw [hanswer]
      exact ⟨rfl, fun _ heq => ⟨Except.ok.inj heq, rfl⟩, nofun⟩
    | error e =>
      have hanswer : answer = _ := hhook ▸ ScriptHook.invoke_of_error program hrun
      rw [hanswer]
      exact ⟨rfl, nofun, fun _ heq => ⟨rfl, by rw [Except.error.inj heq]⟩⟩

/-- A hook that divides its first input by its second. -/
def ratioHook : ScriptHook :=
  .ofProgram "ratio" { code := #[32, 0, 1, 0], registers := 2, natives := #[] } .mod

/-- Two such hooks are called in turns. -/
def ratioCalls : List (HookCall Bool) :=
  [⟨true, .fresh, [7, 0]⟩, ⟨false, .fresh, [7, 0]⟩, ⟨true, .fresh, [6, 2]⟩, ⟨true, .fresh, [8, 0]⟩]

theorem faults_are_counted_and_reported_ratioCalls :
    ((after (fun _ => ratioHook) ratioCalls).hooks true).faultCount = 2 ∧
      ((after (fun _ => ratioHook) ratioCalls).errorsOf true).length = 2 ∧
      (((after (fun _ => ratioHook) ratioCalls).hooks true).invoke .fresh [9, 0]).value = 0 := by
  have hfaults : (faultsOf (fun _ => ratioHook) true ratioCalls).length = 2 := by decide +kernel
  obtain ⟨hcount, -, hreports, hanswers⟩ :=
    @faults_are_counted_and_reported Bool _ (fun _ => ratioHook) true _ rfl rfl ratioCalls
  rw [hfaults] at hcount hreports
  have hrun : (Program.run { code := #[32, 0, 1, 0], registers := 2, natives := #[] }
      ratioHook.budget .fresh [9, 0]).result = .error ⟨.divisionByZero, "div", 0⟩ := by
    decide +kernel
  exact ⟨hcount, hreports, ((hanswers .fresh [9, 0]).2.2 _ hrun).1⟩

end HookSet

end HookScript
