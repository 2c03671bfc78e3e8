/-
Host functions that read and write fields.

A registry may offer getters and setters only.  Scripts then change host objects by setters, and
handles are the only thing that decides which objects these are.  Where a handle comes from does not
matter, and neither does whether the program was compiled.

* `Registry.OnlyAccessors` — the registries, and `Registry.OnlyAccessors.throughout` how a host
  comes to have one;
* `HostObjects.objects_written` and `HostObjects.yields_find?` — what a setter does to the objects,
  and what a getter finds in them;
* `Program.SetterCalls` — the calls of setters among the instructions of a run, in their order;
* `Machine.objects_after` — the objects have been through these calls, and through nothing else.
-/
import HookScript.Proofs.Host.Calls
import HookScript.Proofs.Host.Objects
import HookScript.Proofs.Machine.Budget
import HookScript.Proofs.Registry.Natives

namespace HookScript

/-! ### Registries of getters and setters -/

/-- The host function is a version of a getter or of a setter. -/
inductive NativeBinding.Accessor : NativeBinding → Prop where
  | getter (id version : Nat) (symbol : String) (tag : TypeTag) (type : HostType)
      (read : Fields → Int32) :
      Accessor ⟨id, symbol, Codec.layoutOf [.ptr tag, .intVar] version, .getter type read⟩
  | setter (id version : Nat) (symbol : String) (tag : TypeTag) (type : HostType)
      (write : Fields → Int32 → Fields) :
      Accessor ⟨id, symbol, Codec.layoutOf [.ptre tag, .int] version, .setter type write⟩

/-- Getters and setters have two operands. -/
theorem NativeBinding.Accessor.length_le {binding : NativeBinding} (h : binding.Accessor) :
    binding.layout.length ≤ maxOperands := by
  cases h <;> simp [Codec.layoutOf, maxOperands]

/-- All host functions are getters and setters. -/
def Registry.OnlyAccessors (r : Registry) : Prop :=
  ∀ binding ∈ r.natives, binding.Accessor

/-- The request is for a getter or a setter, or for no host function at all. -/
def Registration.Request.AddsAccessor : Request → Prop
  | .getter .. | .setter .. | .type .. | .standingRegister .. | .constant .. | .keyword ..
  | .hook _ => True
  | .function .. | .method .. | .editingMethod .. => False

namespace Registry.OnlyAccessors

variable {r : Registry}

theorem onward (h : r.OnlyAccessors) {request : Registration.Request} (hr : request.AddsAccessor) :
    (r.onward request.perform).OnlyAccessors := by
  intro binding hb
  rw [Registry.onward] at hb
  split at hb
  · rename_i hx
    rcases request.supplies.of_ok hx binding hb with hb | ⟨f, id, version, hf, rfl⟩
    · exact h binding hb
    · cases request with
      | function | method | editingMethod => exact hr.elim
      | type | standingRegister | constant | keyword | hook => cases hf
      | getter host name read =>
        obtain ⟨tag, -, rfl⟩ := Option.map_eq_some_iff.mp hf
        exact .getter id version _ tag host read
      | setter host name write =>
        obtain ⟨tag, -, rfl⟩ := Option.map_eq_some_iff.mp hf
        exact .setter id version _ tag host write
  · rename_i hx
    exact h binding (request.grows.of_error hx ▸ hb)

/-- Requests for getters and setters lead from such a registry to such a registry. -/
theorem throughout (h : r.OnlyAccessors) {requests : List Registration.Request}
    (hr : ∀ request ∈ requests, request.AddsAccessor) :
    (r.throughout requests).OnlyAccessors := by
  induction requests using List.reverseRecOn with
  | nil => exact h
  | append_singleton requests request ih =>
    rw [throughout_concat]
    exact (ih fun request hm => hr request (by simp [hm])).onward (hr request (by simp))

end Registry.OnlyAccessors

/-! ### Calls of setters -/

/-- A call of a setter: the type of its objects, what it does to their fields, and the handle and
the value that it is given. -/
structure SetterCall where
  type : HostType
  write : Fields → Int32 → Fields
  handle : Int32
  value : Int32

/-- The fields after a call for their object. -/
def SetterCall.change (fields : Fields) (call : SetterCall) : Fields :=
  call.write fields call.value

/-- The call is for an object of the given type at the given place. -/
def SetterCall.IsFor (call : SetterCall) (type : HostType) (place : Nat) : Prop :=
  call.type = type ∧ call.handle.toInt = place + 1

instance (call : SetterCall) (type : HostType) (place : Nat) : Decidable (call.IsFor type place) :=
  inferInstanceAs (Decidable (_ ∧ _))

/-- The object at a place after a call. -/
def HostObject.written (place : Nat) (object : HostObject) (call : SetterCall) : HostObject :=
  if object.access = .lent ∧ call.IsFor object.type place then
    { object with fields := call.change object.fields }
  else
    object

namespace HostObject

variable {place : Nat} {object : HostObject}

theorem foldl_written_shared (h : object.access = .shared) (calls : List SetterCall) :
    calls.foldl (written place) object = object := by
  induction calls with
  | nil => rfl
  | cons call calls ih =>
    rw [List.foldl_cons, written, if_neg (by simp [h]), ih]

/-- Calls change the fields of a lent object if they are for it. -/
theorem foldl_written_lent (h : object.access = .lent) (calls : List SetterCall) :
    calls.foldl (written place) object = { object with
      fields := (calls.filter fun call => call.IsFor object.type place).foldl
        SetterCall.change object.fields } := by
  -- type and access stay the same, so every call is tested alike
  induction calls generalizing object with
  | nil => rfl
  | cons call calls ih =>
    by_cases hfor : call.IsFor object.type place
    · have hrest := @ih { object with fields := call.change object.fields } h
      rw [List.foldl_cons, written, if_pos ⟨h, hfor⟩, hrest, List.filter_cons_of_pos (by simpa),
        List.foldl_cons]
    · rw [List.foldl_cons, written, if_neg (fun hc => hfor hc.2), ih h,
        List.filter_cons_of_neg (by simpa)]

end HostObject

namespace HostObjects

variable {h : HostObjects} {type : HostType} {handle : Int32} {place : Nat}

/-- A handle designates the place that is one less. -/
theorem place?_eq_some_iff : place? handle = some place ↔ handle.toInt = place + 1 := by
  simp only [place?, Int32.lt_iff_toInt_lt, Int32.toInt_zero]
  split
  · rw [Option.some.injEq]
    omega
  · simp only [reduceCtorEq, false_iff]
    omega

theorem object?_eq_some_iff {object : HostObject} :
    h.object? type handle = some object ↔ ∃ place : Nat, handle.toInt = place + 1 ∧
      h.objects[place]? = some object ∧ object.type = type := by
  simp only [object?, Option.bind_eq_bind, Option.bind_eq_some_iff, ite_eq_iff,
    Option.some.injEq, reduceCtorEq, and_false, or_false, place?_eq_some_iff]
  constructor
  · rintro ⟨place, hplace, found, hfound, htype, rfl⟩
    exact ⟨place, hplace, hfound, htype⟩
  · rintro ⟨place, hplace, hfound, htype⟩
    exact ⟨place, hplace, object, hfound, htype, rfl⟩

/-- A lent object of the given type is changed if the handle designates it. -/
theorem update?_eq_some_iff {change : Fields → Fields} {h' : HostObjects} :
    h.update? type handle change = some h' ↔ ∃ (place : Nat) (object : HostObject),
      handle.toInt = place + 1 ∧ h.objects[place]? = some object ∧ object.type = type ∧
        object.access = .lent ∧ h' = ⟨h.objects.setIfInBounds place
          { object with fields := change object.fields }⟩ := by
  simp only [update?, Option.bind_eq_bind, Option.bind_eq_some_iff, place?_eq_some_iff,
    object?_eq_some_iff]
  constructor
  · rintro ⟨place, hplace, object, ⟨place', hplace', hfound, htype⟩, h⟩
    obtain rfl : place' = place := by omega
    split at h
    · cases h
    · rename_i hlent
      exact ⟨place', object, hplace, hfound, htype, hlent, (Option.some.inj h).symm⟩
  · rintro ⟨place, object, hplace, hfound, htype, hlent, rfl⟩
    refine ⟨place, hplace, object, ⟨place, hplace, hfound, htype⟩, ?_⟩
    rw [hlent]

/-- The objects after a call. -/
def written (h : HostObjects) (call : SetterCall) : HostObjects :=
  (h.update? call.type call.handle (call.write · call.value)).getD h

/-- A call changes the lent object that it is for, if there is one. -/
theorem objects_written (h : HostObjects) (call : SetterCall) :
    (h.written call).objects
      = h.objects.mapIdx fun place object => object.written place call := by
  refine Array.ext_getElem? fun place => ?_
  rw [Array.getElem?_mapIdx, written]
  cases hupdate : h.update? call.type call.handle (call.write · call.value) with
  | none =>
    -- the call is for no lent object
    rw [Option.getD_none]
    cases hfound : h.objects[place]? with
    | none => rfl
    | some object =>
      rw [Option.map_some, HostObject.written, if_neg]
      rintro ⟨hlent, htype, hplace⟩
      rw [update?_eq_some_iff.mpr
        ⟨place, object, hplace, hfound, htype.symm, hlent, rfl⟩] at hupdate
      cases hupdate
  | some h' =>
    obtain ⟨meant, object, hmeant, hfound, htype, hlent, rfl⟩ := update?_eq_some_iff.mp hupdate
    rw [Option.getD_some]
    by_cases heq : meant = place
    · subst heq
      obtain ⟨hlt, -⟩ := Array.getElem?_eq_some_iff.mp hfound
      rw [hfound, Option.map_some, HostObject.written, if_pos ⟨hlent, htype.symm, hmeant⟩,
        Array.getElem?_setIfInBounds_self_of_lt hlt]
      rfl
    · rw [Array.getElem?_setIfInBounds_ne heq]
      cases h.objects[place]? with
      | none => rfl
      | some other =>
        rw [Option.map_some, HostObject.written, if_neg]
        rintro ⟨-, -, hplace⟩
        omega

/-- The objects have been through the calls, in their order: they are as many as before, shared
objects are the same, and a lent one has been changed by the calls for it. -/
structure WrittenBy (before : HostObjects) (calls : List SetterCall) (after : HostObjects) :
    Prop where
  size : after.size = before.size
  shared : ∀ (place : Nat) (object : HostObject), before.objects[place]? = some object →
    object.access = .shared → after.objects[place]? = some object
  lent : ∀ (place : Nat) (object : HostObject), before.objects[place]? = some object →
    object.access = .lent → after.objects[place]? = some { object with
      fields := (calls.filter fun call => call.IsFor object.type place).foldl
        SetterCall.change object.fields }

theorem objects_foldl_written (h : HostObjects) (calls : List SetterCall) :
    (calls.foldl written h).objects
      = h.objects.mapIdx fun place object => calls.foldl (HostObject.written place) object := by
  induction calls generalizing h with
  | nil =>
    refine Array.ext_getElem? fun place => ?_
    simp
  | cons call calls ih =>
    rw [List.foldl_cons, ih, objects_written, Array.mapIdx_mapIdx]
    rfl

theorem writtenBy_foldl (h : HostObjects) (calls : List SetterCall) :
    h.WrittenBy calls (calls.foldl written h) := by
  refine ⟨?_, fun place object hobject haccess => ?_, fun place object hobject haccess => ?_⟩
  · rw [size, objects_foldl_written, Array.size_mapIdx, size]
  · rw [objects_foldl_written, Array.getElem?_mapIdx, hobject, Option.map_some,
      HostObject.foldl_written_shared haccess]
  · rw [objects_foldl_written, Array.getElem?_mapIdx, hobject, Option.map_some,
      HostObject.foldl_written_lent haccess]

/-! ### What getters find -/

/-- What a getter finds behind a handle: what it reads of the object of its type that the handle
designates, and zero if there is none. -/
inductive Yields (h : HostObjects) (type : HostType) (read : Fields → Int32) (handle : Int32) :
    Int32 → Prop where
  | object {place : Nat} {object : HostObject} (found : h.objects[place]? = some object)
      (designated : handle.toInt = place + 1) (own : object.type = type) :
      Yields h type read handle (read object.fields)
  | none (absent : ∀ (place : Nat) (object : HostObject), h.objects[place]? = some object →
      handle.toInt = place + 1 → object.type ≠ type) : Yields h type read handle 0

theorem yields_find? (h : HostObjects) (type : HostType) (read : Fields → Int32)
    (handle : Int32) :
    h.Yields type read handle (((h.find? type handle).map read).getD 0) := by
  cases hobject : h.object? type handle with
  | none =>
    rw [find?, hobject]
    refine .none fun place object hfound hdesignated hown => ?_
    rw [object?_eq_some_iff.mpr ⟨place, hdesignated, hfound, hown⟩] at hobject
    cases hobject
  | some object =>
    obtain ⟨place, hdesignated, hfound, hown⟩ := object?_eq_some_iff.mp hobject
    rw [find?, hobject]
    exact .object hfound hdesignated hown

end HostObjects

namespace HostRoutine

variable {type : HostType} {handle : UInt8}

/-- A getter writes what it finds to its output register, and does nothing else. -/
theorem run_getter (read : Fields → Int32) (out : UInt8) (w : Worker) :
    ∃ value, w.objects.Yields type read (w.registers.get handle) value ∧
      (getter type read).run [.register handle, .register out] w
        = (.proceed, { w with registers := w.registers.set out value }) :=
  ⟨_, w.objects.yields_find? type read (w.registers.get handle), rfl⟩

/-- A setter changes the objects as its call says, and does nothing else. -/
theorem run_setter (write : Fields → Int32 → Fields) (operand : Operand) (w : Worker) :
    let value := w.value [.register handle, operand] 1
    (setter type write).run [.register handle, operand] w
      = (.proceed, { w with
          objects := w.objects.written ⟨type, write, w.registers.get handle, value⟩ }) := by
  have hhandle : w.value [.register handle, operand] 0 = w.registers.get handle := rfl
  simp only [setter, run, hhandle, HostObjects.written]
  split
  · rename_i objects hupdate
    rw [hupdate, Option.getD_some]
  · rename_i hupdate
    rw [hupdate, Option.getD_none]

end HostRoutine

/-! ### Calls of getters and setters -/

theorem NativeBinding.map_codec_of_arguments? {binding : NativeBinding} {code : Array UInt8}
    {start length : Nat} {arguments : List Operand}
    (h : binding.arguments? code start length = some arguments) :
    arguments.map Operand.codec = binding.layout.take maxOperands := by
  rw [arguments?] at h
  split at h
  · obtain ⟨⟨_, next⟩, hd, rfl⟩ := Option.map_eq_some_iff.mp h
    exact Codec.map_codec_of_decodeAll? hd
  · cases h

theorem Operand.exists_register {operand : Operand} (h : operand.codec = .register) :
    ∃ index, operand = .register index := by
  cases operand <;> first | exact ⟨_, rfl⟩ | cases h

namespace Program

variable {p : Program} {i : Instruction} {binding : NativeBinding} {arguments : List Operand}

/-- The first operand of a getter or a setter is a register, and so is the second one of a
getter. -/
theorem Calls.operands_of_accessor (h : p.Calls i binding arguments) (ha : binding.Accessor) :
    ∃ handle operand, arguments = [.register handle, operand] ∧
      ((∃ type read, binding.routine = .getter type read ∧ ∃ out, operand = .register out) ∨
        ∃ type write, binding.routine = .setter type write) := by
  obtain ⟨index, start, length, -, -, harguments⟩ := h
  have hcodecs := NativeBinding.map_codec_of_arguments? harguments
  -- either layout has two codecs, the first of which is that of a register
  cases ha with
  | getter id version symbol tag type read =>
    obtain ⟨a, _, rfl, hfirst, hrest⟩ := List.map_eq_cons_iff.mp hcodecs
    obtain ⟨b, _, rfl, hsecond, hrest⟩ := List.map_eq_cons_iff.mp hrest
    obtain rfl := List.map_eq_nil_iff.mp hrest
    obtain ⟨handle, rfl⟩ := Operand.exists_register hfirst
    obtain ⟨out, rfl⟩ := Operand.exists_register hsecond
    exact ⟨handle, _, rfl, .inl ⟨type, read, rfl, out, rfl⟩⟩
  | setter id version symbol tag type write =>
    obtain ⟨a, _, rfl, hfirst, hrest⟩ := List.map_eq_cons_iff.mp hcodecs
    obtain ⟨b, _, rfl, -, hrest⟩ := List.map_eq_cons_iff.mp hrest
    obtain rfl := List.map_eq_nil_iff.mp hrest
    obtain ⟨handle, rfl⟩ := Operand.exists_register hfirst
    exact ⟨handle, b, rfl, .inr ⟨type, write, rfl⟩⟩

/-- The machine stands in front of a call of the host function with the operands. -/
structure CallsAt (p : Program) (m : Machine) (i : Instruction) (routine : HostRoutine)
    (arguments : List Operand) : Prop where
  fetched : Instruction.fetch p.code m.position = .ok i
  call : i.opcode.builtin = .call
  calls : ∃ binding, p.Calls i binding arguments ∧ binding.routine = routine

/-- The machine stands in front of the call of a setter. -/
def Sets (p : Program) (m : Machine) (call : SetterCall) : Prop :=
  ∃ i handle operand, p.CallsAt m i (.setter call.type call.write) [.register handle, operand] ∧
    call.handle = m.worker.registers.get handle ∧
    call.value = m.worker.value [.register handle, operand] 1

/-- The machine stands in front of the call of a getter, to which it gives the handle in the one
register and the other register for its output. -/
def Gets (p : Program) (m : Machine) (i : Instruction) (type : HostType) (read : Fields → Int32)
    (handle out : UInt8) : Prop :=
  p.CallsAt m i (.getter type read) [.register handle, .register out]

/-- The calls of setters among the instructions that the machines stand in front of, in their
order. -/
inductive SetterCalls (p : Program) : List Machine → List SetterCall → Prop where
  | nil : SetterCalls p [] []
  | setter {m : Machine} {ms : List Machine} {call : SetterCall} {calls : List SetterCall}
      (sets : p.Sets m call) (rest : SetterCalls p ms calls) :
      SetterCalls p (m :: ms) (call :: calls)
  | other {m : Machine} {ms : List Machine} {calls : List SetterCall}
      (sets : ∀ call, ¬ p.Sets m call) (rest : SetterCalls p ms calls) :
      SetterCalls p (m :: ms) calls

theorem exists_setterCalls (p : Program) (ms : List Machine) :
    ∃ calls, p.SetterCalls ms calls := by
  induction ms with
  | nil => exact ⟨[], .nil⟩
  | cons m ms ih =>
    obtain ⟨calls, hcalls⟩ := ih
    by_cases h : ∃ call, p.Sets m call
    · obtain ⟨call, hsets⟩ := h
      exact ⟨call :: calls, .setter hsets hcalls⟩
    · exact ⟨calls, .other (not_exists.mp h) hcalls⟩

end Program

/-! ### Steps -/

namespace Machine

variable {p : Program} {m : Machine} {i : Instruction}

theorem step_of_callsAt {routine : HostRoutine} {arguments : List Operand}
    (h : p.CallsAt m i routine arguments) :
    m.step p = m.afterCall i.next (routine.run arguments m.worker) := by
  obtain ⟨fetched, hcall, binding, hcalls, rfl⟩ := h
  exact step_of_calls fetched hcall hcalls

/-- The call of a getter goes on with what it has found in its output register. -/
theorem step_of_gets {type : HostType} {read : Fields → Int32} {handle out : UInt8}
    (h : p.Gets m i type read handle out) :
    ∃ value, m.worker.objects.Yields type read (m.worker.registers.get handle) value ∧
      m.step p = .running { m with
        position := i.next
        worker := { m.worker with registers := m.worker.registers.set out value } } := by
  obtain ⟨value, hvalue, hrun⟩ := HostRoutine.run_getter read out m.worker
  refine ⟨value, hvalue, ?_⟩
  rw [step_of_callsAt h, hrun, afterCall]

theorem step_of_sets {call : SetterCall} (h : p.Sets m call) :
    ∃ m', m.step p = .running m' ∧ m'.worker.objects = m.worker.objects.written call := by
  obtain ⟨i, handle, operand, hcalls, hhandle, hvalue⟩ := h
  rw [step_of_callsAt hcalls, HostRoutine.run_setter, afterCall, ← hhandle, ← hvalue]
  exact ⟨_, rfl, rfl⟩

/-- An instruction that is no call of a setter leaves all objects as they are. -/
theorem objects_of_not_sets (ha : ∀ binding ∈ p.natives, binding.Accessor)
    (fetched : Instruction.fetch p.code m.position = .ok i) (h : ∀ call, ¬ p.Sets m call) :
    (m.step p).machine.worker.objects = m.worker.objects := by
  by_cases hc : i.opcode.builtin.effect = .call
  · have hcall := Builtin.eq_call_of_effect hc
    by_cases hcalls : ∃ binding arguments, p.Calls i binding arguments
    · obtain ⟨binding, arguments, hcalls⟩ := hcalls
      have hmem : binding ∈ p.natives := by
        obtain ⟨index, -, -, -, hb, -⟩ := hcalls
        exact Array.mem_of_getElem? hb
      obtain ⟨handle, operand, rfl, ⟨type, read, hr, out, rfl⟩ | ⟨type, write, hr⟩⟩ :=
        hcalls.operands_of_accessor (ha binding hmem)
      · obtain ⟨value, -, hstep⟩ := step_of_gets ⟨fetched, hcall, binding, hcalls, hr⟩
        rw [hstep, Step.machine]
      · exact absurd ⟨i, handle, operand, ⟨fetched, hcall, binding, hcalls, hr⟩, rfl, rfl⟩
          (h ⟨type, write, _, _⟩)
    · -- a call that does not come to pass changes nothing
      rw [machine_step_of_fetch fetched, hc]
      obtain ⟨index, start, length, ho, -⟩ := Instruction.operands_of_call fetched hcall
      rw [ho, Effect.perform, Effect.performCall]
      dsimp only
      split
      · rfl
      · rename_i binding hb
        split
        · rfl
        · rename_i arguments harguments
          exact absurd ⟨binding, arguments, index, start, length, ho, hb, harguments⟩ hcalls
  · rw [machine_step_of_fetch fetched]
    exact Effect.objects_perform hc p i.operands _

/-! ### Runs -/

/-- The objects that the loop has come to have been through the calls of setters that it has carried
out. -/
theorem objects_after (ha : ∀ binding ∈ p.natives, binding.Accessor) {n : Nat}
    {calls : List SetterCall} (h : p.SetterCalls (m.trace p n) calls) :
    (m.after p n).machine.worker.objects = calls.foldl HostObjects.written m.worker.objects := by
  -- machine and calls change with every round, so they are part of what the induction is about
  induction n generalizing m calls with
  | zero =>
    cases h
    rfl
  | succ n ih =>
    rw [trace] at h
    rw [after]
    cases hfetch : Instruction.fetch p.code m.position with
    | error e =>
      rw [hfetch] at h
      cases h
      rw [step, hfetch]
      rfl
    | ok i =>
      rw [hfetch] at h
      cases h with
      | @setter _ _ call calls sets rest =>
        obtain ⟨m', hstep, hobjects⟩ := step_of_sets sets
        rw [hstep] at rest ⊢
        rw [ih rest, hobjects, List.foldl_cons]
      | other sets rest =>
        have hobjects := objects_of_not_sets ha hfetch sets
        cases hstep : m.step p with
        | running m' =>
          rw [hstep] at rest hobjects
          rw [← hobjects]
          exact ih rest
        | ended result m' =>
          rw [hstep] at rest hobjects
          cases rest
          exact hobjects

end Machine

namespace Program

theorem worker_run (p : Program) (budget : Nat) (worker : Worker) (inputs : List Int32) :
    (p.run budget worker inputs).worker
      = ((p.start worker inputs).after p budget).machine.worker := by
  cases h : (p.start worker inputs).after p budget with
  | running m =>
    rw [run_of_running h]
    rfl
  | ended result m =>
    rw [run_of_ended h]
    rfl

theorem Obtained.accessors {r : Registry} (hr : r.Sound) (ha : r.OnlyAccessors) {p : Program}
    (h : p.Obtained r) : ∀ binding ∈ p.natives, binding.Accessor := by
  intro binding hb
  obtain ⟨id, hid⟩ := h.registered hr binding hb
  exact ha binding (Array.mem_of_getElem? hid)

/-- Every call in verified code is that of a getter or of a setter. -/
theorem sets_or_gets {p : Program} (ha : ∀ binding ∈ p.natives, binding.Accessor) {m : Machine}
    {i : Instruction} (fetched : Instruction.fetch p.code m.position = .ok i)
    (accepted : p.Accepts none i.operands) (hc : i.opcode.builtin = .call) :
    (∃ call, p.Sets m call) ∨ ∃ type read handle out, p.Gets m i type read handle out := by
  obtain ⟨binding, arguments, hcalls, -, -⟩ :=
    exists_calls fetched accepted hc fun binding hb => (ha binding hb).length_le
  obtain ⟨index, start, length, ho, hb, harguments⟩ := hcalls
  have hcalls : p.Calls i binding arguments := ⟨index, start, length, ho, hb, harguments⟩
  obtain ⟨handle, operand, rfl, ⟨type, read, hr, out, rfl⟩ | ⟨type, write, hr⟩⟩ :=
    hcalls.operands_of_accessor (ha binding (Array.mem_of_getElem? hb))
  · exact .inr ⟨type, read, handle, out, fetched, hc, binding, hcalls, hr⟩
  · exact .inl ⟨⟨type, write, _, _⟩, i, handle, operand, ⟨fetched, hc, binding, hcalls, hr⟩, rfl,
      rfl⟩

/-- With getters and setters as the only host functions, the objects after a run, however it has
ended, have been through the calls of setters that the run has carried out, and through nothing
else.  Every call in the run is that of a getter or of a setter, and a getter writes what it finds
to its output register, and does nothing else. -/
theorem accessors_change_matching_objects {r : Registry} (hr : r.Built) (ha : r.OnlyAccessors)
    {p : Program} (obtained : p.Obtained r) (worker : Worker) (inputs : List Int32)
    (budget : Nat) :
    (∃ calls, p.SetterCalls ((p.start worker inputs).trace p budget) calls) ∧
      (∀ calls, p.SetterCalls ((p.start worker inputs).trace p budget) calls →
        worker.objects.WrittenBy calls (p.run budget worker inputs).worker.objects) ∧
      (∀ m ∈ (p.start worker inputs).trace p budget, ∀ i,
        Instruction.fetch p.code m.position = .ok i → i.opcode.builtin = .call →
          (∃ call, p.Sets m call) ∨ ∃ type read handle out, p.Gets m i type read handle out) ∧
      ∀ m ∈ (p.start worker inputs).trace p budget, ∀ i type read handle out,
        p.Gets m i type read handle out →
          ∃ value, m.worker.objects.Yields type read (m.worker.registers.get handle) value ∧
            m.step p = .running { m with
              position := i.next
              worker := { m.worker with registers := m.worker.registers.set out value } } := by
  have haccessors := obtained.accessors hr.sound ha
  obtain ⟨-, tiles, ht, hc⟩ := verify_eq_ok_iff.mp obtained.verify
  refine ⟨p.exists_setterCalls _, fun calls hcalls => ?_, fun m hm i fetched hcall => ?_,
    fun m _ i type read handle out hgets => Machine.step_of_gets hgets⟩
  · rw [worker_run, Machine.objects_after haccessors hcalls]
    exact worker.objects.writtenBy_foldl calls
  · -- the instruction is one of the verified ones
    obtain ⟨hreach, -⟩ := Machine.exists_fetch_of_mem_trace hm
    have hplace := Machine.position_of_reaches ht hc hreach ht.place_mem
    have htile := Machine.exists_tile_of_fetch ht hplace fetched
    exact sets_or_gets haccessors fetched (ht.of_mem htile).2 hcall

/-- A type of units, whose health scripts can read and write. -/
def unitRequests : List Registration.Request :=
  [.type ⟨"Unit"⟩ "Unit", .getter ⟨"Unit"⟩ "health" fun fields => fields.getD 0 0,
    .setter ⟨"Unit"⟩ "setHealth" fun fields health => fields.setIfInBounds 0 health]

/-- An image that makes up the handle of the second object, and heals what it designates by 5. -/
def forgedHandle : ProgramImage where
  format := ProgramImage.currentFormat
  registers := 2
  code := #[5, 1, 2, 0, 0, 0, 90, 0, 0, 2, 1, 0, 9, 0, 5, 0, 0, 0, 90, 1, 0, 2, 1, 0, 0]
  natives := [⟨0, "Unit.health"⟩, ⟨2, "Unit.setHealth"⟩]

/-- A worker with a shared unit and a lent one. -/
def unitWorker : Worker where
  objects := ⟨#[⟨⟨"Unit"⟩, .shared, #[3]⟩, ⟨⟨"Unit"⟩, .lent, #[7]⟩]⟩

theorem accessors_change_matching_objects_forgedHandle : ∃ (r : Registry) (p : Program), r.Built ∧
    r.OnlyAccessors ∧ forgedHandle.link r = .ok p ∧
    (p.run 10 unitWorker []).worker.objects
      = ⟨#[⟨⟨"Unit"⟩, .shared, #[3]⟩, ⟨⟨"Unit"⟩, .lent, #[12]⟩]⟩ ∧
    ∃ calls, p.SetterCalls ((p.start unitWorker []).trace p 10) calls ∧
      unitWorker.objects.WrittenBy calls (p.run 10 unitWorker []).worker.objects := by
  obtain ⟨r₀, hr₀, h⟩ := Registry.exists_standard {} (fun r₀ => decide (r₀.natives.size = 0) &&
    (forgedHandle.link (r₀.throughout unitRequests)).toOption.any fun p : Program =>
      decide ((p.run 10 unitWorker []).worker.objects
        = ⟨#[⟨⟨"Unit"⟩, .shared, #[3]⟩, ⟨⟨"Unit"⟩, .lent, #[12]⟩]⟩)) (by decide +kernel)
  obtain ⟨hempty, h⟩ := Bool.and_eq_true_iff.mp h
  obtain ⟨p, hp, hobjects⟩ := exists_ok h
  have hbuilt := (r₀.later_throughout unitRequests).built (.of_standard hr₀)
  have hnone : r₀.OnlyAccessors := by
    intro binding hb
    rw [Array.eq_empty_of_size_eq_zero (of_decide_eq_true hempty)] at hb
    simp at hb
  have hrequests : ∀ request ∈ unitRequests, request.AddsAccessor := by
    simp [unitRequests, Registration.Request.AddsAccessor]
  have haccessors := hnone.throughout hrequests
  obtain ⟨⟨calls, hcalls⟩, hwritten, -⟩ :=
    accessors_change_matching_objects hbuilt haccessors (.linked hp) unitWorker [] 10
  exact ⟨_, p, hbuilt, haccessors, hp, of_decide_eq_true hobjects, calls, hcalls,
    hwritten calls hcalls⟩

end Program

end HookScript
