/-
Calls of host functions.

A host function is registered with the parameters of its overload.  A statement whose arguments pick
that overload becomes a call, and when a run comes to the call, the host function is carried out on
the very arguments of the statement.

* `Statement.Calls` — what a statement comes to emit, whatever its form;
* `host_functions_receive_arguments` — what the host function is given.
-/
import HookScript.Proofs.Compile.Lines
import HookScript.Proofs.Control.Instructions
import HookScript.Proofs.Machine.Isolation
import HookScript.Proofs.Registry.Functions

namespace HookScript

/-! ### Lines of calls -/

/-- The overload of a host function takes constants and registers, and its line calls a version of
the host function with them. -/
theorem HostFunction.yields {r : Registry} (hr : r.Sound) {f : HostFunction} {first : Nat}
    (hf : f.EnteredAt r first) {name : String} {op : Operation}
    (hop : r.operation? name = some op) {arguments bound : List Argument}
    (hsel : op.select r arguments = .ok ⟨f.params, .native first, f.doc⟩)
    (hb : List.Forall₂ Argument.Binds arguments bound) {natives : Array NativeBinding} {l : Line}
    (hy : Overload.Yields r natives ⟨f.params, .native first, f.doc⟩ bound l) :
    arguments.all Argument.isValue = true ∧ ∃ slot binding,
      l = ⟨.call, 0, [.native slot, .raw (assemble (fun _ => 0)
        ((arguments.map Argument.payload).map Payload.piece))]⟩ ∧
      natives[slot.toNat]? = some binding ∧ binding.routine = f.routine ∧
      binding.layout.length ≤ maxOperands ∧
      Encodable binding.layout (arguments.map Argument.payload) := by
  obtain ⟨symbol, params, doc, routine⟩ := f
  obtain ⟨ho, score, hfits, -⟩ := Operation.select_eq_ok hsel
  have hs := Overload.forall_of_totalScore? hfits
  -- with a label among the arguments, a builtin instruction would have been chosen
  have hlabel : ∀ a ∈ arguments, ¬ a.IsLabel := by
    intro a ha hlabel
    obtain ⟨i, hi⟩ := List.mem_iff_getElem?.mp ha
    obtain ⟨b, doc, ho, -⟩ := Operation.exists_builtin_of_label hr hop hsel hi hlabel
    cases congrArg Overload.target ho
  have hunknown : ∀ unknown, .unknown unknown ∉ arguments := fun unknown hm => hlabel _ hm trivial
  obtain rfl := Argument.eq_of_binds hb hunknown
  refine ⟨Argument.all_isValue hs hunknown fun id hm => hlabel _ hm trivial, ?_⟩
  cases hr.overloads name op hop _ ho with
  | native _ _ few _ =>
    cases hy with
    | @native _ _ _ _ slot binding version registered valid placed encodable =>
      have hbinding := registered.symm.trans (hf version valid)
      cases hbinding
      exact ⟨slot, _, rfl, placed, rfl, Nat.le_trans (by simp [Codec.layoutOf]) few, encodable⟩

/-! ### Statements that emit an operation -/

/-- Compiling the statement from the draft `d` on comes to emit the operation with the arguments,
from the draft `d₁` to the draft `d₂`: the operation is that of the statement, or a member of its
object, or one that a keyword of the host asks for. -/
inductive Statement.Calls (r : Registry) (s : Statement) (d : Draft) :
    Operation → List Argument → Draft → Draft → Prop where
  | call {op : Operation} {arguments : List Argument} {d₁ d₂ : Draft}
      (labelled : Drafting.statementLabel r s { d with span := s.span } = .ok () d₁)
      (operation : r.operation? s.name.text = some op) (form : op.form = .call)
      (resolved : d₁.resolveAll r s.arguments = .ok arguments)
      (emitted : Drafting.emit r op arguments d₁ = .ok () d₂) : Calls r s d op arguments d₁ d₂
  | member {op : Operation} {object : Argument} {arguments : List Argument} {d₁ d₂ : Draft}
      (labelled : Drafting.statementLabel r s { d with span := s.span } = .ok () d₁)
      (operation : r.operation? s.name.text = none)
      (member : Drafting.memberOperation? r d₁ s.name.text = some (op, object))
      (resolved : d₁.resolveAll r s.arguments = .ok arguments)
      (emitted : Drafting.emit r op (object :: arguments) d₁ = .ok () d₂) :
      Calls r s d op (object :: arguments) d₁ d₂
  | keyword {op keyword : Operation} {form : Statement → Expansion} {name : String}
      {arguments : List Argument} {next : Except CompileError.Kind Unit → Expansion}
      {d₀ d₁ d₂ : Draft}
      (labelled : Drafting.statementLabel r s { d with span := s.span } = .ok () d₀)
      (operation : r.operation? s.name.text = some keyword) (custom : keyword.form = .custom form)
      (comes : (form s).Comes r d₀ (.emit name arguments next) d₁)
      (named : r.operation? name = some op)
      (emitted : Drafting.emit r op arguments d₁ = .ok () d₂) : Calls r s d op arguments d₁ d₂

namespace Statement.Calls

variable {r : Registry} {s : Statement} {d d₁ d₂ : Draft} {op : Operation}
  {arguments : List Argument}

theorem emits (h : s.Calls r d op arguments d₁ d₂) :
    (∃ name, r.operation? name = some op) ∧ Drafting.emit r op arguments d₁ = .ok () d₂ := by
  cases h with
  | call _ operation _ _ emitted => exact ⟨⟨_, operation⟩, emitted⟩
  | member _ _ member _ emitted =>
    obtain ⟨⟨name, hop, -⟩, -⟩ := Drafting.memberOperation?_eq_some member
    exact ⟨⟨name, hop⟩, emitted⟩
  | keyword _ _ _ _ named emitted => exact ⟨⟨_, named⟩, emitted⟩

/-- A statement that calls an operation comes to emit it, or fails. -/
theorem of_statement {d' : Draft} (hs : Drafting.statement r s d = .ok () d')
    (hop : r.operation? s.name.text = some op) (hform : op.form = .call) :
    ∃ arguments d₁, s.Calls r d op arguments d₁ d' := by
  cases hlabel : Drafting.statementLabel r s { d with span := s.span } with
  | error kind d₁ =>
    rw [Drafting.statement_apply, bind_of_error hlabel] at hs
    cases hs
  | ok _ d₁ =>
    rw [Drafting.statement_of_label hlabel, Drafting.performance_of_call hop hform] at hs
    cases hres : d₁.resolveAll r s.arguments with
    | error kind =>
      rw [hres] at hs
      cases hs
    | ok arguments =>
      rw [hres] at hs
      exact ⟨arguments, d₁, .call hlabel hop hform hres hs⟩

theorem before (hr : r.Sound) (hd : d.Orderly r) (h : s.Calls r d op arguments d₁ d₂) :
    d.Evolves r (.emitting fun _ => True) d₁ := by
  cases h with
  | call labelled | member labelled => exact Drafting.evolves_of_label labelled
  | keyword labelled _ _ comes =>
    have he := Drafting.evolves_of_label (A := fun _ => True) labelled
    exact he.trans
      (Drafting.evolves_of_comes hr (he.orderly hd) (Expansion.keeps_any _ _ _) comes)

/-- What is left of the statement then leads to its end. -/
theorem after (hr : r.Sound) (hd : d.Orderly r) (h : s.Calls r d op arguments d₁ d₂) {d' : Draft}
    (hs : Drafting.statement r s d = .ok () d') : d₂.Evolves r (.emitting fun _ => True) d' := by
  have hbefore := h.before hr hd
  cases h with
  | call labelled operation form resolved emitted =>
    rw [Drafting.statement_of_label labelled, Drafting.performance_of_call operation form,
      resolved] at hs
    cases emitted.symm.trans hs
    exact .refl
  | member labelled operation member resolved emitted =>
    rw [Drafting.statement_of_label labelled, Drafting.performance_of_member operation member,
      resolved] at hs
    cases emitted.symm.trans hs
    exact .refl
  | @keyword keyword form name _ next d₀ _ _ labelled operation custom comes named emitted =>
    rw [Drafting.statement_of_label labelled, Drafting.performance_of_custom operation custom]
      at hs
    rw [Drafting.expand_of_comes comes, Drafting.expand] at hs
    have hattempt : Drafting.attempt (Drafting.emitNamed r name arguments) d₁
        = .ok (.ok ()) d₂ := by
      rw [Drafting.emitNamed, named, Drafting.attempt]
      simp only
      rw [emitted]
    rw [bind_of_ok hattempt] at hs
    have hanswer : Expansion.Answered r d₁ (.emit name arguments next) (next (.ok ())) d₂ :=
      .emit hattempt
    have he := Drafting.evolves_of_answered hr (hbefore.orderly hd)
      (Expansion.keeps_any r _ d₁).covered hanswer
    exact ((Drafting.expand_leads hr ((hbefore.trans he).orderly hd)
      (Expansion.keeps_any _ _ _)).of_ok hs).1

end Statement.Calls

/-! ### Calls as the machine carries them out -/

/-- How a machine goes on after a host function. -/
def Machine.afterCall (m : Machine) (next : Nat) : Outcome × Worker → Step
  | (.proceed, worker) => .running { m with position := next, worker }
  | (.stop, worker) => .ended (.ok (worker.registers.get 0)) { m with position := next, worker }
  | (.fail fault, worker) =>
    .ended (.error ⟨fault, Builtin.call.name, m.position⟩) { m with position := next, worker }

theorem Machine.step_of_calls {p : Program} {m : Machine} {i : Instruction}
    (hfetch : Instruction.fetch p.code m.position = .ok i) (hcall : i.opcode.builtin = .call)
    {binding : NativeBinding} {operands : List Operand} (h : p.Calls i binding operands) :
    m.step p = m.afterCall i.next (binding.routine.run operands m.worker) := by
  rw [step_of_fetch hfetch, Opcode.name, hcall, Builtin.effect, h.perform]
  rcases binding.routine.run operands m.worker with ⟨outcome, worker⟩
  cases outcome <;> rfl

/-- In the place `i` a host function gets the value of the argument, and what it sets there goes to
the register that the argument is, and nowhere else. -/
def Argument.PassedAs (operands : List Operand) (i : Nat) : Argument → Prop
  | constant value => ∀ w : Worker, w.value operands i = value ∧ ∀ x, w.store operands i x = w
  | register index _ _ => ∀ w : Worker, w.value operands i = w.registers.get index ∧
    ∀ x, (w.store operands i x).objects = w.objects ∧
      ∀ other, (w.store operands i x).registers.get other
        = if index = other ∧ index.toNat < maxRegisters then x else w.registers.get other
  | label _ | typeName _ | unknown _ => False

theorem Argument.passedAs_operand {arguments : List Argument}
    (hv : arguments.all isValue = true) {i : Nat} {a : Argument} (hi : arguments[i]? = some a) :
    a.PassedAs (arguments.map operand) i := by
  have ha := List.all_eq_true.mp hv a (List.mem_of_getElem? hi)
  have hoperand : (arguments.map operand)[i]? = some a.operand := by
    rw [List.getElem?_map, hi]
    rfl
  cases a with
  | constant value =>
    intro w
    simp only [Worker.value, Worker.store, hoperand, operand, implies_true, and_self]
  | register index type writable =>
    intro w
    simp only [Worker.value, Worker.store, hoperand, operand, RegisterFile.get_set, true_and]
    exact fun _ _ => trivial
  | label _ | typeName _ | unknown _ => cases ha

/-- In the code of a draft that has become a program, the line of a call is carried out as a call of
its host function with the arguments. -/
theorem Draft.Lined.step_of_call {r : Registry} {A : List Argument → Prop} {d : Draft} {p : Program}
    {arguments : List Argument} {slot : UInt16} {lines more : List Line}
    (h : d.Lined r A (lines ++ [⟨.call, 0, [.native slot, .raw (assemble (fun _ => 0)
      ((arguments.map Argument.payload).map Payload.piece))]⟩] ++ more))
    (hd : d.Orderly r) (hp : d.toProgram = .ok p) {binding : NativeBinding}
    (entered : d.natives[slot.toNat]? = some binding)
    (few : binding.layout.length ≤ maxOperands)
    (encodable : Encodable binding.layout (arguments.map Argument.payload))
    (hv : arguments.all Argument.isValue = true) {m : Machine} (hm : m.position = codeSize lines) :
    m.step p = m.afterCall (codeSize (lines ++ [⟨.call, 0, [.native slot,
        .raw (assemble (fun _ => 0) ((arguments.map Argument.payload).map Payload.piece))]⟩]))
      (binding.routine.run (arguments.map Argument.operand) m.worker) := by
  rw [List.append_assoc, List.singleton_append] at h
  have hfetch := h.fetch hd hp
  have hcode := h.code hp
  rw [piecesOf_append, piecesOf_cons, assemble_append,
    assemble_append, ← List.append_assoc] at hcode
  have hplace : (assemble d.buffer.target (piecesOf lines)).length = m.position :=
    length_assemble.trans hm.symm
  have hentered : p.natives[slot.toNat]? = some binding := by
    rwa [(of_toProgram hp).2.1]
  have hcalls := Line.calls hcode hentered few encodable (Argument.raw_notMem_payloads _) rfl
  rw [Argument.operands_payload hv, hplace] at hcalls
  rw [← hm] at hfetch
  rw [Machine.step_of_calls hfetch rfl hcalls, hm, Program.Carries.next_eq]

/-- Registers among the arguments of a statement are there, unless a keyword of the host has asked
for others. -/
theorem Statement.Calls.registers {r : Registry} (hr : r.Sound) {s : Statement} {d d₁ d₂ : Draft}
    (hd : d.Orderly r) {op : Operation} {arguments : List Argument}
    (h : s.Calls r d op arguments d₁ d₂) (own : r.Reads s) {index : UInt8} {type : ValueType}
    {writable : Bool} (hm : .register index type writable ∈ arguments) :
    index.toNat < maxRegisters := by
  have hd₁ := (h.before hr hd).orderly hd
  have hcap := (RegistryConfig.of_fault?_eq_none hr.config).1
  have named : ∀ name, d₁.lookup r name = some (.register index type writable) →
      index.toNat < maxRegisters := by
    intro name hl
    rcases Draft.lookup_eq_some hl with hl | hl
    · exact Nat.lt_of_lt_of_le (hd₁.registers name index type writable hl) hcap
    · exact Nat.lt_of_lt_of_le (hr.globals name _ hl).1 hcap
  have resolved : ∀ {arguments : List Argument}, d₁.resolveAll r s.arguments = .ok arguments →
      .register index type writable ∈ arguments → index.toNat < maxRegisters := by
    intro arguments hres hm
    obtain ⟨i, hi⟩ := List.mem_iff_getElem?.mp hm
    obtain ⟨t, -, ht⟩ := exists_left_of_forall₂ (Drafting.forall₂_of_resolveAll hres) hi
    obtain ⟨name, hl⟩ := Drafting.lookup_of_resolve ht
    exact named name hl
  cases h with
  | call _ _ _ hres => exact resolved hres hm
  | member _ _ member hres =>
    rcases List.mem_cons.mp hm with heq | hm
    · obtain ⟨-, meaning, owner, hl, rfl⟩ := Drafting.memberOperation?_eq_some member
      cases meaning <;> cases heq
      exact named owner hl
    · exact resolved hres hm
  | keyword _ operation custom => exact absurd custom (own _ operation _)

/-- A host function receives exactly the arguments of the statement.

The registry `r` has been given the host function `f` by some request, and whatever else before
and after it.  If the arguments of a statement pick the overload of `f`, then the code that the
statement comes to emit is a call, and the machine that comes to it carries out `f` and nothing
else: with as many operands as there are arguments, in whose places it finds the arguments of the
statement.  Positions have no bound, as in `Machine`. -/
theorem host_functions_receive_arguments {r₀ r₁ r : Registry} (built : r₀.Built)
    {request : Registration.Request} {f : HostFunction}
    (adds : request.hostFunction? r₀ = some f) (succeeds : request.perform r₀ = .ok () r₁)
    (later : r₁.Later r) {hook : Option HookSignature} {source : String} {p : Program}
    (h : compile r hook source = .ok p) {statements : List (Except SyntaxError Statement)}
    (hread : Statement.readAll r.config.maxArguments (tokenize source) = statements) {i : Nat}
    {s : Statement} (hi : statements[i]? = some (Except.ok s)) {d : Draft}
    (hd : HalfwayDraft r hook source (statements.take i) d) {op : Operation}
    {arguments : List Argument} {d₁ d₂ : Draft} (calls : s.Calls r d op arguments d₁ d₂)
    (hsel : op.select r arguments = .ok ⟨f.params, .native r₀.natives.size, f.doc⟩) :
    ∃ operands : List Operand, operands.length = arguments.length ∧
      (∀ (j : Nat) (a : Argument), arguments[j]? = some a → a.PassedAs operands j) ∧
      (∀ m : Machine, m.position = d₁.buffer.size →
        m.step p = m.afterCall d₂.buffer.size (f.routine.run operands m.worker)) ∧
      (r.Reads s → ∀ index type writable, .register index type writable ∈ arguments →
        index.toNat < maxRegisters) := by
  have hr := (later.built (built.of_request request succeeds)).sound
  have hf := later.entered ((Registration.Request.enters adds).of_ok succeeds)
  subst hread
  obtain ⟨first, d', last, rest, hfirst, hdone, hs, hrest, hfinish⟩ := hd.exists_rest h hi
  have hfirst' := Draft.orderly_of_start hfirst
  have he := Draft.evolves_of_compileAll hr hfirst' (fun _ s _ d₁ _ _ => .any r s d₁) hdone
  have hd' := he.orderly hfirst'
  have hbefore := calls.before hr hd'
  have hd₁ := hbefore.orderly hd'
  have hafter := calls.after hr hd' hs
  -- before the call there are lines, and the call is one more
  obtain ⟨lines, hlined⟩ := (he.trans hbefore).exists_lines hfirst
  obtain ⟨⟨name, hop⟩, hemit⟩ := calls.emits
  obtain ⟨hemits, l, happends⟩ :=
    (Drafting.emit_leads (L := .emitting fun _ => True) hr hd₁ hop
      fun _ _ => ⟨fun _ _ => trivial, trivial⟩).of_ok hemit
  have hlined₂ := happends.lined hop hemits trivial hlined
  obtain ⟨o, bound, ho, hb, hy⟩ := happends.chosen
  rw [hsel] at ho
  cases ho
  obtain ⟨hv, slot, binding, rfl, hentered, hroutine, hfew, hencodable⟩ :=
    f.yields hr hf hop hsel hb hy
  -- behind the call there may be other lines
  have hd₂ := hemits.orderly hd₁
  have hlast := Draft.evolves_of_compileAll hr (hafter.orderly hd₂)
    (fun _ s _ d₁ _ _ => .any r s d₁) hrest
  obtain ⟨closed, -, -, hclosed, hprogram, -⟩ :=
    Draft.exists_closed_of_finish (A := fun _ => True) hr (hlast.orderly (hafter.orderly hd₂))
      hfinish trivial
  have hend := (hafter.trans hlast).trans hclosed
  obtain ⟨more, hall⟩ := hend.lined hlined₂
  have hentered' : closed.natives[slot.toNat]? = some binding := by
    obtain ⟨others, hnatives⟩ := hend.natives
    obtain ⟨hlt, -⟩ := Array.getElem?_eq_some_iff.mp hentered
    rw [hnatives, Array.getElem?_append_left hlt, hentered]
  refine ⟨arguments.map Argument.operand, List.length_map _, fun j a hj =>
    Argument.passedAs_operand hv hj, fun m hm => ?_,
    fun own index type writable hmem => calls.registers hr hd' own hmem⟩
  rw [hlined.size_eq] at hm
  rw [hall.step_of_call (hend.orderly hd₂) hprogram hentered' hfew hencodable hv hm, hroutine,
    hlined₂.size_eq]

/-- Doubles argument 1 and stores the result into argument 0. -/
def doublingRoutine : HostRoutine :=
  .get 1 fun value => .set 0 (2 * value) (.finish .proceed)

/-- Adds a function that doubles. -/
def doublingRequest : Registration.Request :=
  .function "double" [.intVar, .int] "" doublingRoutine

/-- A script that calls the function that doubles. -/
def doublingCall : String := "set r1 21; double r0 r1;"

theorem host_functions_receive_arguments_doublingCall : ∃ r₀ r p s, ∃ d₁ d₂ : Draft,
    ∃ operands, Registry.standard? {} = .ok r₀ ∧ doublingRequest.perform r₀ = .ok () r ∧
      compile r none doublingCall = .ok p ∧
      (Statement.readAll r.config.maxArguments (tokenize doublingCall))[1]? = some (Except.ok s) ∧
      s.name.text = "double" ∧ operands.length = 2 ∧
      ∀ m : Machine, m.position = d₁.buffer.size →
        m.step p = m.afterCall d₂.buffer.size (doublingRoutine.run operands m.worker) := by
  obtain ⟨r₀, hr₀, h⟩ := Registry.exists_standard {} (fun r₀ =>
    doublingRequest.passes r₀ fun r =>
      (r.operation? "double").any (fun op => op.form.isCall &&
        op.overloads = [⟨[.intVar, .int], .native r₀.natives.size, ""⟩]) &&
      ((compile r none doublingCall).toOption.any (fun _ => true) &&
      ((Statement.readAll r.config.maxArguments (tokenize doublingCall))[1]?.bind
        Except.toOption).any fun s : Statement => s.name.text == "double")) (by decide +kernel)
  obtain ⟨r, hperform, h⟩ := Registration.Request.exists_of_passes h
  simp only [Bool.and_eq_true] at h
  obtain ⟨hop, hp, hread⟩ := h
  obtain ⟨p, hp, -⟩ := exists_ok hp
  obtain ⟨s, hi, hname⟩ := exists_read hread
  have hname : s.name.text = "double" := eq_of_beq hname
  obtain ⟨op, hnamed, hop⟩ := (Option.any_eq_true _ _).mp hop
  simp only [Bool.and_eq_true, decide_eq_true_eq] at hop
  obtain ⟨hform, honly⟩ := hop
  have hform : op.form = .call := StatementForm.eq_call_of_isCall hform
  -- the statement comes to a call, whose only choice is the function that doubles
  obtain ⟨d, hd⟩ := exists_halfway hp (List.take_append_drop 1 _).symm
  obtain ⟨-, d₂, -, -, -, -, hstatement, -⟩ := hd.exists_rest hp hi
  obtain ⟨arguments, d₁, calls⟩ :=
    Statement.Calls.of_statement hstatement (hname ▸ hnamed) hform
  obtain ⟨o, hsel⟩ := Drafting.exists_selected calls.emits.2
  obtain ⟨ho, score, hfits, -⟩ := Operation.select_eq_ok hsel
  rw [honly, List.mem_singleton] at ho
  subst ho
  have hlength : arguments.length = 2 := (Overload.forall_of_totalScore? hfits).length_eq.symm
  obtain ⟨operands, hoperands, -, hstep, -⟩ := host_functions_receive_arguments
    (.of_standard hr₀) (f := ⟨"double", [.intVar, .int], "", doublingRoutine⟩) rfl hperform .refl hp
    rfl hi hd calls hsel
  exact ⟨r₀, r, p, s, d₁, d₂, operands, hr₀, hperform, hp, hi, hname, hoperands.trans hlength,
    hstep⟩

end HookScript
