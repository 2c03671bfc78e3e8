/-
Where variables of scripts live, and what they start with.

A variable gets the next free register, behind those for inputs, those of hook arguments and the
standing ones.  A run clears the registers that its program uses, and then stores its inputs from
register 0 on, all of them:

* `Registry.Reserves` — the registers that are taken before a script makes variables;
* `Draft.Houses` — where the variables of a draft live, which every change preserves;
* `ScriptVariable` — a compiled script keeps a variable in a register;
* `variables_start_at_zero_or_surplus_input` — what a run finds there until it first writes to it.

Nothing keeps callers from giving a run more inputs than there are registers for them, and each that
is left over is the first value of a variable, as `variable_starts_at_surplus_input` shows.
-/
import HookScript.Proofs.Compile.Lines
import HookScript.Proofs.Machine.Registers

namespace HookScript

/-! ### Registers that are taken -/

/-- The register is taken before a script with the hook arguments makes variables. -/
inductive Registry.Reserves (r : Registry) (arguments : List HookArgument) : Nat → Prop where
  | input {i : Nat} (low : i < r.config.inputRegisters) : Reserves r arguments i
  | argument {i : Nat} (low : i < arguments.length) : Reserves r arguments i
  | standing {name : String} {index : UInt8} {type : ValueType} {writable : Bool}
      (found : r.globals.find? name = some (.register index type writable)) :
      Reserves r arguments index.toNat

namespace Draft

/-- Standing registers are among those that are counted. -/
theorem lt_standingCount {globals : SymbolTable} {name : String} {index : UInt8} {type : ValueType}
    {writable : Bool} (h : globals.find? name = some (.register index type writable)) :
    index.toNat < standingCount globals := by
  have hm : (name, Meaning.register index type writable) ∈ globals.toList :=
    NameTable.find?_eq_some_iff.mp h
  -- a count never falls, so that it stays above a register that it has passed
  suffices ∀ count, index.toNat < count ∨ (name, Meaning.register index type writable) ∈
      globals.toList → index.toNat < globals.toList.foldl _ count from this 0 (.inr hm)
  generalize globals.toList = entries
  induction entries with
  | nil => simp
  | cons entry entries ih =>
    rintro count (hlt | hm)
    · refine ih _ (.inl ?_)
      dsimp only
      split
      · exact Nat.lt_of_lt_of_le hlt (Nat.le_max_left _ _)
      · exact hlt
    · rcases List.mem_cons.mp hm with rfl | hm
      · exact ih _ (.inl (Nat.le_max_right _ _))
      · exact ih _ (.inr hm)

variable {r : Registry} {L : Licence} {first d d' : Draft}

theorem lt_nextRegister_of_start {arguments : List HookArgument}
    (h : start r arguments = .ok first) {i : Nat} (hi : r.Reserves arguments i) :
    i < first.nextRegister := by
  obtain ⟨hused, hnext⟩ := counts_of_start h
  rw [hnext, hused]
  cases hi with
  | input low => omega
  | argument low => omega
  | standing found =>
    have := lt_standingCount found
    omega

/-! ### Registers of variables -/

/-- The variables made since the first draft live in registers that were free then, and that count
as in use. -/
structure Houses (first d : Draft) : Prop where
  next : first.nextRegister ≤ d.nextRegister
  used : d.registersUsed < UInt8.size
  own : ∀ name index type writable, first.locals.find? name = none →
    d.locals.find? name = some (.register index type writable) →
      first.nextRegister ≤ index.toNat ∧ index.toNat < d.registersUsed

theorem houses_of_start (hr : r.Sound) {arguments : List HookArgument}
    (h : start r arguments = .ok first) : first.Houses first where
  next := Nat.le_refl _
  used := by
    obtain ⟨hused, -⟩ := counts_of_start h
    obtain ⟨hlength, -⟩ := length_of_start h
    obtain ⟨hcap, hinput, -⟩ := RegistryConfig.of_fault?_eq_none hr.config
    simp only [maxRegisters] at hcap
    rw [hused, UInt8.size]
    omega
  own name index type writable hnew hold := by
    rw [hnew] at hold
    cases hold

theorem Change.houses (hr : r.Sound) {deed : Deed} (h : d.Change r deed d')
    (hd : first.Houses d) : first.Houses d' where
  next := Nat.le_trans hd.next h.nextRegister_le
  used := by
    have hused := hd.used
    rw [UInt8.size] at hused
    cases h with
    | note | newLabel | name | await | place | enter | write => exact hused
    | touch | declare =>
      show max d.registersUsed (min (_ + 1) 255) < 256
      omega
  own name index type writable hnew hn := by
    rcases h.find?_cases hn with hold | ⟨-, -, heq⟩ | ⟨rfl, -, hfree, _, heq⟩
    · obtain ⟨hfirst, hused⟩ := hd.own name index type writable hnew hold
      exact ⟨hfirst, Nat.lt_of_lt_of_le hused h.registersUsed_le⟩
    · cases heq
    · -- a new variable gets the register that was free, which counts as in use from then on
      cases heq
      have hcap := (RegistryConfig.of_fault?_eq_none hr.config).1
      have hindex := hr.toNat_ofNat (Nat.le_of_lt hfree)
      have hnext := hd.next
      cases h with
      | declare =>
        simp only [maxRegisters] at hcap
        show _ ∧ _ < max d.registersUsed (min ((UInt8.ofNat d.nextRegister).toNat + 1) 255)
        rw [hindex]
        omega

theorem Evolves.houses (hr : r.Sound) (h : d.Evolves r L d') (hd : first.Houses d) :
    first.Houses d' :=
  h.preserves (fun _ _ _ _ hc => hc.houses hr) hd

end Draft

/-- The compiled script keeps a variable of its own, with the given name, in the register. -/
def ScriptVariable (r : Registry) (hook : Option HookSignature) (source name : String)
    (index : UInt8) : Prop :=
  ∃ first last, Draft.start r ((hook.map (·.arguments)).getD []) = .ok first ∧
    first.compileAll r source (Statement.readAll r.config.maxArguments (tokenize source))
      = .ok last ∧
    first.locals.find? name = none ∧
    ∃ type writable, last.locals.find? name = some (.register index type writable)

/-- A variable lives behind the registers that are taken, in one that its program uses. -/
theorem ScriptVariable.placed {r : Registry} (hr : r.Sound) {hook : Option HookSignature}
    {source : String} {p : Program} (h : compile r hook source = .ok p) {name : String}
    {index : UInt8} (hv : ScriptVariable r hook source name index) :
    (∀ i, r.Reserves ((hook.map (·.arguments)).getD []) i → i < index.toNat) ∧
      index.toNat < p.registers.toNat ∧ index.toNat < maxRegisters := by
  obtain ⟨first, last, hfirst, hall, hnew, type, writable, hn⟩ := hv
  obtain ⟨first', last', hfirst', hall', hfinish, -⟩ := exists_drafts_of_compile h
  cases hfirst.symm.trans hfirst'
  cases hall.symm.trans hall'
  have hd := Draft.orderly_of_start hfirst
  have hlast : first.Evolves r (.emitting fun _ => True) last :=
    Draft.evolves_of_compileAll hr hd (fun _ s _ d _ _ => .any r s d) hall
  have horderly := hlast.orderly hd
  -- the final instruction leaves variables where they are
  obtain ⟨closed, -, -, hclosed, hp, -⟩ :=
    Draft.exists_closed_of_finish (A := fun _ => True) hr horderly hfinish trivial
  have hhouses := (hlast.trans hclosed).houses hr (Draft.houses_of_start hr hfirst)
  obtain ⟨hbehind, hused⟩ :=
    hhouses.own name index type writable hnew (hclosed.find?_eq hn)
  refine ⟨fun i hi => Nat.lt_of_lt_of_le (Draft.lt_nextRegister_of_start hfirst hi) hbehind, ?_, ?_⟩
  · rw [Draft.registers_eq_of_toProgram hp, UInt8.toNat_ofNat', Nat.mod_eq_of_lt hhouses.used]
    exact hused
  · exact Nat.lt_of_lt_of_le (horderly.registers name index type writable hn)
      (RegistryConfig.of_fault?_eq_none hr.config).1

/-! ### First values -/

/-- Until a run first writes to a variable, it holds the input that is left over for its register,
and 0 if there is none.  That is so if there are no more inputs than registers for them and
arguments of the hook. -/
theorem variables_start_at_zero_or_surplus_input {r : Registry} (built : r.Built)
    {hook : Option HookSignature} {source : String} {p : Program}
    (h : compile r hook source = .ok p) {name : String} {index : UInt8}
    (hv : ScriptVariable r hook source name index) :
    (∀ i, r.Reserves ((hook.map (·.arguments)).getD []) i → i < index.toNat) ∧
      index.toNat < p.registers.toNat ∧
      ∀ worker inputs m, (p.start worker inputs).ReachesUnwritten p index m →
        m.worker.registers.get index = inputs[index.toNat]?.getD 0 ∧
          (inputs.length ≤ max r.config.inputRegisters ((hook.map (·.arguments)).getD []).length →
            m.worker.registers.get index = 0) := by
  obtain ⟨hbehind, hused, hlt⟩ := hv.placed built.sound h
  refine ⟨hbehind, hused, fun worker inputs m hreach => ?_⟩
  have hstart : (p.start worker inputs).worker.registers.get index
      = inputs[index.toNat]?.getD 0 := by
    refine (RegisterFile.get_reset _ _ _ _).trans ?_
    rw [if_pos hlt, RegisterFile.resetSlot, if_pos hused]
  have hvalue := (Machine.get_of_reachesUnwritten hreach).trans hstart
  refine ⟨hvalue, fun hfew => ?_⟩
  have hnone : inputs.length ≤ index.toNat := by
    refine Nat.le_trans hfew (Nat.max_le.mpr ⟨?_, ?_⟩)
    · exact Nat.not_lt.mp fun hi => Nat.lt_irrefl _ (hbehind _ (.input hi))
    · exact Nat.not_lt.mp fun hi => Nat.lt_irrefl _ (hbehind _ (.argument hi))
  rw [hvalue, List.getElem?_eq_none hnone]
  rfl

/-- Whether the script keeps the integer variable in the register. -/
def keepsVariable (r : Registry) (hook : Option HookSignature) (source name : String)
    (index : UInt8) : Bool :=
  (Draft.start r ((hook.map (·.arguments)).getD [])).toOption.any fun first =>
    (first.compileAll r source
      (Statement.readAll r.config.maxArguments (tokenize source))).toOption.any fun last =>
        decide (first.locals.find? name = none ∧
          last.locals.find? name = some (.register index .int true))

theorem scriptVariable_of_keepsVariable {r : Registry} {hook : Option HookSignature}
    {source name : String} {index : UInt8} (h : keepsVariable r hook source name index = true) :
    ScriptVariable r hook source name index := by
  obtain ⟨first, hfirst, h⟩ := exists_ok h
  obtain ⟨last, hlast, h⟩ := exists_ok h
  obtain ⟨hnew, hn⟩ := of_decide_eq_true h
  exact ⟨first, last, hfirst, hlast, hnew, .int, true, hn⟩

/-- A hook that measures a level between two marks. -/
def levelHook : HookSignature :=
  (((HookSignature.named "level").writable "level" .int).readOnly "low" .int).readOnly "high" .int

/-- A script that counts from nothing. -/
def countingScript : String := "var int x; add x high; sub x low; set level x;"

theorem variables_start_at_zero_or_surplus_input_countingScript : ∃ r p,
    Registry.standard? {} = .ok r ∧ compile r (some levelHook) countingScript = .ok p ∧
      ScriptVariable r (some levelHook) countingScript "x" 3 ∧
      ∀ worker m, (p.start worker [5, 6, 7]).ReachesUnwritten p 3 m →
        m.worker.registers.get 3 = 0 := by
  obtain ⟨r, hr, h⟩ := Registry.exists_standard {} (fun r =>
    keepsVariable r (some levelHook) countingScript "x" 3 &&
      (compile r (some levelHook) countingScript).toOption.any fun _ => true) (by decide +kernel)
  obtain ⟨hv, hp⟩ := Bool.and_eq_true_iff.mp h
  have hv := scriptVariable_of_keepsVariable hv
  obtain ⟨p, hp, -⟩ := exists_ok hp
  refine ⟨r, p, hr, hp, hv, fun worker m hreach => ?_⟩
  obtain ⟨-, -, hvalue⟩ :=
    variables_start_at_zero_or_surplus_input (.of_standard hr) hp hv
  exact (hvalue worker [5, 6, 7] m hreach).1

/-- A script that returns a variable which it never writes to. -/
def unwrittenVariable : String := "var int x; return x;"

/-- A variable starts with an input that is left over. -/
theorem variable_starts_at_surplus_input : ∃ r p, Registry.standard? {} = .ok r ∧
    compile r none unwrittenVariable = .ok p ∧ ScriptVariable r none unwrittenVariable "x" 2 ∧
    (p.start .fresh [0, 0, 7]).worker.registers.get 2 = 7 ∧
    (p.run 10 .fresh [0, 0, 7]).result.toOption = some 7 := by
  obtain ⟨r, hr, h⟩ := Registry.exists_standard {} (fun r =>
    keepsVariable r none unwrittenVariable "x" 2 &&
      (compile r none unwrittenVariable).toOption.any fun p : Program =>
        decide ((p.start .fresh [0, 0, 7]).worker.registers.get 2 = 7) &&
          decide ((p.run 10 .fresh [0, 0, 7]).result.toOption = some 7)) (by decide +kernel)
  obtain ⟨hv, hp⟩ := Bool.and_eq_true_iff.mp h
  obtain ⟨p, hp, hvalues⟩ := exists_ok hp
  simp only [Bool.and_eq_true, decide_eq_true_eq] at hvalues
  exact ⟨r, p, hr, hp, scriptVariable_of_keepsVariable hv, hvalues⟩

end HookScript
