/-
The outcome of a compilation.

* `verify_of_compile` — a program that comes out of the compiler has passed verification;
* `exists_ok` and `exists_rejection` — what evaluation says of an answer;
* `exists_compiled` — the compilation of a given text against a standard registry, by evaluation.
-/
import HookScript.Compile.Script
import HookScript.Registry.Registration

namespace HookScript

theorem Draft.of_toProgram {d : Draft} {p : Program} (h : d.toProgram = .ok p) :
    d.buffer.finish = .ok p.code ∧ p.natives = d.natives ∧ p.verify = .ok () := by
  rw [toProgram] at h
  split at h
  · cases h
  · rename_i code hfinish
    simp only at h
    split at h
    · cases h
    · rename_i hv
      cases h
      exact ⟨hfinish, rfl, hv⟩

theorem Draft.registers_eq_of_toProgram {d : Draft} {p : Program} (h : d.toProgram = .ok p) :
    p.registers = UInt8.ofNat d.registersUsed := by
  rw [toProgram] at h
  split at h
  · cases h
  · simp only at h
    split at h <;> cases h
    rfl

theorem Draft.toProgram_of_verify {d : Draft} {p : Program} (code : d.buffer.finish = .ok p.code)
    (registers : p.registers = UInt8.ofNat d.registersUsed) (natives : p.natives = d.natives)
    (verified : p.verify = .ok ()) : d.toProgram = .ok p := by
  have hp : (⟨p.code, UInt8.ofNat d.registersUsed, d.natives⟩ : Program) = p := by
    rw [← registers, ← natives]
  simp only [toProgram, code, hp, verified]

theorem Draft.toProgram_of_verify_error {d : Draft} {p : Program} {e : VerifyError}
    (code : d.buffer.finish = .ok p.code) (registers : p.registers = UInt8.ofNat d.registersUsed)
    (natives : p.natives = d.natives) (refused : p.verify = .error e) :
    d.toProgram = .error (.internal (.verification e)) := by
  have hp : (⟨p.code, UInt8.ofNat d.registersUsed, d.natives⟩ : Program) = p := by
    rw [← registers, ← natives]
  simp only [toProgram, code, hp, refused]

theorem Draft.verify_of_finish {r : Registry} {source : String} {d : Draft} {p : Program}
    (h : d.finish r source = .ok p) : p.verify = .ok () := by
  rw [finish] at h
  split at h
  · cases h
  · split at h
    · cases h
    · split at h
      · cases h
      · rename_i hp
        cases h
        exact (of_toProgram hp).2.2

theorem verify_of_compile {r : Registry} {hook : Option HookSignature} {source : String}
    {p : Program} (h : compile r hook source = .ok p) : p.verify = .ok () := by
  rw [compile, compileWith] at h
  split at h
  · cases h
  · rename_i d _
    cases hd : d.compileAll r source
        (Statement.readAll r.config.maxArguments (tokenize source)) with
    | error e =>
      rw [hd] at h
      cases h
    | ok d =>
      rw [hd] at h
      exact Draft.verify_of_finish h

/-- An answer with a property that can be tested, if evaluation says so. -/
theorem exists_ok {ε α : Type} {answer : Except ε α} {P : α → Bool}
    (h : answer.toOption.any P = true) : ∃ a, answer = .ok a ∧ P a = true := by
  match answer with
  | .ok a => exact ⟨a, rfl, h⟩
  | .error _ => cases h

/-- What is wrong with a script, if it is rejected. -/
def rejection? : Except CompileError Program → Option CompileError.Kind
  | .ok _ => none
  | .error e => some e.kind

/-- An error of the given kind, if evaluation says so. -/
theorem exists_rejection {answer : Except CompileError Program} {kind : CompileError.Kind}
    (h : rejection? answer = some kind) : ∃ e, answer = .error e ∧ e.kind = kind := by
  match answer with
  | .ok _ => cases h
  | .error e => exact ⟨e, rfl, Option.some.inj h⟩

/-- A statement with a property that can be tested, if evaluation says so. -/
theorem exists_read {read : Option (Except SyntaxError Statement)} {P : Statement → Bool}
    (h : (read.bind Except.toOption).any P = true) :
    ∃ s, read = some (Except.ok s) ∧ P s = true := by
  match read with
  | some (.ok s) => exact ⟨s, rfl, h⟩
  | some (.error _) | none => cases h

/-- A standard registry with a property that can be tested, if evaluation says so. -/
theorem Registry.exists_standard (config : RegistryConfig) (P : Registry → Bool)
    (h : (Registry.standard? config).toOption.map P = some true) :
    ∃ r, Registry.standard? config = .ok r ∧ P r = true := by
  cases hr : Registry.standard? config with
  | error e =>
    rw [hr] at h
    cases h
  | ok r =>
    rw [hr] at h
    exact ⟨r, rfl, Option.some.inj h⟩

/-- Compiling against a standard registry yields a program with a property that can be tested, if
evaluation says so. -/
theorem exists_compiled {config : RegistryConfig} {source : String} (P : Program → Prop)
    [DecidablePred P]
    (h : ((Registry.standard? config).toOption.map fun r =>
      (compile r none source).toOption.any fun p => decide (P p)) = some true) :
    ∃ r p, Registry.standard? config = .ok r ∧ compile r none source = .ok p ∧ P p := by
  obtain ⟨r, hr, h⟩ := Registry.exists_standard _ _ h
  cases hp : compile r none source with
  | error e =>
    rw [hp] at h
    cases h
  | ok p =>
    rw [hp] at h
    exact ⟨r, p, hr, hp, of_decide_eq_true h⟩

end HookScript
