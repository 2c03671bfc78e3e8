/-
The host functions of a registry.

A request adds all versions of a host function behind the host functions there are, or none, and it
has checked the parameters before.  So the operands of a host function are few, and each is a
register or an immediate:

* `NativeBinding.Formed` — the host function is a version of an overload that has been checked;
* `Registry.Built.formed` and `Program.Obtained.formed` — this holds of all host functions of all
  registries, and of all programs;
* `Program.Obtained.bounded` — so the programs of a registry are bounded, as long as their positions
  have 32 bits.
-/
import HookScript.Proofs.Compile.Lines
import HookScript.Proofs.Compile.Registers
import HookScript.Proofs.Machine.Isolation

namespace HookScript

theorem Codec.ofHost_ofParameter {p : Parameter} (h : p.OfHost) (choice : Nat) :
    (ofParameter p choice).OfHost := by
  cases p with
  | label | native | raw => exact h.elim
  | intVar | ptr _ | ptre _ => trivial
  | int =>
    rw [ofParameter]
    split <;> trivial

/-- The host function is a version of an overload that a registry accepts. -/
inductive NativeBinding.Formed : NativeBinding → Prop where
  | version {id version : Nat} {symbol : String} {params : List Parameter} {routine : HostRoutine}
      (ofHost : ∀ p ∈ params, p.OfHost) (few : params.length ≤ RegistryError.argumentLimit) :
      Formed ⟨id, symbol, Codec.layoutOf params version, routine⟩

namespace NativeBinding.Formed

variable {n : NativeBinding}

/-- The machine has room for all operands of the host function. -/
theorem length_le (h : n.Formed) : n.layout.length ≤ maxOperands := by
  cases h with
  | version ofHost few => exact Nat.le_trans (by simp [Codec.layoutOf]) few

theorem ofHost (h : n.Formed) : ∀ codec ∈ n.layout, codec.OfHost := by
  cases h with
  | version ofHost few =>
    intro codec hcodec
    obtain ⟨p, hp, choice, rfl⟩ := Codec.exists_of_mem_layoutOf hcodec
    exact Codec.ofHost_ofParameter (ofHost p hp) choice

end NativeBinding.Formed

namespace Registry

/-- Statements have few arguments, and all host functions are versions of accepted overloads. -/
structure Formed (r : Registry) : Prop where
  few : r.config.maxArguments ≤ RegistryError.argumentLimit
  natives : ∀ n ∈ r.natives, n.Formed

/-- The parameters of a host function are checked before its versions are added. -/
theorem Change.formed {r r' : Registry} (h : r.Change r') (hr : r.Formed) : r'.Formed := by
  cases h with
  | global | type | keyword | instruction | hook => exact ⟨hr.few, hr.natives⟩
  | function _ few ofHost =>
    refine ⟨hr.few, fun n hn => ?_⟩
    rw [Array.appendList_eq_append, ← Array.mem_toList_iff, Array.toList_appendList] at hn
    rcases List.mem_append.mp hn with hn | hn
    · exact hr.natives n (Array.mem_toList_iff.mp hn)
    · obtain ⟨version, -, rfl⟩ := List.mem_map.mp hn
      exact .version ofHost (Nat.le_trans few hr.few)

/-- Every host function of a registry is a version of an overload that has been checked. -/
theorem Built.formed {r : Registry} (h : r.Built) : r.Formed := by
  refine h.preserves (fun config hf => ?_) fun _ _ hc => hc.formed
  exact ⟨(RegistryConfig.of_fault?_eq_none hf).2.2, by simp⟩

theorem Built.formed_of_native? {r : Registry} (h : r.Built) {id : Nat} {n : NativeBinding}
    (hn : r.native? id = some n) : n.Formed :=
  h.formed.natives n (Array.mem_of_getElem? hn)

/-- Host functions that an image is linked with are those of the registry. -/
theorem registered_of_means {r : Registry} {references : List NativeReference}
    {natives : Array NativeBinding}
    (hmeans : List.Forall₂ (ProgramImage.Means r) references natives.toList) :
    ∀ n ∈ natives, ∃ id, r.native? id = some n := by
  intro n hn
  obtain ⟨index, hindex⟩ := List.mem_iff_getElem?.mp (Array.mem_toList_iff.mpr hn)
  obtain ⟨reference, -, hmeans⟩ := exists_left_of_forall₂ hmeans hindex
  exact ⟨_, hmeans.registered⟩

theorem Built.formed_of_means {r : Registry} (h : r.Built) {references : List NativeReference}
    {natives : Array NativeBinding}
    (hmeans : List.Forall₂ (ProgramImage.Means r) references natives.toList) :
    ∀ n ∈ natives, n.Formed := by
  intro n hn
  obtain ⟨id, hid⟩ := registered_of_means hmeans n hn
  exact h.formed_of_native? hid

end Registry

/-- A program has no host functions but those of its registry, whether it is compiled or linked. -/
theorem Program.Obtained.registered {r : Registry} (hr : r.Sound) {p : Program}
    (h : p.Obtained r) : ∀ n ∈ p.natives, ∃ id, r.native? id = some n := by
  intro n hn
  cases h with
  | compiled h => exact ⟨_, natives_of_compile hr h n hn⟩
  | linked h => exact Registry.registered_of_means (ProgramImage.link_eq_ok_iff.mp h).natives n hn

/-- Hence every host function of a program has been checked. -/
theorem Program.Obtained.formed {r : Registry} (hr : r.Built) {p : Program} (h : p.Obtained r) :
    ∀ n ∈ p.natives, n.Formed := by
  intro n hn
  obtain ⟨id, hid⟩ := h.registered hr.sound n hn
  exact hr.formed_of_native? hid

/-- A program of less than 2^32 bytes, compiled or linked, is bounded, unless a keyword of the host
has asked for registers that there are not. -/
theorem Program.Obtained.bounded {r : Registry} (hr : r.Built) (keywords : r.KeywordsProvided)
    {p : Program} (h : p.Obtained r) (size : p.code.size < UInt32.size) : p.Bounded := by
  refine ⟨size, ?_, fun n hn => (h.formed hr n hn).length_le, fun n hn => (h.formed hr n hn).ofHost⟩
  have hcapacity := (RegistryConfig.of_fault?_eq_none hr.sound.config).1
  refine Nat.le_trans ?_ hcapacity
  cases h with
  | compiled h => exact registers_le_of_compile hr.sound keywords h
  | linked h =>
    have hlinks := ProgramImage.link_eq_ok_iff.mp h
    exact hlinks.registers ▸ hlinks.capacity

end HookScript
