/-
What an image is linked to.

Linking is a sequence of checks: the format, the number of registers, the host functions by their
numbers and names, and at last verification.

* `ProgramImage.Links` — the program that an image is linked to has passed all of them;
* `ProgramImage.link_eq_ok_iff` — and nothing else is asked of it;
* `ProgramImage.link_of_exceeds` — more registers than the registry provides are refused.
-/
import HookScript.Program.Image
import HookScript.Proofs.Program.Verification
import HookScript.Proofs.Steps

namespace HookScript

namespace ProgramImage

variable {r : Registry} {i : ProgramImage} {p : Program}

/-- The registry has the host function that the reference means, under the same name. -/
structure Means (r : Registry) (n : NativeReference) (binding : NativeBinding) : Prop where
  registered : r.native? n.id.toNat = some binding
  symbol : binding.symbol = n.symbol

theorem findNative_eq_ok_iff {n : NativeReference} {binding : NativeBinding} :
    findNative r n = .ok binding ↔ Means r n binding := by
  rw [findNative]
  constructor
  · intro h
    split at h
    · rename_i hregistered
      split at h <;> cases h
      exact ⟨hregistered, by assumption⟩
    · cases h
  · rintro ⟨hregistered, hsymbol⟩
    simp only [hregistered, if_pos hsymbol]

/-- The program is that of the image, with the host functions that its references mean. -/
structure Links (r : Registry) (i : ProgramImage) (p : Program) : Prop where
  format : i.format = currentFormat
  capacity : i.registers.toNat ≤ r.config.registers
  code : p.code = i.code
  registers : p.registers = i.registers
  natives : List.Forall₂ (Means r) i.natives p.natives.toList
  verified : p.verify = .ok ()

theorem links_of_link (h : i.link r = .ok p) : i.Links r p := by
  -- a refusal in front of the table of host functions would be the answer
  have refused : ∀ {e : LinkError} {f : Unit → Except LinkError Program},
      (throw e >>= f : Except LinkError Program) ≠ .ok p := by
    intro e f hf
    cases hf
  simp only [link] at h
  split at h
  · exact absurd h refused
  · rename_i hformat
    split at h
    · exact absurd h refused
    · rename_i hcapacity
      cases hn : i.natives.mapM (findNative r) with
      | error e =>
        rw [hn] at h
        cases h
      | ok natives =>
        rw [hn] at h
        simp only [bind, Except.bind] at h
        split at h
        · rename_i hverified
          cases h
          refine ⟨not_not.mp hformat, Nat.not_lt.mp hcapacity, rfl, rfl, ?_, hverified⟩
          exact (mapM_eq_ok_iff.mp hn).imp fun _ _ => findNative_eq_ok_iff.mp
        · cases h

/-- An image is linked to the program of its parts, if this passes verification. -/
theorem link_eq_ok_iff : i.link r = .ok p ↔ i.Links r p := by
  refine ⟨links_of_link, fun h => ?_⟩
  have hnatives : i.natives.mapM (findNative r) = .ok p.natives.toList :=
    mapM_eq_ok_iff.mpr (h.natives.imp fun _ _ => findNative_eq_ok_iff.mpr)
  have hp : (⟨i.code, i.registers, p.natives.toList.toArray⟩ : Program) = p := by
    rw [← h.code, ← h.registers]
  simp only [link, h.format, ne_eq, not_true_eq_false, if_false, Nat.not_lt.mpr h.capacity,
    hnatives]
  simp only [bind, Except.bind, hp, h.verified]
  rfl

/-- An image with more registers than the registry provides is not linked. -/
theorem link_of_exceeds (format : i.format = currentFormat)
    (exceeds : r.config.registers < i.registers.toNat) :
    i.link r = .error (.tooManyRegisters i.registers r.config.registers) := by
  simp only [link, format, ne_eq, not_true_eq_false, if_false, exceeds, if_true]
  rfl

end ProgramImage

end HookScript
