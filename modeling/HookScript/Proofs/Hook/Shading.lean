/-
Darkening pixels.

A pixel of a palette is a byte, with its shade in the low four bits and its colour group in the
others.  Darkening adds to the shade and stops at the ends of the group, but the sum is that of
registers: where it passes the greatest number of a register it wraps around, and the pixel gets
the lowest shade of its group instead of the highest.

* `Arithmetic.saturated` — the shade added in the unbounded integers and held between the ends;
* `Arithmetic.Overflows` — the sum of the shades is too great for a register;
* `Arithmetic.addShade_palettePixel` — what becomes of a pixel in either case;
* `Arithmetic.addShade_wraps_at_greatest` — a pixel that does not saturate;
* `BlitHook.composed` — a source composed over a destination by a function of two pixels;
* `BlitHook.shading_saturates_unless_overflow` — so it is for all pixels, in the instruction and in
  blits without a script.
-/
import HookScript.Hook.Blit

namespace HookScript

namespace Arithmetic

/-! ### Pixels of a palette -/

/-- A byte as a pixel in a register. -/
def palettePixel (b : UInt8) : Int32 :=
  .ofNat b.toNat

/-- The shade of the pixel after `steps`, between the lowest and the highest of its group.  The sum
is taken in the unbounded integers. -/
def clampedShade (pixel steps : Int32) : Int :=
  max 0 (min 15 ((shade pixel).toInt + steps.toInt))

/-- The pixel with its colour group and the shade after `steps`. -/
def saturated (pixel steps : Int32) : Int32 :=
  (pixel &&& colorMask) ||| .ofInt (clampedShade pixel steps)

/-- The sum of the shades is greater than all numbers of a register. -/
def Overflows (pixel steps : Int32) : Prop :=
  Int32.maxValue.toInt < (shade pixel).toInt + steps.toInt

instance (pixel steps : Int32) : Decidable (Overflows pixel steps) :=
  inferInstanceAs (Decidable (_ < _))

theorem overflows_iff {pixel steps : Int32} :
    Overflows pixel steps ↔ 2147483647 < (shade pixel).toInt + steps.toInt :=
  Iff.rfl

/-- The pixel that darkening gives: the lowest shade of its group where the sum overflows. -/
def darkened (pixel steps : Int32) : Int32 :=
  if Overflows pixel steps then pixel &&& colorMask else saturated pixel steps

/-- The shade of a pixel is one of sixteen, and the highest is set by its bits alone. -/
theorem shade_palettePixel (b : UInt8) :
    0 ≤ (shade (palettePixel b)).toInt ∧ (shade (palettePixel b)).toInt ≤ 15 ∧
      palettePixel b ||| shadeMask = (palettePixel b &&& colorMask) ||| .ofInt 15 ∧
      palettePixel b &&& colorMask = (palettePixel b &&& colorMask) ||| .ofInt 0 := by
  have hall : ∀ n < 256, 0 ≤ (shade (.ofNat n)).toInt ∧ (shade (.ofNat n)).toInt ≤ 15 ∧
      Int32.ofNat n ||| shadeMask = (.ofNat n &&& colorMask) ||| .ofInt 15 ∧
      Int32.ofNat n &&& colorMask = (.ofNat n &&& colorMask) ||| .ofInt 0 := by decide +kernel
  exact hall b.toNat b.toNat_lt

/-- The colour group of a pixel, by its bits and by its number. -/
theorem group_palettePixel (b : UInt8) :
    palettePixel b &&& colorMask = .ofNat (16 * (b.toNat / 16)) ∧
      color (palettePixel b) = .ofNat (b.toNat / 16) := by
  have hall : ∀ n < 256, Int32.ofNat n &&& colorMask = .ofNat (16 * (n / 16)) ∧
      color (.ofNat n) = .ofNat (n / 16) := by decide +kernel
  exact hall b.toNat b.toNat_lt

/-- A pixel is made up of its colour group and its shade. -/
theorem toInt_group_or_shade (b : UInt8) {s : Int} (hs : 0 ≤ s ∧ s ≤ 15) :
    ((palettePixel b &&& colorMask) ||| .ofInt s).toInt = 16 * (b.toNat / 16 : Nat) + s ∧
      color ((palettePixel b &&& colorMask) ||| .ofInt s) = color (palettePixel b) := by
  have hall : ∀ g < 16, ∀ s < 16,
      (Int32.ofNat (16 * g) ||| .ofInt (s : Nat)).toInt = 16 * g + s ∧
        color (.ofNat (16 * g) ||| .ofInt (s : Nat)) = .ofNat g := by decide +kernel
  have hgroup : b.toNat / 16 < 16 := by
    have := b.toNat_lt
    omega
  obtain ⟨hmasked, hcolor⟩ := group_palettePixel b
  obtain ⟨k, rfl⟩ := Int.eq_ofNat_of_zero_le hs.1
  rw [hmasked, hcolor]
  exact hall _ hgroup k (by omega)

/-- The sum of a shade and a number of steps wraps around once where it overflows. -/
theorem toInt_shade_add (b : UInt8) (steps : Int32) :
    (shade (palettePixel b) + steps).toInt = (shade (palettePixel b)).toInt + steps.toInt -
      if Overflows (palettePixel b) steps then (Int32.size : Int) else 0 := by
  obtain ⟨hlow, hhigh, _⟩ := shade_palettePixel b
  have := steps.le_toInt
  have := steps.toInt_lt
  have hsize : (Int32.size : Int) = 4294967296 := rfl
  rw [Int32.toInt_add, Int.bmod_def, hsize]
  by_cases hover : Overflows (palettePixel b) steps
  · rw [if_pos hover]
    rw [overflows_iff] at hover
    split <;> omega
  · rw [if_neg hover]
    rw [overflows_iff] at hover
    split <;> omega

/-! ### Darkening -/

variable (b : UInt8) (steps : Int32)

/-- Darkening gives the saturated pixel where the sum does not overflow, and the lowest shade of the
group where it does. -/
theorem addShade_palettePixel :
    addShade (palettePixel b) steps = darkened (palettePixel b) steps := by
  obtain ⟨hlow, hhigh, hor, hand⟩ := shade_palettePixel b
  have hsum := toInt_shade_add b steps
  have hmost := steps.toInt_lt
  have habove : shadeMask < shade (palettePixel b) + steps ↔
      15 < (shade (palettePixel b) + steps).toInt := Int32.lt_iff_toInt_lt
  have hpositive : 0 < shade (palettePixel b) + steps ↔
      0 < (shade (palettePixel b) + steps).toInt := Int32.lt_iff_toInt_lt
  change (if shadeMask < shade (palettePixel b) + steps then palettePixel b ||| shadeMask
    else if 0 < shade (palettePixel b) + steps then
      (palettePixel b &&& colorMask) ||| (shade (palettePixel b) + steps)
    else palettePixel b &&& colorMask) = _
  by_cases hover : Overflows (palettePixel b) steps
  · -- the wrapped sum is negative
    have hsize : (Int32.size : Int) = 4294967296 := rfl
    rw [if_pos hover, hsize] at hsum
    rw [if_neg (mt habove.mp (by omega)), if_neg (mt hpositive.mp (by omega)), darkened,
      if_pos hover]
  · rw [if_neg hover, Int.sub_zero] at hsum
    have hclamped : clampedShade (palettePixel b) steps =
        max 0 (min 15 (shade (palettePixel b) + steps).toInt) := by rw [clampedShade, hsum]
    rw [darkened, if_neg hover, saturated, hclamped]
    by_cases hhigher : 15 < (shade (palettePixel b) + steps).toInt
    · rw [if_pos (habove.mpr hhigher), hor, show max 0 (min 15 _) = (15 : Int) by omega]
    by_cases hlower : 0 < (shade (palettePixel b) + steps).toInt
    · rw [if_neg (mt habove.mp hhigher), if_pos (hpositive.mpr hlower),
        Int.min_eq_right (by omega), Int.max_eq_right (by omega), Int32.ofInt_toInt]
    · rw [if_neg (mt habove.mp hhigher), if_neg (mt hpositive.mp hlower),
        show max 0 (min 15 _) = (0 : Int) by omega]
      exact hand

theorem clampedShade_mem (pixel steps : Int32) :
    0 ≤ clampedShade pixel steps ∧ clampedShade pixel steps ≤ 15 := by
  unfold clampedShade
  omega

/-- The pixel that saturation gives, as a number. -/
theorem toInt_saturated :
    (saturated (palettePixel b) steps).toInt =
      16 * (b.toNat / 16 : Nat) + clampedShade (palettePixel b) steps :=
  (toInt_group_or_shade b (clampedShade_mem _ _)).1

/-- Darkening is saturation just where the sum does not overflow. -/
theorem addShade_eq_saturated_iff :
    addShade (palettePixel b) steps = saturated (palettePixel b) steps ↔
      ¬ Overflows (palettePixel b) steps := by
  rw [addShade_palettePixel, darkened]
  split
  · rename_i hover
    refine iff_of_false (fun heq => ?_) (not_not_intro hover)
    -- saturation gives the highest shade, and darkening the lowest
    have hhigh : clampedShade (palettePixel b) steps = 15 := by
      rw [overflows_iff] at hover
      unfold clampedShade
      omega
    have hlow := (toInt_group_or_shade b (s := 0) (by decide)).1
    rw [← (shade_palettePixel b).2.2.2, heq, toInt_saturated, hhigh] at hlow
    omega
  · rename_i hover
    exact iff_of_true rfl hover

/-- Darkening keeps the colour group, also where the sum overflows. -/
theorem color_addShade : color (addShade (palettePixel b) steps) = color (palettePixel b) := by
  rw [addShade_palettePixel, darkened]
  split
  · rw [(shade_palettePixel b).2.2.2]
    exact (toInt_group_or_shade b (by decide)).2
  · exact (toInt_group_or_shade b (clampedShade_mem _ _)).2

/-- More steps give no lower shade, as long as the sum does not overflow. -/
theorem addShade_le_addShade {more : Int32} (hle : steps ≤ more)
    (hover : ¬ Overflows (palettePixel b) more) :
    addShade (palettePixel b) steps ≤ addShade (palettePixel b) more := by
  have hle := Int32.le_iff_toInt_le.mp hle
  have hover' : ¬ Overflows (palettePixel b) steps := by
    rw [overflows_iff] at hover ⊢
    omega
  rw [(addShade_eq_saturated_iff b steps).mpr hover', (addShade_eq_saturated_iff b more).mpr hover,
    Int32.le_iff_toInt_le, toInt_saturated, toInt_saturated]
  unfold clampedShade
  omega

/-- With the greatest number of steps the shade wraps around instead of saturating. -/
theorem addShade_wraps_at_greatest :
    ¬ ∀ (b : UInt8) (steps : Int32),
      addShade (palettePixel b) steps = saturated (palettePixel b) steps :=
  fun h => absurd (h 53 Int32.maxValue) (by decide)

end Arithmetic

/-! ### The instruction -/

/-- The instruction that darkens a pixel in its first operand stores what darkening gives. -/
theorem Machine.step_addShade (p : Program) (m : Machine) {i : Instruction} (b : UInt8)
    (hfetch : Instruction.fetch p.code m.position = .ok i) (hi : i.opcode.builtin = .addShade)
    (hpixel : m.worker.value i.operands 0 = Arithmetic.palettePixel b) :
    m.step p = .running { m with
      position := i.next
      worker := m.worker.store i.operands 0
        (Arithmetic.darkened (Arithmetic.palettePixel b) (m.worker.value i.operands 1)) } := by
  rw [← Arithmetic.addShade_palettePixel, ← hpixel]
  simp [Machine.step, hfetch, hi, Builtin.effect, Effect.store, Effect.perform]

namespace BlitHook

/-! ### Composing pixel by pixel -/

/-- The destination with every pixel that has a source pixel replaced by what the two make. -/
def composed (pixel : UInt8 → UInt8 → UInt8) (source destination : List UInt8) : List UInt8 :=
  (source.zip destination).map (fun both => pixel both.1 both.2) ++
    destination.drop (source.zip destination).length

theorem length_composed (pixel : UInt8 → UInt8 → UInt8) (source destination : List UInt8) :
    (composed pixel source destination).length = destination.length := by
  simp only [composed, List.length_append, List.length_map, List.length_zip, List.length_drop]
  omega

theorem getElem?_composed (pixel : UInt8 → UInt8 → UInt8) (source destination : List UInt8)
    (i : Nat) :
    (composed pixel source destination)[i]? =
      destination[i]?.map fun old => source[i]?.elim old (pixel · old) := by
  rw [composed, List.getElem?_append, List.length_map, List.length_zip]
  split
  · rename_i hi
    have hnew := List.getElem?_eq_getElem (l := source) (i := i) (by omega)
    have hold := List.getElem?_eq_getElem (l := destination) (i := i) (by omega)
    have hboth : (source.zip destination)[i]? = some (source[i], destination[i]) :=
      List.getElem?_zip_eq_some.mpr ⟨hnew, hold⟩
    rw [List.getElem?_map, hboth, hnew, hold]
    rfl
  · rename_i hi
    rw [List.getElem?_drop, Nat.add_sub_cancel' (Nat.not_lt.mp hi)]
    rcases Nat.lt_or_ge i source.length with hsource | hsource
    · rw [List.getElem?_eq_none (by omega), Option.map_none]
    · rw [List.getElem?_eq_none hsource]
      exact Option.map_id'.symm

/-! ### Blits without a script -/

/-- The pixels of a blit without a script are composed by adding the shade. -/
theorem written_blit_of_none {h : ScriptHook} (hprogram : h.program = none)
    (context : BlitContext) (handles : List Int32) (worker : Worker)
    (source destination : List UInt8) :
    (blit h context handles worker source destination).written.toList =
      composed (shaded context) source destination := by
  simp only [blit, hprogram]
  rfl

/-- A pixel of a blit without a script. -/
theorem getElem?_written_blit {h : ScriptHook} (hnone : h.program = none) (context : BlitContext)
    (handles : List Int32) (worker : Worker) {source destination : List UInt8} {i : Nat}
    {new old : UInt8} (hnew : source[i]? = some new) (hold : destination[i]? = some old) :
    (blit h context handles worker source destination).written[i]? =
      some (if new = 0 then old
        else blend old (Arithmetic.darkened (Arithmetic.palettePixel new) context.shade)) := by
  rw [← Arithmetic.addShade_palettePixel, ← Array.getElem?_toList, written_blit_of_none hnone,
    getElem?_composed, hnew, hold]
  rfl

/-- Darkening a pixel saturates just if the sum of its shade and the steps fits a register.  The sum
that does not fit wraps around and gives the lowest shade of the colour group, in the instruction as
in blits without a script. -/
theorem shading_saturates_unless_overflow (b : UInt8) (steps : Int32) :
    Arithmetic.addShade (Arithmetic.palettePixel b) steps =
      Arithmetic.darkened (Arithmetic.palettePixel b) steps ∧
    (Arithmetic.addShade (Arithmetic.palettePixel b) steps =
      Arithmetic.saturated (Arithmetic.palettePixel b) steps ↔
        ¬ Arithmetic.Overflows (Arithmetic.palettePixel b) steps) ∧
    Arithmetic.color (Arithmetic.addShade (Arithmetic.palettePixel b) steps) =
      Arithmetic.color (Arithmetic.palettePixel b) ∧
    (∀ more, steps ≤ more → ¬ Arithmetic.Overflows (Arithmetic.palettePixel b) more →
      Arithmetic.addShade (Arithmetic.palettePixel b) steps ≤
        Arithmetic.addShade (Arithmetic.palettePixel b) more) ∧
    (∀ (p : Program) (m : Machine) (i : Instruction),
      Instruction.fetch p.code m.position = .ok i → i.opcode.builtin = .addShade →
      m.worker.value i.operands 0 = Arithmetic.palettePixel b →
      m.worker.value i.operands 1 = steps →
      m.step p = .running { m with
        position := i.next
        worker := m.worker.store i.operands 0
          (Arithmetic.darkened (Arithmetic.palettePixel b) steps) }) ∧
    ∀ (h : ScriptHook) (context : BlitContext) (handles : List Int32) (worker : Worker)
        (source destination : List UInt8) (i : Nat) (old : UInt8),
      h.program = none → context.shade = steps →
      source[i]? = some b → destination[i]? = some old →
      (blit h context handles worker source destination).written[i]? =
        some (if b = 0 then old
          else blend old (Arithmetic.darkened (Arithmetic.palettePixel b) steps)) := by
  refine ⟨Arithmetic.addShade_palettePixel b steps, Arithmetic.addShade_eq_saturated_iff b steps,
    Arithmetic.color_addShade b steps, ?_, ?_, ?_⟩
  · intro more hle hover
    exact Arithmetic.addShade_le_addShade b steps hle hover
  · intro p m i hfetch hi hpixel hsteps
    rw [m.step_addShade p b hfetch hi hpixel, hsteps]
  · intro h context handles worker source destination i old hnone hsteps hnew hold
    rw [getElem?_written_blit hnone context handles worker hnew hold, hsteps]

end BlitHook

end HookScript
