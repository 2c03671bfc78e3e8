/-
What the instructions of arithmetic compute, in the unbounded integers.

Registers wrap around, and their remainder is the one of division toward zero.  A modulo in the sign
of its modulus and the phase of a wave are put together from it; neither of them loses anything by
wrapping on the way.

* `Machine.settles_of_assign` — an instruction that computes a value stores it, or faults and leaves
  the worker as it was;
* `Arithmetic.isResidue_floorMod` and `Arithmetic.floorModFits` — the modulo is the only residue
  between zero and its modulus, and no step on the way to it leaves its range;
* `Arithmetic.divisions_are_exact` — moduli, quotients and remainders for all values of registers;
* `Arithmetic.toInt_phase` and `Arithmetic.Waveform.toInt_shape` — a wave is that of the Euclidean
  remainder;
* `Arithmetic.waves_are_exact` — waves for all values of registers.
-/
import HookScript.Proofs.Machine.Registers
import Mathlib.Data.Int.ModEq

namespace HookScript

/-! ### Instructions that compute -/

/-- An operand that is written as a variable is a register. -/
theorem Instruction.exists_register_of_intVar {code : Array UInt8} {place k : Nat} {i : Instruction}
    (fetched : fetch code place = .ok i) (h : i.opcode.builtin.params[k]? = some .intVar) :
    ∃ r, i.operands[k]? = some (.register r) := by
  obtain ⟨byte, -, hop, hd⟩ := fetch_eq_ok_iff.mp fetched
  rw [Opcode.layout_of_find? hop] at hd
  have hcodecs := Codec.map_codec_of_decodeAll? hd
  obtain ⟨hk, -⟩ := List.getElem?_eq_some_iff.mp h
  have hcodec : (i.operands.map Operand.codec)[k]? = some .register := by
    rw [hcodecs, Codec.layoutOf, List.getElem?_zipWith, h,
      List.getElem?_eq_getElem (by rwa [length_choicesOf])]
    rfl
  rw [List.getElem?_map] at hcodec
  obtain ⟨o, ho, hr⟩ := Option.map_eq_some_iff.mp hcodec
  cases o <;> cases hr
  exact ⟨_, ho⟩

namespace Machine

/-- The instruction stores the value into the register that is its first operand, and changes
nothing else; the run goes on behind it. -/
def Stores (p : Program) (m : Machine) (i : Instruction) (value : Int32) : Prop :=
  ∃ r, i.operands[0]? = some (.register r) ∧
    m.step p = .running { m with
      position := i.next
      worker := { m.worker with registers := m.worker.registers.set r value } }

/-- The instruction ends the run with the fault, and leaves the worker as it was. -/
def FaultsWith (p : Program) (m : Machine) (i : Instruction) (fault : Fault) : Prop :=
  m.step p = .ended (.error ⟨fault, i.opcode.name, m.position⟩) { m with position := i.next }

/-- The instruction does what the outcome of its computation asks for. -/
def Settles (p : Program) (m : Machine) (i : Instruction) : Except Fault Int32 → Prop
  | .ok value => m.Stores p i value
  | .error fault => m.FaultsWith p i fault

/-- An instruction that computes a value stores it, or faults before anything is stored. -/
theorem settles_of_assign {p : Program} {m : Machine} {i : Instruction}
    {compute : Values → Except Fault Int32}
    (fetched : Instruction.fetch p.code m.position = .ok i)
    (heffect : i.opcode.builtin.effect = .assign compute) :
    m.Settles p i (compute (m.worker.value i.operands)) := by
  have hstores : i.opcode.builtin.effect.Stores 0 := by
    rw [heffect]
    rfl
  obtain ⟨r, hr⟩ :=
    Instruction.exists_register_of_intVar fetched (Builtin.params_of_stores hstores)
  cases hvalue : compute (m.worker.value i.operands) with
  | ok value =>
    refine ⟨r, hr, ?_⟩
    rw [step_of_fetch fetched, heffect, Effect.perform]
    simp only [hvalue, Worker.store, hr]
  | error fault =>
    change m.step p = _
    rw [step_of_fetch fetched, heffect, Effect.perform]
    simp only [hvalue]

/-- Such an instruction faults just if its computation does. -/
theorem Settles.faultsWith_iff {p : Program} {m : Machine} {i : Instruction}
    {outcome : Except Fault Int32} {fault : Fault} (h : m.Settles p i outcome) :
    m.FaultsWith p i fault ↔ outcome = .error fault := by
  cases outcome with
  | ok value =>
    obtain ⟨r, -, hstep⟩ := h
    refine iff_of_false (fun hfault => ?_) nofun
    rw [FaultsWith, hstep] at hfault
    cases hfault
  | error other =>
    refine ⟨fun hfault => ?_, ?_⟩
    · cases (h : m.step p = _).symm.trans hfault
      rfl
    · rintro ⟨⟩
      exact h

end Machine

namespace Arithmetic

/-- A computation behind a guard fails just where the guard says so. -/
theorem guarded_eq_error_iff {c : Prop} [Decidable c] {fault : Fault} {value : Int32} :
    (if c then .error fault else .ok value : Except Fault Int32) = .error fault ↔ c := by
  split
  · rename_i h
    exact iff_of_true rfl h
  · rename_i h
    exact iff_of_false nofun h

/-! ### Quotients and remainders -/

/-- A remainder toward zero is smaller than the divisor, and has the sign of the dividend. -/
theorem tmod_bounds (n : Int) {d : Int} (hd : d ≠ 0) :
    (n.tmod d).natAbs < d.natAbs ∧ (0 ≤ n → 0 ≤ n.tmod d) ∧ (n ≤ 0 → n.tmod d ≤ 0) := by
  refine ⟨?_, Int.tmod_nonneg d, fun hn => ?_⟩
  · rw [Int.natAbs_tmod]
    exact Nat.mod_lt _ (Int.natAbs_pos.mpr hd)
  · have := Int.tmod_nonneg d (Int.neg_nonneg_of_nonpos hn)
    rw [Int.neg_tmod] at this
    omega

/-- The quotient and the remainder of `a` and `b` toward zero.  The quotient of the least number by
`-1` is too great for a register and wraps around. -/
structure Division (a b q r : Int32) : Prop where
  exact : ¬ (a = Int32.minValue ∧ b = -1) → a.toInt = q.toInt * b.toInt + r.toInt
  wrapped : a = Int32.minValue ∧ b = -1 → q = Int32.minValue ∧ r = 0
  smaller : r.toInt.natAbs < b.toInt.natAbs
  sign : r = 0 ∨ r.toInt.sign = a.toInt.sign

theorem toInt_ne_zero {d : Int32} (hd : d ≠ 0) : d.toInt ≠ 0 := fun h =>
  hd (Int32.toInt_inj.mp (h.trans Int32.toInt_zero.symm))

theorem division_of_ne_zero (a : Int32) {b : Int32} (hb : b ≠ 0) :
    Division a b (a / b) (a % b) := by
  obtain ⟨hsmaller, -, -⟩ := tmod_bounds a.toInt (toInt_ne_zero hb)
  rw [← Int32.toInt_mod] at hsmaller
  refine ⟨fun hfits => ?_, ?_, hsmaller, ?_⟩
  · have hquotient : (a / b).toInt = a.toInt.tdiv b.toInt := by
      rcases not_and_or.mp hfits with ha | hb'
      · exact Int32.toInt_div_of_ne_left a b ha
      · exact Int32.toInt_div_of_ne_right a b hb'
    rw [hquotient, Int32.toInt_mod, Int.tdiv_mul_add_tmod]
  · rintro ⟨rfl, rfl⟩
    decide
  · rw [Int32.toInt_mod, Int.sign_tmod]
    split
    · rename_i hdvd
      left
      rw [← Int32.toInt_inj, Int32.toInt_mod, Int.tmod_eq_zero_of_dvd hdvd, Int32.toInt_zero]
    · exact .inr rfl

/-! ### Moduli -/

/-- The number is congruent to `n` modulo `d`, and lies from zero up or down to `d`, short of it. -/
structure IsResidue (n d k : Int) : Prop where
  congruent : k ≡ n [ZMOD d]
  of_pos : 0 < d → 0 ≤ k ∧ k < d
  of_neg : d < 0 → d < k ∧ k ≤ 0

theorem IsResidue.unique {n d k k' : Int} (hd : d ≠ 0) (h : IsResidue n d k)
    (h' : IsResidue n d k') : k = k' := by
  have hdvd : d ∣ k - k' := (h'.congruent.trans h.congruent.symm).dvd
  have hpos := h.of_pos
  have hneg := h.of_neg
  have hpos' := h'.of_pos
  have hneg' := h'.of_neg
  have hzero : k - k' = 0 := Int.eq_zero_of_dvd_of_natAbs_lt_natAbs hdvd (by omega)
  omega

/-- Reducing twice gives the residue, whatever the signs. -/
theorem isResidue_tmod (n : Int) {d : Int} (hd : d ≠ 0) :
    IsResidue n d ((n.tmod d + d).tmod d) := by
  obtain ⟨hsmaller, -, -⟩ := tmod_bounds n hd
  obtain ⟨hsmaller', hnonneg, hnonpos⟩ := tmod_bounds (n.tmod d + d) hd
  have congruent : ∀ m : Int, m.tmod d ≡ m [ZMOD d] := fun m =>
    Int.modEq_iff_dvd.mpr ⟨m.tdiv d, by rw [Int.tmod_def]; omega⟩
  refine ⟨?_, fun hpos => ?_, fun hneg => ?_⟩
  · calc (n.tmod d + d).tmod d ≡ n.tmod d + d [ZMOD d] := congruent _
      _ ≡ n.tmod d [ZMOD d] := Int.add_modEq_right
      _ ≡ n [ZMOD d] := congruent n
  · omega
  · omega

/-- No step of the modulo leaves its range: the quotients that the two remainders belong to and the
sum fit 64 bits, and the result fits a register. -/
structure FloorModFits (n d : Int32) : Prop where
  quotient : (n.toInt64 / d.toInt64).toInt = n.toInt.tdiv d.toInt
  sum : (n.toInt64 % d.toInt64 + d.toInt64).toInt = n.toInt.tmod d.toInt + d.toInt
  sumQuotient : ((n.toInt64 % d.toInt64 + d.toInt64) / d.toInt64).toInt =
    (n.toInt.tmod d.toInt + d.toInt).tdiv d.toInt
  result : (floorMod n d).toInt = ((n.toInt64 % d.toInt64 + d.toInt64) % d.toInt64).toInt

theorem floorModFits (n : Int32) {d : Int32} (hd : d ≠ 0) : FloorModFits n d := by
  have hremainder : (n.toInt64 % d.toInt64).toInt = n.toInt.tmod d.toInt := by
    rw [Int64.toInt_mod, Int32.toInt_toInt64, Int32.toInt_toInt64]
  obtain ⟨hsmaller, -, -⟩ := tmod_bounds n.toInt (toInt_ne_zero hd)
  have hlow := d.le_toInt
  have hhigh := d.toInt_lt
  have hsum : (n.toInt64 % d.toInt64 + d.toInt64).toInt = n.toInt.tmod d.toInt + d.toInt := by
    rw [Int64.toInt_add, hremainder, Int32.toInt_toInt64,
      Int.bmod_eq_of_le (by omega) (by omega)]
  refine ⟨?_, hsum, ?_, ?_⟩
  · rw [Int64.toInt_div_of_ne_left _ _ n.toInt64_ne_minValue, Int32.toInt_toInt64,
      Int32.toInt_toInt64]
  · have hleast : n.toInt64 % d.toInt64 + d.toInt64 ≠ Int64.minValue := by
      intro h
      rw [h, Int64.toInt_minValue] at hsum
      omega
    rw [Int64.toInt_div_of_ne_left _ _ hleast, hsum, Int32.toInt_toInt64]
  · obtain ⟨hsmaller', -, -⟩ :=
      tmod_bounds (n.toInt.tmod d.toInt + d.toInt) (toInt_ne_zero hd)
    have hreduced : ((n.toInt64 % d.toInt64 + d.toInt64) % d.toInt64).toInt =
        (n.toInt.tmod d.toInt + d.toInt).tmod d.toInt := by
      rw [Int64.toInt_mod, hsum, Int32.toInt_toInt64]
    change ((n.toInt64 % d.toInt64 + d.toInt64) % d.toInt64).toInt32.toInt = _
    rw [Int64.toInt_toInt32, hreduced, Int.bmod_eq_of_le (by omega) (by omega)]

theorem isResidue_floorMod (n : Int32) {d : Int32} (hd : d ≠ 0) :
    IsResidue n.toInt d.toInt (floorMod n d).toInt := by
  have h := floorModFits n hd
  rw [h.result, Int64.toInt_mod, h.sum, Int32.toInt_toInt64]
  exact isResidue_tmod n.toInt (toInt_ne_zero hd)

/-- Products and sums of registers wrap around once, at the end. -/
theorem toInt_mul_add (a b c : Int32) :
    (a * b + c).toInt = (a.toInt * b.toInt + c.toInt).bmod (2 ^ 32) := by
  rw [Int32.toInt_add, Int32.toInt_mul, Int.bmod_add_bmod]

/-- Moduli, quotients and remainders are exact for all values of registers. -/
theorem divisions_are_exact (a b c d : Int32) :
    (d = 0 → offsetMod a b c d = .error .divisionByZero) ∧
    (d ≠ 0 → ∃ r, offsetMod a b c d = .ok r ∧ FloorModFits (a * b + c) d ∧
      ∀ k, IsResidue ((a.toInt * b.toInt + c.toInt).bmod (2 ^ 32)) d.toInt k ↔ k = r.toInt) ∧
    (b = 0 → divide a b = .error .divisionByZero ∧ remainder a b = .error .divisionByZero) ∧
    (b ≠ 0 → ∃ q r, divide a b = .ok q ∧ remainder a b = .ok r ∧ Division a b q r) ∧
    ∀ (p : Program) (m : Machine) (i : Instruction),
      Instruction.fetch p.code m.position = .ok i →
      let x := m.worker.value i.operands
      (i.opcode.builtin = .offsetMod → m.Settles p i (offsetMod (x 0) (x 1) (x 2) (x 3)) ∧
        (m.FaultsWith p i .divisionByZero ↔ x 3 = 0)) ∧
      (i.opcode.builtin = .div → m.Settles p i (divide (x 0) (x 1)) ∧
        (m.FaultsWith p i .divisionByZero ↔ x 1 = 0)) ∧
      (i.opcode.builtin = .mod → m.Settles p i (remainder (x 0) (x 1)) ∧
        (m.FaultsWith p i .divisionByZero ↔ x 1 = 0)) := by
  refine ⟨fun hd => if_pos hd, fun hd => ?_, fun hb => ⟨if_pos hb, if_pos hb⟩,
    fun hb => ⟨a / b, a % b, if_neg hb, if_neg hb, division_of_ne_zero a hb⟩,
    fun p m i fetched => ⟨fun hi => ?_, fun hi => ?_, fun hi => ?_⟩⟩
  · have hresidue := isResidue_floorMod (a * b + c) hd
    rw [toInt_mul_add] at hresidue
    refine ⟨floorMod (a * b + c) d, if_neg hd, floorModFits _ hd, fun k => ⟨fun hk => ?_, ?_⟩⟩
    · exact hk.unique (toInt_ne_zero hd) hresidue
    · rintro rfl
      exact hresidue
  all_goals
    have hsettles := Machine.settles_of_assign fetched (by rw [hi]; rfl)
    exact ⟨hsettles, hsettles.faultsWith_iff.trans guarded_eq_error_iff⟩

/-! ### Waves -/

/-- The forms of waves. -/
inductive Waveform where
  | rectangle
  | sawtooth
  | triangle
deriving DecidableEq, Repr

namespace Waveform

/-- The instruction that computes the wave. -/
def builtin : Waveform → Builtin
  | rectangle => .waveRect
  | sawtooth => .waveSaw
  | triangle => .waveTri

/-- The value of the wave in its width. -/
def shape : Waveform → Int32 → Int32 → Int32 → Int32
  | rectangle => Arithmetic.rectangle
  | sawtooth => Arithmetic.sawtooth
  | triangle => Arithmetic.triangle

/-- The value of the wave at `x`. -/
def wave (form : Waveform) (x period width height : Int32) : Except Fault Int32 :=
  Arithmetic.wave form.shape x period width height

theorem effect_builtin (form : Waveform) :
    form.builtin.effect = .assign fun v => form.wave (v 0) (v 1) (v 2) (v 3) := by
  cases form <;> rfl

/-- How high the wave is within its width at the distance `p` from the start of a period. -/
def crest (form : Waveform) (p width height : Int) : Int :=
  match form with
  | rectangle => height
  | sawtooth => min p height
  | triangle => min (min p (width - p)) height

/-- The value of the wave at that distance, in the unbounded integers. -/
def value (form : Waveform) (p width height : Int) : Int :=
  if width < p then 0 else form.crest p width height

end Waveform

theorem toInt_min (a b : Int32) : (min a b).toInt = min a.toInt b.toInt := by
  change (if a ≤ b then a else b).toInt = _
  split
  · rename_i h
    exact (Int.min_eq_left (Int32.le_iff_toInt_le.mp h)).symm
  · rename_i h
    rw [Int32.le_iff_toInt_le] at h
    exact (Int.min_eq_right (by omega)).symm

variable {x period : Int32}

/-- Where a remainder is negative, the period that is added to it makes up for it. -/
theorem toInt_mod_add (hperiod : 0 < period) (hnegative : x % period < 0) :
    (x % period + period).toInt = (x % period).toInt + period.toInt := by
  rw [Int32.lt_iff_toInt_lt, Int32.toInt_zero] at hperiod hnegative
  have hlow := (x % period).le_toInt
  have hhigh := period.toInt_lt
  rw [Int32.toInt_add, Int.bmod_eq_of_le (by omega) (by omega)]

/-- The phase is the Euclidean remainder. -/
theorem toInt_phase (x : Int32) (hperiod : 0 < period) :
    (phase x period).toInt = x.toInt % period.toInt := by
  have hsum := toInt_mod_add (x := x) hperiod
  rw [Int32.lt_iff_toInt_lt, Int32.toInt_zero] at hperiod
  have htmod := Int.tmod_eq_emod (a := x.toInt) (b := period.toInt)
  have hnonneg := Int.emod_nonneg x.toInt (b := period.toInt) (by omega)
  have hlt := Int.emod_lt_of_pos x.toInt hperiod
  have hremainder := Int32.toInt_mod x period
  change (if x % period < 0 then x % period + period else x % period).toInt = _
  by_cases hnegative : x % period < 0
  · rw [if_pos hnegative, hsum hnegative]
    rw [Int32.lt_iff_toInt_lt, Int32.toInt_zero] at hnegative
    split at htmod <;> omega
  · rw [if_neg hnegative]
    rw [Int32.lt_iff_toInt_lt, Int32.toInt_zero] at hnegative
    split at htmod <;> omega

theorem phase_bounds (x : Int32) (hperiod : 0 < period) :
    0 ≤ phase x period ∧ phase x period < period := by
  rw [Int32.le_iff_toInt_le, Int32.lt_iff_toInt_lt, toInt_phase x hperiod, Int32.toInt_zero]
  rw [Int32.lt_iff_toInt_lt, Int32.toInt_zero] at hperiod
  exact ⟨Int.emod_nonneg _ (by omega), Int.emod_lt_of_pos _ hperiod⟩

/-- The ramp of a triangle turns where the way back to the end of its width gets shorter. -/
theorem toInt_triangle_ramp {p width : Int32} (hp : 0 ≤ p) (hwidth : p ≤ width) :
    (if width / 2 < p then width - p else p).toInt = min p.toInt (width.toInt - p.toInt) := by
  have hhalf : (width / 2).toInt = width.toInt.tdiv 2 :=
    Int32.toInt_div_of_ne_right width 2 (by decide)
  have hdifference := Int32.toInt_sub_of_le width p hp hwidth
  rw [Int32.le_iff_toInt_le] at hp hwidth
  rw [Int32.toInt_zero] at hp
  rw [Int.tdiv_eq_ediv_of_nonneg (by omega)] at hhalf
  split
  · rename_i hlater
    rw [Int32.lt_iff_toInt_lt] at hlater
    omega
  · rename_i hearlier
    rw [Int32.lt_iff_toInt_lt] at hearlier
    omega

namespace Waveform

theorem toInt_shape (form : Waveform) {p : Int32} (hp : 0 ≤ p) (width height : Int32) :
    (form.shape p width height).toInt = form.value p.toInt width.toInt height.toInt := by
  have hlt : width < p ↔ width.toInt < p.toInt := Int32.lt_iff_toInt_lt
  by_cases hbehind : width < p
  · rw [value, if_pos (hlt.mp hbehind)]
    cases form <;> exact (congrArg Int32.toInt (if_pos hbehind)).trans Int32.toInt_zero
  · rw [value, if_neg (mt hlt.mpr hbehind)]
    cases form with
    | rectangle => exact congrArg Int32.toInt (if_neg hbehind)
    | sawtooth => exact (congrArg Int32.toInt (if_neg hbehind)).trans (toInt_min p height)
    | triangle =>
      have hwidth : p ≤ width := Int32.not_lt.mp hbehind
      rw [crest, ← toInt_triangle_ramp hp hwidth]
      exact (congrArg Int32.toInt (if_neg hbehind)).trans (toInt_min _ height)

/-- A wave has no value just for a period that is not positive. -/
theorem wave_eq_error_iff (form : Waveform) (x period width height : Int32) :
    form.wave x period width height = .error .nonPositivePeriod ↔ period ≤ 0 :=
  guarded_eq_error_iff

theorem wave_of_pos (form : Waveform) (x : Int32) {period : Int32} (hperiod : 0 < period)
    (width height : Int32) :
    form.wave x period width height = .ok (form.shape (phase x period) width height) :=
  if_neg (Int32.not_le.mpr hperiod)

/-- A wave repeats itself with its period. -/
theorem wave_congr (form : Waveform) {x y period : Int32}
    (h : y.toInt ≡ x.toInt [ZMOD period.toInt]) (width height : Int32) :
    form.wave y period width height = form.wave x period width height := by
  by_cases hperiod : 0 < period
  · have hphase : phase y period = phase x period := by
      rw [← Int32.toInt_inj, toInt_phase y hperiod, toInt_phase x hperiod]
      exact h
    rw [form.wave_of_pos y hperiod, form.wave_of_pos x hperiod, hphase]
  · have hnone := Int32.not_lt.mp hperiod
    exact (if_pos hnone).trans (if_pos hnone).symm

end Waveform

/-- Waves are exact for all values of registers, and repeat themselves with their period. -/
theorem waves_are_exact (form : Waveform) (x period width height : Int32) :
    (form.wave x period width height = .error .nonPositivePeriod ↔ period ≤ 0) ∧
    (0 < period →
      (0 ≤ phase x period ∧ phase x period < period ∧
        (phase x period).toInt = x.toInt % period.toInt) ∧
      (x % period < 0 → (x % period + period).toInt = (x % period).toInt + period.toInt) ∧
      (phase x period ≤ width →
        (width - phase x period).toInt = width.toInt - (phase x period).toInt) ∧
      ∃ v, form.wave x period width height = .ok v ∧
        v.toInt = form.value (x.toInt % period.toInt) width.toInt height.toInt) ∧
    (∀ y, y.toInt ≡ x.toInt [ZMOD period.toInt] →
      form.wave y period width height = form.wave x period width height) ∧
    ∀ (p : Program) (m : Machine) (i : Instruction),
      Instruction.fetch p.code m.position = .ok i → i.opcode.builtin = form.builtin →
      let v := m.worker.value i.operands
      m.Settles p i (form.wave (v 0) (v 1) (v 2) (v 3)) ∧
        (m.FaultsWith p i .nonPositivePeriod ↔ v 1 ≤ 0) := by
  refine ⟨form.wave_eq_error_iff x period width height, fun hperiod => ?_,
    fun y h => form.wave_congr h width height, fun p m i fetched hi => ?_⟩
  · obtain ⟨hnonneg, hlt⟩ := phase_bounds x hperiod
    refine ⟨⟨hnonneg, hlt, toInt_phase x hperiod⟩, toInt_mod_add hperiod,
      Int32.toInt_sub_of_le width _ hnonneg, _, form.wave_of_pos x hperiod width height, ?_⟩
    rw [form.toInt_shape hnonneg, toInt_phase x hperiod]
  · have hsettles := Machine.settles_of_assign fetched (hi ▸ form.effect_builtin)
    exact ⟨hsettles, hsettles.faultsWith_iff.trans (form.wave_eq_error_iff _ _ _ _)⟩

end Arithmetic

end HookScript
