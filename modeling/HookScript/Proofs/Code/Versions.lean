/-
Versions of overloads.

The number of a version has one digit for each parameter, the choice of its encoding.

* `choicesOf_versionOf` — a version makes the choices that it is the number of;
* `versionOf_lt` — and is smaller than the number of versions;
* `versionOf_choicesOf` — a number of a version is that of the choices it makes;
* `versions_number_choices` — hence choices and numbers below that of the versions stand for each
  other, and words of 16 bits are enough for them;
* `Builtin.find?_version` — every version of a builtin instruction has an opcode of its own.
-/
import HookScript.Code.Opcode
import Mathlib.Algebra.GroupWithZero.Nat
import Mathlib.Data.List.Forall2

namespace HookScript

/-- The number of ways to choose an encoding for each parameter. -/
def choiceCount (params : List Parameter) : Nat :=
  (params.map Parameter.choices).prod

@[simp] theorem choiceCount_cons (p : Parameter) (params : List Parameter) :
    choiceCount (p :: params) = p.choices * choiceCount params := by
  simp [choiceCount]

theorem choiceCount_pos (params : List Parameter) : 0 < choiceCount params := by
  induction params with
  | nil => decide
  | cons p params ih =>
    rw [choiceCount_cons]
    exact Nat.mul_pos p.choices_pos ih

/-- The versions are counted up parameter by parameter, as long as they can be numbered. -/
theorem foldlM_count {params : List Parameter} {count n : Nat} (hcount : count ≤ maxVersions)
    (h : params.foldlM (fun count p =>
      if count * p.choices ≤ maxVersions then some (count * p.choices) else none) count = some n) :
    n = count * choiceCount params ∧ n ≤ maxVersions := by
  induction params generalizing count with
  | nil =>
    obtain rfl : count = n := Option.some.inj h
    exact ⟨(Nat.mul_one count).symm, hcount⟩
  | cons p params ih =>
    rw [List.foldlM_cons] at h
    split at h
    · rename_i hle
      rw [choiceCount_cons, ← Nat.mul_assoc]
      exact ih hle h
    · cases h

theorem versionCount?_eq_some {params : List Parameter} {n : Nat}
    (h : versionCount? params = some n) : n = choiceCount params := by
  rw [(foldlM_count (by decide) h).1, Nat.one_mul]

theorem versionCount?_le {params : List Parameter} {n : Nat}
    (h : versionCount? params = some n) : n ≤ maxVersions :=
  (foldlM_count (by decide) h).2

/-- The choices are choices that the parameters have, one for each. -/
def ValidChoices (params : List Parameter) (choices : List Nat) : Prop :=
  List.Forall₂ (fun p choice => choice < p.choices) params choices

instance (params : List Parameter) (choices : List Nat) : Decidable (ValidChoices params choices) :=
  inferInstanceAs (Decidable (List.Forall₂ (fun p choice => choice < p.choices) params choices))

/-- The number of a version is written with the choices as its digits. -/
theorem foldl_choices {params : List Parameter} {choices : List Nat}
    (h : ValidChoices params choices) (version : Nat) :
    (params.zip choices).foldl (fun version (p, choice) => version * p.choices + choice) version
      = version * choiceCount params + versionOf params choices := by
  induction h generalizing version with
  | nil => simp [choiceCount, versionOf]
  | @cons p choice params choices hc _ ih =>
    -- the first digit goes into the accumulator, from `version` and from zero alike
    have hv := ih (version * p.choices + choice)
    have h0 := ih (0 * p.choices + choice)
    simp only [List.zip_cons_cons, List.foldl_cons, versionOf, choiceCount_cons] at hv h0 ⊢
    rw [hv, h0, Nat.zero_mul, Nat.zero_add, Nat.add_mul, Nat.mul_assoc, Nat.add_assoc]

theorem versionOf_cons {p : Parameter} {choice : Nat} {params : List Parameter}
    {choices : List Nat} (h : ValidChoices params choices) :
    versionOf (p :: params) (choice :: choices)
      = choice * choiceCount params + versionOf params choices := by
  rw [← foldl_choices h choice]
  simp only [versionOf, List.zip_cons_cons, List.foldl_cons, Nat.zero_mul, Nat.zero_add]

theorem versionOf_lt {params : List Parameter} {choices : List Nat}
    (h : ValidChoices params choices) : versionOf params choices < choiceCount params := by
  induction h with
  | nil => decide
  | @cons p choice params choices hc hr ih =>
    rw [versionOf_cons hr, choiceCount_cons]
    calc choice * choiceCount params + versionOf params choices
        < choice * choiceCount params + choiceCount params := Nat.add_lt_add_left ih _
      _ = (choice + 1) * choiceCount params := by rw [Nat.add_mul, Nat.one_mul]
      _ ≤ p.choices * choiceCount params := Nat.mul_le_mul_right _ hc

/-- The first choice can be counted to the number in front of the choices. -/
theorem add_versionOf_cons {p : Parameter} {choice : Nat} {params : List Parameter}
    {choices : List Nat} (h : ValidChoices params choices) (version : Nat) :
    version * choiceCount (p :: params) + versionOf (p :: params) (choice :: choices)
      = (version * p.choices + choice) * choiceCount params + versionOf params choices := by
  rw [versionOf_cons h, choiceCount_cons, Nat.add_mul, Nat.mul_assoc, Nat.add_assoc]

/-- Splitting a number takes the digits off its end and leaves what is in front of them. -/
theorem splitVersion_versionOf {params : List Parameter} {choices : List Nat}
    (h : ValidChoices params choices) (version : Nat) :
    splitVersion params (version * choiceCount params + versionOf params choices)
      = (choices, version) := by
  induction h generalizing version with
  | nil => simp [splitVersion, choiceCount, versionOf]
  | @cons p choice params choices hc hr ih =>
    -- digits are taken off from the last one on, so the first one is left with the version
    rw [add_versionOf_cons hr, splitVersion, ih]
    have hmod : (version * p.choices + choice) % p.choices = choice := by
      rw [Nat.add_comm, Nat.add_mul_mod_self_right, Nat.mod_eq_of_lt hc]
    have hdiv : (version * p.choices + choice) / p.choices = version := by
      rw [Nat.add_comm, Nat.add_mul_div_right _ _ p.choices_pos, Nat.div_eq_of_lt hc, Nat.zero_add]
    simp only [hmod, hdiv]

theorem choicesOf_versionOf {params : List Parameter} {choices : List Nat}
    (h : ValidChoices params choices) : choicesOf params (versionOf params choices) = choices := by
  have := splitVersion_versionOf h 0
  rw [Nat.zero_mul, Nat.zero_add] at this
  rw [choicesOf, this]

/-- Any number can be split: what is taken off it are choices of the parameters, and together with
what is left in front of them they make the number again. -/
theorem splitVersion_spec (params : List Parameter) (version : Nat) :
    ValidChoices params (splitVersion params version).1 ∧
      (splitVersion params version).2 * choiceCount params
        + versionOf params (splitVersion params version).1 = version := by
  induction params with
  | nil => exact ⟨.nil, Nat.mul_one version⟩
  | cons p params ih =>
    obtain ⟨hvalid, hversion⟩ := ih
    refine ⟨.cons (Nat.mod_lt _ p.choices_pos) hvalid, ?_⟩
    rw [splitVersion, add_versionOf_cons hvalid, Nat.div_add_mod', hversion]

theorem validChoices_choicesOf (params : List Parameter) (version : Nat) :
    ValidChoices params (choicesOf params version) :=
  (splitVersion_spec params version).1

theorem versionOf_choicesOf {params : List Parameter} {version : Nat}
    (h : version < choiceCount params) : versionOf params (choicesOf params version) = version := by
  have hversion := (splitVersion_spec params version).2
  -- there is no room for anything in front of the choices
  have hfront : (splitVersion params version).2 = 0 := by
    have hlt : (splitVersion params version).2 * choiceCount params < 1 * choiceCount params := by
      omega
    exact Nat.lt_one_iff.mp (Nat.lt_of_mul_lt_mul_right hlt)
  rwa [hfront, Nat.zero_mul, Nat.zero_add] at hversion

/-! ### Words -/

/-- The number with another choice behind it, in words of 16 bits: the product and the sum have to
fit, and the product is not greater than the sum. -/
def appendChoice? (version : Nat) : Parameter × Nat → Option Nat
  | (p, choice) =>
    if version * p.choices + choice < UInt16.size then some (version * p.choices + choice) else none

/-- The number of the version that makes the given choices, if words of 16 bits are enough to work
it out. -/
def versionInWords? (params : List Parameter) (choices : List Nat) : Option Nat :=
  (params.zip choices).foldlM appendChoice? 0

/-- No step overflows if there is room for all versions behind the number reached. -/
theorem foldlM_appendChoice? {params : List Parameter} {choices : List Nat}
    (h : ValidChoices params choices) {version : Nat}
    (room : (version + 1) * choiceCount params ≤ UInt16.size) :
    (params.zip choices).foldlM appendChoice? version
      = some (version * choiceCount params + versionOf params choices) := by
  induction h generalizing version with
  | nil => simp [choiceCount, versionOf]
  | @cons p choice params choices hc hr ih =>
    have hroom : (version * p.choices + choice + 1) * choiceCount params ≤ UInt16.size := by
      calc (version * p.choices + choice + 1) * choiceCount params
          ≤ ((version + 1) * p.choices) * choiceCount params := by
            refine Nat.mul_le_mul_right _ ?_
            rw [Nat.add_mul, Nat.one_mul]
            omega
        _ = (version + 1) * choiceCount (p :: params) := by rw [choiceCount_cons, Nat.mul_assoc]
        _ ≤ UInt16.size := room
    have hlt : version * p.choices + choice < UInt16.size :=
      Nat.lt_of_succ_le (Nat.le_trans (Nat.le_mul_of_pos_right _ (choiceCount_pos params)) hroom)
    rw [List.zip_cons_cons, List.foldlM_cons, appendChoice?, if_pos hlt, add_versionOf_cons hr]
    exact ih hroom

theorem versionInWords?_eq {params : List Parameter} {choices : List Nat}
    (h : ValidChoices params choices) (few : choiceCount params ≤ maxVersions) :
    versionInWords? params choices = some (versionOf params choices) := by
  have room : (0 + 1) * choiceCount params ≤ UInt16.size := by
    rw [Nat.zero_add, Nat.one_mul]
    exact Nat.le_trans few (by decide)
  rw [versionInWords?, foldlM_appendChoice? h room, Nat.zero_mul, Nat.zero_add]

/-- The operands of a version are encoded by its choices. -/
theorem Codec.getElem?_layoutOf_versionOf {params : List Parameter} {choices : List Nat}
    (h : ValidChoices params choices) {k : Nat} {p : Parameter} {choice : Nat}
    (hp : params[k]? = some p) (hchoice : choices[k]? = some choice) :
    (layoutOf params (versionOf params choices))[k]? = some (ofParameter p choice) := by
  rw [layoutOf, choicesOf_versionOf h, List.getElem?_zipWith, hp, hchoice]

/-- If the versions of an overload can be counted, choices of its parameters and numbers below the
count stand for each other: each list of choices has a number there, which is worked out without
overflow in words of 16 bits and makes these choices again, and each number there makes choices
whose number it is.  Hence every operand of a version is encoded as its own choice says. -/
theorem versions_number_choices {params : List Parameter} {n : Nat}
    (counted : versionCount? params = some n) :
    n < UInt16.size ∧
    (∀ choices : List Nat, ValidChoices params choices →
      versionInWords? params choices = some (versionOf params choices) ∧
      versionOf params choices < n ∧
      choicesOf params (versionOf params choices) = choices ∧
      (Codec.layoutOf params (versionOf params choices)).length = params.length ∧
      ∀ (k : Nat) p choice, params[k]? = some p → choices[k]? = some choice →
        (Codec.layoutOf params (versionOf params choices))[k]?
          = some (Codec.ofParameter p choice)) ∧
    ∀ version < n, ValidChoices params (choicesOf params version) ∧
      versionOf params (choicesOf params version) = version := by
  have few := versionCount?_le counted
  obtain rfl := versionCount?_eq_some counted
  refine ⟨Nat.lt_succ_of_le few, fun choices valid => ⟨versionInWords?_eq valid few,
    versionOf_lt valid, choicesOf_versionOf valid, ?_, fun _ _ _ =>
    Codec.getElem?_layoutOf_versionOf valid⟩, fun version hlt =>
    ⟨validChoices_choicesOf params version, versionOf_choicesOf hlt⟩⟩
  rw [Codec.layoutOf, List.length_zipWith, length_choicesOf, Nat.min_self]

/-- As many integers as there can be, behind a label. -/
def wideParameters : List Parameter :=
  .label :: List.replicate 15 .int

/-- The last version of all, whose integers are all in registers. -/
theorem versions_number_choices_wideParameters :
    versionCount? wideParameters = some 32768 ∧
      ValidChoices wideParameters (0 :: List.replicate 15 1) ∧
      versionOf wideParameters (0 :: List.replicate 15 1) = 32767 ∧
      versionInWords? wideParameters (0 :: List.replicate 15 1) = some 32767 ∧
      choicesOf wideParameters 32767 = 0 :: List.replicate 15 1 ∧
      (Codec.layoutOf wideParameters 32767)[15]? = some .register ∧
      versionOf wideParameters (choicesOf wideParameters 21845) = 21845 := by
  have counted : versionCount? wideParameters = some 32768 := by decide
  have valid : ValidChoices wideParameters (0 :: List.replicate 15 1) := by decide
  have last : versionOf wideParameters (0 :: List.replicate 15 1) = 32767 := by decide
  obtain ⟨-, hnumbered, hmade⟩ := versions_number_choices counted
  obtain ⟨hwords, -, hchoices, -, hcodecs⟩ := hnumbered (0 :: List.replicate 15 1) valid
  rw [last] at hwords hchoices hcodecs
  exact ⟨counted, valid, last, hwords, hchoices, hcodecs 15 .int 1 (by decide) (by decide),
    (hmade 21845 (by decide)).2⟩

/-! ### Opcodes -/

/-- The opcode of a version of a builtin instruction. -/
def Builtin.opcode (b : Builtin) (version : Nat) : Opcode :=
  ⟨b, version, Codec.layoutOf b.params version⟩

theorem Builtin.versions_eq (b : Builtin) : b.versions = choiceCount b.params := by
  cases b <;> decide

/-- Every version of a builtin instruction has an opcode of its own, which fits a byte. -/
theorem Builtin.find?_version (b : Builtin) {version : Nat} (h : version < b.versions) :
    b.base + version < 256 ∧
      Opcode.find? (UInt8.ofNat (b.base + version)) = some (b.opcode version) := by
  -- there are finitely many versions of finitely many instructions
  have all : (Builtin.all.all fun b => (List.range b.versions).all fun version =>
      b.base + version < 256 ∧
        Opcode.find? (UInt8.ofNat (b.base + version)) = some (b.opcode version)) = true := by
    decide +kernel
  have hb := List.all_eq_true.mp all b b.mem_all
  have hv := List.all_eq_true.mp hb version (List.mem_range.mpr h)
  simpa using hv

/-- Every codec of a layout encodes one of the parameters. -/
theorem Codec.exists_of_mem_layoutOf {params : List Parameter} {version : Nat} {codec : Codec}
    (h : codec ∈ layoutOf params version) :
    ∃ p ∈ params, ∃ choice, codec = ofParameter p choice := by
  rw [layoutOf, ← List.map_uncurry_zip_eq_zipWith] at h
  obtain ⟨⟨p, choice⟩, hp, rfl⟩ := List.mem_map.mp h
  exact ⟨p, (List.of_mem_zip hp).1, choice, rfl⟩

theorem Builtin.base_injective {b b' : Builtin} (h : b.base = b'.base) : b = b' := by
  -- the opcode of the first version tells an instruction
  have first : ∀ b : Builtin, Opcode.find? (UInt8.ofNat b.base) = some (b.opcode 0) := by
    intro b
    have hzero : 0 < b.versions := by
      rw [b.versions_eq]
      exact choiceCount_pos _
    exact (b.find?_version hzero).2
  have heq := first b
  rw [h, first b'] at heq
  exact (congrArg Opcode.builtin (Option.some.inj heq)).symm

end HookScript
