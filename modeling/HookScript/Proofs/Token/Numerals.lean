/-
Numbers, as they are written and what they stand for.

A numeral is a sign or none, and digits: decimal ones, or hexadecimal ones behind `0x`.  Here
numerals are data that are written down and have a value; the tokens that are numbers are just the
ones whose text is a written numeral, and their value is that of the numeral, however many digits
it has:

* `Numeral.text`, `Digits.magnitude` — how a numeral is written, and what its digits stand for;
* `Numeral.Fits`, `Numeral.Means` — when a numeral has a value in a register, and which one;
* `Token.Kind.ofWord_eq_number_iff` — a word is a number if and only if it is a written numeral;
* `Literal.valueOfChars?_text` — what is read from a written numeral is its value;
* `Token.numbers_are_exact` — the numbers among the tokens of a text.
-/
import Mathlib.Data.Nat.Digits.Defs
import Mathlib.Data.Set.List
import HookScript.Token.Literal
import HookScript.Proofs.Token.Reading

namespace HookScript

/-! ### Numerals -/

/-- A sign in front of a number, or none. -/
inductive Sign where
  | none
  | plus
  | minus
deriving DecidableEq, Repr

namespace Sign

/-- How the sign is written. -/
def text : Sign → List Char
  | none => []
  | plus => ['+']
  | minus => ['-']

/-- The number `n` with the sign. -/
def apply (n : Nat) : Sign → Int
  | none | plus => n
  | minus => -n

end Sign

/-- A hexadecimal digit, in lower or in upper case. -/
structure HexDigit where
  value : Fin 16
  upper : Bool
deriving DecidableEq, Repr

/-- How a hexadecimal digit is written. -/
def HexDigit.char (d : HexDigit) : Char :=
  if d.upper then (Nat.digitChar d.value).toUpper else Nat.digitChar d.value

/-- How a decimal digit is written. -/
def decimalChar (d : Fin 10) : Char :=
  Nat.digitChar d

/-- The letter behind the zero of a hexadecimal number. -/
def hexMark (upper : Bool) : Char :=
  if upper then 'X' else 'x'

/-- The digits of a number, of which there is at least one. -/
inductive Digits where
  | decimal (digits : List (Fin 10)) (hne : digits ≠ [])
  | hexadecimal (upper : Bool) (digits : List HexDigit) (hne : digits ≠ [])
deriving Repr

namespace Digits

/-- How the digits are written; hexadecimal ones stand behind `0x` or `0X`. -/
def text : Digits → List Char
  | decimal ds _ => ds.map decimalChar
  | hexadecimal upper ds _ => '0' :: hexMark upper :: ds.map HexDigit.char

/-- The number that the digits stand for. -/
def magnitude : Digits → Nat
  | decimal ds _ => Nat.ofDigits 10 (ds.map Fin.val).reverse
  | hexadecimal _ ds _ => Nat.ofDigits 16 (ds.map fun d => d.value.val).reverse

end Digits

/-- A number as it is written. -/
structure Numeral where
  sign : Sign
  digits : Digits
deriving Repr

namespace Numeral

/-- How the number is written. -/
def text (n : Numeral) : List Char :=
  n.sign.text ++ n.digits.text

/-- The number has a value in a register: a decimal one must be in the range of a register, the
digits of a hexadecimal one must fit 32 bits, and with a minus it must be in range as well. -/
def Fits (n : Numeral) : Prop :=
  match n.digits, n.sign with
  | .decimal .., sign =>
    -2 ^ 31 ≤ sign.apply n.digits.magnitude ∧ sign.apply n.digits.magnitude ≤ 2 ^ 31 - 1
  | .hexadecimal .., .minus =>
    n.digits.magnitude < 2 ^ 32 ∧ -2 ^ 31 ≤ Sign.minus.apply n.digits.magnitude
  | .hexadecimal .., _ => n.digits.magnitude < 2 ^ 32

instance : (n : Numeral) → Decidable n.Fits
  | ⟨_, .decimal ..⟩ => inferInstanceAs (Decidable (_ ∧ _))
  | ⟨.minus, .hexadecimal ..⟩ => inferInstanceAs (Decidable (_ ∧ _))
  | ⟨.none, .hexadecimal ..⟩ | ⟨.plus, .hexadecimal ..⟩ => inferInstanceAs (Decidable (_ < _))

/-- The number stands for the value `v`.  Hexadecimal digits without a minus are the 32 bits of the
value; all other numbers stand for themselves. -/
def Means (n : Numeral) (v : Int32) : Prop :=
  match n.digits, n.sign with
  | .decimal .., sign => v.toInt = sign.apply n.digits.magnitude
  | .hexadecimal .., .minus => v.toInt = Sign.minus.apply n.digits.magnitude
  | .hexadecimal .., _ => v.toUInt32.toNat = n.digits.magnitude

end Numeral

/-! ### Digits -/

/-- What holds of all characters in a range of codes holds of a character whose code is in it. -/
@[elab_as_elim]
theorem of_forall_between {motive : Char → Prop} (c : Char) (first last : Nat)
    (hall : ∀ n ≤ last, first ≤ n → motive (.ofNat n)) (h : first ≤ c.toNat ∧ c.toNat ≤ last) :
    motive c :=
  Char.ofNat_toNat c ▸ hall c.toNat h.2 h.1

theorem isDigit_iff {c : Char} : c.isDigit ↔ ∃ d, decimalChar d = c := by
  constructor
  · intro h
    simp only [Char.isDigit, Bool.and_eq_true, decide_eq_true_eq] at h
    refine of_forall_between c 48 57 ?_ h
    decide
  · rintro ⟨d, rfl⟩
    decide +revert

theorem isHexDigit_iff {c : Char} : isHexDigit c ↔ ∃ d : HexDigit, d.char = c := by
  constructor
  · intro h
    simp only [isHexDigit, Char.isDigit, isHexLetter, Bool.or_eq_true, Bool.and_eq_true,
      decide_eq_true_eq] at h
    have hwritten : ∃ (value : Fin 16) (upper : Bool), HexDigit.char ⟨value, upper⟩ = c := by
      rcases h with h | h | h
      · refine of_forall_between c 48 57 ?_ h
        decide
      · refine of_forall_between c 97 102 ?_ h
        decide
      · refine of_forall_between c 65 70 ?_ h
        decide
    obtain ⟨value, upper, hd⟩ := hwritten
    exact ⟨_, hd⟩
  · rintro ⟨⟨value, upper⟩, rfl⟩
    decide +revert

theorem digitValue_decimalChar (d : Fin 10) : Literal.digitValue (decimalChar d) = d := by
  decide +revert

theorem HexDigit.digitValue_char (d : HexDigit) : Literal.digitValue d.char = d.value := by
  obtain ⟨value, upper⟩ := d
  decide +revert

/-- Characters that are all written forms are the written form of a list. -/
theorem all_eq_true_iff_exists_map {α : Type} {write : α → Char} {p : Char → Bool}
    (hp : ∀ {c}, p c ↔ ∃ a, write a = c) {cs : List Char} :
    cs.all p ↔ ∃ as : List α, as.map write = cs := by
  rw [List.all_eq_true]
  simp only [hp]
  exact (Set.ext_iff.mp (Set.range_list_map write) cs).symm

/-- What is read digit by digit is the number that the digits stand for. -/
theorem valueOf_map {α : Type} {write : α → Char} {value : α → Nat} (base : Nat)
    (hwrite : ∀ a, Literal.digitValue (write a) = value a) (as : List α) :
    Literal.valueOf base (as.map write) = Nat.ofDigits base (as.map value).reverse := by
  induction as using List.reverseRecOn with
  | nil => rfl
  | append_singleton as a ih =>
    rw [Literal.valueOf] at ih ⊢
    rw [List.map_append, List.foldl_append, ih, List.map_append, List.reverse_append,
      List.map_singleton, List.map_singleton, List.reverse_singleton, List.singleton_append,
      Nat.ofDigits_cons, List.foldl_cons, List.foldl_nil, hwrite, Nat.mul_comm, Nat.add_comm]

/-- Digits begin with a decimal digit. -/
theorem Digits.exists_text_eq_cons (d : Digits) : ∃ c cs, d.text = c :: cs ∧ c.isDigit := by
  cases d with
  | decimal ds hne =>
    obtain ⟨d, ds, rfl⟩ := List.exists_cons_of_ne_nil hne
    exact ⟨_, _, rfl, isDigit_iff.mpr ⟨d, rfl⟩⟩
  | hexadecimal => exact ⟨_, _, rfl, rfl⟩

/-- Decimal digits have no letter behind a zero. -/
theorem map_decimalChar_ne (ds : List (Fin 10)) (upper : Bool) (hex : List Char) :
    ds.map decimalChar ≠ '0' :: hexMark upper :: hex := by
  intro h
  have : (hexMark upper).isDigit := by
    have hmem : hexMark upper ∈ ds.map decimalChar := by rw [h]; simp
    obtain ⟨d, _, hd⟩ := List.mem_map.mp hmem
    exact isDigit_iff.mpr ⟨d, hd⟩
  cases upper <;> cases this

/-! ### Words that are numbers -/

namespace Token.Kind

theorem ofDigits_hexadecimal (upper : Bool) (hex : List Char) :
    ofDigits ('0' :: hexMark upper :: hex) =
      if !hex.isEmpty && hex.all isHexDigit then number else invalid := by
  cases upper <;> rfl

theorem ofDigits_decimal {cs : List Char} (h : ∀ upper hex, cs ≠ '0' :: hexMark upper :: hex) :
    ofDigits cs = if cs.all Char.isDigit then number else invalid := by
  unfold ofDigits
  split
  · exact absurd rfl (h false _)
  · exact absurd rfl (h true _)
  · rfl

theorem ofDigits_eq_number_iff {cs : List Char} (hne : cs ≠ []) :
    ofDigits cs = .number ↔ ∃ d : Digits, d.text = cs := by
  have hif : ∀ b : Bool, (if b then number else invalid) = number ↔ b := by decide
  by_cases hhex : ∃ upper hex, cs = '0' :: hexMark upper :: hex
  · obtain ⟨upper, hex, rfl⟩ := hhex
    rw [ofDigits_hexadecimal, hif, Bool.and_eq_true, all_eq_true_iff_exists_map isHexDigit_iff]
    constructor
    · rintro ⟨hne, ds, rfl⟩
      exact ⟨.hexadecimal upper ds (by rintro rfl; cases hne), rfl⟩
    · rintro ⟨d, hd⟩
      cases d with
      | decimal ds => exact absurd hd (map_decimalChar_ne ds upper hex)
      | hexadecimal _ ds hds =>
        simp only [Digits.text, List.cons.injEq] at hd
        obtain ⟨_, _, rfl⟩ := hd
        exact ⟨by simpa using hds, ds, rfl⟩
  · have hdec : ∀ upper hex, cs ≠ '0' :: hexMark upper :: hex := fun upper hex h =>
      hhex ⟨upper, hex, h⟩
    rw [ofDigits_decimal hdec, hif, all_eq_true_iff_exists_map isDigit_iff]
    constructor
    · rintro ⟨ds, rfl⟩
      exact ⟨.decimal ds (by rintro rfl; exact hne rfl), rfl⟩
    · rintro ⟨d, hd⟩
      cases d with
      | decimal ds => exact ⟨ds, hd⟩
      | hexadecimal upper ds => exact absurd hd.symm (hdec upper _)

theorem ofWord_of_isDigit {c : Char} (hc : c.isDigit) (cs : List Char) :
    ofWord (c :: cs) = ofDigits (c :: cs) :=
  if_pos hc

theorem ofWord_sign {c : Char} (hc : c.isDigit) (sign : Sign) (cs : List Char) :
    ofWord (sign.text ++ c :: cs) = ofDigits (c :: cs) := by
  cases sign with
  | none => exact ofWord_of_isDigit hc cs
  | plus | minus => exact if_pos hc

/-- A symbol begins neither with a digit nor with a sign. -/
theorem exists_cons_of_symbol {cs : List Char} (h : ofWord cs = .symbol) :
    ∃ c rest, cs = c :: rest ∧ c.isDigit = false ∧ isSign c = false := by
  have hdigits : ∀ ds, ofDigits ds ≠ .symbol := fun ds heq => by
    rcases ofDigits_cases ds with hds | hds <;> cases hds.symm.trans heq
  unfold ofWord at h
  split at h
  · cases h
  rename_i c rest
  split at h
  · exact absurd h (hdigits _)
  rename_i hdigit
  split at h
  · split at h
    · split at h
      · exact absurd h (hdigits _)
      · cases h
    · cases h
  · rename_i hsign
    exact ⟨c, rest, rfl, Bool.eq_false_of_not_eq_true hdigit, Bool.eq_false_of_not_eq_true hsign⟩

/-- A word is a number if and only if it is a written numeral. -/
theorem ofWord_eq_number_iff {cs : List Char} :
    ofWord cs = .number ↔ ∃ n : Numeral, n.text = cs := by
  constructor
  · intro h
    unfold ofWord at h
    split at h
    · cases h
    rename_i c cs
    split at h
    · obtain ⟨d, hd⟩ := (ofDigits_eq_number_iff (List.cons_ne_nil c cs)).mp h
      exact ⟨⟨.none, d⟩, hd⟩
    split at h
    · rename_i hsign
      split at h
      · rename_i e cs
        split at h
        · obtain ⟨d, hd⟩ := (ofDigits_eq_number_iff (List.cons_ne_nil e cs)).mp h
          rcases Bool.or_eq_true _ _ |>.mp hsign with hc | hc <;> rw [beq_iff_eq.mp hc]
          · exact ⟨⟨.plus, d⟩, congrArg _ hd⟩
          · exact ⟨⟨.minus, d⟩, congrArg _ hd⟩
        · cases h
      · cases h
    split at h <;> cases h
  · rintro ⟨⟨sign, digits⟩, rfl⟩
    obtain ⟨c, cs, htext, hc⟩ := digits.exists_text_eq_cons
    rw [Numeral.text, htext, ofWord_sign hc]
    exact (ofDigits_eq_number_iff (List.cons_ne_nil c cs)).mpr ⟨digits, htext⟩

end Token.Kind

/-! ### Values -/

/-- The sign is a minus. -/
def Sign.negative (sign : Sign) : Bool :=
  sign == .minus

namespace Literal

theorem isSome_register?_iff {z : Int} :
    (register? z).isSome ↔ -2 ^ 31 ≤ z ∧ z ≤ 2 ^ 31 - 1 := by
  have hmin : Int32.minValue.toInt = -2 ^ 31 := by decide
  have hmax : Int32.maxValue.toInt = 2 ^ 31 - 1 := by decide
  rw [register?, hmin, hmax]
  split <;> simp_all

theorem toInt_of_register? {z : Int} {v : Int32} (h : register? z = some v) : v.toInt = z := by
  have hrange := isSome_register?_iff.mp (Option.isSome_of_eq_some h)
  rw [register?] at h
  split at h
  · cases h
    exact Int32.toInt_ofInt_of_le hrange.1 (by omega)
  · cases h

theorem signed_eq_apply (sign : Sign) (n : Nat) : signed sign.negative n = sign.apply n := by
  cases sign <;> rfl

/-- A sign is taken off the digits behind it. -/
theorem splitSign_text (sign : Sign) (digits : Digits) :
    splitSign (sign.text ++ digits.text) = (sign.negative, digits.text) := by
  obtain ⟨c, cs, htext, hc⟩ := digits.exists_text_eq_cons
  rw [htext]
  cases sign with
  | none =>
    unfold splitSign
    split
    · rename_i h; cases h; cases hc
    · rename_i h; cases h; cases hc
    · rfl
  | plus => rfl
  | minus => rfl

theorem valueOfChars?_hexadecimal {cs hex : List Char} {negative upper : Bool}
    (h : splitSign cs = (negative, '0' :: hexMark upper :: hex)) :
    valueOfChars? cs = hexadecimalValue? negative hex := by
  rw [valueOfChars?, h]
  cases upper <;> rfl

theorem valueOfChars?_decimal {cs digits : List Char} {negative : Bool}
    (h : splitSign cs = (negative, digits))
    (hdec : ∀ upper hex, digits ≠ '0' :: hexMark upper :: hex) :
    valueOfChars? cs = decimalValue? negative digits := by
  unfold valueOfChars?
  split
  · rename_i h'
    exact absurd (congrArg Prod.snd (h.symm.trans h')) (hdec false _)
  · rename_i h'
    exact absurd (congrArg Prod.snd (h.symm.trans h')) (hdec true _)
  · rename_i h'
    cases h.symm.trans h'
    rfl

theorem decimal?_map {ds : List (Fin 10)} (hne : ds ≠ []) :
    decimal? (ds.map decimalChar) = some (Digits.decimal ds hne).magnitude := by
  have hall := (all_eq_true_iff_exists_map isDigit_iff).mpr ⟨ds, rfl⟩
  have hempty : (ds.map decimalChar).isEmpty = false := by simpa using hne
  rw [decimal?, hall, hempty, valueOf_map 10 digitValue_decimalChar]
  rfl

theorem hexadecimal?_map {ds : List HexDigit} (upper : Bool) (hne : ds ≠ []) :
    hexadecimal? (ds.map HexDigit.char) = some (Digits.hexadecimal upper ds hne).magnitude := by
  have hall := (all_eq_true_iff_exists_map isHexDigit_iff).mpr ⟨ds, rfl⟩
  have hempty : (ds.map HexDigit.char).isEmpty = false := by simpa using hne
  rw [hexadecimal?, hall, hempty, valueOf_map 16 HexDigit.digitValue_char]
  rfl

/-- There is no plus behind the letter of a hexadecimal number. -/
theorem dropPlus_map (ds : List HexDigit) :
    dropPlus (ds.map HexDigit.char) = ds.map HexDigit.char := by
  cases ds with
  | nil => rfl
  | cons d ds =>
    have hd := isHexDigit_iff.mpr ⟨d, rfl⟩
    rw [List.map_cons, dropPlus]
    intro _ h
    rw [(List.cons.inj h).1] at hd
    cases hd

/-- Decimal digits stand for their number with its sign. -/
theorem valueOfChars?_decimal_text (sign : Sign) {ds : List (Fin 10)} (hne : ds ≠ []) :
    valueOfChars? (sign.text ++ (Digits.decimal ds hne).text) =
      register? (sign.apply (Digits.decimal ds hne).magnitude) := by
  have hinner := splitSign_text .none (.decimal ds hne)
  rw [valueOfChars?_decimal (splitSign_text sign (.decimal ds hne)) (map_decimalChar_ne ds),
    ← signed_eq_apply]
  simp only [Sign.text, List.nil_append, Digits.text] at hinner
  simp only [decimalValue?, Digits.text, hinner, decimal?_map hne]
  rfl

/-- Hexadecimal digits stand for 32 bits, or for their number if it is negative. -/
theorem valueOfChars?_hexadecimal_text (sign : Sign) (upper : Bool) {ds : List HexDigit}
    (hne : ds ≠ []) :
    valueOfChars? (sign.text ++ (Digits.hexadecimal upper ds hne).text) =
      if (Digits.hexadecimal upper ds hne).magnitude < 2 ^ 32 then
        if sign.negative then register? (-(Digits.hexadecimal upper ds hne).magnitude)
        else some (.ofNat (Digits.hexadecimal upper ds hne).magnitude)
      else none := by
  rw [valueOfChars?_hexadecimal (splitSign_text ..), hexadecimalValue?, dropPlus_map,
    hexadecimal?_map upper hne]
  rfl

/-- A symbol has no value. -/
theorem valueOfChars?_of_symbol {cs : List Char} (h : Token.Kind.ofWord cs = .symbol) :
    valueOfChars? cs = none := by
  obtain ⟨c, cs, rfl, hdigit, hsign⟩ := Token.Kind.exists_cons_of_symbol h
  have hsplit : splitSign (c :: cs) = (false, c :: cs) := by
    unfold splitSign
    split
    · rename_i heq; cases heq; cases hsign
    · rename_i heq; cases heq; cases hsign
    · rfl
  rw [valueOfChars?_decimal hsplit]
  · simp [decimalValue?, hsplit, decimal?, hdigit]
  · rintro upper hex ⟨⟩
    cases hdigit

/-- What is read from a written numeral is its value, if it has one. -/
theorem valueOfChars?_text (n : Numeral) :
    ((valueOfChars? n.text).isSome ↔ n.Fits) ∧ ∀ v, valueOfChars? n.text = some v → n.Means v := by
  obtain ⟨sign, digits⟩ := n
  cases digits with
  | decimal ds hne =>
    simp only [Numeral.text, Numeral.Fits, Numeral.Means, valueOfChars?_decimal_text]
    exact ⟨isSome_register?_iff, fun v => toInt_of_register?⟩
  | hexadecimal upper ds hne =>
    simp only [Numeral.text, valueOfChars?_hexadecimal_text]
    by_cases hm : (Digits.hexadecimal upper ds hne).magnitude < 2 ^ 32
    · have hbits : (Int32.ofNat (Digits.hexadecimal upper ds hne).magnitude).toUInt32.toNat =
          (Digits.hexadecimal upper ds hne).magnitude :=
        UInt32.toNat_ofNat_of_lt' hm
      rw [if_pos hm]
      cases sign with
      | none | plus => exact ⟨iff_of_true rfl hm, fun v hv => by cases hv; exact hbits⟩
      | minus =>
        refine ⟨isSome_register?_iff.trans ?_, fun v => toInt_of_register?⟩
        simp only [Numeral.Fits, Sign.apply]
        omega
    · rw [if_neg hm]
      cases sign with
      | none | plus => exact ⟨iff_of_false Bool.false_ne_true hm, nofun⟩
      | minus => exact ⟨iff_of_false Bool.false_ne_true fun h => hm h.1, nofun⟩

end Literal

/-! ### Numbers of a text -/

namespace Token

/-- The tokens of a text that a reader sees as numbers are just those whose text is a written
numeral.  Each has a value if its numeral fits a register, then it is the one that the numeral
stands for, and all other tokens have none. -/
theorem numbers_are_exact (source : String) (t : Token) (ht : t ∈ tokenize source)
    (e : Expectation) :
    ((t.expecting e).kind = .number ↔ ∃ n : Numeral, n.text = t.text.toList) ∧
      (∀ n : Numeral, n.text = t.text.toList → ((t.expecting e).number?.isSome ↔ n.Fits) ∧
        ∀ v, (t.expecting e).number? = some v → n.Means v) ∧
      ((t.expecting e).kind ≠ .number → (t.expecting e).number? = none) := by
  have hkind : (t.expecting e).kind = .number ↔ ∃ n : Numeral, n.text = t.text.toList := by
    rw [kind_expecting_eq_iff (by decide) rfl, (tile_iff.mpr rfl).kind_of_mem t ht,
      Kind.ofText_eq_iff (.inr rfl), Kind.ofWord_eq_number_iff]
  refine ⟨hkind, fun n hn => ?_, fun hnot => ?_⟩
  · have hvalue : (t.expecting e).number? = Literal.valueOfChars? n.text := by
      rw [number?, hkind.mpr ⟨n, hn⟩, hn]
      rfl
    rw [hvalue]
    exact Literal.valueOfChars?_text n
  · rw [number?]
    split
    · exact absurd ‹_› hnot
    · rfl

/-- The lowest number of a register, with a minus in front of its hexadecimal digits. -/
def lowestNumber : Numeral :=
  ⟨.minus, .hexadecimal false [⟨8, false⟩, ⟨0, false⟩, ⟨0, false⟩, ⟨0, false⟩, ⟨0, false⟩,
    ⟨0, false⟩, ⟨0, false⟩, ⟨0, false⟩] (List.cons_ne_nil _ _)⟩

theorem numbers_are_exact_lowestNumber :
    let t : Token := ⟨.number, "-0x80000000", ⟨⟨1, 8, 7⟩, 18⟩⟩
    t ∈ tokenize "set r0 -0x80000000;" ∧ lowestNumber.text = t.text.toList ∧
      (t.expecting .onlySemicolon).number?.isSome ∧
      ∀ v, (t.expecting .onlySemicolon).number? = some v → v.toInt = -2 ^ 31 := by
  intro t
  have ht : t ∈ tokenize "set r0 -0x80000000;" := by decide +kernel
  have htext : lowestNumber.text = t.text.toList := by decide
  obtain ⟨hfits, hmeans⟩ := (numbers_are_exact _ t ht .onlySemicolon).2.1 lowestNumber htext
  exact ⟨ht, htext, hfits.mpr (by decide), hmeans⟩

end Token

end HookScript
