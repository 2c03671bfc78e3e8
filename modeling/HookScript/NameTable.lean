/-
Tables that are searched by name.

The entries of a table stand in the order of the UTF-8 bytes of their names, which is the order of
their characters.  So a name is found by bisection, also if it comes in two pieces, which are not
put together for it.  A table carries the proof that it is in order, and nothing that is done with
it has to ask for it.

* `bisect` and `bisect_spec` — bisection, and where it ends;
* `NameTable.find?` and `NameTable.findJoined?` — what is found under a name;
* `NameTable.insert` — a table with another entry;
* `NameTable.find?_eq_some_iff`, `NameTable.findJoined?_eq` and `NameTable.find?_insert` — hence a
  table is a map from names.
-/
namespace HookScript

/-! ### The order of names -/

/-- The bytes of a text in UTF-8. -/
def utf8 (s : String) : List UInt8 :=
  s.toUTF8.data.toList

theorem utf8_append (front back : String) : utf8 (front ++ back) = utf8 front ++ utf8 back := by
  simp [utf8, String.toUTF8_eq_toByteArray]

theorem utf8_inj {s t : String} : utf8 s = utf8 t ↔ s = t := by
  refine ⟨fun h => ?_, fun h => h ▸ rfl⟩
  rw [← String.toByteArray_inj, ByteArray.ext_iff, ← Array.toList_inj]
  exact h

/-- How `name` stands to the name `front ++ back`, by their bytes. -/
def compareJoined (name front back : String) : Ordering :=
  compare (utf8 name) (utf8 front ++ utf8 back)

theorem compareJoined_eq_eq {name front back : String} :
    compareJoined name front back = .eq ↔ name = front ++ back := by
  rw [compareJoined, Std.compare_eq_iff_eq, ← utf8_append, utf8_inj]

/-- The name `a` comes before the name `b`. -/
def Precedes (a b : String) : Prop :=
  compare (utf8 a) (utf8 b) = .lt

theorem Precedes.ne {a b : String} (h : Precedes a b) : a ≠ b := by
  rintro rfl
  cases h.symm.trans (Std.ReflCmp.compare_self (a := utf8 a))

theorem Precedes.trans {a b c : String} (h : Precedes a b) (h' : Precedes b c) : Precedes a c :=
  Std.TransCmp.lt_trans h h'

theorem compareJoined_eq_lt {a b : String} : compareJoined a b "" = .lt ↔ Precedes a b := by
  rw [compareJoined, ← utf8_append, String.append_empty, Precedes]

theorem compareJoined_eq_gt {a b : String} : compareJoined a b "" = .gt ↔ Precedes b a := by
  rw [compareJoined, ← utf8_append, String.append_empty, Precedes, Std.OrientedCmp.gt_iff_lt]

/-- Of two names in order, the first comes before a third name or the second comes behind it. -/
theorem Precedes.lt_or_gt {a b : String} (h : Precedes a b) (front back : String) :
    compareJoined a front back = .lt ∨ compareJoined b front back = .gt := by
  simp only [compareJoined]
  generalize utf8 front ++ utf8 back = wanted
  cases ha : compare (utf8 a) wanted with
  | lt => exact .inl rfl
  | eq =>
    cases Std.LawfulEqOrd.eq_of_compare ha
    exact .inr (Std.OrientedCmp.gt_of_lt h)
  | gt => exact .inr (Std.OrientedCmp.gt_of_lt
      (Std.TransCmp.lt_trans (Std.OrientedCmp.lt_of_gt ha) h))

/-! ### Bisection -/

/-- Looks for a place from `low` to below `high` that is as wanted; `order` says how a place stands
to what is wanted.  The answer is such a place or, as the error, the place in front of which it
would belong. -/
def bisect (order : Nat → Ordering) (low high : Nat) : Except Nat Nat :=
  if low < high then
    let middle := (low + high) / 2
    match order middle with
    | .lt => bisect order (middle + 1) high
    | .eq => .ok middle
    | .gt => bisect order low middle
  else .error low
termination_by high - low

/-- Whichever two places below `n` are taken, what is wanted is behind the first one or in front of
the second. -/
def Rising (order : Nat → Ordering) (n : Nat) : Prop :=
  ∀ i j, i < j → j < n → order i = .lt ∨ order j = .gt

/-- The place is as wanted, or it parts the places in front of what is wanted from those behind. -/
def Bisects (order : Nat → Ordering) (low high : Nat) : Except Nat Nat → Prop
  | .ok i => low ≤ i ∧ i < high ∧ order i = .eq
  | .error i => low ≤ i ∧ i ≤ high ∧ (∀ j, low ≤ j → j < i → order j = .lt) ∧
    ∀ j, i ≤ j → j < high → order j = .gt

theorem bisect_spec {order : Nat → Ordering} {n low high : Nat} (rising : Rising order n)
    (hle : low ≤ high) (hn : high ≤ n) : Bisects order low high (bisect order low high) := by
  fun_induction bisect order low high with
  | case1 low high hlt middle hmiddle ih =>
    have ih := ih (by omega) hn
    have hfront : ∀ j, j < middle → order j = .lt := fun j hj =>
      (rising j middle hj (by omega)).resolve_right (by simp [hmiddle])
    generalize bisect order (middle + 1) high = answer at ih ⊢
    cases answer with
    | ok i =>
      obtain ⟨hlow, hhigh, heq⟩ := ih
      exact ⟨by omega, hhigh, heq⟩
    | error i =>
      obtain ⟨hlow, hhigh, hlt, hgt⟩ := ih
      refine ⟨by omega, hhigh, fun j _ hj => ?_, hgt⟩
      rcases Nat.lt_trichotomy j middle with hm | rfl | hm
      · exact hfront j hm
      · exact hmiddle
      · exact hlt j hm hj
  | case2 low high hlt middle hmiddle => exact ⟨by omega, by omega, hmiddle⟩
  | case3 low high hlt middle hmiddle ih =>
    have ih := ih (by omega) (by omega)
    have hback : ∀ j, middle < j → j < n → order j = .gt := fun j hj hjn =>
      (rising middle j hj hjn).resolve_left (by simp [hmiddle])
    generalize bisect order low middle = answer at ih ⊢
    cases answer with
    | ok i =>
      obtain ⟨hlow, hhigh, heq⟩ := ih
      exact ⟨hlow, by omega, heq⟩
    | error i =>
      obtain ⟨hlow, hhigh, hlt, hgt⟩ := ih
      refine ⟨hlow, by omega, hlt, fun j hj hjhigh => ?_⟩
      rcases Nat.lt_trichotomy j middle with hm | rfl | hm
      · exact hgt j hj hm
      · exact hmiddle
      · exact hback j hm (by omega)
  | case4 low high hlt =>
    exact ⟨Nat.le_refl _, hle, fun j _ _ => by omega, fun j _ _ => by omega⟩

/-! ### Tables -/

/-- The entries are in the strict order of their names. -/
def Ascending {α : Type} (entries : List (String × α)) : Prop :=
  entries.Pairwise fun a b => Precedes a.1 b.1

/-- Entries in the strict order of their names. -/
structure NameTable (α : Type) where
  entries : Array (String × α)
  ascending : Ascending entries.toList

namespace NameTable

variable {α : Type}

/-- How the entry at the place `i` stands to the name `front ++ back`. -/
def orderAt (entries : Array (String × α)) (front back : String) (i : Nat) : Ordering :=
  (entries[i]?).elim .gt fun entry => compareJoined entry.1 front back

/-- The place of the name `front ++ back` or, as the error, the place where it would belong. -/
def locate (entries : Array (String × α)) (front back : String) : Except Nat Nat :=
  bisect (orderAt entries front back) 0 entries.size

/-- The places up to which the entries come before the name, and from which on they come behind
it. -/
def parts (entries : Array (String × α)) (name : String) : Nat × Nat :=
  match locate entries name "" with
  | .ok i => (i, i + 1)
  | .error i => (i, i)

/-- The entries with another one in place of the one of that name, if there is one. -/
def inserted (entries : Array (String × α)) (name : String) (a : α) : List (String × α) :=
  let (before, behind) := parts entries name
  entries.toList.take before ++ (name, a) :: entries.toList.drop behind

section

variable {entries : Array (String × α)} {front back name : String} {a : α}

theorem orderAt_of_getElem? {i : Nat} {entry : String × α} (h : entries[i]? = some entry) :
    orderAt entries front back i = compareJoined entry.1 front back := by
  rw [orderAt, h, Option.elim_some]

theorem orderAt_toList {i : Nat} (hi : i < entries.toList.length) :
    orderAt entries front back i = compareJoined entries.toList[i].1 front back :=
  orderAt_of_getElem? (Array.getElem?_eq_getElem hi)

theorem rising_orderAt (h : Ascending entries.toList) (front back : String) :
    Rising (orderAt entries front back) entries.size := by
  intro i j hij hj
  rw [orderAt_toList (Nat.lt_trans hij hj), orderAt_toList hj]
  exact (List.pairwise_iff_getElem.mp h i j (Nat.lt_trans hij hj) hj hij).lt_or_gt front back

theorem bisects_locate (h : Ascending entries.toList) (front back : String) :
    Bisects (orderAt entries front back) 0 entries.size (locate entries front back) :=
  bisect_spec (rising_orderAt h front back) (Nat.zero_le _) (Nat.le_refl _)

/-- The name is at the place that is found, or nowhere. -/
theorem locate_eq_ok_iff (h : Ascending entries.toList) {i : Nat} :
    locate entries front back = .ok i ↔ ∃ a, entries[i]? = some (front ++ back, a) := by
  have hb := bisects_locate h front back
  have hrising := rising_orderAt h front back
  constructor
  · intro hi
    rw [hi] at hb
    obtain ⟨-, hlt, heq⟩ := hb
    have hentry := Array.getElem?_eq_getElem hlt
    rw [orderAt_of_getElem? hentry, compareJoined_eq_eq] at heq
    exact ⟨entries[i].2, by rw [hentry, ← heq]⟩
  · rintro ⟨a, hentry⟩
    obtain ⟨hlt, -⟩ := Array.getElem?_eq_some_iff.mp hentry
    have heq : orderAt entries front back i = .eq := by
      rw [orderAt_of_getElem? hentry, compareJoined_eq_eq]
    cases hl : locate entries front back with
    | error j =>
      rw [hl] at hb
      obtain ⟨-, -, hfront, hback⟩ := hb
      rcases Nat.lt_or_ge i j with hij | hij
      · cases heq.symm.trans (hfront i (Nat.zero_le i) hij)
      · cases heq.symm.trans (hback i hij hlt)
    | ok j =>
      rw [hl] at hb
      obtain ⟨-, hj, hjeq⟩ := hb
      rcases Nat.lt_trichotomy i j with hij | rfl | hij
      · rcases hrising i j hij hj with hlt | hgt
        · cases heq.symm.trans hlt
        · cases hjeq.symm.trans hgt
      · rfl
      · rcases hrising j i hij hlt with hlt | hgt
        · cases hjeq.symm.trans hlt
        · cases heq.symm.trans hgt

/-- Up to the first place the entries come before the name, from the second one on they come behind
it, and what is left has the name. -/
theorem parts_spec (h : Ascending entries.toList) (name : String) :
    (∀ i < (parts entries name).1, orderAt entries name "" i = .lt) ∧
      (∀ i, (parts entries name).2 ≤ i → i < entries.size → orderAt entries name "" i = .gt) ∧
      ∀ i, (parts entries name).1 ≤ i → i < (parts entries name).2 →
        orderAt entries name "" i = .eq := by
  have hb := bisects_locate h name ""
  have hrising := rising_orderAt h name ""
  rw [parts]
  cases hl : locate entries name "" with
  | ok i =>
    rw [hl] at hb
    obtain ⟨-, hlt, heq⟩ := hb
    refine ⟨fun j hj => (hrising j i hj hlt).resolve_right (by simp [heq]), fun j hj hjlt =>
      (hrising i j hj hjlt).resolve_left (by simp [heq]), fun j hj hj' => ?_⟩
    rwa [Nat.le_antisymm (Nat.le_of_lt_succ hj') hj]
  | error i =>
    rw [hl] at hb
    obtain ⟨-, -, hfront, hback⟩ := hb
    exact ⟨fun j => hfront j (Nat.zero_le j), hback, fun j hj hj' =>
      absurd hj (Nat.not_le_of_lt hj')⟩

theorem precedes_of_mem_take (h : Ascending entries.toList) {entry : String × α}
    (hm : entry ∈ entries.toList.take (parts entries name).1) : Precedes entry.1 name := by
  obtain ⟨i, hi, rfl⟩ := List.mem_take_iff_getElem.mp hm
  obtain ⟨hi, hlength⟩ := Nat.lt_min.mp hi
  have hlt := (parts_spec h name).1 i hi
  rwa [orderAt_toList hlength, compareJoined_eq_lt] at hlt

theorem precedes_of_mem_drop (h : Ascending entries.toList) {entry : String × α}
    (hm : entry ∈ entries.toList.drop (parts entries name).2) : Precedes name entry.1 := by
  obtain ⟨i, hi, rfl⟩ := List.mem_drop_iff_getElem.mp hm
  rw [Nat.add_comm] at hi
  have hgt := (parts_spec h name).2.1 _ (Nat.le_add_right _ i) hi
  rwa [orderAt_toList hi, compareJoined_eq_gt] at hgt

theorem ascending_inserted (h : Ascending entries.toList) (name : String) (a : α) :
    Ascending (inserted entries name a) := by
  refine List.pairwise_append.mpr ⟨h.sublist (List.take_sublist _ _),
    List.pairwise_cons.mpr ⟨fun entry => precedes_of_mem_drop h, h.sublist (List.drop_sublist _ _)⟩,
    fun front hf back hb => ?_⟩
  have hfront := precedes_of_mem_take h hf
  rcases List.mem_cons.mp hb with rfl | hb
  · exact hfront
  · exact hfront.trans (precedes_of_mem_drop h hb)

theorem mem_inserted (h : Ascending entries.toList) {entry : String × α} :
    entry ∈ inserted entries name a ↔
      entry = (name, a) ∨ entry.1 ≠ name ∧ entry ∈ entries.toList := by
  rw [inserted, List.mem_append, List.mem_cons]
  constructor
  · rintro (hm | rfl | hm)
    · exact .inr ⟨(precedes_of_mem_take h hm).ne, List.mem_of_mem_take hm⟩
    · exact .inl rfl
    · exact .inr ⟨(precedes_of_mem_drop h hm).ne.symm, List.mem_of_mem_drop hm⟩
  · rintro (rfl | ⟨hne, hm⟩)
    · exact .inr (.inl rfl)
    · obtain ⟨i, hi, rfl⟩ := List.mem_iff_getElem.mp hm
      have hspec := parts_spec h name
      rcases Nat.lt_or_ge i (parts entries name).1 with hlt | hge
      · exact .inl (List.mem_take_iff_getElem.mpr ⟨i, by omega, rfl⟩)
      · rcases Nat.lt_or_ge i (parts entries name).2 with hlt | hge'
        · -- between the two places there is only the name itself
          have heq := hspec.2.2 i hge hlt
          rw [orderAt_toList hi, compareJoined_eq_eq, String.append_empty] at heq
          exact absurd heq hne
        · exact .inr (.inr (List.mem_drop_iff_getElem.mpr
            ⟨i - (parts entries name).2, by omega, by simp only [Nat.add_sub_cancel' hge']⟩))

end

/-- The table without entries. -/
def empty : NameTable α := ⟨#[], .nil⟩

instance : EmptyCollection (NameTable α) := ⟨empty⟩

/-- The number of entries. -/
def size (t : NameTable α) : Nat := t.entries.size

/-- Whether there are no entries. -/
def isEmpty (t : NameTable α) : Bool := t.entries.isEmpty

/-- The entries in order. -/
def toList (t : NameTable α) : List (String × α) := t.entries.toList

/-- What is found under the name `front ++ back`. -/
def findJoined? (t : NameTable α) (front back : String) : Option α :=
  match locate t.entries front back with
  | .ok i => (t.entries[i]?).map Prod.snd
  | .error _ => none

/-- What is found under the name. -/
def find? (t : NameTable α) (name : String) : Option α :=
  t.findJoined? name ""

/-- Whether there is an entry of that name. -/
def contains (t : NameTable α) (name : String) : Bool :=
  (t.find? name).isSome

/-- The table with an entry, which takes the place of another one of that name. -/
def insert (t : NameTable α) (name : String) (a : α) : NameTable α :=
  ⟨(inserted t.entries name a).toArray, ascending_inserted t.ascending name a⟩

section

variable {t : NameTable α} {front back name : String} {a : α}

/-- What is found under a name is an entry of that name, and every entry is found. -/
theorem findJoined?_eq_some_iff :
    t.findJoined? front back = some a ↔ (front ++ back, a) ∈ t.toList := by
  rw [findJoined?, toList, Array.mem_toList_iff, Array.mem_iff_getElem?]
  constructor
  · intro h
    split at h
    · rename_i i hi
      obtain ⟨b, hb⟩ := (locate_eq_ok_iff t.ascending).mp hi
      rw [hb] at h
      cases h
      exact ⟨i, hb⟩
    · cases h
  · rintro ⟨i, hi⟩
    rw [(locate_eq_ok_iff t.ascending).mpr ⟨a, hi⟩]
    simp only [hi, Option.map_some]

theorem find?_eq_some_iff : t.find? name = some a ↔ (name, a) ∈ t.toList := by
  rw [find?, findJoined?_eq_some_iff, String.append_empty]

/-- A name is found in two pieces just as it is found whole. -/
theorem findJoined?_eq : t.findJoined? front back = t.find? (front ++ back) := by
  ext a
  rw [findJoined?_eq_some_iff, find?_eq_some_iff]

theorem find?_insert (t : NameTable α) (name other : String) (a : α) :
    (t.insert name a).find? other = if name = other then some a else t.find? other := by
  ext b
  rw [find?_eq_some_iff, insert, toList, mem_inserted t.ascending]
  split
  · rename_i heq
    subst heq
    simp [eq_comm]
  · rename_i hne
    rw [find?_eq_some_iff, toList]
    simp [Ne.symm hne]

@[simp] theorem find?_empty (name : String) : (∅ : NameTable α).find? name = none := by
  rw [Option.eq_none_iff_forall_ne_some]
  intro a h
  cases find?_eq_some_iff.mp h

end

-- everything else follows from these laws
attribute [irreducible] find? findJoined? insert

end NameTable

end HookScript
