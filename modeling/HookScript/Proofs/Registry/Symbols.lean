/-
Tables of names as they are filled: names get their meanings one after the other, and a name that
has one keeps it.

* `SymbolTable.enter` — giving a name its meaning, as a step that may fail;
* `SymbolTable.after` — the table after requests, of which some may have been refused;
* `SymbolTable.Granted` — the request that has given a name its meaning, which is the first one for
  that name (`SymbolTable.granted_iff_lookup`);
* `NameTable.exists_toList_insert` — a new name is put between the entries that are there;
* `SymbolTable.tables_are_maps` — hence a table is a map, and holds the names asked for in their
  order.
-/
import HookScript.Symbol
import HookScript.Proofs.Steps
import Mathlib.Data.List.Induction

namespace HookScript

/-! ### New names -/

/-- A new name is put between the entries of the table, which stay as they are. -/
theorem NameTable.exists_toList_insert {α : Type} {t : NameTable α} {name : String}
    (h : t.find? name = none) (a : α) : ∃ front back, t.toList = front ++ back ∧
      (t.insert name a).toList = front ++ (name, a) :: back := by
  -- nothing is left out between the places of the new entry
  obtain ⟨i, hparts⟩ : ∃ i, parts t.entries name = (i, i) := by
    rw [parts]
    cases hl : locate t.entries name "" with
    | error i => exact ⟨i, rfl⟩
    | ok i =>
      obtain ⟨b, hb⟩ := (locate_eq_ok_iff t.ascending).mp hl
      rw [String.append_empty] at hb
      have hfound := find?_eq_some_iff.mpr (Array.mem_toList_iff.mpr (Array.mem_of_getElem? hb))
      cases h.symm.trans hfound
  refine ⟨t.toList.take i, t.toList.drop i, (List.take_append_drop i t.toList).symm, ?_⟩
  have hentries : (t.insert name a).toList = inserted t.entries name a := by rw [insert, toList]
  rw [hentries, inserted, hparts]
  rfl

namespace SymbolTable

variable {t t' : SymbolTable} {name other : String} {meaning existing : Meaning}
  {requests : List (String × Meaning)}

theorem find?_insert (t : SymbolTable) (name other : String) (meaning : Meaning) :
    (⟨t.entries.insert name meaning⟩ : SymbolTable).find? other
      = if name = other then some meaning else t.find? other := by
  exact t.entries.find?_insert name other meaning

theorem insert_eq_ok (h : t.insert name meaning = .ok t') :
    t.find? name = none ∧ t' = ⟨t.entries.insert name meaning⟩ := by
  rw [insert] at h
  split at h
  · cases h
  · rename_i hn
    cases h
    exact ⟨hn, rfl⟩

/-! ### Requests -/

/-- Gives a name its meaning, if it has none yet. -/
def enter (name : String) (meaning : Meaning) : EStateM Meaning SymbolTable Unit := do
  let t ← get
  match t.insert name meaning with
  | .ok t => set t
  | .error existing => throw existing

/-- The table after a request for a name, whether it has been granted or not. -/
def next (t : SymbolTable) (request : String × Meaning) : SymbolTable :=
  match enter request.1 request.2 t with
  | .ok _ t | .error _ t => t

/-- The table after some requests. -/
def after (requests : List (String × Meaning)) : SymbolTable :=
  requests.foldl next .empty

/-- Among the requests, the name has been given the meaning. -/
def Granted (requests : List (String × Meaning)) (name : String) (meaning : Meaning) : Prop :=
  ∃ front back t, requests = front ++ (name, meaning) :: back ∧
    enter name meaning (after front) = .ok () t

/-- The table `t'` has one more name than `t`, and the entries of `t` as they are. -/
def Gains (t : SymbolTable) (name : String) (meaning : Meaning) (t' : SymbolTable) : Prop :=
  ∃ front back, t.toList = front ++ back ∧ t'.toList = front ++ (name, meaning) :: back

theorem enter_of_none (h : t.find? name = none) :
    enter name meaning t = .ok () ⟨t.entries.insert name meaning⟩ := by
  rw [enter, get_bind, insert, h]
  rfl

theorem enter_of_some (h : t.find? name = some existing) :
    enter name meaning t = .error existing t := by
  rw [enter, get_bind, insert, h]
  rfl

theorem exists_enter_iff : (∃ t', enter name meaning t = .ok () t') ↔ t.find? name = none := by
  cases h : t.find? name with
  | none => exact iff_of_true ⟨_, enter_of_none h⟩ rfl
  | some existing =>
    rw [enter_of_some h]
    exact iff_of_false nofun nofun

theorem gains_of_new (h : t.find? name = none) (meaning : Meaning) :
    t.Gains name meaning ⟨t.entries.insert name meaning⟩ :=
  NameTable.exists_toList_insert h meaning

theorem after_snoc (requests : List (String × Meaning)) (request : String × Meaning) :
    after (requests ++ [request]) = (after requests).next request := by
  rw [after, List.foldl_append]
  rfl

theorem next_of_none (h : t.find? name = none) (meaning : Meaning) :
    t.next (name, meaning) = ⟨t.entries.insert name meaning⟩ := by
  rw [next, enter_of_none h]

theorem next_of_some (h : t.find? name = some existing) (meaning : Meaning) :
    t.next (name, meaning) = t := by
  rw [next, enter_of_some h]

/-- A request gives its own name a meaning, and only if that has none yet. -/
theorem find?_next (t : SymbolTable) (name other : String) (meaning : Meaning) :
    (t.next (name, meaning)).find? other
      = (t.find? other).or (if name = other then some meaning else none) := by
  cases h : t.find? name with
  | none =>
    rw [next_of_none h, find?_insert]
    split
    · rename_i heq
      rw [← heq, h, Option.none_or]
    · rw [Option.or_none]
  | some existing =>
    rw [next_of_some h]
    split
    · rename_i heq
      rw [← heq, h, Option.some_or]
    · rw [Option.or_none]

/-- A name is found with the meaning of the first request for it. -/
theorem find?_after (requests : List (String × Meaning)) (name : String) :
    (after requests).find? name = requests.lookup name := by
  induction requests using List.reverseRecOn with
  | nil => exact NameTable.find?_empty name
  | append_singleton requests request ih =>
    obtain ⟨other, meaning⟩ := request
    rw [after_snoc, find?_next, ih, List.lookup_append, List.lookup_cons, List.lookup_nil]
    by_cases heq : other = name
    · rw [if_pos heq, heq, beq_self_eq_true]
    · rw [if_neg heq, beq_false_of_ne (Ne.symm heq)]

theorem findJoined?_after (requests : List (String × Meaning)) (front back : String) :
    (after requests).findJoined? front back = requests.lookup (front ++ back) := by
  rw [← find?_after]
  exact NameTable.findJoined?_eq

theorem find?_after_eq_none_iff :
    (after requests).find? name = none ↔ name ∉ requests.map Prod.fst := by
  rw [find?_after, List.lookup_eq_none_iff]
  simp only [List.mem_map, not_exists, not_and, bne_iff_ne, ne_eq]
  exact forall₂_congr fun _ _ => not_congr eq_comm

/-- A name has got its meaning from the first request for it. -/
theorem granted_iff_lookup :
    Granted requests name meaning ↔ requests.lookup name = some meaning := by
  have hnew : ∀ front, (∃ t, enter name meaning (after front) = .ok () t) ↔
      ∀ request ∈ front, name != request.1 := by
    intro front
    rw [exists_enter_iff, find?_after, List.lookup_eq_none_iff]
  rw [List.lookup_eq_some_iff]
  constructor
  · rintro ⟨front, back, t, hsplit, hok⟩
    exact ⟨front, back, hsplit, (hnew front).mp ⟨t, hok⟩⟩
  · rintro ⟨front, back, hsplit, hfront⟩
    obtain ⟨t, hok⟩ := (hnew front).mpr hfront
    exact ⟨front, back, t, hsplit, hok⟩

/-- Whatever names a table is asked to take in, its entries are in the strict order of the bytes of
their names.  A name that has not been asked for before is put between the entries; for any other
name the answer is the entry that is there, and the table stays as it is.  The name is then found,
whole or in two pieces, with the meaning that it has been given, and no other name is. -/
theorem tables_are_maps (requests : List (String × Meaning)) :
    Ascending (after requests).toList ∧
    (∀ name meaning,
      (name ∉ requests.map Prod.fst ∧ ∃ t, enter name meaning (after requests) = .ok () t ∧
        (after requests).Gains name meaning t) ∨
      (name ∈ requests.map Prod.fst ∧ ∃ existing, (name, existing) ∈ (after requests).toList ∧
        enter name meaning (after requests) = .error existing (after requests))) ∧
    (∀ name meaning, Granted requests name meaning ↔ requests.lookup name = some meaning) ∧
    (∀ name, (after requests).find? name = requests.lookup name) ∧
    ∀ front back, (after requests).findJoined? front back = requests.lookup (front ++ back) := by
  refine ⟨(after requests).entries.ascending, fun name meaning => ?_, fun _ _ => granted_iff_lookup,
    find?_after requests, findJoined?_after requests⟩
  cases h : (after requests).find? name with
  | none => exact .inl ⟨find?_after_eq_none_iff.mp h, _, enter_of_none h, gains_of_new h meaning⟩
  | some existing =>
    have hmem : name ∈ requests.map Prod.fst := by
      by_contra hnew
      cases h.symm.trans (find?_after_eq_none_iff.mpr hnew)
    exact .inr ⟨hmem, existing, NameTable.find?_eq_some_iff.mp h, enter_of_some h⟩

example : (after [("zeta", .constant 0), ("alpha", .constant 1), ("zeta", .constant 2)]).toList
    = [("alpha", .constant 1), ("zeta", .constant 0)] := by cbv

end SymbolTable

end HookScript
