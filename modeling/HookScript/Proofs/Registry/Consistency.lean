/-
The tables of a registry fit together, whatever has been asked of it.

Whether a request succeeds or fails, names stay apart, types keep their numbers, and the host
functions stay divided among the overloads:

* `Overload.Owns` — the host functions that are versions of an overload;
* `Registry.Coherent` — what the tables have in common, which every change preserves
  (`Registry.Change.coherent`);
* `Registration.builtinVocabulary_enlists` — the operations of the builtin vocabulary;
* `registries_stay_consistent` — the tables fit together throughout the history of a registry, and
  the operations found are those that have been registered;
* `failed_requests_leave_no_trace` — a request that fails leaves the registry as it was, and its
  history might as well be without it.
-/
import HookScript.Proofs.Compile.Outcome
import HookScript.Proofs.Registry.Functions

namespace HookScript

theorem Ascending.nodup {α : Type} {entries : List (String × α)} (h : Ascending entries) :
    (entries.map Prod.fst).Nodup :=
  (List.pairwise_map.mpr h).imp Precedes.ne

theorem Registration.size_bindings (natives : Array NativeBinding) (first versions : Nat)
    (name : String) (params : List Parameter) (routine : HostRoutine) :
    (natives.appendList (bindings first versions name params routine)).size
      = natives.size + versions := by
  rw [← Array.length_toList, Array.appendList_eq_append, Array.toList_appendList]
  simp [bindings]

/-- The host function with the number is a version of the overload. -/
def Overload.Owns (o : Overload) (id : Nat) : Prop :=
  ∃ first versions, o.target = .native first ∧ versionCount? o.params = some versions ∧
    first ≤ id ∧ id < first + versions

theorem Overload.not_owns_builtin {params : List Parameter} {base : Nat} {doc : String} {id : Nat} :
    ¬ (⟨params, .builtin base, doc⟩ : Overload).Owns id := by
  rintro ⟨first, versions, htarget, -⟩
  cases htarget

theorem Overload.owns_native {params : List Parameter} {first versions : Nat} {doc : String}
    (h : versionCount? params = some versions) {id : Nat} :
    (⟨params, .native first, doc⟩ : Overload).Owns id ↔ first ≤ id ∧ id < first + versions := by
  constructor
  · rintro ⟨first', versions', htarget, hversions, hid⟩
    cases htarget
    cases h.symm.trans hversions
    exact hid
  · exact fun hid => ⟨first, versions, rfl, h, hid⟩

namespace Registry

/-- What changes preserve about the tables of a registry. -/
structure Coherent (r : Registry) : Prop where
  /-- no name stands for an operation and for something else -/
  apart : ∀ name op, r.operation? name = some op → r.globals.find? name = none
  /-- types are numbered in their order -/
  tags : ∀ (i : Nat) (info : TypeInfo), r.types[i]? = some info → info.tag.index = i
  /-- a type of the host stands for one type only -/
  hosts : ∀ (i j : Nat) (info other : TypeInfo) (host : HostType), r.types[i]? = some info →
    r.types[j]? = some other → info.host = some host → other.host = some host → i = j
  /-- the versions of a host function can be numbered -/
  counted : ∀ name, ∀ o ∈ r.overloadsOf name, ∀ first, o.target = .native first →
    versionCount? o.params = some (choiceCount o.params)
  /-- every host function is a version of an overload … -/
  covered : ∀ id, id < r.natives.size ↔ ∃ name, ∃ o ∈ r.overloadsOf name, o.Owns id
  /-- … and of one overload only -/
  disjoint : ∀ (name name' : String) (i i' : Nat) (o o' : Overload) (id : Nat),
    (r.overloadsOf name)[i]? = some o → (r.overloadsOf name')[i']? = some o' → o.Owns id →
      o'.Owns id → name = name' ∧ i = i'

theorem Coherent.empty (config : RegistryConfig) : Coherent { config } where
  apart := by simp [operation?]
  tags := by simp
  hosts := by simp
  counted := by simp [overloadsOf, operation?]
  covered := by simp [overloadsOf, operation?]
  disjoint := by simp [overloadsOf, operation?]

/-- An overload in the table has been there before, or is the one that has been added. -/
theorem getElem?_overloadsOf_extended {r : Registry} {name other : String} {o found : Overload}
    {i : Nat}
    (h : ((r.withOperation name (r.extended name o)).overloadsOf other)[i]? = some found) :
    (r.overloadsOf other)[i]? = some found ∨
      name = other ∧ i = (r.overloadsOf other).length ∧ found = o := by
  rw [overloadsOf_withOperation] at h
  split at h
  · rename_i heq
    subst heq
    rw [overloads_extended, List.getElem?_append] at h
    split at h
    · exact .inl h
    · rename_i hge
      rw [List.getElem?_singleton] at h
      split at h
      · cases h
        exact .inr ⟨rfl, by omega, rfl⟩
      · cases h
  · exact .inl h

theorem mem_overloadsOf_extended {r : Registry} {name other : String} {o found : Overload} :
    found ∈ (r.withOperation name (r.extended name o)).overloadsOf other ↔
      found ∈ r.overloadsOf other ∨ name = other ∧ found = o := by
  rw [overloadsOf_withOperation]
  split
  · rename_i heq
    subst heq
    simp [overloads_extended]
  · rename_i hne
    simp [hne]

namespace Coherent

variable {r : Registry}

theorem owned (h : r.Coherent) {name : String} {i : Nat} {o : Overload} {id : Nat}
    (ho : (r.overloadsOf name)[i]? = some o) (hid : o.Owns id) : id < r.natives.size :=
  (h.covered id).mpr ⟨name, o, List.mem_of_getElem? ho, hid⟩

theorem global_of_takes (h : r.Coherent) {name : String} (takes : r.Takes name) :
    r.globals.find? name = none := by
  rcases takes with free | ⟨op, hop, -⟩
  · exact free.global
  · exact h.apart name op hop

theorem apart_withOperation (h : r.Coherent) {name : String}
    (hglobal : r.globals.find? name = none) (op : Operation) :
    ∀ other found, (r.withOperation name op).operation? other = some found →
      r.globals.find? other = none := by
  intro other found hf
  rw [operation?_withOperation] at hf
  split at hf
  · rename_i heq
    exact heq ▸ hglobal
  · exact h.apart other found hf

theorem withGlobal (h : r.Coherent) {name : String} (free : r.Free name) (meaning : Meaning) :
    Coherent { r with globals := ⟨r.globals.entries.insert name meaning⟩ } := by
  refine { h with apart := fun other op hop => ?_ }
  rw [SymbolTable.find?_insert]
  split
  · rename_i heq
    subst heq
    exact nomatch free.operation.symm.trans hop
  · exact h.apart other op hop

theorem withType (h : r.Coherent) {info : TypeInfo} (next : info.tag.index = r.types.size)
    (new : ∀ host, info.host = some host → r.tagOf? host = none) :
    Coherent { r with types := r.types.push info } := by
  -- no type before has the host type of the new one
  have hnew : ∀ (i : Nat) (old : TypeInfo) (host : HostType), r.types[i]? = some old →
      old.host = some host → info.host ≠ some host := by
    intro i old host hi hold heq
    have hnone := new host heq
    rw [tagOf?, Option.map_eq_none_iff, Array.find?_eq_none] at hnone
    exact hnone old (Array.mem_of_getElem? hi) (by simpa using hold)
  refine { h with
    tags := fun i found hi => ?_
    hosts := fun i j first second host hi hj hfirst hsecond => ?_ }
  · rw [Array.getElem?_push] at hi
    split at hi
    · cases hi
      omega
    · exact h.tags i found hi
  · rw [Array.getElem?_push] at hi hj
    split at hi <;> split at hj
    · omega
    · cases hi
      exact absurd hfirst (hnew j second host hj hsecond)
    · cases hj
      exact absurd hsecond (hnew i first host hi hfirst)
    · exact h.hosts i j first second host hi hj hfirst hsecond

theorem withKeyword (h : r.Coherent) {name : String} (free : r.Free name) (form : StatementForm) :
    (r.withOperation name ⟨name, [], form, true⟩).Coherent := by
  have hsame : (r.withOperation name ⟨name, [], form, true⟩).overloadsOf = r.overloadsOf := by
    funext other
    rw [overloadsOf_withOperation]
    split
    · rename_i heq
      rw [← heq, overloadsOf, free.operation, Option.elim_none]
    · rfl
  refine ⟨h.apart_withOperation free.global _, h.tags, h.hosts, ?_, ?_, ?_⟩ <;> rw [hsame]
  · exact h.counted
  · exact h.covered
  · exact h.disjoint

/-- A new overload owns the host functions that come with it. -/
theorem withOverload (h : r.Coherent) {name : String} (takes : r.Takes name) {o : Overload}
    {natives : Array NativeBinding}
    (hcounted : ∀ first, o.target = .native first →
      versionCount? o.params = some (choiceCount o.params))
    (hsize : r.natives.size ≤ natives.size)
    (howns : ∀ id, o.Owns id ↔ r.natives.size ≤ id ∧ id < natives.size) :
    Coherent { r.withOperation name (r.extended name o) with natives } := by
  refine ⟨h.apart_withOperation (h.global_of_takes takes) _, h.tags, h.hosts,
    fun other found hf => ?_, fun id => ?_,
    fun other other' i i' found found' id hi hi' hid hid' => ?_⟩
  · rcases mem_overloadsOf_extended.mp hf with hf | ⟨-, rfl⟩
    · exact h.counted other found hf
    · exact hcounted
  · constructor
    · intro hlt
      by_cases hold : id < r.natives.size
      · obtain ⟨other, found, hf, hid⟩ := (h.covered id).mp hold
        exact ⟨other, found, mem_overloadsOf_extended.mpr (.inl hf), hid⟩
      · exact ⟨name, o, mem_overloadsOf_extended.mpr (.inr ⟨rfl, rfl⟩),
          (howns id).mpr ⟨Nat.not_lt.mp hold, hlt⟩⟩
    · rintro ⟨other, found, hf, hid⟩
      rcases mem_overloadsOf_extended.mp hf with hf | ⟨-, rfl⟩
      · exact Nat.lt_of_lt_of_le ((h.covered id).mpr ⟨other, found, hf, hid⟩) hsize
      · exact ((howns id).mp hid).2
  · -- an old overload owns none of the new host functions
    have hapart : ∀ {other : String} {i : Nat} {found : Overload},
        (r.overloadsOf other)[i]? = some found → found.Owns id → ¬ o.Owns id := by
      intro other i found hf hid hnew
      exact absurd (h.owned hf hid) (Nat.not_lt.mpr ((howns id).mp hnew).1)
    rcases getElem?_overloadsOf_extended hi with hold | ⟨hname, hlast, hf⟩ <;>
      rcases getElem?_overloadsOf_extended hi' with hold' | ⟨hname', hlast', hf'⟩
    · exact h.disjoint other other' i i' found found' id hold hold' hid hid'
    · exact absurd (hf' ▸ hid') (hapart hold hid)
    · exact absurd (hf ▸ hid) (hapart hold' hid')
    · obtain rfl : other = other' := hname.symm.trans hname'
      exact ⟨rfl, hlast.trans hlast'.symm⟩

end Coherent

theorem Change.coherent {r r' : Registry} (change : r.Change r') (h : r.Coherent) :
    r'.Coherent := by
  cases change with
  | global free => exact h.withGlobal free _
  | type info next new => exact h.withType next new
  | keyword free => exact h.withKeyword free _
  | instruction takes =>
    refine h.withOverload takes (fun first htarget => nomatch htarget) (Nat.le_refl _) fun id => ?_
    simp only [Overload.not_owns_builtin, false_iff]
    omega
  | function takes few ofHost counted =>
    refine h.withOverload takes (fun _ _ => counted) ?_ fun id => ?_
    · rw [Registration.size_bindings]
      exact Nat.le_add_right _ _
    · rw [Registration.size_bindings, Overload.owns_native counted]
  | hook => exact { h with }

theorem Built.coherent {r : Registry} (h : r.Built) : r.Coherent :=
  h.preserves (fun config _ => .empty config) fun _ _ change => change.coherent

/-- No change is one of the configuration. -/
theorem Change.config_eq {r r' : Registry} (h : r.Change r') : r'.config = r.config := by
  cases h <;> rfl

theorem Evolves.config_eq {r r' : Registry} (h : r.Evolves r') : r'.config = r.config := by
  induction h with
  | refl => rfl
  | tail _ change ih => exact change.config_eq.trans ih

theorem Later.config_eq {r r' : Registry} (h : r.Later r') : r'.config = r.config := by
  induction h with
  | refl => rfl
  | @request r' _ request ih => exact (r'.evolves_onward request).config_eq.trans ih

end Registry

/-! ### The operations of the builtin vocabulary -/

namespace Registration

variable {r : Registry}

theorem overloads_enlist (bs : List Builtin) :
    Ensures (bs.forM fun b => overload b.name ⟨b.params, .builtin b.base, b.doc⟩) r
      (fun _ r' => ∀ name, (r'.operation? name).isSome ↔
        (r.operation? name).isSome ∨ name ∈ bs.map Builtin.name) (fun _ _ => True) := by
  induction bs generalizing r with
  | nil => simp
  | cons b bs ih =>
    refine (overload_extends _ _).bind ?_
    rintro - r' ⟨-, rfl⟩
    refine ih.mono (fun _ r'' h name => ?_) fun _ _ h => h
    rw [h, r.enlists_withOperation]
    simp only [List.map_cons, List.mem_cons, Option.some.injEq, or_assoc, eq_comm (a := name)]

theorem keywords_enlist (words : List (String × StatementForm)) :
    Ensures (words.forM fun (name, form) => keyword name form) r
      (fun _ r' => ∀ name, (r'.operation? name).isSome ↔
        (r.operation? name).isSome ∨ name ∈ words.map Prod.fst) (fun _ _ => True) := by
  induction words generalizing r with
  | nil => simp
  | cons word words ih =>
    refine ((operation_ensures _).mono (fun _ _ h => h) fun _ _ _ => trivial).bind ?_
    rintro - r' ⟨-, rfl⟩
    refine ih.mono (fun _ r'' h name => ?_) fun _ _ h => h
    rw [h, r.enlists_withOperation]
    simp only [List.map_cons, List.mem_cons, Option.some.injEq, or_assoc, eq_comm (a := name)]

theorem builtinVocabulary_enlists :
    Ensures builtinVocabulary r
      (fun _ r' => ∀ name, (r'.operation? name).isSome ↔ (r.operation? name).isSome ∨
        name ∈ Builtin.all.map Builtin.name ∨ name ∈ keywords.map Prod.fst) (fun _ _ => True) := by
  rw [builtinVocabulary]
  refine (globalName_enlists "int" _).bind fun _ r₁ h₁ => ?_
  rw [ensures_modify_bind]
  refine (overloads_enlist Builtin.all).bind fun _ r₂ h₂ => ?_
  refine (keywords_enlist keywords).mono (fun _ r₃ h₃ name => ?_) fun _ _ h => h
  have hsame : (r₁.operation? name).isSome ↔ (r.operation? name).isSome := by simpa using h₁ name
  rw [h₃, h₂]
  show ((r₁.operation? name).isSome ∨ _) ∨ _ ↔ _
  rw [hsame, or_assoc]

end Registration

/-! ### Histories -/

namespace Registry

/-- The tables of a registry fit together. -/
structure Consistent (r : Registry) : Prop where
  /-- global names stand in the strict order of their bytes, … -/
  globals : Ascending r.globals.toList ∧ (r.globals.toList.map Prod.fst).Nodup
  /-- … operations stand in the strict order of the bytes of their names, … -/
  operations : Ascending r.operations.toList ∧ (r.operations.toList.map Prod.fst).Nodup
  named : ∀ entry ∈ r.operations.toList, entry.2.name = entry.1
  /-- … and no name is one of both -/
  apart : ∀ global ∈ r.globals.toList, ∀ operation ∈ r.operations.toList, global.1 ≠ operation.1
  /-- the number of a type is its place -/
  tags : ∀ (i : Nat) (info : TypeInfo), r.types[i]? = some info → info.tag.index = i
  /-- a type of the host has one number at most -/
  hosts : ∀ (i j : Nat) (info other : TypeInfo) (host : HostType), r.types[i]? = some info →
    r.types[j]? = some other → info.host = some host → other.host = some host → i = j
  /-- the number of a host function is its place -/
  ids : ∀ (id : Nat) (binding : NativeBinding), r.natives[id]? = some binding → binding.id = id
  /-- the versions of an overload are host functions in a row, … -/
  entered : ∀ operation ∈ r.operations.toList, ∀ o ∈ operation.2.overloads, ∀ first,
    o.target = .native first → ∃ versions routine, versionCount? o.params = some versions ∧
      ∀ version < versions, r.natives[first + version]? = some
        ⟨first + version, operation.2.name, Codec.layoutOf o.params version, routine⟩
  /-- … in which there are no others, … -/
  covered : ∀ id < r.natives.size, ∃ operation ∈ r.operations.toList,
    ∃ o ∈ operation.2.overloads, o.Owns id
  /-- … and no host function is a version of two overloads -/
  disjoint : ∀ first ∈ r.operations.toList, ∀ second ∈ r.operations.toList,
    ∀ (i j : Nat) (o o' : Overload) (id : Nat), first.2.overloads[i]? = some o →
      second.2.overloads[j]? = some o' → o.Owns id → o'.Owns id → first.1 = second.1 ∧ i = j
  /-- standing registers are registers of scripts -/
  standing : ∀ name index type writable,
    (name, Meaning.register index type writable) ∈ r.globals.toList →
      index.toNat < r.config.registers

theorem mem_operations_iff {r : Registry} {entry : String × Operation} :
    entry ∈ r.operations.toList ↔ r.operation? entry.1 = some entry.2 :=
  NameTable.find?_eq_some_iff.symm

theorem mem_globals_iff {r : Registry} {entry : String × Meaning} :
    entry ∈ r.globals.toList ↔ r.globals.find? entry.1 = some entry.2 :=
  NameTable.find?_eq_some_iff.symm

/-- The versions of an overload are host functions in a row. -/
theorem Built.entered {r : Registry} (h : r.Built) {name : String} {op : Operation}
    (hop : r.operation? name = some op) {o : Overload} (ho : o ∈ op.overloads) {first : Nat}
    (htarget : o.target = .native first) :
    ∃ versions routine, versionCount? o.params = some versions ∧
      ∀ version < versions, r.natives[first + version]? = some
        ⟨first + version, op.name, Codec.layoutOf o.params version, routine⟩ := by
  have hcounted := h.coherent.counted name o (overloadsOf_eq hop ▸ ho) first htarget
  have hname := h.tidy.named name op hop
  cases h.sound.overloads name op hop o ho with
  | builtin => cases htarget
  | native routine _ _ entered =>
    cases htarget
    rw [hname]
    exact ⟨_, routine, hcounted, entered⟩

/-- The tables of every registry fit together. -/
theorem Built.consistent {r : Registry} (h : r.Built) : r.Consistent where
  globals := ⟨r.globals.entries.ascending, r.globals.entries.ascending.nodup⟩
  operations := ⟨r.operations.ascending, r.operations.ascending.nodup⟩
  named entry hm := h.tidy.named _ _ (mem_operations_iff.mp hm)
  apart global hg operation ho heq := by
    have hnone := h.coherent.apart _ _ (mem_operations_iff.mp ho)
    rw [← heq] at hnone
    exact nomatch hnone.symm.trans (mem_globals_iff.mp hg)
  tags := h.coherent.tags
  hosts := h.coherent.hosts
  ids := h.sound.natives
  entered _ hm _ ho _ htarget := h.entered (mem_operations_iff.mp hm) ho htarget
  covered id hid := by
    obtain ⟨name, o, ho, howns⟩ := (h.coherent.covered id).mp hid
    cases hop : r.operation? name with
    | none =>
      rw [overloadsOf, hop] at ho
      cases ho
    | some op => exact ⟨(name, op), mem_operations_iff.mpr hop, o, overloadsOf_eq hop ▸ ho, howns⟩
  disjoint first hf second hs i j o o' id hi hj := by
    rw [← overloadsOf_eq (mem_operations_iff.mp hf)] at hi
    rw [← overloadsOf_eq (mem_operations_iff.mp hs)] at hj
    exact h.coherent.disjoint _ _ i j o o' id hi hj
  standing name index type writable hm := (h.sound.globals _ _ (mem_globals_iff.mp hm)).1

end Registry

/-- Whatever has been asked of a registry since it had only its builtin vocabulary, successfully or
not, its tables fit together; and an operation is found under a name, in whichever two pieces, if
and only if the name is one of the builtin vocabulary or a request for it has succeeded. -/
theorem registries_stay_consistent {config : RegistryConfig} {bare : Registry}
    (h : Registry.bare? config = .ok bare) (requests : List Registration.Request) :
    (bare.throughout requests).Consistent ∧ (bare.throughout requests).config = config ∧
      ∀ front back : String,
        (∀ op, (bare.throughout requests).operationJoined? front back = some op →
          op.name = front ++ back) ∧
        (((bare.throughout requests).operationJoined? front back).isSome ↔
          front ++ back ∈ Builtin.all.map Builtin.name ∨
          front ++ back ∈ Registration.keywords.map Prod.fst ∨
          bare.Requested requests (front ++ back)) := by
  have later := bare.later_throughout requests
  have built := later.built (.bare h)
  obtain ⟨-, a, hx⟩ := Registry.of_bare h
  refine ⟨built.consistent, later.config_eq.trans (Registry.evolves_of_bare h).config_eq,
    fun front back => ?_⟩
  rw [Registry.operationJoined?_eq]
  refine ⟨fun op => built.tidy.named _ op, ?_⟩
  rw [Registry.isSome_operation?_throughout, Registration.builtinVocabulary_enlists.of_ok hx]
  simp [Registry.operation?, or_assoc]

/-- Requests of which the second and the fourth fail: the first has named the type already, and
there is no such register. -/
def unitRequests : List Registration.Request :=
  [.type ⟨"Unit"⟩ "Unit", .type ⟨"Unit"⟩ "Thing",
    .getter ⟨"Unit"⟩ "getHealth" fun fields => fields[0]?.getD 0, .standingRegister "r64" 64,
    .function "debug_log" [.int, .int, .int] "log three values" (.finish .proceed)]

theorem registries_stay_consistent_unitRequests : ∃ bare, Registry.bare? {} = .ok bare ∧
    (bare.throughout unitRequests).Consistent ∧ (bare.throughout unitRequests).natives.size = 9 ∧
      bare.Requested unitRequests "Unit.getHealth" ∧
      ¬ bare.Requested unitRequests "Thing.getHealth" := by
  have h : (Registry.bare? {}).toOption.any (fun bare =>
      let r := bare.throughout unitRequests
      decide (r.natives.size = 9) && ((r.operationJoined? "Unit" ".getHealth").isSome &&
        (r.operationJoined? "Thing" ".getHealth").isNone)) = true := by
    decide +kernel
  obtain ⟨bare, hbare, h⟩ := exists_ok h
  simp only [Bool.and_eq_true, decide_eq_true_eq] at h
  obtain ⟨hsize, hunit, hthing⟩ := h
  obtain ⟨consistent, -, found⟩ := registries_stay_consistent hbare unitRequests
  refine ⟨bare, hbare, consistent, hsize, ?_, fun hrequested => ?_⟩
  · have named := (found "Unit" ".getHealth").2.mp hunit
    exact (named.resolve_left (by decide)).resolve_left (by decide)
  · have some := (found "Thing" ".getHealth").2.mpr (.inr (.inr hrequested))
    simp [Option.isNone_iff_eq_none.mp hthing] at some

/-- A request that fails leaves the registry exactly as it was, whatever it was.  So the history of
a registry is that of the requests that have succeeded: they alone, one after the other, succeed
again and lead to the same registry. -/
theorem failed_requests_leave_no_trace (r : Registry) :
    (∀ (request : Registration.Request) (e : RegistryError) (r' : Registry),
      request.perform r = .error e r' → r' = r) ∧
    ∀ requests : List Registration.Request,
      (r.effective requests).forM Registration.Request.perform r
        = .ok ⟨⟩ (r.throughout requests) := by
  refine ⟨fun request e r' hx => ?_, r.forM_effective⟩
  exact request.grows.of_error hx

/-- A function that is called like the type of integers is refused when its overload is added, after
all checks of its parameters. -/
theorem failed_requests_leave_no_trace_unitRequests : ∃ bare e, Registry.bare? {} = .ok bare ∧
    (Registration.Request.function "int" [.int] "" (.finish .proceed)).perform bare
      = .error e bare ∧
    (bare.effective unitRequests).length = 3 ∧
    (bare.effective unitRequests).forM Registration.Request.perform bare
      = .ok ⟨⟩ (bare.throughout unitRequests) := by
  have h : (Registry.bare? {}).toOption.any (fun bare =>
      decide ((bare.effective unitRequests).length = 3) &&
        !(Registration.Request.function "int" [.int] "" (.finish .proceed)).passes bare
          fun _ => true) = true := by
    decide +kernel
  obtain ⟨bare, hbare, h⟩ := exists_ok h
  simp only [Bool.and_eq_true, decide_eq_true_eq, Bool.not_eq_true'] at h
  obtain ⟨unchanged, history⟩ := failed_requests_leave_no_trace bare
  cases hx : (Registration.Request.function "int" [.int] "" (.finish .proceed)).perform bare with
  | ok a r' => simp [Registration.Request.passes, hx] at h
  | error e r' => exact ⟨bare, e, hbare, unchanged _ e r' hx ▸ hx, h.1, history unitRequests⟩

end HookScript
