/-
Registries as they are built: one request after the other, on top of the builtin vocabulary.

* `Registry.Built` — the registries that a host can come to have;
* `Registry.Sound` — what the compiler relies on in a registry, which every request preserves
  (`Registration.Request.sound`);
* `Registry.Built.sound` and `Registry.Built.offers` — hence every registry is sound, and its
  scripts can use all builtin instructions.
-/
import HookScript.Registry.Registration
import HookScript.Proofs.Code.Versions
import HookScript.Proofs.Registry.Symbols

namespace HookScript

/-- The parameter may belong to a host function. -/
def Parameter.OfHost : Parameter → Prop
  | .int | .intVar | .ptr _ | .ptre _ => True
  | .label | .native | .raw => False

/-- The meaning may belong to a global name. -/
def Meaning.Global (config : RegistryConfig) : Meaning → Prop
  | .constant _ | .typeName _ => True
  | .register index type writable =>
    index.toNat < config.registers ∧ type = .int ∧ writable = true
  | .label _ => False

/-- The overload belongs to the operation `name`: it is a builtin instruction of that name, or a
host function all of whose versions are in the table. -/
inductive Overload.Sound (natives : Array NativeBinding) (name : String) : Overload → Prop where
  | builtin (b : Builtin) (doc : String) (named : b.name = name) :
      Sound natives name ⟨b.params, .builtin b.base, doc⟩
  | native {params : List Parameter} {first : Nat} {doc : String} (routine : HostRoutine)
      (ofHost : ∀ p ∈ params, p.OfHost) (few : params.length ≤ RegistryError.argumentLimit)
      (entered : ∀ version < choiceCount params, natives[first + version]?
        = some ⟨first + version, name, Codec.layoutOf params version, routine⟩) :
      Sound natives name ⟨params, .native first, doc⟩

namespace Registry

/-- What the compiler relies on in a registry. -/
structure Sound (r : Registry) : Prop where
  config : r.config.fault? = none
  globals : ∀ name meaning, r.globals.find? name = some meaning → meaning.Global r.config
  overloads : ∀ name op, r.operation? name = some op →
    ∀ o ∈ op.overloads, o.Sound r.natives name
  /-- only keywords have a form of their own, and they have no overloads -/
  forms : ∀ name op, r.operation? name = some op →
    op.keyword = true ∧ op.overloads = [] ∨ op.keyword = false ∧ op.form = .call
  natives : ∀ id binding, r.native? id = some binding → binding.id = id

/-- The operation `name` has the overload. -/
def Offers (r : Registry) (name : String) (o : Overload) : Prop :=
  ∃ op, r.operation? name = some op ∧ o ∈ op.overloads

/-- The name stands for nothing yet. -/
structure Free (r : Registry) (name : String) : Prop where
  operation : r.operation? name = none
  global : r.globals.find? name = none

/-- The overload of a builtin instruction. -/
def builtinOverload (b : Builtin) : Overload :=
  ⟨b.params, .builtin b.base, b.doc⟩

end Registry

theorem RegistryConfig.of_fault?_eq_none {c : RegistryConfig} (h : c.fault? = none) :
    c.registers ≤ maxRegisters ∧ c.inputRegisters ≤ c.registers ∧
      c.maxArguments ≤ RegistryError.argumentLimit := by
  rw [fault?] at h
  split at h
  · cases h
  · rename_i hr
    split at h
    · cases h
    · split at h
      · cases h
      · simp only [Bool.or_eq_true, decide_eq_true_eq, not_or] at hr
        omega

/-- Numbers of registers fit a byte. -/
theorem Registry.Sound.toNat_ofNat {r : Registry} (h : r.Sound) {n : Nat}
    (hn : n ≤ r.config.registers) : (UInt8.ofNat n).toNat = n := by
  have hcap := (RegistryConfig.of_fault?_eq_none h.config).1
  simp only [maxRegisters] at hcap
  rw [UInt8.toNat_ofNat']
  omega

/-! ### Single changes -/

theorem getElem?_appendList (natives : Array NativeBinding) (more : List NativeBinding) (i : Nat) :
    (natives.appendList more)[i]? = (natives.toList ++ more)[i]? := by
  rw [Array.appendList_eq_append, ← Array.getElem?_toList, Array.toList_appendList]

theorem Registry.native?_appendList {r : Registry} {id : Nat} {binding : NativeBinding}
    (h : r.native? id = some binding) (more : List NativeBinding) :
    (r.natives.appendList more)[id]? = some binding := by
  obtain ⟨hlt, -⟩ := Array.getElem?_eq_some_iff.mp h
  rw [getElem?_appendList, List.getElem?_append_left (by simpa), Array.getElem?_toList]
  exact h

theorem Overload.Sound.mono {natives : Array NativeBinding} {name : String} {o : Overload}
    (h : o.Sound natives name) (more : List NativeBinding) :
    o.Sound (natives.appendList more) name := by
  cases h with
  | builtin b doc named => exact .builtin b doc named
  | native routine ofHost few entered =>
    refine .native routine ofHost few fun version hv => ?_
    have hold := entered version hv
    obtain ⟨hlt, -⟩ := Array.getElem?_eq_some_iff.mp hold
    rw [getElem?_appendList, List.getElem?_append_left (by simpa), Array.getElem?_toList, hold]

namespace Registry

/-- The registry in which the operation `name` is `op`. -/
def withOperation (r : Registry) (name : String) (op : Operation) : Registry :=
  { r with operations := r.operations.insert name op }

theorem operation?_withOperation (r : Registry) (name other : String) (op : Operation) :
    (r.withOperation name op).operation? other
      = if name = other then some op else r.operation? other := by
  exact r.operations.find?_insert name other op

variable {r : Registry}

theorem Sound.withGlobal (h : r.Sound) {name : String} {meaning : Meaning}
    (hm : meaning.Global r.config) :
    Sound { r with globals := ⟨r.globals.entries.insert name meaning⟩ } := by
  refine { h with globals := fun other found hf => ?_ }
  rw [SymbolTable.find?_insert] at hf
  split at hf
  · cases hf
    exact hm
  · exact h.globals other found hf

end Registry

namespace Registration

variable {r : Registry}

theorem globalName_ensures (name : String) (meaning : Meaning) :
    Ensures (globalName name meaning) r
      (fun _ r' => r.Free name ∧
        r' = { r with globals := ⟨r.globals.entries.insert name meaning⟩ })
      (fun _ r' => r' = r) := by
  simp only [globalName, ensures_get_bind]
  split
  · rfl
  · rename_i hop
    cases hi : r.globals.insert name meaning with
    | error _ => rfl
    | ok globals =>
      obtain ⟨hglobal, rfl⟩ := SymbolTable.insert_eq_ok hi
      exact ⟨⟨by simpa using hop, hglobal⟩, rfl⟩

/-- What adding an overload makes of the operation `name`. -/
structure Gains (r : Registry) (name : String) (o : Overload) (op : Operation) : Prop where
  mem_iff : ∀ o', o' ∈ op.overloads ↔
    (∃ old, r.operation? name = some old ∧ o' ∈ old.overloads) ∨ o' = o
  keyword : op.keyword = false
  form : op.form = .call ∨
    ∃ old, r.operation? name = some old ∧ old.keyword = false ∧ op.form = old.form

theorem operation_ensures (op : Operation) :
    Ensures (operation op) r
      (fun _ r' => r.Free op.name ∧ r' = r.withOperation op.name op)
      (fun _ r' => r' = r) := by
  simp only [operation, ensures_get_bind]
  split
  · rfl
  · rename_i h
    rw [Bool.or_eq_true, not_or, NameTable.contains] at h
    exact ⟨⟨by simpa [Registry.operation?] using h.2, by simpa using h.1⟩, rfl⟩

theorem overload_ensures (name : String) (o : Overload) :
    Ensures (overload name o) r
      (fun _ r' => ∃ op, Gains r name o op ∧ r' = r.withOperation name op)
      (fun _ r' => r' = r) := by
  simp only [overload, ensures_get_bind]
  cases hop : r.operation? name with
  | some op =>
    simp only
    split
    · rfl
    · rename_i hk
      have hk : op.keyword = false := by simpa using hk
      refine ⟨{ op with overloads := op.overloads ++ [o] },
        ⟨fun o' => ?_, hk, .inr ⟨op, hop, hk, rfl⟩⟩, rfl⟩
      simp [hop]
  | none =>
    refine (operation_ensures _).mono ?_ (fun _ _ h => h)
    rintro - r' ⟨-, rfl⟩
    refine ⟨_, ⟨fun o' => ?_, rfl, .inl rfl⟩, rfl⟩
    simp [hop]

theorem checkParameters_eq_ok {name : String} {params : List Parameter} {versions : Nat}
    (h : checkParameters r name params = .ok versions) :
    params.length ≤ r.config.maxArguments ∧ (∀ p ∈ params, p.OfHost) ∧
      versions = choiceCount params ∧ versionCount? params = some versions := by
  rw [checkParameters] at h
  split at h
  · cases h
  · rename_i hlen
    split at h
    · cases h
    · rename_i hfind
      split at h
      · rename_i hcount
        cases h
        refine ⟨by omega, fun p hp => ?_, versionCount?_eq_some hcount, hcount⟩
        have := List.findIdx?_eq_none_iff.mp hfind p hp
        cases p with
        | label | native | raw => simp [isAvailable] at this
        | int | intVar | ptr _ | ptre _ => trivial
      · cases h

theorem function_ensures (name : String) (params : List Parameter) (doc : String)
    (routine : HostRoutine) :
    Ensures (function name params doc routine) r
      (fun _ r' => params.length ≤ r.config.maxArguments ∧ (∀ p ∈ params, p.OfHost) ∧
        ∃ op, Gains r name ⟨params, .native r.natives.size, doc⟩ op ∧
          r' = { r.withOperation name op with
            natives := r.natives.appendList
              (bindings r.natives.size (choiceCount params) name params routine) })
      (fun _ r' => r' = r) := by
  simp only [function, ensures_get_bind]
  cases hc : checkParameters r name params with
  | error e => rfl
  | ok versions =>
    obtain ⟨hlen, hhost, rfl, -⟩ := checkParameters_eq_ok hc
    simp only
    split
    · rfl
    · refine (overload_ensures name _).bind ?_
      rintro - r' ⟨op, gains, rfl⟩
      exact ⟨hlen, hhost, op, gains, rfl⟩

end Registration

namespace Registry.Sound

variable {r : Registry}

theorem withOperation (h : r.Sound) {name : String} {op : Operation}
    (ho : ∀ o ∈ op.overloads, o.Sound r.natives name)
    (hform : op.keyword = true ∧ op.overloads = [] ∨ op.keyword = false ∧ op.form = .call) :
    (r.withOperation name op).Sound := by
  refine { h with
    overloads := fun other found hf => ?_
    forms := fun other found hf => ?_ }
  · rw [operation?_withOperation] at hf
    split at hf
    · rename_i heq
      cases hf
      exact heq ▸ ho
    · exact h.overloads other found hf
  · rw [operation?_withOperation] at hf
    split at hf
    · cases hf
      exact hform
    · exact h.forms other found hf

theorem withOverload (h : r.Sound) {name : String} {o : Overload} {op : Operation}
    (gains : Registration.Gains r name o op) (ho : o.Sound r.natives name) :
    (r.withOperation name op).Sound := by
  refine h.withOperation (fun o' ho' => ?_) (.inr ⟨gains.keyword, ?_⟩)
  · rcases (gains.mem_iff o').mp ho' with ⟨old, hold, ho'⟩ | rfl
    · exact h.overloads name old hold o' ho'
    · exact ho
  · rcases gains.form with hcall | ⟨old, hold, hk, hform⟩
    · exact hcall
    · -- the operation that there was is no keyword, so it had this form already
      rcases h.forms name old hold with ⟨hk', -⟩ | ⟨-, hcall⟩
      · rw [hk] at hk'
        cases hk'
      · exact hform.trans hcall

theorem withBindings (h : r.Sound) (versions : Nat) (name : String) (params : List Parameter)
    (routine : HostRoutine) :
    Sound { r with
      natives := r.natives.appendList
        (Registration.bindings r.natives.size versions name params routine) } := by
  refine { config := h.config, globals := h.globals, forms := h.forms,
           overloads := fun other found hf o ho => ?_,
           natives := fun id binding hb => ?_ }
  · exact (h.overloads other found hf o ho).mono _
  · simp only [Registry.native?, getElem?_appendList] at hb
    -- a number below the old size is that of an old entry
    by_cases hid : id < r.natives.size
    · rw [List.getElem?_append_left (by simpa), Array.getElem?_toList] at hb
      exact h.natives id binding hb
    · rw [List.getElem?_append_right (by simpa using hid)] at hb
      simp only [Registration.bindings, List.getElem?_map, Option.map_eq_some_iff,
        Array.length_toList] at hb
      obtain ⟨version, hv, rfl⟩ := hb
      have := (List.getElem?_eq_some_iff.mp hv).2
      simp only [List.getElem_range] at this
      show r.natives.size + version = id
      omega

theorem withFunction (h : r.Sound) {name : String} {params : List Parameter} {doc : String}
    {op : Operation} (gains : Registration.Gains r name ⟨params, .native r.natives.size, doc⟩ op)
    (hlen : params.length ≤ r.config.maxArguments) (hhost : ∀ p ∈ params, p.OfHost)
    (routine : HostRoutine) :
    Sound { r.withOperation name op with
      natives := r.natives.appendList
        (Registration.bindings r.natives.size (choiceCount params) name params routine) } := by
  have hfew := (RegistryConfig.of_fault?_eq_none h.config).2.2
  refine (h.withBindings (choiceCount params) name params routine).withOverload
    ⟨gains.mem_iff, gains.keyword, gains.form⟩
    (.native routine hhost (by omega) fun version hv => ?_)
  -- the versions of the new overload are what has just been appended
  rw [getElem?_appendList, List.getElem?_append_right (by simp)]
  simp [Registration.bindings, hv]

end Registry.Sound

/-! ### Requests -/

/-- A call of one of the functions that add to a registry. -/
inductive Registration.Request where
  | type (host : HostType) (name : String)
  | standingRegister (name : String) (index : UInt8)
  | constant (name : String) (value : Int32)
  | function (name : String) (params : List Parameter) (doc : String) (routine : HostRoutine)
  | method (host : HostType) (name : String) (params : List Parameter) (doc : String)
    (routine : HostRoutine)
  | editingMethod (host : HostType) (name : String) (params : List Parameter) (doc : String)
    (routine : HostRoutine)
  | getter (host : HostType) (name : String) (read : Fields → Int32)
  | setter (host : HostType) (name : String) (write : Fields → Int32 → Fields)
  | keyword (name : String) (form : StatementForm)
  | hook (h : HookSignature)

/-- Carries a request out. -/
def Registration.Request.perform : Request → Registration Unit
  | type host name => do
    let _ ← Registration.type host name
  | standingRegister name index => Registration.standingRegister name index
  | constant name value => Registration.constant name value
  | function name params doc routine => Registration.function name params doc routine
  | method host name params doc routine => Registration.method host name params doc routine
  | editingMethod host name params doc routine =>
    Registration.editingMethod host name params doc routine
  | getter host name read => Registration.getter host name read
  | setter host name write => Registration.setter host name write
  | keyword name form => Registration.keyword name form
  | hook h => Registration.hook h

/-- Whether the request succeeds and leads to a registry that passes the test. -/
def Registration.Request.passes (request : Request) (r : Registry) (P : Registry → Bool) : Bool :=
  match request.perform r with
  | .ok _ r' => P r'
  | .error _ _ => false

theorem Registration.Request.exists_of_passes {request : Request} {r : Registry}
    {P : Registry → Bool} (h : request.passes r P = true) :
    ∃ r', request.perform r = .ok () r' ∧ P r' = true := by
  rw [passes] at h
  split at h
  · rename_i r' hx
    exact ⟨r', hx, h⟩
  · cases h

/-- What a registry is after a change that may have failed. -/
def Registry.onward (change : Registration Unit) (r : Registry) : Registry :=
  match change r with
  | .ok _ r' => r'
  | .error _ r' => r'

/-- A registry as a host can come to have it: it has the builtin vocabulary, and has been through
requests, successful or not. -/
inductive Registry.Built : Registry → Prop where
  | bare {config : RegistryConfig} {r : Registry} (h : Registry.bare? config = .ok r) : Built r
  | request {r : Registry} (before : Built r) (request : Registration.Request) :
      Built (r.onward request.perform)

/-- The second registry is sound if the first one is, and has all of its overloads and host
functions. -/
structure Registry.Grows (r r' : Registry) : Prop where
  sound : r.Sound → r'.Sound
  offers : ∀ name o, r.Offers name o → r'.Offers name o
  natives : ∀ id binding, r.native? id = some binding → r'.native? id = some binding

namespace Registry.Grows

variable {r : Registry}

theorem refl : Grows r r := ⟨id, fun _ _ => id, fun _ _ => id⟩

theorem trans {r' r'' : Registry} (h : Grows r r') (h' : Grows r' r'') : Grows r r'' :=
  ⟨fun hs => h'.sound (h.sound hs), fun name o ho => h'.offers name o (h.offers name o ho),
    fun id binding hb => h'.natives id binding (h.natives id binding hb)⟩

theorem offers_withOverload {name : String} {o : Overload} {op : Operation}
    (gains : Registration.Gains r name o op) (other : String) (o' : Overload)
    (h : r.Offers other o') : (r.withOperation name op).Offers other o' := by
  obtain ⟨old, hold, ho'⟩ := h
  by_cases heq : name = other
  · subst heq
    refine ⟨op, ?_, (gains.mem_iff o').mpr (.inl ⟨old, hold, ho'⟩)⟩
    rw [operation?_withOperation, if_pos rfl]
  · refine ⟨old, ?_, ho'⟩
    rw [operation?_withOperation, if_neg heq, hold]

end Registry.Grows

namespace Registration

variable {r : Registry}

theorem globalName_grows (name : String) {meaning : Meaning} (hm : meaning.Global r.config) :
    Ensures (globalName name meaning) r (fun _ r' => r.Grows r') (fun _ r' => r' = r) := by
  refine (globalName_ensures name meaning).mono ?_ (fun _ _ h => h)
  rintro - r' ⟨-, rfl⟩
  exact ⟨fun hs => hs.withGlobal hm, fun _ _ h => h, fun _ _ h => h⟩

theorem type_grows (host : HostType) (name : String) :
    Ensures (type host name) r (fun _ r' => r.Grows r') (fun _ r' => r' = r) := by
  simp only [type, ensures_get_bind]
  split
  · rfl
  · refine (globalName_ensures name _).bind ?_
    rintro - r' ⟨-, rfl⟩
    have hm : (Meaning.typeName (.ptr ⟨r.types.size⟩)).Global r.config := trivial
    exact ⟨fun hs => { hs.withGlobal hm with }, fun _ _ h => h, fun _ _ h => h⟩

theorem standingRegister_grows (name : String) (index : UInt8) :
    Ensures (standingRegister name index) r (fun _ r' => r.Grows r') (fun _ r' => r' = r) := by
  simp only [standingRegister, ensures_get_bind]
  split
  · rfl
  · rename_i h
    exact globalName_grows name ⟨by omega, rfl, rfl⟩

theorem function_grows (name : String) (params : List Parameter) (doc : String)
    (routine : HostRoutine) :
    Ensures (function name params doc routine) r (fun _ r' => r.Grows r') (fun _ r' => r' = r) := by
  refine (function_ensures name params doc routine).mono ?_ (fun _ _ h => h)
  rintro - r' ⟨hlen, hhost, op, gains, rfl⟩
  refine ⟨fun hs => hs.withFunction gains hlen hhost routine,
    fun other o' h => Registry.Grows.offers_withOverload gains other o' h, fun id binding hb => ?_⟩
  exact Registry.native?_appendList hb _

theorem member_grows (handle : TypeTag → Parameter) (host : HostType) (name : String)
    (params : List Parameter) (doc : String) (routine : HostRoutine) :
    Ensures (member handle host name params doc routine) r (fun _ r' => r.Grows r')
      (fun _ r' => r' = r) := by
  simp only [member, hostTag, bind_assoc, ensures_get_bind]
  split
  · rfl
  · exact function_grows _ _ doc routine

theorem keyword_grows (name : String) (form : StatementForm) :
    Ensures (keyword name form) r (fun _ r' => r.Grows r') (fun _ r' => r' = r) := by
  refine (operation_ensures _).mono ?_ (fun _ _ h => h)
  rintro - r' ⟨hnew, rfl⟩
  refine ⟨fun hs => hs.withOperation (by simp) (.inl ⟨rfl, rfl⟩), ?_, fun _ _ h => h⟩
  rintro other o ⟨old, hold, ho⟩
  refine ⟨old, ?_, ho⟩
  rw [Registry.operation?_withOperation]
  split
  · rename_i heq
    -- a keyword does not replace an operation
    rw [← heq] at hold
    exact absurd hold (by simp [hnew.operation])
  · exact hold

theorem hook_grows (h : HookSignature) :
    Ensures (hook h) r (fun _ r' => r.Grows r') (fun _ r' => r' = r) := by
  simp only [hook, ensures_get_bind]
  split
  · rfl
  · split
    · rfl
    · exact ⟨fun hs => { hs with }, fun _ _ h => h, fun _ _ h => h⟩

/-- A request that succeeds lets the registry grow, and one that fails leaves it as it was. -/
theorem Request.grows (request : Request) :
    Ensures request.perform r (fun _ r' => r.Grows r') (fun _ r' => r' = r) := by
  cases request with
  | type host name => exact (type_grows host name).bind fun _ _ h => h
  | standingRegister name index => exact standingRegister_grows name index
  | constant name value => exact globalName_grows name trivial
  | function name params doc routine => exact function_grows name params doc routine
  | method host name params doc routine => exact member_grows _ host name params doc routine
  | editingMethod host name params doc routine => exact member_grows _ host name params doc routine
  | getter host name read => exact member_grows _ host name _ _ _
  | setter host name write => exact member_grows _ host name _ _ _
  | keyword name form => exact keyword_grows name form
  | hook h => exact hook_grows h

/-! ### The builtin vocabulary -/

theorem overload_grows (b : Builtin) :
    Ensures (overload b.name ⟨b.params, .builtin b.base, b.doc⟩) r
      (fun _ r' => r.Grows r' ∧ r'.Offers b.name (Registry.builtinOverload b))
      (fun _ _ => True) := by
  refine (overload_ensures _ _).mono ?_ (fun _ _ _ => trivial)
  rintro - r' ⟨op, gains, rfl⟩
  refine ⟨⟨fun hs => hs.withOverload gains (.builtin b b.doc rfl),
    fun other o' h => Registry.Grows.offers_withOverload gains other o' h, fun _ _ h => h⟩,
    op, ?_, ?_⟩
  · rw [Registry.operation?_withOperation, if_pos rfl]
  · exact (gains.mem_iff _).mpr (.inr rfl)

theorem overloads_grow (bs : List Builtin) :
    Ensures (bs.forM fun b => overload b.name ⟨b.params, .builtin b.base, b.doc⟩) r
      (fun _ r' => r.Grows r' ∧ ∀ b ∈ bs, r'.Offers b.name (Registry.builtinOverload b))
      (fun _ _ => True) := by
  induction bs generalizing r with
  | nil => exact ⟨.refl, by simp⟩
  | cons b bs ih =>
    refine (overload_grows b).bind ?_
    rintro - r' ⟨hg, ho⟩
    refine ih.mono ?_ (fun _ _ h => h)
    rintro - r'' ⟨hg', ho'⟩
    refine ⟨hg.trans hg', fun b' hb' => ?_⟩
    rcases List.mem_cons.mp hb' with rfl | hb'
    · exact hg'.offers _ _ ho
    · exact ho' b' hb'

theorem keywords_grow (words : List (String × StatementForm)) :
    Ensures (words.forM fun (name, form) => keyword name form) r (fun _ r' => r.Grows r')
      (fun _ _ => True) := by
  induction words generalizing r with
  | nil => exact .refl
  | cons word words ih =>
    refine ((keyword_grows word.1 word.2).mono (fun _ _ h => h) (fun _ _ _ => trivial)).bind ?_
    rintro - r' hg
    exact ih.mono (fun _ _ h => hg.trans h) (fun _ _ h => h)

theorem builtinVocabulary_grows :
    Ensures builtinVocabulary r
      (fun _ r' => r.Grows r' ∧ ∀ b : Builtin, r'.Offers b.name (Registry.builtinOverload b))
      (fun _ _ => True) := by
  have hint : Meaning.Global r.config (.typeName .int) := trivial
  rw [builtinVocabulary]
  -- the type of integers, its entry, the instructions, the keywords
  refine ((globalName_grows "int" hint).mono (fun _ _ h => h) (fun _ _ _ => trivial)).bind ?_
  rintro - r₁ hg₁
  rw [ensures_modify_bind]
  refine (overloads_grow Builtin.all).bind ?_
  rintro - r₂ ⟨hg₂, ho⟩
  refine (keywords_grow keywords).mono ?_ (fun _ _ h => h)
  rintro - r₃ hg₃
  have hg : Registry.Grows r₁ { r₁ with types := r₁.types.push ⟨"int", .int, none⟩ } :=
    ⟨fun hs => { hs with }, fun _ _ h => h, fun _ _ h => h⟩
  exact ⟨((hg₁.trans hg).trans hg₂).trans hg₃, fun b => hg₃.offers _ _ (ho b b.mem_all)⟩

end Registration

namespace Registry

theorem Sound.empty {config : RegistryConfig} (h : config.fault? = none) :
    Sound { config } := by
  refine ⟨h, fun name meaning hf => ?_, fun name op hf => ?_, fun name op hf => ?_,
    fun id binding hb => ?_⟩
  · simp [SymbolTable.find?, SymbolTable.empty] at hf
  · simp [operation?] at hf
  · simp [operation?] at hf
  · simp [native?] at hb

theorem of_after {α : Type} {change : Registration α} {r r' : Registry}
    (h : after change r = .ok r') : ∃ a, change r = .ok a r' := by
  rw [after, EStateM.run] at h
  cases hx : change r with
  | ok a r'' =>
    rw [hx] at h
    cases h
    exact ⟨a, rfl⟩
  | error e r'' =>
    rw [hx] at h
    cases h

/-- A bare registry has a configuration without a fault, and the builtin vocabulary. -/
theorem of_bare {config : RegistryConfig} {r : Registry} (h : bare? config = .ok r) :
    config.fault? = none ∧ ∃ a, Registration.builtinVocabulary { config } = .ok a r := by
  cases hf : config.fault? with
  | some fault =>
    rw [bare?, hf] at h
    cases h
  | none =>
    rw [bare?, hf] at h
    exact ⟨rfl, of_after h⟩

theorem sound_of_bare {config : RegistryConfig} {r : Registry} (h : bare? config = .ok r) :
    r.Sound ∧ ∀ b : Builtin, r.Offers b.name (builtinOverload b) := by
  obtain ⟨hf, a, hx⟩ := of_bare h
  obtain ⟨hg, ho⟩ := Registration.builtinVocabulary_grows.of_ok hx
  exact ⟨hg.sound (.empty hf), ho⟩

theorem grows_onward (r : Registry) (request : Registration.Request) :
    r.Grows (r.onward request.perform) := by
  rw [onward]
  have hg := @request.grows r
  split
  · rename_i hx
    exact hg.of_ok hx
  · rename_i hx
    rw [hg.of_error hx]
    exact .refl

namespace Built

variable {r : Registry}

/-- Every registry is sound. -/
theorem sound (h : r.Built) : r.Sound := by
  induction h with
  | bare h => exact (sound_of_bare h).1
  | request _ request ih => exact (grows_onward _ request).sound ih

/-- The scripts of every registry can use all builtin instructions. -/
theorem offers (h : r.Built) (b : Builtin) : r.Offers b.name (builtinOverload b) := by
  induction h with
  | bare h => exact (sound_of_bare h).2 b
  | request _ request ih => exact (grows_onward _ request).offers _ _ ih

/-- A builtin instruction belongs to an operation whose arguments pick an overload. -/
theorem exists_call (h : r.Built) (b : Builtin) :
    ∃ op, r.operation? b.name = some op ∧ op.form = .call := by
  obtain ⟨op, hop, ho⟩ := h.offers b
  rcases h.sound.forms b.name op hop with ⟨-, hnil⟩ | ⟨-, hcall⟩
  · rw [hnil] at ho
    cases ho
  · exact ⟨op, hop, hcall⟩

theorem of_request (h : r.Built) {r' : Registry} (request : Registration.Request) {a : Unit}
    (hx : request.perform r = .ok a r') : r'.Built := by
  have := h.request request
  rwa [onward, hx] at this

theorem of_standard {config : RegistryConfig} (h : standard? config = .ok r) : r.Built := by
  rw [standard?] at h
  cases hb : bare? config with
  | error e =>
    rw [hb] at h
    cases h
  | ok bare =>
    rw [hb] at h
    obtain ⟨a, hx⟩ := of_after h
    have both : Ensures Registration.standingRegisters bare (fun _ r' => r'.Built)
        (fun _ _ => True) := by
      have single : ∀ {r : Registry} (name : String) (index : UInt8), r.Built →
          Ensures (Registration.standingRegister name index) r (fun _ r' => r'.Built)
            (fun _ _ => True) := by
        intro r name index hr
        rw [Ensures]
        split
        · rename_i hs
          exact hr.of_request (.standingRegister name index) hs
        · trivial
      rw [Registration.standingRegisters]
      refine (single "r0" 0 (.bare hb)).bind fun _ r₁ hr => ?_
      rw [ensures_get_bind]
      split
      · exact single "r1" 1 hr
      · exact hr
    exact both.of_ok hx

end Built

end Registry

end HookScript
