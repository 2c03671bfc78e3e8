/-
The changes that a registry comes from.

* `Registry.Change` — the changes;
* `Registration.builtinVocabulary_changes` and `Registration.Request.changes` — the builtin
  vocabulary is a chain of them, and so is every request that succeeds;
* `Registry.Built.preserves` — what all changes preserve holds of all registries;
* `Registry.Tidy` and `Registry.Built.tidy` — no operation has a builtin instruction twice, and
  scripts can have the arguments of hooks.
-/
import HookScript.Proofs.Registry.History
import Mathlib.Data.List.Nodup
import Mathlib.Logic.Relation

namespace HookScript

namespace Registry

/-- The overloads of an operation, if there is one of that name. -/
def overloadsOf (r : Registry) (name : String) : List Overload :=
  (r.operation? name).elim [] Operation.overloads

theorem overloadsOf_eq {r : Registry} {name : String} {op : Operation}
    (h : r.operation? name = some op) : r.overloadsOf name = op.overloads := by
  rw [overloadsOf, h, Option.elim_some]

theorem overloadsOf_withOperation (r : Registry) (name other : String) (op : Operation) :
    (r.withOperation name op).overloadsOf other
      = if name = other then op.overloads else r.overloadsOf other := by
  rw [overloadsOf, operation?_withOperation]
  split <;> rfl

/-- The operation of the given name with one more overload. -/
def extended (r : Registry) (name : String) (o : Overload) : Operation :=
  let op := (r.operation? name).getD ⟨name, [], .call, false⟩
  { op with overloads := op.overloads ++ [o] }

theorem overloads_extended (r : Registry) (name : String) (o : Overload) :
    (r.extended name o).overloads = r.overloadsOf name ++ [o] := by
  rw [extended, overloadsOf]
  cases r.operation? name <;> rfl

/-- The operation `name` may get an overload, for which a new operation may be made. -/
def Takes (r : Registry) (name : String) : Prop :=
  r.Free name ∨ ∃ op, r.operation? name = some op ∧ op.keyword = false

/-- The changes that registries come from. -/
inductive Change (r : Registry) : Registry → Prop where
  | global {name : String} {meaning : Meaning} (free : r.Free name)
      (fits : meaning.Global r.config) :
      Change r { r with globals := ⟨r.globals.entries.insert name meaning⟩ }
  | type (info : TypeInfo) (next : info.tag.index = r.types.size)
      (new : ∀ host, info.host = some host → r.tagOf? host = none) :
      Change r { r with types := r.types.push info }
  | keyword {name : String} {form : StatementForm} (free : r.Free name) :
      Change r (r.withOperation name ⟨name, [], form, true⟩)
  | instruction {b : Builtin} {doc : String} (takes : r.Takes b.name)
      (new : ∀ o ∈ r.overloadsOf b.name, o.target ≠ .builtin b.base) :
      Change r (r.withOperation b.name (r.extended b.name ⟨b.params, .builtin b.base, doc⟩))
  | function {name : String} {params : List Parameter} {doc : String} {routine : HostRoutine}
      (takes : r.Takes name) (few : params.length ≤ r.config.maxArguments)
      (ofHost : ∀ p ∈ params, p.OfHost)
      (counted : versionCount? params = some (choiceCount params)) :
      Change r { r.withOperation name (r.extended name ⟨params, .native r.natives.size, doc⟩) with
        natives := r.natives.appendList (Registration.bindings r.natives.size (choiceCount params)
          name params routine) }
  | hook {signature : HookSignature}
      (accepted : Registration.hookFault? r signature = none) :
      Change r { r with hooks := r.hooks.push signature }

/-- The second registry comes from the first one by changes. -/
def Evolves : Registry → Registry → Prop :=
  Relation.ReflTransGen Change

theorem Change.evolves {r r' : Registry} (h : r.Change r') : r.Evolves r' :=
  Relation.ReflTransGen.single h

/-- Whatever all changes preserve is preserved. -/
theorem Evolves.preserves {P : Registry → Prop} (hchange : ∀ r r', Change r r' → P r → P r')
    {r r' : Registry} (h : r.Evolves r') (hr : P r) : P r' := by
  induction h with
  | refl => exact hr
  | tail _ step ih => exact hchange _ _ step ih

end Registry

namespace Registration

variable {r : Registry}

theorem overload_extends (name : String) (o : Overload) :
    Ensures (overload name o) r
      (fun _ r' => r.Takes name ∧ r' = r.withOperation name (r.extended name o))
      (fun _ _ => True) := by
  simp only [overload, ensures_get_bind]
  cases hop : r.operation? name with
  | some op =>
    simp only
    split
    · trivial
    · rename_i hk
      refine ⟨.inr ⟨op, hop, by simpa using hk⟩, ?_⟩
      rw [Registry.extended, hop]
      rfl
  | none =>
    refine (operation_ensures _).mono ?_ (fun _ _ _ => trivial)
    rintro - r' ⟨free, rfl⟩
    refine ⟨.inl free, ?_⟩
    rw [Registry.extended, hop]
    rfl

theorem globalName_changes (name : String) {meaning : Meaning} (fits : meaning.Global r.config) :
    Ensures (globalName name meaning) r (fun _ r' => r.Evolves r') (fun _ _ => True) := by
  refine (globalName_ensures name meaning).mono ?_ (fun _ _ _ => trivial)
  rintro - r' ⟨free, rfl⟩
  exact (Registry.Change.global free fits).evolves

theorem keyword_changes (name : String) (form : StatementForm) :
    Ensures (keyword name form) r (fun _ r' => r.Evolves r') (fun _ _ => True) := by
  refine (operation_ensures _).mono ?_ (fun _ _ _ => trivial)
  rintro - r' ⟨free, rfl⟩
  exact (Registry.Change.keyword free).evolves

/-! ### The builtin vocabulary -/

theorem nodup_base : (Builtin.all.map Builtin.base).Nodup := by
  refine List.Nodup.map (fun b b' h => Builtin.base_injective h) ?_
  decide

/-- Instructions are added once if they are all different and none is there yet. -/
theorem overloads_change {bs : List Builtin} (hnodup : (bs.map Builtin.base).Nodup)
    (hnew : ∀ b ∈ bs, ∀ name, ∀ o ∈ r.overloadsOf name, o.target ≠ .builtin b.base) :
    Ensures (bs.forM fun b => overload b.name ⟨b.params, .builtin b.base, b.doc⟩) r
      (fun _ r' => r.Evolves r') (fun _ _ => True) := by
  induction bs generalizing r with
  | nil => exact .refl
  | cons b bs ih =>
    rw [List.map_cons, List.nodup_cons] at hnodup
    obtain ⟨hb, hbs⟩ := List.forall_mem_cons.mp hnew
    refine (overload_extends _ _).bind ?_
    rintro - r' ⟨takes, rfl⟩
    refine (ih hnodup.2 fun b' hb' name o ho => ?_).mono
      (fun _ _ h => (Registry.Change.instruction takes (hb b.name)).evolves.trans h) fun _ _ h => h
    rw [Registry.overloadsOf_withOperation] at ho
    split at ho
    · rw [Registry.overloads_extended, List.mem_append, List.mem_singleton] at ho
      rcases ho with ho | rfl
      · exact hbs b' hb' b.name o ho
      · rintro heq
        exact hnodup.1 (Target.builtin.inj heq ▸ List.mem_map_of_mem hb')
    · exact hbs b' hb' name o ho

/-- The builtin vocabulary is a chain of changes. -/
theorem builtinVocabulary_changes (hops : ∀ name, r.operation? name = none)
    (htypes : r.types.size = 0) :
    Ensures builtinVocabulary r (fun _ r' => r.Evolves r') (fun _ _ => True) := by
  rw [builtinVocabulary]
  refine ((globalName_ensures "int" _).mono (fun _ _ h => h) (fun _ _ _ => trivial)).bind ?_
  rintro - r₁ ⟨free, rfl⟩
  rw [ensures_modify_bind]
  have fits : (Meaning.typeName .int).Global r.config := trivial
  have hint := (Registry.Change.global free fits).evolves.tail
    (.type ⟨"int", .int, none⟩ htypes.symm (by simp))
  refine (overloads_change nodup_base ?_).bind fun _ r₂ h₂ => ?_
  · intro b hb name o ho
    have hnone : r.operation? name = none := hops name
    simp [Registry.overloadsOf, Registry.operation?] at ho hnone
    simp [hnone] at ho
  · exact Ensures.forM (fun word r' hr' => (keyword_changes word.1 word.2).mono
      (fun _ _ h => hr'.trans h) fun _ _ h => h) (hint.trans h₂)

/-! ### Requests -/

theorem function_changes (name : String) (params : List Parameter) (doc : String)
    (routine : HostRoutine) :
    Ensures (function name params doc routine) r (fun _ r' => r.Evolves r') (fun _ _ => True) := by
  simp only [function, ensures_get_bind]
  cases hc : checkParameters r name params with
  | error e => trivial
  | ok versions =>
    obtain ⟨hlen, hhost, rfl, hcount⟩ := checkParameters_eq_ok hc
    simp only
    split
    · trivial
    · refine (overload_extends name _).bind ?_
      rintro - r' ⟨takes, rfl⟩
      exact (Registry.Change.function takes hlen hhost hcount).evolves

theorem member_changes (handle : TypeTag → Parameter) (host : HostType) (name : String)
    (params : List Parameter) (doc : String) (routine : HostRoutine) :
    Ensures (member handle host name params doc routine) r (fun _ r' => r.Evolves r')
      (fun _ _ => True) := by
  simp only [member, hostTag, bind_assoc, ensures_get_bind]
  split
  · trivial
  · exact function_changes _ _ doc routine

theorem type_changes (host : HostType) (name : String) :
    Ensures (type host name) r (fun _ r' => r.Evolves r') (fun _ _ => True) := by
  simp only [type, ensures_get_bind]
  split
  · trivial
  · rename_i hnew
    rw [Bool.or_eq_true, not_or] at hnew
    refine ((globalName_ensures name _).mono (fun _ _ h => h) fun _ _ _ => trivial).bind ?_
    rintro - r' ⟨free, rfl⟩
    have fits : (Meaning.typeName (.ptr ⟨r.types.size⟩)).Global r.config := trivial
    refine (Registry.Change.global free fits).evolves.tail (.type _ rfl fun other heq => ?_)
    cases heq
    have hnone : r.tagOf? host = none := by simpa using hnew.1
    exact hnone

theorem standingRegister_changes (name : String) (index : UInt8) :
    Ensures (standingRegister name index) r (fun _ r' => r.Evolves r') (fun _ _ => True) := by
  simp only [standingRegister, ensures_get_bind]
  split
  · trivial
  · exact globalName_changes name ⟨by omega, rfl, rfl⟩

theorem hook_changes (signature : HookSignature) :
    Ensures (hook signature) r (fun _ r' => r.Evolves r') (fun _ _ => True) := by
  simp only [hook, ensures_get_bind]
  split
  · trivial
  · split
    · trivial
    · exact (Registry.Change.hook ‹_›).evolves

/-- A request that succeeds is a chain of changes. -/
theorem Request.changes (request : Request) :
    Ensures request.perform r (fun _ r' => r.Evolves r') (fun _ _ => True) := by
  cases request with
  | type host name => exact (type_changes host name).bind fun _ _ h => h
  | standingRegister name index => exact standingRegister_changes name index
  | constant name value => exact globalName_changes name trivial
  | function name params doc routine => exact function_changes name params doc routine
  | method host name params doc routine | editingMethod host name params doc routine
  | getter host name read | setter host name write => exact member_changes _ host name _ _ _
  | keyword name form => exact keyword_changes name form
  | hook signature => exact hook_changes signature

end Registration

namespace Registry

theorem evolves_of_bare {config : RegistryConfig} {r : Registry} (h : bare? config = .ok r) :
    Evolves { config } r := by
  obtain ⟨-, a, hx⟩ := of_bare h
  exact (Registration.builtinVocabulary_changes (by simp [operation?]) rfl).of_ok hx

theorem evolves_onward (r : Registry) (request : Registration.Request) :
    r.Evolves (r.onward request.perform) := by
  rw [onward]
  split
  · rename_i hx
    exact request.changes.of_ok hx
  · rename_i hx
    rw [request.grows.of_error hx]
    exact .refl

/-- What all changes preserve holds of all registries if it holds of the empty ones. -/
theorem Built.preserves {P : Registry → Prop}
    (hempty : ∀ config : RegistryConfig, config.fault? = none → P { config })
    (hchange : ∀ r r', Change r r' → P r → P r') {r : Registry} (h : r.Built) : P r := by
  induction h with
  | bare h => exact (evolves_of_bare h).preserves hchange (hempty _ (of_bare h).1)
  | request _ request ih => exact (evolves_onward _ request).preserves hchange ih

end Registry

/-! ### What changes preserve -/

namespace Registry

/-- Operations are found by their names, each builtin instruction is an overload at most once, and
the arguments of a hook are no more than there are registers and have different names. -/
structure Tidy (r : Registry) : Prop where
  named : ∀ name op, r.operation? name = some op → op.name = name
  once : ∀ name base, (r.overloadsOf name).countP (·.target = .builtin base) ≤ 1
  hooks : ∀ signature ∈ r.hooks, signature.arguments.length ≤ r.config.registers ∧
    (signature.arguments.map (·.name)).Nodup

/-- The names of arguments without a fault are different from each other, and from those in
front. -/
theorem nodup_of_argumentFault? {r : Registry} {earlier : List String}
    {arguments : List HookArgument}
    (h : Registration.argumentFault? r earlier arguments = none) :
    (arguments.map (·.name)).Nodup ∧ ∀ a ∈ arguments, a.name ∉ earlier := by
  induction arguments generalizing earlier with
  | nil => simp
  | cons a arguments ih =>
    rw [Registration.argumentFault?] at h
    split at h
    · cases h
    · rename_i hnew
      split at h
      · cases h
      · obtain ⟨hnodup, hne⟩ := ih h
        rw [List.map_cons, List.nodup_cons]
        refine ⟨⟨fun hm => ?_, hnodup⟩, fun b hb hm => ?_⟩
        · obtain ⟨b, hb, heq⟩ := List.mem_map.mp hm
          exact hne b hb (heq ▸ List.mem_cons_self)
        · rcases List.mem_cons.mp hb with rfl | hb
          · exact hnew (by simpa using hm)
          · exact hne b hb (List.mem_cons_of_mem _ hm)

theorem of_hookFault? {r : Registry} {signature : HookSignature}
    (h : Registration.hookFault? r signature = none) :
    signature.arguments.length ≤ r.config.registers ∧
      (signature.arguments.map (·.name)).Nodup := by
  rw [Registration.hookFault?] at h
  split at h
  · cases h
  · rename_i hle
    refine ⟨by omega, ?_⟩
    cases ha : Registration.argumentFault? r [] signature.arguments with
    | some fault =>
      rw [ha] at h
      cases h
    | none => exact (nodup_of_argumentFault? ha).1

theorem named_withOperation {r : Registry}
    (h : ∀ name op, r.operation? name = some op → op.name = name) {name : String} {op : Operation}
    (hop : op.name = name) :
    ∀ other found, (r.withOperation name op).operation? other = some found →
      found.name = other := by
  intro other found hf
  rw [operation?_withOperation] at hf
  split at hf
  · rename_i heq
    cases hf
    exact hop.trans heq
  · exact h other found hf

theorem name_extended {r : Registry}
    (h : ∀ name op, r.operation? name = some op → op.name = name) (name : String) (o : Overload) :
    (r.extended name o).name = name := by
  rw [extended]
  cases hop : r.operation? name with
  | none => rfl
  | some op => exact h name op hop

theorem Tidy.empty (config : RegistryConfig) : Tidy { config } :=
  ⟨by simp [operation?], by simp [overloadsOf, operation?], by simp⟩

theorem Change.tidy {r r' : Registry} (h : r.Change r') (hr : r.Tidy) : r'.Tidy := by
  cases h with
  | global | type => exact ⟨hr.named, hr.once, hr.hooks⟩
  | keyword =>
    refine ⟨named_withOperation hr.named rfl, fun other base => ?_, hr.hooks⟩
    rw [overloadsOf_withOperation]
    split
    · exact Nat.zero_le 1
    · exact hr.once other base
  | @instruction b doc _ new =>
    refine ⟨named_withOperation hr.named (name_extended hr.named _ _), fun other base => ?_,
      hr.hooks⟩
    rw [overloadsOf_withOperation]
    split
    · rw [overloads_extended, List.countP_append, List.countP_singleton]
      by_cases hbase : b.base = base
      · -- the instruction is new
        have hnone : (r.overloadsOf b.name).countP (·.target = .builtin base) = 0 :=
          List.countP_eq_zero.mpr fun o ho => by simpa [← hbase] using new o ho
        rw [hnone]
        split <;> decide
      · simpa [hbase] using hr.once b.name base
    · exact hr.once other base
  | @function name params doc routine =>
    refine ⟨named_withOperation hr.named (name_extended hr.named _ _), fun other base => ?_,
      hr.hooks⟩
    have hcount := hr.once other base
    show ((r.withOperation name _).overloadsOf other).countP _ ≤ 1
    rw [overloadsOf_withOperation]
    split
    · -- a host function is no builtin instruction
      rename_i heq
      subst heq
      rw [overloads_extended, List.countP_append]
      simpa using hcount
    · exact hcount
  | @hook signature accepted =>
    have hnew := of_hookFault? accepted
    refine ⟨hr.named, hr.once, fun other hm => ?_⟩
    rcases Array.mem_push.mp hm with hm | rfl
    · exact hr.hooks other hm
    · exact hnew

/-- All registries are tidy. -/
theorem Built.tidy {r : Registry} (h : r.Built) : r.Tidy :=
  h.preserves (fun config _ => .empty config) fun _ _ hc => hc.tidy

end Registry

end HookScript
