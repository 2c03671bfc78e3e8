/-
What requests add to a registry, one after the other.

* `Registration.Request.hostFunction?` — the host function that a request adds;
* `HostFunction.EnteredAt` — the versions of a host function in the table of a registry, where they
  stay from its registration on (`Registry.Later.entered`);
* `Registration.Request.supplies` — a request adds no others to the table;
* `Registry.Later` and `Registry.throughout` — what a registry becomes by requests;
* `Registry.isSome_operation?_throughout` — the operations that there are then;
* `Registry.forM_effective` — requests that fail might as well not have been made.
-/
import HookScript.Proofs.Registry.Changes
import Mathlib.Data.List.Induction

namespace HookScript

/-- A host function and the operation whose overload it is. -/
structure HostFunction where
  name : String
  params : List Parameter
  doc : String
  routine : HostRoutine

/-- The name in scripts of a function on objects of a type. -/
def Registry.memberName (r : Registry) (tag : TypeTag) (name : String) : String :=
  ((r.type? tag).map (·.name)).getD "" ++ "." ++ name

/-- The host function that a request adds. -/
def Registration.Request.hostFunction? (r : Registry) : Request → Option HostFunction
  | .function name params doc routine => some ⟨name, params, doc, routine⟩
  | .method host name params doc routine => (r.tagOf? host).map fun tag =>
    ⟨r.memberName tag name, .ptr tag :: params, doc, routine⟩
  | .editingMethod host name params doc routine => (r.tagOf? host).map fun tag =>
    ⟨r.memberName tag name, .ptre tag :: params, doc, routine⟩
  | .getter host name read => (r.tagOf? host).map fun tag =>
    ⟨r.memberName tag name, [.ptr tag, .intVar], "", .getter host read⟩
  | .setter host name write => (r.tagOf? host).map fun tag =>
    ⟨r.memberName tag name, [.ptre tag, .int], "", .setter host write⟩
  | _ => none

/-- All versions of the host function are in the table, from `first` on. -/
def HostFunction.EnteredAt (r : Registry) (first : Nat) (f : HostFunction) : Prop :=
  ∀ version < choiceCount f.params, r.native? (first + version)
    = some ⟨first + version, f.name, Codec.layoutOf f.params version, f.routine⟩

namespace Registration

variable {r : Registry}

theorem function_enters (f : HostFunction) :
    Ensures (function f.name f.params f.doc f.routine) r
      (fun _ r' => f.EnteredAt r' r.natives.size) (fun _ _ => True) := by
  refine (function_ensures f.name f.params f.doc f.routine).mono ?_ (fun _ _ _ => trivial)
  rintro - r' ⟨-, -, op, -, rfl⟩ version hv
  rw [Registry.native?, getElem?_appendList, List.getElem?_append_right (by simp)]
  simp [bindings, hv]

theorem member_enters (handle : TypeTag → Parameter) {host : HostType} {tag : TypeTag}
    (htag : r.tagOf? host = some tag) (name : String) (params : List Parameter) (doc : String)
    (routine : HostRoutine) :
    Ensures (member handle host name params doc routine) r
      (fun _ r' => HostFunction.EnteredAt r' r.natives.size
        ⟨r.memberName tag name, handle tag :: params, doc, routine⟩) (fun _ _ => True) := by
  simp only [member, hostTag, bind_assoc, ensures_get_bind, htag]
  exact function_enters ⟨r.memberName tag name, handle tag :: params, doc, routine⟩

/-- A request that succeeds enters its host function behind those there are. -/
theorem Request.enters {request : Request} {f : HostFunction}
    (hf : request.hostFunction? r = some f) :
    Ensures request.perform r (fun _ r' => f.EnteredAt r' r.natives.size) (fun _ _ => True) := by
  cases request with
  | type _ _ | standingRegister _ _ | constant _ _ | keyword _ _ | hook _ => cases hf
  | function name params doc routine =>
    cases hf
    exact function_enters ⟨name, params, doc, routine⟩
  | method host name params doc routine | editingMethod host name params doc routine
  | getter host name read | setter host name write =>
    obtain ⟨tag, htag, rfl⟩ := Option.map_eq_some_iff.mp hf
    exact member_enters _ htag name _ _ _

/-- The host functions of the second registry are those of the first one, and versions of the given
function. -/
def Supplies (r r' : Registry) (added : Option HostFunction) : Prop :=
  ∀ binding ∈ r'.natives, binding ∈ r.natives ∨ ∃ f id version, added = some f ∧
    binding = ⟨id, f.name, Codec.layoutOf f.params version, f.routine⟩

theorem supplies_none {r' : Registry} (h : r'.natives = r.natives) : Supplies r r' none :=
  fun _ hb => .inl (h ▸ hb)

theorem globalName_supplies (name : String) (meaning : Meaning) :
    Ensures (globalName name meaning) r (fun _ r' => Supplies r r' none) (fun _ _ => True) := by
  refine (globalName_ensures name meaning).mono ?_ fun _ _ _ => trivial
  rintro - r' ⟨-, rfl⟩
  exact supplies_none rfl

theorem type_supplies (host : HostType) (name : String) :
    Ensures (type host name) r (fun _ r' => Supplies r r' none) (fun _ _ => True) := by
  simp only [type, ensures_get_bind]
  split
  · trivial
  · exact (globalName_supplies name _).bind fun _ r' h => h

theorem standingRegister_supplies (name : String) (index : UInt8) :
    Ensures (standingRegister name index) r (fun _ r' => Supplies r r' none)
      (fun _ _ => True) := by
  simp only [standingRegister, ensures_get_bind]
  split
  · trivial
  · exact globalName_supplies name _

theorem function_supplies (f : HostFunction) :
    Ensures (function f.name f.params f.doc f.routine) r (fun _ r' => Supplies r r' (some f))
      (fun _ _ => True) := by
  refine (function_ensures _ _ _ _).mono ?_ fun _ _ _ => trivial
  rintro - r' ⟨-, -, op, -, rfl⟩ binding hb
  rw [Array.appendList_eq_append, ← Array.mem_toList_iff, Array.toList_appendList] at hb
  rcases List.mem_append.mp hb with hb | hb
  · exact .inl (Array.mem_toList_iff.mp hb)
  · obtain ⟨version, -, rfl⟩ := List.mem_map.mp hb
    exact .inr ⟨f, _, version, rfl, rfl⟩

theorem member_supplies (handle : TypeTag → Parameter) (host : HostType) (name : String)
    (params : List Parameter) (doc : String) (routine : HostRoutine) :
    Ensures (member handle host name params doc routine) r
      (fun _ r' => Supplies r r' ((r.tagOf? host).map fun tag =>
        ⟨r.memberName tag name, handle tag :: params, doc, routine⟩)) (fun _ _ => True) := by
  simp only [member, hostTag, bind_assoc, ensures_get_bind]
  split
  · trivial
  · rename_i tag htag
    rw [htag]
    exact function_supplies ⟨r.memberName tag name, handle tag :: params, doc, routine⟩

theorem hook_supplies (signature : HookSignature) :
    Ensures (hook signature) r (fun _ r' => Supplies r r' none) (fun _ _ => True) := by
  simp only [hook, ensures_get_bind]
  split
  · trivial
  · split
    · trivial
    · exact supplies_none rfl

/-- A request that succeeds adds the versions of its host function, and no others. -/
theorem Request.supplies (request : Request) :
    Ensures request.perform r (fun _ r' => Supplies r r' (request.hostFunction? r))
      (fun _ _ => True) := by
  cases request with
  | type host name => exact (type_supplies host name).bind fun _ _ h => h
  | standingRegister name index => exact standingRegister_supplies name index
  | constant name value => exact globalName_supplies name _
  | function name params doc routine => exact function_supplies ⟨name, params, doc, routine⟩
  | method host name params doc routine | editingMethod host name params doc routine
  | getter host name read | setter host name write => exact member_supplies _ host name _ _ _
  | keyword name form =>
    refine (operation_ensures _).mono ?_ fun _ _ _ => trivial
    rintro - r' ⟨-, rfl⟩
    exact supplies_none rfl
  | hook signature => exact hook_supplies signature

end Registration

/-! ### Operations -/

/-- The name of the operation that a request adds or gives an overload. -/
def Registration.Request.operationName? (r : Registry) : Request → Option String
  | .keyword name _ => some name
  | request => (request.hostFunction? r).map (·.name)

/-- The second registry has the operations of the first one, and that of the given name. -/
def Registry.Enlists (r r' : Registry) (gained : Option String) : Prop :=
  ∀ name, (r'.operation? name).isSome ↔ (r.operation? name).isSome ∨ gained = some name

theorem Registry.enlists_withOperation (r : Registry) (name : String) (op : Operation) :
    r.Enlists (r.withOperation name op) (some name) := by
  intro other
  rw [operation?_withOperation]
  split
  · rename_i heq
    simp [heq]
  · rename_i hne
    simp [hne]

theorem Registry.enlists_none {r r' : Registry} (h : r'.operations = r.operations) :
    r.Enlists r' none := by
  intro name
  rw [operation?, operation?, h]
  simp

namespace Registration

variable {r : Registry}

theorem globalName_enlists (name : String) (meaning : Meaning) :
    Ensures (globalName name meaning) r (fun _ r' => r.Enlists r' none) (fun _ _ => True) := by
  refine (globalName_ensures name meaning).mono ?_ fun _ _ _ => trivial
  rintro - r' ⟨-, rfl⟩
  exact Registry.enlists_none rfl

theorem type_enlists (host : HostType) (name : String) :
    Ensures (type host name) r (fun _ r' => r.Enlists r' none) (fun _ _ => True) := by
  simp only [type, ensures_get_bind]
  split
  · trivial
  · exact (globalName_enlists name _).bind fun _ r' h => h

theorem standingRegister_enlists (name : String) (index : UInt8) :
    Ensures (standingRegister name index) r (fun _ r' => r.Enlists r' none) (fun _ _ => True) := by
  simp only [standingRegister, ensures_get_bind]
  split
  · trivial
  · exact globalName_enlists name _

theorem function_enlists (name : String) (params : List Parameter) (doc : String)
    (routine : HostRoutine) :
    Ensures (function name params doc routine) r (fun _ r' => r.Enlists r' (some name))
      (fun _ _ => True) := by
  refine (function_ensures name params doc routine).mono ?_ fun _ _ _ => trivial
  rintro - r' ⟨-, -, op, -, rfl⟩
  exact r.enlists_withOperation name op

theorem member_enlists (handle : TypeTag → Parameter) {host : HostType} (name : String)
    (params : List Parameter) (doc : String) (routine : HostRoutine) :
    Ensures (member handle host name params doc routine) r
      (fun _ r' => r.Enlists r' ((r.tagOf? host).map fun tag => r.memberName tag name))
      (fun _ _ => True) := by
  simp only [member, hostTag, bind_assoc, ensures_get_bind]
  split
  · trivial
  · rename_i tag htag
    rw [htag]
    exact function_enlists _ _ doc routine

theorem hook_enlists (signature : HookSignature) :
    Ensures (hook signature) r (fun _ r' => r.Enlists r' none) (fun _ _ => True) := by
  simp only [hook, ensures_get_bind]
  split
  · trivial
  · split
    · trivial
    · exact Registry.enlists_none rfl

/-- A request that succeeds adds the operation of its name, unless there is one already, and no
other. -/
theorem Request.enlists (request : Request) :
    Ensures request.perform r (fun _ r' => r.Enlists r' (request.operationName? r))
      (fun _ _ => True) := by
  cases request with
  | type host name => exact (type_enlists host name).bind fun _ _ h => h
  | standingRegister name index => exact standingRegister_enlists name index
  | constant name value => exact globalName_enlists name _
  | function name params doc routine => exact function_enlists name params doc routine
  | method host name params doc routine | editingMethod host name params doc routine
  | getter host name read | setter host name write =>
    simp only [operationName?, hostFunction?, Option.map_map, Function.comp_def]
    exact member_enlists _ name _ _ _
  | keyword name form =>
    refine (operation_ensures _).mono ?_ fun _ _ _ => trivial
    rintro - r' ⟨-, rfl⟩
    exact r.enlists_withOperation name _
  | hook signature => exact hook_enlists signature

end Registration

namespace Registry

/-- The second registry comes after the first one by requests, successful or not. -/
inductive Later (r : Registry) : Registry → Prop where
  | refl : Later r r
  | request {r' : Registry} (before : Later r r') (request : Registration.Request) :
      Later r (r'.onward request.perform)

variable {r r' : Registry}

theorem Later.grows (h : r.Later r') : r.Grows r' := by
  induction h with
  | refl => exact .refl
  | request _ request ih => exact ih.trans (grows_onward _ request)

theorem Later.built (h : r.Later r') (hr : r.Built) : r'.Built := by
  induction h with
  | refl => exact hr
  | request _ request ih => exact ih.request request

/-- Later requests change nothing about a host function. -/
theorem Later.entered (h : r.Later r') {f : HostFunction} {first : Nat} (hf : f.EnteredAt r first) :
    f.EnteredAt r' first :=
  fun version hv => h.grows.natives _ _ (hf version hv)

/-- What a registry becomes by requests, each of which may fail. -/
def throughout (r : Registry) (requests : List Registration.Request) : Registry :=
  requests.foldl (fun r request => r.onward request.perform) r

theorem throughout_concat (r : Registry) (requests : List Registration.Request)
    (request : Registration.Request) :
    r.throughout (requests ++ [request]) = (r.throughout requests).onward request.perform := by
  rw [throughout, List.foldl_append]
  rfl

theorem later_throughout (r : Registry) (requests : List Registration.Request) :
    r.Later (r.throughout requests) := by
  induction requests using List.reverseRecOn with
  | nil => exact .refl
  | append_singleton requests request ih =>
    rw [throughout_concat]
    exact ih.request request

/-- One of the requests, which has succeeded, was for an operation of that name. -/
def Requested (r : Registry) (requests : List Registration.Request) (name : String) : Prop :=
  ∃ done request rest, requests = done ++ request :: rest ∧
    (∃ r', request.perform (r.throughout done) = .ok () r') ∧
    request.operationName? (r.throughout done) = some name

theorem requested_concat {requests : List Registration.Request} {request : Registration.Request}
    {name : String} : r.Requested (requests ++ [request]) name ↔ r.Requested requests name ∨
      (∃ r', request.perform (r.throughout requests) = .ok () r') ∧
        request.operationName? (r.throughout requests) = some name := by
  constructor
  · rintro ⟨done, found, rest, hrequests, h⟩
    rcases List.eq_nil_or_concat rest with rfl | ⟨rest, last, rfl⟩
    · obtain ⟨rfl, hlast⟩ := List.append_inj' hrequests rfl
      cases hlast
      exact .inr h
    · rw [List.concat_eq_append, ← List.cons_append, ← List.append_assoc] at hrequests
      exact .inl ⟨done, found, rest, (List.append_inj' hrequests rfl).1, h⟩
  · rintro (⟨done, found, rest, rfl, h⟩ | h)
    · exact ⟨done, found, rest ++ [request], by simp, h⟩
    · exact ⟨requests, request, [], rfl, h⟩

/-- The operations are those that there were and those that requests have added. -/
theorem isSome_operation?_throughout (r : Registry) (requests : List Registration.Request)
    (name : String) : ((r.throughout requests).operation? name).isSome ↔
      (r.operation? name).isSome ∨ r.Requested requests name := by
  induction requests using List.reverseRecOn with
  | nil => simp [throughout, Requested]
  | append_singleton requests request ih =>
    rw [throughout_concat, requested_concat, ← or_assoc, ← ih, onward]
    cases hx : request.perform (r.throughout requests) with
    | ok a r' => simp [request.enlists.of_ok hx name]
    | error e r' => simp [request.grows.of_error hx]

/-! ### Requests that fail -/

/-- Those of the requests that succeed, one after the other. -/
def effective (r : Registry) : List Registration.Request → List Registration.Request
  | [] => []
  | request :: requests =>
    match request.perform r with
    | .ok _ r' => request :: effective r' requests
    | .error _ r' => effective r' requests

/-- Without those that fail, the requests are carried out without an error and lead to the same
registry. -/
theorem forM_effective (r : Registry) (requests : List Registration.Request) :
    (r.effective requests).forM Registration.Request.perform r
      = .ok ⟨⟩ (r.throughout requests) := by
  induction requests generalizing r with
  | nil => rfl
  | cons request requests ih =>
    rw [throughout, List.foldl_cons, ← throughout, effective, onward]
    cases hx : request.perform r with
    | ok a r' =>
      exact (bind_of_ok hx).trans (ih r')
    | error e r' => exact request.grows.of_error hx ▸ ih r'

end Registry

end HookScript
