/-
Methods are another way to write calls.

`object.member …` says the same as `Type.member object …`, where `Type` is what scripts call the
type of the object.  The first statement is found through the object, the second one by its name.
Either way the overloads are the same ones, and they get the same arguments.  The second statement
is longer by an argument: the theorems are about statements that have been read, so there has been
room for it.

* `Statement.InFull` — the two ways to write a statement;
* `Drafting.memberOperation?_of_scope` — the operation that is found through the object;
* `Drafting.members_are_calls` — hence the two statements have the same outcome.
-/
import HookScript.Proofs.Compile.Conduct
import HookScript.Proofs.Compile.Lockstep
import HookScript.Proofs.Compile.Outcome
import HookScript.Proofs.Registry.Functions

namespace HookScript

/-- The first statement is `object.member …`, and the second one is `type.member object …` with the
same label and the same arguments. -/
structure Statement.InFull (object type member : String) (s s' : Statement) : Prop where
  label : s'.label.map (·.text) = s.label.map (·.text)
  short : s.name.text = object ++ "." ++ member
  long : s'.name.text = type ++ "." ++ member
  arguments : s'.arguments.map (·.written) = (.symbol, object) :: s.arguments.map (·.written)

instance (object type member : String) (s s' : Statement) :
    Decidable (s.InFull object type member s') :=
  decidable_of_iff (s'.label.map (·.text) = s.label.map (·.text) ∧
      s.name.text = object ++ "." ++ member ∧ s'.name.text = type ++ "." ++ member ∧
      s'.arguments.map (·.written) = (.symbol, object) :: s.arguments.map (·.written))
    ⟨fun ⟨label, short, long, arguments⟩ => ⟨label, short, long, arguments⟩,
      fun ⟨label, short, long, arguments⟩ => ⟨label, short, long, arguments⟩⟩

/-- The second draft is the first one, where another statement is being compiled. -/
def Draft.Respanned (span : Span) (d d' : Draft) : Prop :=
  d' = { d with span }

namespace Draft.Respanned

variable {r : Registry} {d d' : Draft} {span : Span}

theorem lookup (h : d.Respanned span d') (name : String) : d'.lookup r name = d.lookup r name := by
  rw [h]
  rfl

theorem resolve (h : d.Respanned span d') {t t' : Token} (ht : t'.written = t.written) :
    d'.resolve r t' = d.resolve r t := by
  obtain ⟨hkind, htext⟩ := Prod.mk.inj ht
  rw [Draft.resolve, Draft.resolve, hkind, htext, Token.number?_of_written ht, h.lookup]

theorem resolveAll (h : d.Respanned span d') {ts ts' : List Token}
    (hts : ts'.map (·.written) = ts.map (·.written)) :
    d'.resolveAll r ts' = d.resolveAll r ts := by
  rw [Draft.resolveAll, Draft.resolveAll]
  induction ts generalizing ts' with
  | nil =>
    rw [List.map_eq_nil_iff.mp hts]
    rfl
  | cons t ts ih =>
    obtain ⟨t', ts', rfl, ht, hts⟩ := List.map_eq_cons_iff.mp hts
    rw [List.mapM_cons, List.mapM_cons, h.resolve ht, ih hts]

end Draft.Respanned

namespace Drafting

open CompileError

variable {r : Registry} {d d' : Draft} {s s' : Statement} {span : Span} {object member : String}

/-- The compiler does not look at which statement is being compiled, but for labels that are used
before their declaration. -/
theorem lockstep_respanned (span : Span) :
    Lockstep (Draft.Respanned span) Eq id fun _ => True where
  buffer h := by rw [h]
  natives h := by rw [h]
  find h _ _ := by rw [h, id]
  setBuffer h buffer := by
    rw [h]
    rfl
  setNatives h natives := by
    rw [h]
    rfl
  touch h index := by
    rw [h]
    rfl
  insert h _ _ meaning := by
    rw [h]
    rfl
  refl _ := rfl
  redefined _ := rfl

/-- A handle stands for an object of the script's own, so that no label takes its name. -/
theorem lookup_of_label (hr : r.Sound) {index : UInt8} {type : ValueType} {writable : Bool}
    (hobject : d.lookup r object = some (.register index type writable)) (htype : type ≠ .int)
    (h : statementLabel r s { d with span := s.span } = .ok () d') :
    d'.lookup r object = some (.register index type writable) := by
  rcases Draft.lookup_eq_some hobject with hlocal | hglobal
  · have hkept := (evolves_of_label (A := fun _ => True) h).find?_eq hlocal
    rw [Draft.lookup, hkept]
    rfl
  · exact absurd (hr.globals _ _ hglobal).2.1 htype

/-- The operation that is found through an object is the one of that name for its type. -/
theorem memberOperation?_of_scope (dotless : '.' ∉ object.toList) {index : UInt8}
    {type : ValueType} {writable : Bool} {tag : TypeTag}
    (handle : type = .ptr tag ∨ type = .ptre tag)
    (scope : d.lookup r object = some (.register index type writable)) {info : TypeInfo}
    (typed : r.type? tag = some info) {op : Operation}
    (operation : r.operation? (info.name ++ "." ++ member) = some op) :
    memberOperation? r d (object ++ "." ++ member)
      = some (op, .register index type writable) := by
  have hsplit : splitMember? (object ++ "." ++ member) = some (object, "." ++ member) :=
    splitMember?_eq_some_iff.mpr ⟨dotless, by simp, by rw [String.append_assoc]⟩
  have hjoined : r.operationJoined? info.name ("." ++ member) = some op := by
    rw [Registry.operationJoined?_eq, ← String.append_assoc, operation]
  rw [memberOperation?, hsplit]
  rcases handle with rfl | rfl
  · simp [scope, typed, hjoined, Argument.ofMeaning]
  · simp [scope, typed, hjoined, Argument.ofMeaning]

/-- Arguments that are all known are emitted as they are. -/
theorem bindForward_of_known {arguments : List Argument}
    (h : ∀ name, .unknown name ∉ arguments) (d : Draft) :
    bindForward arguments d = .ok arguments d := by
  induction arguments with
  | nil => rfl
  | cons a arguments ih =>
    have hrest := ih fun name hm => h name (List.mem_cons_of_mem _ hm)
    cases a with
    | unknown name => exact absurd List.mem_cons_self (h name)
    | constant _ | register _ _ _ | label _ | typeName _ =>
      rw [bindForward, bind_of_ok hrest]
      · rfl
      · exact fun _ => nofun

/-- A member of an object takes no labels, so the draft it is emitted from need not know which
statement it belongs to. -/
theorem emit_together_of_member (hr : r.Sound) {name : String} {op : Operation}
    {argument : Argument} (hm : memberOperation? r d name = some (op, argument)) {d₁ d₂ : Draft}
    (h : d₁.Respanned span d₂) (arguments : List Argument) :
    Together (Draft.Respanned span) Eq Eq (emit r op arguments) d₁ (emit r op arguments) d₂ := by
  rw [emit_eq]
  cases hsel : op.select r arguments with
  | error kind => exact together_throw h rfl
  | ok o =>
    have hknown := not_unknown_of_member hr hm hsel
    have hbind : ∀ {d₁ d₂ : Draft}, d₁.Respanned span d₂ →
        Together (Draft.Respanned span) Eq (fun bound bound' => bound' = arguments ∧
          bound = arguments) (bindForward arguments) d₁ (bindForward arguments) d₂ := by
      intro d₁ d₂ h
      rw [Together, bindForward_of_known hknown, bindForward_of_known hknown]
      exact ⟨h, rfl, rfl⟩
    refine Together.bind (R := Eq) (together_pure h rfl) ?_
    rintro o _ d₁ d₂ h rfl
    refine (hbind h).bind ?_
    rintro _ _ d₁ d₂ h ⟨rfl, rfl⟩
    exact (lockstep_respanned span).emitBound h r o _

/-- A method of an object that is in scope, and the call of the same operation with the object in
front of its arguments, have the same outcome from every draft: the same error, or drafts that are
the same but for the place of the statement. -/
theorem members_are_calls (hr : r.Built) (d : Draft) (dotless : '.' ∉ object.toList)
    {index : UInt8} {type : ValueType} {writable : Bool}
    (scope : d.lookup r object = some (.register index type writable)) {tag : TypeTag}
    (handle : type = .ptr tag ∨ type = .ptre tag) {info : TypeInfo}
    (typed : r.type? tag = some info) {op : Operation}
    (operation : r.operation? (info.name ++ "." ++ member) = some op) (call : op.keyword = false)
    (other : r.operation? (object ++ "." ++ member) = none)
    (h : s.InFull object info.name member s') :
    Together (Draft.Respanned s'.span) Eq Eq (statement r s) d (statement r s') d := by
  obtain ⟨hlabel, hshort, hlong, hwritten⟩ := h
  obtain ⟨t, ts, harguments, ht, hts⟩ := List.map_eq_cons_iff.mp hwritten
  obtain ⟨hkind, htext⟩ := Prod.mk.inj ht
  have hform : op.form = .call := by
    rcases hr.sound.forms _ op operation with ⟨hkeyword, -⟩ | ⟨-, hform⟩
    · cases call.symm.trans hkeyword
    · exact hform
  have hint : type ≠ .int := by rcases handle with rfl | rfl <;> exact nofun
  have hspan : Draft.Respanned s'.span { d with span := s.span } { d with span := s'.span } := rfl
  obtain ⟨_, d₁, _, d₂, h₁, h₂, hd, -⟩ | ⟨kind, d₁, kind', d₂, h₁, h₂, hlabels⟩ :=
    ((lockstep_respanned _).statementLabel hspan hlabel
      fun label _ => ⟨trivial, hspan.lookup (r := r) label.text⟩).cases
  · -- both have declared the label, and the object is still in scope
    have scope₁ := lookup_of_label hr.sound scope hint h₁
    have hm := memberOperation?_of_scope dotless handle scope₁ typed operation
    rw [← hshort] at hm other
    have hobject : d₂.resolve r t = .ok (.register index type writable) := by
      rw [Draft.resolve, hkind, htext, hd.lookup, scope₁]
      rfl
    have hresolve : d₂.resolveAll r s'.arguments
        = (d₁.resolveAll r s.arguments).map (.register index type writable :: ·) := by
      rw [← hd.resolveAll hts, harguments, Draft.resolveAll, List.mapM_cons, hobject,
        Draft.resolveAll]
      cases ts.mapM (d₂.resolve r) <;> rfl
    rw [Together, statement_of_label h₁, statement_of_label h₂, performance_of_member other hm,
      performance_of_call (hlong.symm ▸ operation) hform, hresolve, ← Together]
    cases d₁.resolveAll r s.arguments with
    | error kind => exact together_throw hd rfl
    | ok arguments => exact emit_together_of_member hr.sound hm hd _
  · rw [Together, statement_apply, statement_apply, bind_of_error h₁, bind_of_error h₂]
    exact hlabels

/-- A type of units, which are healed in a way of their own if they may be changed. -/
def healingRequests : List Registration.Request :=
  [.type ⟨"Unit"⟩ "Unit", .method ⟨"Unit"⟩ "heal.fully" [.int] "" (.finish .proceed),
    .editingMethod ⟨"Unit"⟩ "heal.fully" [.int] "" (.finish .stop)]

theorem members_are_calls_healingRequests : ∃ (r : Registry) (d : Draft) (s s' : Statement),
    r.Built ∧ Draft.start r [⟨"target", .ptre ⟨1⟩, false⟩] = .ok d ∧
    (Statement.readAll 16 (tokenize "target.heal.fully 5;"))[0]? = some (.ok s) ∧
    (Statement.readAll 16 (tokenize "Unit.heal.fully target 5;"))[0]? = some (.ok s') ∧
    s.InFull "target" "Unit" "heal.fully" s' ∧
    Together (Draft.Respanned s'.span) Eq Eq (statement r s) d (statement r s') d := by
  have h : ((Statement.readAll 16 (tokenize "target.heal.fully 5;"))[0]?.bind Except.toOption).any
      (fun s : Statement =>
        ((Statement.readAll 16 (tokenize "Unit.heal.fully target 5;"))[0]?.bind
          Except.toOption).any fun s' =>
            decide (s.InFull "target" "Unit" "heal.fully" s')) = true := by
    decide +kernel
  obtain ⟨s, hs, h⟩ := exists_read h
  obtain ⟨s', hs', hfull⟩ := exists_read h
  obtain ⟨r₀, hr₀, h⟩ := Registry.exists_standard {} (fun r₀ =>
    let r := r₀.throughout healingRequests
    ((r.type? ⟨1⟩).any fun info : TypeInfo => info.name == "Unit") &&
      ((r.operation? "Unit.heal.fully").any fun op : Operation => !op.keyword) &&
      (r.operation? "target.heal.fully").isNone &&
      (Draft.start r [⟨"target", .ptre ⟨1⟩, false⟩]).toOption.any fun d : Draft =>
        decide (d.lookup r "target" = some (.register 0 (.ptre ⟨1⟩) false))) (by decide +kernel)
  simp only [Bool.and_eq_true, Option.isNone_iff_eq_none] at h
  obtain ⟨⟨⟨htype, hoperation⟩, other⟩, h⟩ := h
  obtain ⟨info, typed, hname⟩ := (Option.any_eq_true _ _).mp htype
  obtain ⟨op, operation, call⟩ := (Option.any_eq_true _ _).mp hoperation
  obtain ⟨d, hd, hscope⟩ := exists_ok h
  have built := (r₀.later_throughout healingRequests).built (.of_standard hr₀)
  have full := of_decide_eq_true hfull
  have hname := beq_iff_eq.mp hname
  have hlong : "Unit.heal.fully" = info.name ++ "." ++ "heal.fully" := by rw [hname]; decide
  have hshort : "target.heal.fully" = "target" ++ "." ++ "heal.fully" := by decide
  rw [hlong] at operation
  rw [hshort] at other
  exact ⟨_, d, s, s', built, hd, hs, hs', full,
    members_are_calls built d (by decide) (of_decide_eq_true hscope) (.inr rfl) typed operation
      (by simpa using call) other (hname.symm ▸ full)⟩

end Drafting

end HookScript
