/-
What compiling a statement does to a draft.

* `Drafting.declaration_ensures` and `Drafting.defineLabel_ensures` — names of the script's own;
* `Statement.Refers` and `Registry.Declares` — the names that the arguments of a statement may add;
* `Registry.OwnForms` — the host has added no keywords;
* `Drafting.statement_ensures` — then no statement fails for a defect of the compiler.
-/
import HookScript.Proofs.Compile.Blocks
import Mathlib.Data.List.TakeDrop

namespace HookScript

namespace Draft

variable {r : Registry} {d : Draft}

theorem variableType_answers (base : ValueType) (handle : Option (TypeTag → ValueType)) :
    Answers (variableType base handle) fun _ => True := by
  unfold variableType
  split
  · exact .ok trivial
  · exact .error (by simp)
  · exact .error (by simp)
  · exact .ok trivial

theorem namedType_answers (type : Token) (rest : List Token)
    (handle : Option (TypeTag → ValueType)) :
    Answers (match d.lookup r type.text with
      | some (.typeName base) => do return (← variableType base handle, rest)
      | _ => .error (.invalidVariable (.unknownType type.text))) fun _ => True := by
  split
  · exact (variableType_answers _ _).bind fun _ _ _ => .ok trivial
  · exact .error (by simp)

theorem declaredType_answers (tokens : List Token) :
    Answers (d.declaredType r tokens) fun _ => True := by
  unfold declaredType
  split
  · exact .error (by simp)
  · simp only
    split
    · exact namedType_answers _ _ _
    · exact namedType_answers _ _ _
    · exact .error (by simp)

theorem declaredName_answers (tokens : List Token) :
    Answers (d.declaredName tokens) fun _ => d.blocks = [] := by
  unfold declaredName
  split
  · exact .error (by simp)
  · split
    · exact .error (by simp)
    · split
      · exact .error (by simp)
      · rename_i hb
        exact .ok (by simpa [inBlock] using hb)

theorem initialToken_answers (tokens : List Token) :
    Answers (initialToken tokens) fun _ => True := by
  unfold initialToken
  split
  · exact .ok trivial
  · split
    split
    · exact .error (by simp)
    · exact .error (by simp)
    · exact .ok trivial

theorem initialValue_answers (hr : r.Sound) {lines : List Line} {pending : List LabelId}
    (h : d.Sound r lines pending) (type : ValueType) (token : Option Token) :
    Answers (d.initialValue r type token) fun value => ∀ a ∈ value, d.Knows r pending a := by
  unfold initialValue
  split
  · exact .ok (by simp)
  · rename_i token
    split
    · exact (resolve_answers hr h token).bind fun a _ ha => .ok (by simpa using ha)
    · exact .error (by simp)

/-- The type, the name and the first value of the variable that a statement declares. -/
def declared (r : Registry) (d : Draft) (tokens : List Token) :
    Except CompileError.Kind (ValueType × String × Option Argument) := do
  let (type, rest) ← d.declaredType r tokens
  let (name, rest) ← d.declaredName rest
  let token ← initialToken rest
  let value ← d.initialValue r type token
  return (type, name, value)

/-- The draft in which the next free register has become a variable. -/
def withVariable (d : Draft) (name : String) (type : ValueType) : Draft :=
  { d with
    locals := ⟨d.locals.entries.insert name (.register (UInt8.ofNat d.nextRegister) type true)⟩
    nextRegister := d.nextRegister + 1
    registersUsed := max d.registersUsed (d.nextRegister + 1) }

theorem grows_withVariable (d : Draft) (name : String) (type : ValueType) :
    d.Grows (d.withVariable name type) :=
  ⟨fun _ _ h => h, ⟨#[], by simp [withVariable]⟩, Nat.le_max_left _ _, fun _ h => h⟩

/-- The variable that a declaration is about. -/
def declaredVariable? : List Token → Option String
  | [] => none
  | first :: rest =>
    match handleOfName? first.text with
    | some _ => rest.tail.head?.map (·.text)
    | none => rest.head?.map (·.text)

theorem eq_of_namedType {type : Token} {tokens rest : List Token}
    {handle : Option (TypeTag → ValueType)} {valueType : ValueType}
    (h : (match d.lookup r type.text with
      | some (.typeName base) => do return (← variableType base handle, tokens)
      | _ => Except.error (.invalidVariable (.unknownType type.text))) = .ok (valueType, rest)) :
    tokens = rest := by
  split at h
  · obtain ⟨base, -, h⟩ := exists_of_bind_eq_ok h
    cases h
    rfl
  · cases h

theorem declaredVariable?_of_declaredType {tokens rest : List Token} {type : ValueType}
    (h : d.declaredType r tokens = .ok (type, rest)) :
    declaredVariable? tokens = rest.head?.map (·.text) := by
  cases tokens with
  | nil => cases h
  | cons first tokens =>
    rw [declaredVariable?]
    cases hhandle : handleOfName? first.text with
    | none =>
      simp only [declaredType, hhandle] at h
      obtain rfl := eq_of_namedType h
      rfl
    | some handle =>
      simp only [declaredType, hhandle] at h
      cases tokens with
      | nil => cases h
      | cons type' tokens =>
        obtain rfl := eq_of_namedType h
        rfl

theorem declaredVariable?_eq {tokens : List Token} {type : ValueType} {name : String}
    {value : Option Argument} (h : d.declared r tokens = .ok (type, name, value)) :
    declaredVariable? tokens = some name := by
  rw [declared] at h
  obtain ⟨⟨type', rest⟩, htype, h⟩ := exists_of_bind_eq_ok h
  obtain ⟨⟨name', rest'⟩, hname, h⟩ := exists_of_bind_eq_ok h
  obtain ⟨token, -, h⟩ := exists_of_bind_eq_ok h
  obtain ⟨value', -, h⟩ := exists_of_bind_eq_ok h
  cases h
  rw [declaredVariable?_of_declaredType htype]
  cases rest with
  | nil => cases hname
  | cons t rest =>
    simp only [declaredName] at hname
    split at hname
    · cases hname
    · split at hname <;> cases hname
      rfl

end Draft

/-! ### Keywords -/

/-- The host has added no keywords: no operation has a form of the host's own. -/
def Registry.OwnForms (r : Registry) : Prop :=
  ∀ name op, r.operation? name = some op → ∀ form, op.form ≠ .custom form

/-- The statement is not that of a keyword of the host. -/
def Registry.Reads (r : Registry) (s : Statement) : Prop :=
  ∀ op, r.operation? s.name.text = some op → ∀ form, op.form ≠ .custom form

theorem Registry.OwnForms.reads {r : Registry} (own : r.OwnForms) (s : Statement) : r.Reads s :=
  own s.name.text

/-- The statement declares the variable. -/
def Registry.Declares (r : Registry) (s : Statement) (name : String) : Prop :=
  ∃ op, r.operation? s.name.text = some op ∧ op.form = .declaration ∧
    Draft.declaredVariable? s.arguments = some name

/-- An argument of the statement stands where the builtin instruction of that name takes a label. -/
def Statement.LabelPlace (s : Statement) (i : Nat) : Prop :=
  ∃ b : Builtin, b.name = s.name.text ∧ b.params.length = s.arguments.length ∧
    b.params[i]? = some .label

/-- An argument of the statement refers to the label. -/
def Statement.Refers (s : Statement) (label : String) : Prop :=
  ∃ i t, s.LabelPlace i ∧ s.arguments[i]? = some t ∧ t.kind = .symbol ∧ t.text = label

/-- What the operation of a statement adds to the names of a draft: the variable that it declares,
or labels that its arguments refer to. -/
inductive Draft.Performs (r : Registry) (s : Statement) (d d' : Draft) : Prop where
  | refers {more : Array ForwardLabel} (names : d.Extends more d')
      (waits : ∀ f ∈ d'.forward,
        f ∈ d.forward ∨ s.Refers f.name ∧ d.lookup r f.name = none)
  | declares {type : ValueType} {name : String} (declared : r.Declares s name)
      (new : d.lookup r name = none) (names : (d.withVariable name type).Extends #[] d')

theorem Draft.Retains.performs {r : Registry} {d d' : Draft} (h : d.Retains d') (s : Statement) :
    d.Performs r s d' :=
  .refers h.names fun _ hf => .inl (h.forward ▸ hf)

/-- What a statement does to the names of a draft: it may declare a label first. -/
def Draft.Takes (r : Registry) (s : Statement) (d d' : Draft) : Prop :=
  ∃ d₁, (s.label = none → d₁ = { d with span := s.span }) ∧
    (∀ label, s.label = some label →
      Draft.Declares r { d with span := s.span } label.text d₁) ∧
    d₁.Performs r s d'

/-- The form is one of the host's own. -/
def StatementForm.isCustom : StatementForm → Bool
  | .custom _ => true
  | _ => false

/-- Whether the arguments of statements pick an overload. -/
def StatementForm.isCall : StatementForm → Bool
  | call => true
  | _ => false

theorem StatementForm.eq_call_of_isCall {form : StatementForm} (h : form.isCall = true) :
    form = .call := by
  cases form with
  | call => rfl
  | ifBlock | elseBranch | endBlock | declaration | custom => cases h

theorem Registry.ownForms_of_all {r : Registry}
    (h : r.operations.toList.all (fun op => !op.2.form.isCustom) = true) : r.OwnForms := by
  intro name op hop form hform
  have := List.all_eq_true.mp h (name, op) (NameTable.find?_eq_some_iff.mp hop)
  rw [hform] at this
  cases this

theorem Draft.Emits.ready {r : Registry} {lines : List Line} {op : Operation}
    {arguments : List Argument} {l : Line} {d d' : Draft}
    (h : Emits r op arguments lines d.pending l d d') (hd : d.Ready r lines) :
    d'.Ready r (lines ++ [l]) := by
  refine ⟨?_, fun b hb hlast => ?_⟩
  · have := h.sound
    rwa [pending, ← h.frame.blocks] at this
  · rw [h.frame.blocks] at hb
    exact h.grows.isDefined (hd.last b hb hlast)

namespace Drafting

open CompileError.Kind

variable {r : Registry} {lines : List Line} {pending : List LabelId} {d : Draft}

/-! ### Variables -/

theorem declareVariable_ensures (hr : r.Sound) (h : d.Sound r lines pending) (name : String)
    (type : ValueType) :
    Ensures (declareVariable r name type) d
      (fun index d' => d.lookup r name = none ∧ d.nextRegister < r.config.registers ∧
        index = UInt8.ofNat d.nextRegister ∧ d' = d.withVariable name type ∧
        d'.Sound r lines pending)
      Excused := by
  have hcap := (RegistryConfig.of_fault?_eq_none hr.config).1
  simp only [declareVariable, ensures_get_bind]
  split
  · exact excused (by simp) d
  · rename_i hl
    split
    · exact excused (by simp) d
    · rename_i hn
      cases hi : d.locals.insert name (.register (UInt8.ofNat d.nextRegister) type true) with
      | error _ => exact excused (by simp) d
      | ok locals =>
        obtain ⟨-, rfl⟩ := SymbolTable.insert_eq_ok hi
        have hlt : d.nextRegister < r.config.registers := by omega
        -- the registers of a script have numbers below 64
        have htouch : min ((UInt8.ofNat d.nextRegister).toNat + 1) 255 = d.nextRegister + 1 := by
          rw [UInt8.toNat_ofNat']
          simp only [maxRegisters] at hcap
          omega
        have heq : Draft.touch { d with
            locals := ⟨d.locals.entries.insert name
              (.register (UInt8.ofNat d.nextRegister) type true)⟩
            nextRegister := d.nextRegister + 1 } (UInt8.ofNat d.nextRegister)
              = d.withVariable name type := by
          rw [Draft.touch, htouch, Draft.withVariable]
        refine ⟨by simpa using hl, hlt, rfl, heq, ?_⟩
        show Draft.Sound r lines pending (Draft.touch _ _)
        rw [heq]
        exact h.declare hlt hcap

/-- The first value of a variable is known. -/
theorem not_unknown_of_set (hr : r.Sound) {op : Operation}
    (hop : r.operation? Builtin.set.name = some op) {index : UInt8} {type : ValueType}
    {value : Argument} {o : Overload}
    (hsel : op.select r [.register index type true, value] = .ok o) (name : String) :
    .unknown name ∉ [.register index type true, value] := by
  intro hm
  obtain ⟨i, hi⟩ := List.mem_iff_getElem?.mp hm
  obtain ⟨b, -, -, hname, -, hlabel⟩ :=
    Operation.exists_builtin_of_label hr hop hsel hi trivial
  obtain rfl := Builtin.eq_of_name .set (by simp) hname
  have hm := List.mem_of_getElem? hlabel
  revert hm
  decide

/-- A declaration gives its variable the next free register, and stores the first value there. -/
theorem declaration_ensures (hr : r.Built) (h : d.Ready r lines) (s : Statement) :
    Ensures (declaration r s) d
      (fun _ d' => ∃ type name value more, d.declared r s.arguments = .ok (type, name, value) ∧
        d.blocks = [] ∧ d.lookup r name = none ∧ d.nextRegister < r.config.registers ∧
        (match value with
          | none => more = []
          | some value => ∃ l, more = [l] ∧ r.Writes d'.natives Builtin.set.name
              [.register (UInt8.ofNat d.nextRegister) type true, value] l) ∧
        d'.Ready r (lines ++ more) ∧ d.Grows d' ∧ (d.withVariable name type).Retains d' ∧
        d'.blocks = [])
      Excused := by
  simp only [declaration, ensures_get_bind]
  refine (ofExcept_ensures (Draft.declaredType_answers s.arguments)).bind ?_
  rintro ⟨type, rest⟩ d₁ ⟨htype, -, rfl⟩
  refine (ofExcept_ensures (Draft.declaredName_answers rest)).bind ?_
  rintro ⟨name, rest'⟩ d₂ ⟨hname, hblocks, rfl⟩
  refine (ofExcept_ensures (Draft.initialToken_answers rest')).bind ?_
  rintro token d₃ ⟨htoken, -, rfl⟩
  refine (ofExcept_ensures (Draft.initialValue_answers hr.sound h.sound type token)).bind ?_
  rintro value d₄ ⟨hvalue, hk, rfl⟩
  refine (declareVariable_ensures hr.sound h.sound name type).bind ?_
  rintro index d₅ ⟨hl, hn, rfl, rfl, h₅⟩
  -- what has been read is what `declared` says
  have hdeclared : d₄.declared r s.arguments = .ok (type, name, value) := by
    simp only [Draft.declared, bind, Except.bind, htype, hname, htoken, hvalue]
    rfl
  have hg := d₄.grows_withVariable name type
  have hpending : d₄.pending = [] := by simp [Draft.pending, hblocks]
  cases value with
  | none =>
    refine ⟨type, name, none, [], hdeclared, hblocks, hl, hn, rfl, ⟨?_, ?_⟩, hg, .refl _, hblocks⟩
    · rw [List.append_nil]
      exact h₅
    · exact h.last
  | some value =>
    -- the first value is stored by the instruction that sets a register
    have hregister : (UInt8.ofNat d₄.nextRegister).toNat < r.config.registers := by
      rw [UInt8.toNat_ofNat']
      omega
    refine (emitNamed_ensures hr .set h₅ [.register _ type true, value] ?_).mono ?_
      (fun _ _ h => h)
    · intro a ha
      rcases List.mem_pair.mp ha with rfl | rfl
      · exact hregister
      · exact hg.knows (hk _ rfl)
    · rintro - d₆ ⟨op, l, hop, hl'⟩
      have hblocks' : d₆.blocks = [] := hl'.frame.blocks.trans hblocks
      obtain ⟨o, -, hsel, -⟩ := hl'.chosen
      have hf := hl'.known (not_unknown_of_set hr.sound hop hsel)
      refine ⟨type, name, some value, [l], hdeclared, hblocks, hl, hn,
        ⟨l, rfl, hl'.writes hop hf⟩, ⟨?_, ?_⟩, hg.trans hl'.grows, hl'.frame.retains hf, hblocks'⟩
      · have := hl'.sound
        rw [hpending] at this
        simpa [Draft.pending, hblocks'] using this
      · simp [hblocks']

/-! ### Labels of statements -/

/-- The label that a statement declares, if it is still without a position. -/
theorem placeDeclared_ensures (h : d.Sound r lines pending) {label : LabelId} (name : String)
    (hl : d.HasLabel label) (hp : label ∉ pending) :
    Ensures
      (do
        if (← get).buffer.isDefined label then throw (.labelRedefined name)
        placeLabel label) d
      (fun _ d' => d'.Sound r lines pending ∧ d.Grows d' ∧ d'.blocks = d.blocks ∧
        d.buffer.position? label = none ∧ d' = { d with buffer := d.buffer.bindLabel label })
      Excused := by
  simp only [ensures_get_bind]
  split
  · exact excused (by simp) d
  · rename_i hd
    have hu : d.buffer.position? label = none := by
      simpa [CodeBuffer.isDefined] using hd
    refine (placeLabel_ensures hl hu).mono ?_ (fun _ _ h => h)
    rintro - d' ⟨hsize, rfl⟩
    exact ⟨h.bindLabel hl hu hsize (List.Sublist.refl _) hp fun _ ho => .inr ho,
      Draft.Sound.grows_bindLabel hl hu, rfl, hu, rfl⟩

theorem defineLabel_ensures (hr : r.Sound) (h : d.Sound r lines pending) (name : String) :
    Ensures (defineLabel r name) d
      (fun _ d' => d'.Sound r lines pending ∧ d.Grows d' ∧ d'.blocks = d.blocks ∧
        d.Declares r name d')
      Excused := by
  simp only [defineLabel, ensures_get_bind]
  split
  · rename_i label hl
    rcases Draft.lookup_eq_some hl with hl | hl
    · obtain ⟨hhas, hp, -⟩ := h.named name label hl
      refine (placeDeclared_ensures h name hhas hp).mono ?_ (fun _ _ h => h)
      rintro - d' ⟨hsound, hg, hblocks, hu, rfl⟩
      exact ⟨hsound, hg, hblocks, h.declares_known hl hu⟩
    · exact (hr.globals name _ hl).elim
  · exact excused (by simp) d
  · rename_i hl
    refine (nameLabel_ensures name).bind ?_
    rintro label d₁ ⟨hc, rfl, -, rfl⟩
    -- a label of an unknown name is made and placed at once
    have hnew := h.newLabel hc
    obtain ⟨hhas, hu⟩ := hnew.unplaced d.buffer.nextLabel (by simp)
    have hnot : d.buffer.newLabel.isDefined d.buffer.nextLabel = false := by
      rw [CodeBuffer.isDefined, hu]
      rfl
    simp only [ensures_get_bind, hnot, Bool.false_eq_true, if_false]
    have hhas' : Draft.HasLabel { d with
        buffer := d.buffer.newLabel
        locals := ⟨d.locals.entries.insert name (.label d.buffer.nextLabel)⟩ }
        d.buffer.nextLabel := hhas
    refine (placeLabel_ensures hhas' hu).mono ?_ (fun _ _ h => h)
    rintro - d' ⟨hsize, rfl⟩
    have hbound := hnew.bindLabel hhas hu hsize (List.sublist_cons_self _ _)
      (List.nodup_cons.mp hnew.nodup).1 fun _ ho => List.mem_cons.mp ho
    have hplaced := CodeBuffer.position?_bindLabel hhas d.buffer.nextLabel
    rw [if_pos rfl] at hplaced
    refine ⟨hbound.nameLabel ?_ (CodeBuffer.isDefined_eq_true_iff.mpr ⟨_, hplaced⟩) name, ?_, rfl,
      h.declares_new hl hhas⟩
    · simpa [Draft.HasLabel, CodeBuffer.bindLabel] using hhas
    · obtain ⟨hpos, hn, hle, hf⟩ :=
        Draft.Sound.grows_newLabel.trans (Draft.Sound.grows_bindLabel hhas hu)
      exact ⟨hpos, hn, hle, hf⟩

theorem statementLabel_ensures (hr : r.Sound) (h : d.Ready r lines) (s : Statement) :
    Ensures (statementLabel r s) d
      (fun _ d' => d'.Ready r lines ∧ d.Grows d' ∧ (s.label = none → d' = d) ∧
        ∀ label, s.label = some label → d.Declares r label.text d')
      Excused := by
  rw [statementLabel]
  cases s.label with
  | none => exact ⟨h, .refl, fun _ => rfl, nofun⟩
  | some label =>
    refine (defineLabel_ensures hr h.sound label.text).mono ?_ (fun _ _ h => h)
    rintro - d' ⟨hsound, hg, hblocks, hdeclares⟩
    refine ⟨⟨?_, fun b hb hlast => ?_⟩, hg, nofun, ?_⟩
    · rwa [Draft.pending, hblocks]
    · rw [hblocks] at hb
      exact hg.isDefined (h.last b hb hlast)
    · rintro _ ⟨⟩
      exact hdeclares

/-! ### Statements -/

/-- A statement without a form of its own is emitted with its arguments, behind the object that it
is a member of if there is one. -/
theorem emitArguments_ensures (hr : r.Sound) (h : d.Ready r lines) {name : String} {op : Operation}
    (hop : r.operation? name = some op) (objects : List Argument)
    (ho : ∀ a ∈ objects, d.Knows r d.pending a) (tokens : List Token) :
    Ensures
      (ofExcept (d.resolveAll r tokens) >>= fun arguments => emit r op (objects ++ arguments)) d
      (fun _ d' => ∃ arguments l, d.resolveAll r tokens = .ok arguments ∧
        Draft.Emits r op (objects ++ arguments) lines d.pending l d d')
      Excused := by
  refine (ofExcept_ensures (Draft.resolveAll_answers hr h.sound tokens)).bind ?_
  rintro arguments d₁ ⟨harguments, hk, rfl⟩
  refine (emit_ensures hr hop h.sound ?_).mono ?_ (fun _ _ h => h)
  · intro a ha
    exact (List.mem_append.mp ha).elim (ho a) (hk a)
  · rintro - d' ⟨l, hl⟩
    exact ⟨arguments, l, harguments, hl⟩

/-- A name is cut in front of its first dot. -/
theorem splitMember?_eq_some_iff {name object member : String} :
    splitMember? name = some (object, member) ↔
      '.' ∉ object.toList ∧ member.toList.head? = some '.' ∧ name = object ++ member := by
  rw [splitMember?, List.span_eq_takeWhile_dropWhile]
  constructor
  · intro h
    split at h
    · cases h
    · rename_i front rest hne heq
      cases h
      obtain ⟨rfl, rfl⟩ := Prod.mk.inj heq
      have hdrop : name.toList.dropWhile (· ≠ '.') ≠ [] := hne
      have hhead := List.head_dropWhile_not (· ≠ '.') hdrop
      refine ⟨fun hmem => ?_, ?_, ?_⟩
      · rw [String.toList_ofList] at hmem
        simpa using List.all_eq_true.mp List.all_takeWhile _ hmem
      · rw [String.toList_ofList, List.head?_eq_some_head hdrop]
        simpa using hhead
      · rw [← String.ofList_append, List.takeWhile_append_dropWhile, String.ofList_toList]
  · rintro ⟨hobject, hmember, rfl⟩
    obtain ⟨rest, hrest⟩ := List.head?_eq_some_iff.mp hmember
    have hfront : ∀ c ∈ object.toList, decide (c ≠ '.') = true := fun c hc =>
      decide_eq_true fun heq => hobject (heq ▸ hc)
    rw [String.toList_append, List.takeWhile_append_of_pos hfront,
      List.dropWhile_append_of_pos hfront, hrest, List.takeWhile_cons_of_neg (by simp),
      List.dropWhile_cons_of_neg (by simp), List.append_nil]
    simp [← hrest]

theorem dot_mem_of_splitMember? {name object member : String}
    (h : splitMember? name = some (object, member)) : '.' ∈ member.toList :=
  List.mem_of_head? (splitMember?_eq_some_iff.mp h).2.1

/-- The operation that a member means is one of the registry, with a dot in its name. -/
theorem memberOperation?_eq_some {name : String} {op : Operation} {object : Argument}
    (h : memberOperation? r d name = some (op, object)) :
    (∃ name', r.operation? name' = some op ∧ '.' ∈ name'.toList) ∧
      ∃ meaning name', d.lookup r name' = some meaning ∧ object = .ofMeaning meaning := by
  simp only [memberOperation?, Option.bind_eq_bind, Option.bind_eq_some_iff] at h
  obtain ⟨⟨owner, member⟩, hsplit, meaning, hl, h⟩ := h
  have hdot : ∀ type : String, '.' ∈ (type ++ member).toList := by
    intro type
    rw [String.toList_append]
    exact List.mem_append_right _ (dot_mem_of_splitMember? hsplit)
  have found : ∀ type, (do return (← r.operationJoined? type member, Argument.ofMeaning meaning))
      = some (op, object) → (∃ name', r.operation? name' = some op ∧ '.' ∈ name'.toList) ∧
        ∃ meaning name', d.lookup r name' = some meaning ∧ object = .ofMeaning meaning := by
    intro type h
    simp only [Option.bind_eq_bind, Option.bind_eq_some_iff, Option.pure_def, Option.some.injEq,
      Prod.mk.injEq] at h
    obtain ⟨op', hop, rfl, rfl⟩ := h
    rw [Registry.operationJoined?_eq] at hop
    exact ⟨⟨_, hop, hdot type⟩, meaning, owner, hl, rfl⟩
  split at h
  · exact found _ h
  · exact found _ h
  · cases h

/-- A statement of a member is emitted with the object in front of its arguments. -/
theorem emitMember_ensures (hr : r.Sound) (h : d.Ready r lines) {name : String} {op : Operation}
    {object : Argument} (hm : memberOperation? r d name = some (op, object)) (tokens : List Token) :
    Ensures
      (ofExcept (d.resolveAll r tokens) >>= fun arguments => emit r op ([object] ++ arguments)) d
      (fun _ d' => ∃ arguments l, d.resolveAll r tokens = .ok arguments ∧
        Draft.Emits r op ([object] ++ arguments) lines d.pending l d d')
      Excused := by
  obtain ⟨⟨name', hop, -⟩, meaning, owner, hl, rfl⟩ := memberOperation?_eq_some hm
  refine emitArguments_ensures hr h hop [.ofMeaning meaning] ?_ tokens
  intro a ha
  rw [List.mem_singleton.mp ha]
  exact Draft.lookup_knows hr h.sound hl

theorem forall₂_of_resolveAll {tokens : List Token} {arguments : List Argument}
    (h : d.resolveAll r tokens = .ok arguments) :
    List.Forall₂ (fun t a => d.resolve r t = .ok a) tokens arguments :=
  mapM_eq_ok_iff.mp h

theorem of_resolve_unknown {t : Token} {name : String}
    (h : d.resolve r t = .ok (.unknown name)) :
    t.kind = .symbol ∧ t.text = name ∧ d.lookup r name = none := by
  unfold Draft.resolve at h
  split at h
  · split at h <;> cases h
  · rename_i hkind
    split at h
    · rename_i meaning _
      cases meaning <;> cases h
    · rename_i hl
      cases h
      exact ⟨hkind, rfl, hl⟩
  · cases h

/-- An argument of the statement that stands for nothing yet is a name where a label is taken. -/
theorem place_of_unknown (hr : r.Sound) {s : Statement} {op : Operation}
    (hop : r.operation? s.name.text = some op) {arguments : List Argument}
    (harguments : d.resolveAll r s.arguments = .ok arguments) {o : Overload}
    (hsel : op.select r arguments = .ok o) {i : Nat} {name : String}
    (hi : arguments[i]? = some (.unknown name)) :
    s.LabelPlace i ∧ (∃ t, s.arguments[i]? = some t ∧ t.kind = .symbol ∧ t.text = name) ∧
      d.lookup r name = none := by
  obtain ⟨b, -, -, hname, hlen, hlabel⟩ :=
    Operation.exists_builtin_of_label hr hop hsel hi trivial
  have htokens := forall₂_of_resolveAll harguments
  obtain ⟨t, ht, hres⟩ := exists_left_of_forall₂ htokens hi
  obtain ⟨hkind, htext, hnone⟩ := of_resolve_unknown hres
  exact ⟨⟨b, hname, hlen.trans htokens.length_eq.symm, hlabel⟩, ⟨t, ht, hkind, htext⟩, hnone⟩

/-- Hence the statement refers to a label. -/
theorem refers_of_unknown (hr : r.Sound) {s : Statement} {op : Operation}
    (hop : r.operation? s.name.text = some op) {arguments : List Argument}
    (harguments : d.resolveAll r s.arguments = .ok arguments) {o : Overload}
    (hsel : op.select r arguments = .ok o) {name : String} (hm : .unknown name ∈ arguments) :
    s.Refers name ∧ d.lookup r name = none := by
  obtain ⟨i, hi⟩ := List.mem_iff_getElem?.mp hm
  obtain ⟨hplace, ⟨t, ht, hkind, htext⟩, hnone⟩ := place_of_unknown hr hop harguments hsel hi
  exact ⟨⟨i, t, hplace, ht, hkind, htext⟩, hnone⟩

/-- Members take no labels. -/
theorem not_unknown_of_member (hr : r.Sound) {name : String} {op : Operation} {object : Argument}
    (hm : memberOperation? r d name = some (op, object)) {arguments : List Argument} {o : Overload}
    (hsel : op.select r arguments = .ok o) (unknown : String) : .unknown unknown ∉ arguments := by
  intro hu
  obtain ⟨⟨name', hop, hdot⟩, -⟩ := memberOperation?_eq_some hm
  obtain ⟨i, hi⟩ := List.mem_iff_getElem?.mp hu
  obtain ⟨b, -, -, rfl, -⟩ := Operation.exists_builtin_of_label hr hop hsel hi trivial
  revert hdot
  cases b <;> decide

theorem statementOf_ensures (hr : r.Built) (h : d.Ready r lines) {s : Statement} {op : Operation}
    (hop : r.operation? s.name.text = some op) (own : ∀ form, op.form ≠ .custom form) :
    Ensures (statementOf r op s) d
      (fun _ d' => ∃ more, d'.Ready r (lines ++ more) ∧ d.Grows d' ∧ (d.Waiting → d'.Waiting) ∧
        d.Performs r s d')
      Excused := by
  rw [statementOf]
  split
  · simp only [ensures_get_bind]
    refine (emitArguments_ensures hr.sound h hop [] (by simp) s.arguments).mono ?_
      (fun _ _ h => h)
    rintro - d' ⟨arguments, l, harguments, hl⟩
    obtain ⟨o, -, hsel, -⟩ := hl.chosen
    obtain ⟨names, hnames⟩ := hl.frame.names
    exact ⟨[l], hl.ready h, hl.grows, hl.frame.waiting, .refers hnames fun f hf =>
      (hl.waits f hf).imp id (refers_of_unknown hr.sound hop harguments hsel)⟩
  · refine (ifBlock_ensures hr h s).mono ?_ (fun _ _ h => h)
    rintro - d' ⟨_, _, l, -, hd', hg, hret, -⟩
    exact ⟨[l], hd', hg, hret.waiting, hret.performs s⟩
  · refine (elseBranch_ensures hr h s).mono ?_ (fun _ _ h => h)
    rintro - d' ⟨_, _, jump, -, -, -, -, hg, hret, hd'⟩
    rcases hd' with ⟨-, hd', -⟩ | ⟨-, _, l, -, hd', -⟩
    · exact ⟨[jump], hd', hg, hret.waiting, hret.performs s⟩
    · exact ⟨[jump] ++ [l], by rwa [← List.append_assoc], hg, hret.waiting, hret.performs s⟩
  · refine (endBlock_ensures h s).mono ?_ (fun _ _ h => h)
    rintro - d' ⟨_, _, -, -, hd', hg, hret, -⟩
    exact ⟨[], by rwa [List.append_nil], hg, hret.waiting, hret.performs s⟩
  · rename_i hform
    refine (declaration_ensures hr h s).mono ?_ (fun _ _ h => h)
    rintro - d' ⟨type, name, _, more, hdeclared, -, hnew, -, -, hd', hg, hret, -⟩
    exact ⟨more, hd', hg, hret.waiting,
      .declares ⟨op, hop, hform, Draft.declaredVariable?_eq hdeclared⟩ hnew hret.names⟩
  · rename_i form hform
    exact absurd hform (own form)

theorem ready_withSpan (h : d.Ready r lines) (span : Span) : Draft.Ready r lines { d with span } :=
  ⟨{ h.sound with holds := h.sound.holds }, h.last⟩

/-- A statement leads to more lines, or is rejected. -/
theorem statement_ensures (hr : r.Built) {s : Statement} (own : r.Reads s) (h : d.Ready r lines) :
    Ensures (statement r s) d
      (fun _ d' => ∃ more, d'.Ready r (lines ++ more) ∧ d.Grows d' ∧
        (s.label = none → d.Waiting → d'.Waiting) ∧ d.Takes r s d')
      Excused := by
  simp only [statement, ensures_modify_bind]
  -- first the label of the statement, then its operation
  refine (statementLabel_ensures hr.sound (ready_withSpan h s.span) s).bind ?_
  rintro - d₁ ⟨h₁, hg₁, hsame, hdeclares⟩
  have hg₁ : d.Grows d₁ := ⟨hg₁.positions, hg₁.natives, hg₁.used, hg₁.forward⟩
  have hw₁ : s.label = none → d.Waiting → d₁.Waiting := fun hnone hw => hsame hnone ▸ hw
  cases hop : r.operation? s.name.text with
  | some op =>
    refine (statementOf_ensures hr h₁ hop (own op hop)).mono ?_ (fun _ _ h => h)
    rintro - d₂ ⟨more, h₂, hg₂, hw₂, hperforms⟩
    exact ⟨more, h₂, hg₁.trans hg₂, fun hnone hw => hw₂ (hw₁ hnone hw),
      d₁, hsame, hdeclares, hperforms⟩
  | none =>
    simp only [ensures_get_bind]
    cases hm : memberOperation? r d₁ s.name.text with
    | none => exact excused (by simp) d₁
    | some found =>
      obtain ⟨op, object⟩ := found
      refine (emitMember_ensures hr.sound h₁ hm s.arguments).mono ?_ (fun _ _ h => h)
      rintro - d₂ ⟨arguments, l, -, hl⟩
      obtain ⟨o, -, hsel, -⟩ := hl.chosen
      have hf := hl.known (not_unknown_of_member hr.sound hm hsel)
      exact ⟨[l], hl.ready h₁, hg₁.trans hl.grows,
        fun hnone hw => hl.frame.waiting (hw₁ hnone hw),
        d₁, hsame, hdeclares, (hl.frame.retains hf).performs s⟩

end Drafting

end HookScript
