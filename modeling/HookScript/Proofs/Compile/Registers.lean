/-
Scripts use only registers that their registry provides.

The number of registers in use begins with the inputs and the arguments of the hook, and grows where
a variable is declared or an argument names a register.  Names stand only for registers that the
registry provides, so the number stays within what it provides, whether a step of the compiler
succeeds or fails:

* `Draft.InCapacity` — the draft stays within the registers of the registry;
* `Registry.KeywordsProvided` — what is asked of keywords of the host, which may make up arguments
  of their own;
* `Drafting.statement_stays` — no statement leaves the registers of the registry;
* `registers_le_of_compile` — hence a program uses no more registers than its registry provides.
-/
import HookScript.Proofs.Compile.Conduct

namespace HookScript

/-- If the argument is a register, the registry provides it. -/
def Argument.Provided (r : Registry) (a : Argument) : Prop :=
  ∀ index type writable, a = register index type writable → index.toNat < r.config.registers

theorem Argument.Provided.label (r : Registry) (label : LabelId) :
    Provided r (.label label) := by
  simp [Provided]

/-- The registry provides the registers among the arguments. -/
def Registry.Provides (r : Registry) (arguments : List Argument) : Prop :=
  ∀ a ∈ arguments, a.Provided r

/-- No more registers are in use than the registry provides, and names of the script stand for no
others. -/
structure Draft.InCapacity (r : Registry) (d : Draft) : Prop where
  used : d.registersUsed ≤ r.config.registers
  names : ∀ name index type writable,
    d.locals.find? name = some (.register index type writable) → index.toNat < r.config.registers

/-- As long as names stand only for registers that the registry provides, keywords of the host emit
no others. -/
def Registry.KeywordsProvided (r : Registry) : Prop :=
  ∀ name op form s d, r.operation? name = some op → op.form = .custom form → d.InCapacity r →
    (form s).Keeps r (.emitting r.Provides) d

namespace Draft

variable {r : Registry} {d : Draft}

theorem InCapacity.touch (h : d.InCapacity r) {index : UInt8}
    (hi : index.toNat < r.config.registers) : (d.touch index).InCapacity r := by
  refine ⟨?_, h.names⟩
  have := h.used
  show max d.registersUsed (min (index.toNat + 1) 255) ≤ r.config.registers
  omega

/-- A new name that stands for no register beyond the capacity does no harm. -/
theorem InCapacity.insert (h : d.InCapacity r) {name : String} {meaning : Meaning}
    (hm : ∀ index type writable, meaning = .register index type writable →
      index.toNat < r.config.registers) {buffer : CodeBuffer} {nextRegister : Nat} :
    InCapacity r { d with
      locals := ⟨d.locals.entries.insert name meaning⟩, buffer, nextRegister } := by
  refine ⟨h.used, fun other index type writable hn => ?_⟩
  rw [SymbolTable.find?_insert] at hn
  split at hn
  · cases hn
    exact hm index type writable rfl
  · exact h.names other index type writable hn

/-- Whatever a name stands for, it is no register beyond the capacity. -/
theorem InCapacity.lookup_lt (h : d.InCapacity r) (hr : r.Sound) {name : String} {index : UInt8}
    {type : ValueType} {writable : Bool}
    (hl : d.lookup r name = some (.register index type writable)) :
    index.toNat < r.config.registers := by
  rw [lookup] at hl
  cases hn : d.locals.find? name with
  | some meaning =>
    rw [hn] at hl
    cases hl
    exact h.names name index type writable hn
  | none =>
    rw [hn] at hl
    exact (hr.globals name _ hl).1

theorem InCapacity.resolve (h : d.InCapacity r) (hr : r.Sound) {t : Token} {a : Argument}
    (ht : d.resolve r t = .ok a) : a.Provided r := by
  rintro index type writable rfl
  obtain ⟨name, hl⟩ := Drafting.lookup_of_resolve ht
  exact h.lookup_lt hr hl

theorem InCapacity.resolveAll (h : d.InCapacity r) (hr : r.Sound) {tokens : List Token}
    {arguments : List Argument} (ha : d.resolveAll r tokens = .ok arguments) :
    r.Provides arguments := by
  intro a hm
  obtain ⟨i, hi⟩ := List.mem_iff_getElem?.mp hm
  obtain ⟨t, -, ht⟩ := exists_left_of_forall₂ (Drafting.forall₂_of_resolveAll ha) hi
  exact h.resolve hr ht

/-- The first value of a variable is what a token stands for. -/
theorem InCapacity.initialValue (h : d.InCapacity r) (hr : r.Sound) {type : ValueType}
    {token : Option Token} {a : Argument}
    (ha : d.initialValue r type token = .ok (some a)) : a.Provided r := by
  unfold Draft.initialValue at ha
  split at ha
  · cases ha
  · rename_i t
    split at ha
    · cases ht : d.resolve r t with
      | error kind =>
        rw [ht] at ha
        cases ha
      | ok a' =>
        rw [ht] at ha
        cases ha
        exact h.resolve hr ht
    · cases ha

end Draft

namespace Drafting

/-- The step stays within the registers of the registry, whether it succeeds or fails. -/
def Stays (r : Registry) {α : Type} (x : Drafting α) (d : Draft) (done : α → Prop) : Prop :=
  Ensures x d (fun a d' => d'.InCapacity r ∧ done a) fun _ d' => d'.InCapacity r

section

variable {r : Registry} {α β : Type} {x : Drafting α} {f : α → Drafting β} {d : Draft}
  {done : α → Prop} {after : β → Prop}

theorem Stays.bind (h : Stays r x d done)
    (hf : ∀ a d', d'.InCapacity r → done a → Stays r (f a) d' after) :
    Stays r (x >>= f) d after :=
  Ensures.bind h fun a d' ha => hf a d' ha.1 ha.2

theorem stays_pure {a : α} (hd : d.InCapacity r) (h : done a) :
    Stays r (pure a : Drafting α) d done :=
  ⟨hd, h⟩

theorem stays_throw {kind : CompileError.Kind} (hd : d.InCapacity r) :
    Stays r (throw kind : Drafting α) d done :=
  hd

theorem stays_get_bind {f : Draft → Drafting β} :
    Stays r (get >>= f) d after ↔ Stays r (f d) d after := Iff.rfl

theorem stays_modify {g : Draft → Draft} (hd : (g d).InCapacity r) :
    Stays r (modify g : Drafting PUnit) d fun _ => True :=
  ⟨hd, trivial⟩

theorem stays_ofExcept {answer : Except CompileError.Kind α} (hd : d.InCapacity r)
    (h : ∀ a, answer = .ok a → done a) : Stays r (ofExcept answer) d done := by
  cases answer with
  | ok a => exact stays_pure hd (h a rfl)
  | error kind => exact stays_throw hd

theorem stays_ofExcept_of_true {answer : Except CompileError.Kind α} (hd : d.InCapacity r) :
    Stays r (ofExcept answer) d fun _ => True :=
  stays_ofExcept hd fun _ _ => trivial

/-- What is attempted leads to a draft from which the next step goes on with the answer. -/
theorem Stays.attempt_bind {f : Except CompileError.Kind α → Drafting β} (h : Stays r x d done)
    (hf : ∀ answer d', attempt x d = .ok answer d' → d'.InCapacity r →
      Stays r (f answer) d' after) : Stays r (attempt x >>= f) d after := by
  have hattempt : Ensures (attempt x) d
      (fun answer d' => attempt x d = .ok answer d' ∧ d'.InCapacity r)
      fun _ d' => d'.InCapacity r := by
    unfold Stays Ensures at h
    unfold Ensures
    rw [attempt]
    cases hx : x d with
    | ok a d' =>
      rw [hx] at h
      exact ⟨rfl, h.1⟩
    | error kind d' =>
      rw [hx] at h
      exact ⟨rfl, h⟩
  exact Ensures.bind hattempt fun answer d' ha => hf answer d' ha.1 ha.2

end

variable {r : Registry} {d : Draft}

/-! ### Labels and variables -/

theorem newLabel_stays (hd : d.InCapacity r) : Stays r newLabel d fun _ => True := by
  rw [newLabel, stays_get_bind]
  split
  · exact stays_throw hd
  · exact ⟨⟨hd.used, hd.names⟩, trivial⟩

theorem placeLabel_stays (hd : d.InCapacity r) (label : LabelId) :
    Stays r (placeLabel label) d fun _ => True := by
  rw [placeLabel, stays_get_bind]
  split
  · exact stays_throw hd
  · exact stays_modify ⟨hd.used, hd.names⟩

theorem nameLabel_stays (hd : d.InCapacity r) (name : String) :
    Stays r (nameLabel name) d fun _ => True := by
  rw [nameLabel]
  refine (newLabel_stays hd).bind fun label d' hd' _ => ?_
  rw [stays_get_bind]
  cases hinsert : d'.locals.insert name (.label label) with
  | error _ => exact stays_throw hd'
  | ok locals =>
    obtain ⟨-, rfl⟩ := SymbolTable.insert_eq_ok hinsert
    exact ⟨hd'.insert (by simp), trivial⟩

theorem forwardLabel_stays (hd : d.InCapacity r) (name : String) :
    Stays r (forwardLabel name) d fun _ => True :=
  (nameLabel_stays hd name).bind fun _ _ hd' _ => ⟨⟨hd'.used, hd'.names⟩, trivial⟩

theorem defineLabel_stays (hd : d.InCapacity r) (name : String) :
    Stays r (defineLabel r name) d fun _ => True := by
  have hplace : ∀ label d', Draft.InCapacity r d' → Stays r (do
      if (← get).buffer.isDefined label then
        throw (.labelRedefined name)
      placeLabel label) d' fun _ => True := by
    intro label d' hd'
    simp only [stays_get_bind]
    split
    · exact stays_throw hd'
    · exact placeLabel_stays hd' label
  simp only [defineLabel, stays_get_bind]
  split
  · exact hplace _ d hd
  · exact stays_throw hd
  · exact (nameLabel_stays hd name).bind fun label d' hd' _ => hplace label d' hd'

/-- A variable gets a register that the registry provides. -/
theorem declareVariable_stays (hd : d.InCapacity r) (name : String) (type : ValueType) :
    Stays r (declareVariable r name type) d fun index => index.toNat < r.config.registers := by
  simp only [declareVariable, stays_get_bind]
  split
  · exact stays_throw hd
  · split
    · exact stays_throw hd
    · rename_i hfull
      have hindex : (UInt8.ofNat d.nextRegister).toNat < r.config.registers := by
        rw [UInt8.toNat_ofNat']
        omega
      cases hinsert : d.locals.insert name
          (.register (UInt8.ofNat d.nextRegister) type true) with
      | error _ => exact stays_throw hd
      | ok locals =>
        obtain ⟨-, rfl⟩ := SymbolTable.insert_eq_ok hinsert
        refine ⟨Draft.InCapacity.touch (hd.insert ?_) hindex, hindex⟩
        rintro index type' writable ⟨⟩
        exact hindex

/-! ### Operations -/

theorem bindForward_stays (hd : d.InCapacity r) {arguments : List Argument}
    (h : r.Provides arguments) : Stays r (bindForward arguments) d r.Provides := by
  induction arguments generalizing d with
  | nil => exact stays_pure hd (by simp [Registry.Provides])
  | cons a arguments ih =>
    obtain ⟨hfirst, hrest⟩ := List.forall_mem_cons.mp h
    cases a with
    | unknown name =>
      refine (forwardLabel_stays hd name).bind fun label d₁ hd₁ _ => ?_
      exact (ih hd₁ hrest).bind fun bound d₂ hd₂ hb =>
        stays_pure hd₂ (List.forall_mem_cons.mpr ⟨.label r label, hb⟩)
    | constant _ | register _ _ _ | label _ | typeName _ =>
      exact (ih hd hrest).bind fun bound d₁ hd₁ hb =>
        stays_pure hd₁ (List.forall_mem_cons.mpr ⟨hfirst, hb⟩)

/-- The registers of operands are those of arguments. -/
theorem eq_register_of_payload? {p : Parameter} {a : Argument} {choice : Nat} {index : UInt8}
    (h : payload? p a = some (choice, .register index)) :
    ∃ type writable, a = .register index type writable := by
  cases a with
  | register _ type writable =>
    refine ⟨type, writable, ?_⟩
    cases p <;> cases h <;> rfl
  | constant _ | label _ | typeName _ | unknown _ => cases p <;> cases h

theorem payloads_stays (hd : d.InCapacity r) {params : List Parameter} {arguments : List Argument}
    (h : r.Provides arguments) : Stays r (payloads params arguments) d fun _ => True := by
  induction params generalizing d arguments with
  | nil => exact stays_pure hd trivial
  | cons p params ih =>
    cases arguments with
    | nil => exact stays_pure hd trivial
    | cons a arguments =>
      obtain ⟨hfirst, hrest⟩ := List.forall_mem_cons.mp h
      rw [payloads]
      split
      · exact stays_throw hd
      · rename_i choice payload hpayload
        have htouch : Stays r (touchPayload payload) d fun _ => True := by
          cases payload with
          | register index =>
            obtain ⟨type, writable, rfl⟩ := eq_register_of_payload? hpayload
            exact stays_modify (hd.touch (hfirst index type writable rfl))
          | constant _ | label _ | native _ | raw _ => exact stays_pure hd trivial
        refine htouch.bind fun _ d₁ hd₁ _ => ?_
        exact (ih hd₁ hrest).bind fun _ d₂ hd₂ _ => stays_pure hd₂ trivial

theorem push_stays (hd : d.InCapacity r) (byte : UInt8) :
    Stays r (push byte) d fun _ => True :=
  stays_modify ⟨hd.used, hd.names⟩

theorem write_stays (hd : d.InCapacity r) (codec : Codec) (payload : Payload) :
    Stays r (write codec payload) d fun _ => True := by
  rw [write]
  split
  · exact stays_modify ⟨hd.used, hd.names⟩
  · exact stays_throw hd

theorem writeAll_stays (hd : d.InCapacity r) (layout : List Codec) (operands : List Payload) :
    Stays r (writeAll layout operands) d fun _ => True := by
  induction layout generalizing d operands with
  | nil => exact stays_pure hd trivial
  | cons codec layout ih =>
    cases operands with
    | nil => exact stays_pure hd trivial
    | cons payload operands =>
      exact (write_stays hd codec payload).bind fun _ d₁ hd₁ _ => ih hd₁ operands

theorem emitBuiltin_stays (hd : d.InCapacity r) (base : Nat) (params : List Parameter)
    (version : Nat) (operands : List Payload) :
    Stays r (emitBuiltin base params version operands) d fun _ => True := by
  rw [emitBuiltin]
  split
  · exact stays_throw hd
  · exact (push_stays hd _).bind fun _ d₁ hd₁ _ => writeAll_stays hd₁ _ operands

theorem nativeSlot_stays (hd : d.InCapacity r) (binding : NativeBinding) :
    Stays r (nativeSlot binding) d fun _ => True := by
  have hslot : ∀ slot d', Draft.InCapacity r d' → Stays r (do
      if UInt16.size ≤ slot then
        throw .codeTooLarge
      return UInt16.ofNat slot) d' fun _ => True := by
    intro slot d' hd'
    split
    · exact stays_throw hd'
    · exact stays_pure hd' trivial
  simp only [nativeSlot, stays_get_bind]
  split
  · exact hslot _ d hd
  · exact hslot _ _ ⟨hd.used, hd.names⟩

theorem emitNative_stays (hd : d.InCapacity r) (first version : Nat) (operands : List Payload) :
    Stays r (emitNative r first version operands) d fun _ => True := by
  rw [emitNative]
  split
  · exact stays_throw hd
  · rename_i binding _
    refine (nativeSlot_stays hd binding).bind fun slot d₁ hd₁ _ => ?_
    refine (stays_ofExcept_of_true hd₁).bind
      fun block d₂ hd₂ _ => ?_
    refine (push_stays hd₂ _).bind fun _ d₃ hd₃ _ => ?_
    exact (write_stays hd₃ _ _).bind fun _ d₄ hd₄ _ => write_stays hd₄ _ _

/-- Emitting an operation uses the registers among its arguments. -/
theorem emit_stays (hd : d.InCapacity r) {op : Operation} {arguments : List Argument}
    (h : ∀ o, op.select r arguments = .ok o → r.Provides arguments) :
    Stays r (emit r op arguments) d fun _ => True := by
  rw [emit]
  cases hsel : op.select r arguments with
  | error kind => exact stays_throw hd
  | ok o =>
    refine (bindForward_stays hd (h o hsel)).bind fun bound d₁ hd₁ hb => ?_
    refine (payloads_stays hd₁ hb).bind fun chosen d₂ hd₂ _ => ?_
    cases o.target with
    | builtin base => exact emitBuiltin_stays hd₂ base _ _ _
    | native first => exact emitNative_stays hd₂ first _ _

theorem emitNamed_stays (hd : d.InCapacity r) {name : String} {arguments : List Argument}
    (h : ∀ op o, r.operation? name = some op → op.select r arguments = .ok o →
      r.Provides arguments) :
    Stays r (emitNamed r name arguments) d fun _ => True := by
  rw [emitNamed]
  split
  · rename_i op hop
    exact emit_stays hd fun o hsel => h op o hop hsel
  · exact stays_throw hd

/-! ### Statements -/

theorem emitCondition_stays (hr : r.Sound) (hd : d.InCapacity r) (tokens : List Token)
    (yes no : LabelId) : Stays r (emitCondition r tokens yes no) d fun _ => True := by
  rw [emitCondition]
  refine (stays_ofExcept_of_true hd).bind ?_
  rintro ⟨c, first, second⟩ d₁ hd₁ -
  rw [stays_get_bind]
  refine (stays_ofExcept hd₁ fun a ha => hd₁.resolve hr ha).bind fun a d₂ hd₂ ha => ?_
  refine (stays_ofExcept hd₂ fun b hb => hd₁.resolve hr hb).bind fun b d₃ hd₃ hb => ?_
  exact emitNamed_stays hd₃ fun _ _ _ _ =>
    forall_mem_test (P := Argument.Provided r) c ha hb (.label r _) (.label r _)

theorem ifBlock_stays (hr : r.Sound) (hd : d.InCapacity r) (s : Statement) :
    Stays r (ifBlock r s) d fun _ => True := by
  rw [ifBlock]
  refine (newLabel_stays hd).bind fun thenLabel d₁ hd₁ _ => ?_
  refine (newLabel_stays hd₁).bind fun elseLabel d₂ hd₂ _ => ?_
  refine (newLabel_stays hd₂).bind fun endLabel d₃ hd₃ _ => ?_
  refine (emitCondition_stays hr hd₃ _ _ _).bind fun _ d₄ hd₄ _ => ?_
  refine (placeLabel_stays hd₄ _).bind fun _ d₅ hd₅ _ => ?_
  exact stays_modify ⟨hd₅.used, hd₅.names⟩

theorem beginBranch_stays (hr : r.Sound) (hd : d.InCapacity r) (s : Statement)
    (elseLabel : LabelId) : Stays r (beginBranch r s elseLabel) d fun _ => True := by
  rw [beginBranch]
  split
  · exact stays_pure hd trivial
  · refine (newLabel_stays hd).bind fun thenLabel d₁ hd₁ _ => ?_
    refine (newLabel_stays hd₁).bind fun elseLabel d₂ hd₂ _ => ?_
    refine (emitCondition_stays hr hd₂ _ _ _).bind fun _ d₃ hd₃ _ => ?_
    exact (placeLabel_stays hd₃ _).bind fun _ d₄ hd₄ _ => stays_pure hd₄ trivial

theorem elseBranch_stays (hr : r.Sound) (hd : d.InCapacity r) (s : Statement) :
    Stays r (elseBranch r s) d fun _ => True := by
  simp only [elseBranch, stays_get_bind]
  split
  · exact stays_throw hd
  · split
    · exact stays_throw hd
    · have hgoto : ∀ label, r.Provides [Argument.label label] := fun label a ha => by
        rw [List.mem_singleton.mp ha]
        exact .label r label
      refine (emitNamed_stays hd fun _ _ _ _ => hgoto _).bind fun _ d₁ hd₁ _ => ?_
      refine (placeLabel_stays hd₁ _).bind fun _ d₂ hd₂ _ => ?_
      refine (beginBranch_stays hr hd₂ s _).bind fun answer d₃ hd₃ _ => ?_
      exact stays_modify ⟨hd₃.used, hd₃.names⟩

theorem endBlock_stays (hd : d.InCapacity r) (s : Statement) :
    Stays r (endBlock s) d fun _ => True := by
  simp only [endBlock]
  split
  · exact stays_throw hd
  · simp only [stays_get_bind]
    split
    · exact stays_throw hd
    · rename_i block outer _
      have hclosed : Draft.InCapacity r { d with blocks := outer } := ⟨hd.used, hd.names⟩
      refine (stays_modify hclosed).bind fun _ d₁ hd₁ _ => ?_
      simp only [stays_get_bind]
      split
      · exact (placeLabel_stays hd₁ _).bind fun _ d₂ hd₂ _ => placeLabel_stays hd₂ _
      · exact placeLabel_stays hd₁ _

theorem declaration_stays (hr : r.Sound) (hd : d.InCapacity r) (s : Statement) :
    Stays r (declaration r s) d fun _ => True := by
  simp only [declaration, stays_get_bind]
  refine (stays_ofExcept_of_true hd).bind ?_
  rintro ⟨type, rest⟩ d₁ hd₁ -
  refine (stays_ofExcept_of_true hd₁).bind ?_
  rintro ⟨name, rest⟩ d₂ hd₂ -
  refine (stays_ofExcept_of_true hd₂).bind
    fun token d₃ hd₃ _ => ?_
  refine (stays_ofExcept hd₃ ?_).bind
    fun value d₄ hd₄ (hvalue : ∀ a, value = some a → a.Provided r) => ?_
  · rintro value hinitial a rfl
    exact hd.initialValue hr hinitial
  refine (declareVariable_stays hd₄ name type).bind fun index d₅ hd₅ hindex => ?_
  cases value with
  | none => exact stays_pure hd₅ trivial
  | some value =>
    refine emitNamed_stays hd₅ fun _ _ _ _ a ha => ?_
    rcases List.mem_pair.mp ha with rfl | rfl
    · rintro index' type' writable ⟨⟩
      exact hindex
    · exact hvalue a rfl

/-- A keyword of the host stays within the registers of the registry if its requests do. -/
theorem expand_stays (hd : d.InCapacity r) {e : Expansion}
    (he : e.Keeps r (.emitting r.Provides) d) : Stays r (expand r e) d fun _ => True := by
  induction e generalizing d with
  | done => exact stays_pure hd trivial
  | reject kind => exact stays_throw hd
  | lookup name next ih => exact ih _ hd (he.answered .lookup)
  | resolve token next ih => exact ih _ hd (he.answered .resolve)
  | isPlaced label next ih => exact ih _ hd (he.answered .isPlaced)
  | inBlock next ih => exact ih _ hd (he.answered .inBlock)
  | emit operation arguments next ih =>
    have hemit := emitNamed_stays hd fun op o hop hsel => (he.covered op o hop hsel).2
    exact hemit.attempt_bind fun answer d' ha hd' => ih answer hd' (he.answered (.emit ha))
  | newLabel next ih =>
    exact (newLabel_stays hd).attempt_bind fun answer d' ha hd' =>
      ih answer hd' (he.answered (.newLabel ha))
  | placeLabel label next ih =>
    exact (placeLabel_stays hd label).attempt_bind fun answer d' ha hd' =>
      ih answer hd' (he.answered (.placeLabel ha))
  | declareVariable name type next ih =>
    exact (declareVariable_stays hd name type).attempt_bind fun answer d' ha hd' =>
      ih answer hd' (he.answered (.declareVariable ha))

theorem statementOf_stays (hr : r.Sound) (hk : r.KeywordsProvided) (hd : d.InCapacity r)
    {name : String} {op : Operation} (hop : r.operation? name = some op) (s : Statement) :
    Stays r (statementOf r op s) d fun _ => True := by
  rw [statementOf]
  cases hform : op.form with
  | call =>
    simp only [stays_get_bind]
    refine (stays_ofExcept hd fun arguments ha => hd.resolveAll hr ha).bind
      fun arguments d₁ hd₁ ha => ?_
    exact emit_stays hd₁ fun _ _ => ha
  | ifBlock => exact ifBlock_stays hr hd s
  | elseBranch => exact elseBranch_stays hr hd s
  | endBlock => exact endBlock_stays hd s
  | declaration => exact declaration_stays hr hd s
  | custom form => exact expand_stays hd (hk name op form s d hop hform hd)

theorem performance_stays (hr : r.Sound) (hk : r.KeywordsProvided) (hd : d.InCapacity r)
    (s : Statement) : Stays r (performance r s) d fun _ => True := by
  rw [performance]
  split
  · rename_i op hop
    exact statementOf_stays hr hk hd hop s
  · rw [stays_get_bind]
    split
    · rename_i op object hm
      obtain ⟨-, meaning, owner, hlookup, rfl⟩ := memberOperation?_eq_some hm
      have hobject : (Argument.ofMeaning meaning).Provided r := by
        rintro index type writable hregister
        cases meaning <;> cases hregister
        exact hd.lookup_lt hr hlookup
      rw [stays_get_bind]
      refine (stays_ofExcept hd fun arguments ha => hd.resolveAll hr ha).bind
        fun arguments d₁ hd₁ ha => ?_
      exact emit_stays hd₁ fun _ _ => List.forall_mem_cons.mpr ⟨hobject, ha⟩
    · exact stays_throw hd

/-- No statement leaves the registers of the registry. -/
theorem statement_stays (hr : r.Sound) (hk : r.KeywordsProvided) (hd : d.InCapacity r)
    (s : Statement) : Stays r (statement r s) d fun _ => True := by
  rw [statement_eq]
  refine (stays_modify (r := r) ⟨hd.used, hd.names⟩).bind fun _ d₁ hd₁ _ => ?_
  have hlabel : Stays r (statementLabel r s) d₁ fun _ => True := by
    rw [statementLabel]
    split
    · exact defineLabel_stays hd₁ _
    · exact stays_pure hd₁ trivial
  exact hlabel.bind fun _ d₂ hd₂ _ => performance_stays hr hk hd₂ s

end Drafting

namespace Draft

variable {r : Registry} {d : Draft} {source : String} {p : Program}

theorem inCapacity_of_start (hr : r.Sound) {arguments : List HookArgument}
    (h : start r arguments = .ok d) : d.InCapacity r := by
  refine ⟨?_, (orderly_of_start h).registers⟩
  obtain ⟨hlen, -⟩ := length_of_start h
  rw [(counts_of_start h).1]
  exact Nat.max_le.mpr ⟨(RegistryConfig.of_fault?_eq_none hr.config).2.1, hlen⟩

theorem inCapacity_of_compileAll (hr : r.Sound) (hk : r.KeywordsProvided) (hd : d.InCapacity r)
    {statements : List (Except SyntaxError Statement)} {d' : Draft}
    (h : d.compileAll r source statements = .ok d') : d'.InCapacity r := by
  induction statements generalizing d with
  | nil =>
    cases h
    exact hd
  | cons first rest ih =>
    obtain ⟨s, d₁, rfl, hstep, h⟩ := exists_of_compileAll_cons h
    exact ih ((Drafting.statement_stays hr hk hd s).of_ok hstep).1 h

/-- The number of registers of a program is that of its draft, which fits a byte. -/
theorem registers_of_toProgram (hr : r.Sound) (hd : d.InCapacity r) (h : d.toProgram = .ok p) :
    p.registers.toNat ≤ r.config.registers := by
  rw [registers_eq_of_toProgram h, hr.toNat_ofNat hd.used]
  exact hd.used

theorem registers_of_finish (hr : r.Sound) (hd : d.InCapacity r)
    (h : d.finish r source = .ok p) : p.registers.toNat ≤ r.config.registers := by
  have hexit : Drafting.Stays r (Drafting.emitNamed r Builtin.exit.name []) d fun _ => True :=
    Drafting.emitNamed_stays hd fun _ _ _ _ => by simp [Registry.Provides]
  rw [finish] at h
  split at h
  · cases h
  · split at h
    · cases h
    · rename_i closed hx
      split at h
      · cases h
      · rename_i hp
        cases h
        exact registers_of_toProgram hr (hexit.of_ok hx).1 hp

end Draft

/-- A program uses no more registers than its registry provides. -/
theorem registers_le_of_compile {r : Registry} (hr : r.Sound) (hk : r.KeywordsProvided)
    {hook : Option HookSignature} {source : String} {p : Program}
    (h : compile r hook source = .ok p) : p.registers.toNat ≤ r.config.registers := by
  obtain ⟨first, d, hfirst, hall, hfinish, -⟩ := exists_drafts_of_compile h
  exact Draft.registers_of_finish hr
    (Draft.inCapacity_of_compileAll hr hk (Draft.inCapacity_of_start hr hfirst) hall) hfinish

end HookScript
