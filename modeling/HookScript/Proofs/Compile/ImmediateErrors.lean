/-
Errors of single statements.

Some errors are found at the end of a script only: that a block is never closed, or that a label is
never declared.  No step that a statement takes ends in one of them, so a script with such an error
has been read to its end, and all of its statements have been compiled.

* `CompileError.Kind.IsClosing` — the errors that are found at the end;
* `Drafting.Immediate` — the errors of a step are found at once, as those of steps in a row are if
  each of them is such a step (`Drafting.Immediate.bind`);
* `Drafting.immediate_statement` — the errors of a statement are found at once.
-/
import HookScript.Proofs.Compile.Conduct

namespace HookScript

/-- The error is found at the end of a script. -/
@[simp] def CompileError.Kind.IsClosing : CompileError.Kind → Prop
  | .unterminatedBlock | .labelNotDeclared _ => True
  | _ => False

namespace Drafting

open CompileError.Kind

variable {α β : Type} {r : Registry}

/-- The errors of the step are found at once, and not at the end of a script. -/
def Immediate (x : Drafting α) : Prop :=
  ∀ d kind d', x d = .error kind d' → ¬ kind.IsClosing

/-! ### Steps in a row -/

theorem immediate_pure (a : α) : Immediate (pure a) := by
  intro d kind d' h
  cases h

theorem immediate_throw {kind : CompileError.Kind} (h : ¬ kind.IsClosing) :
    Immediate (throw kind : Drafting α) := by
  rintro d _ _ ⟨⟩
  exact h

theorem immediate_get : Immediate get := by
  intro d kind d' h
  cases h

theorem immediate_modify (g : Draft → Draft) : Immediate (modify g : Drafting PUnit) := by
  intro d kind d' h
  cases h

theorem immediate_modifyGet (g : Draft → α × Draft) : Immediate (modifyGet g : Drafting α) := by
  intro d kind d' h
  cases h

theorem Immediate.bind {x : Drafting α} {f : α → Drafting β} (hx : Immediate x)
    (hf : ∀ a, Immediate (f a)) : Immediate (x >>= f) := by
  intro d kind d' h
  cases hxd : x d with
  | ok a d₁ =>
    rw [bind_of_ok hxd] at h
    exact hf a d₁ kind d' h
  | error kind' d₁ =>
    rw [bind_of_error hxd] at h
    cases h
    exact hx d kind d' hxd

/-- A step that is refused in some case. -/
theorem Immediate.unless {c : Prop} [Decidable c] {kind : CompileError.Kind}
    {x : PUnit → Drafting α} (hx : Immediate (x ⟨⟩)) (h : ¬ kind.IsClosing) :
    Immediate (if c then throw kind >>= x else x ⟨⟩) := by
  split
  · rintro d _ _ ⟨⟩
    exact h
  · exact hx

theorem immediate_ofExcept {answer : Except CompileError.Kind α}
    (h : ∀ kind, answer = .error kind → ¬ kind.IsClosing) : Immediate (ofExcept answer) := by
  cases answer with
  | ok a => exact immediate_pure a
  | error kind => exact immediate_throw (h kind rfl)

/-- Answers in a row are steps in a row. -/
theorem ofExcept_bind (answer : Except CompileError.Kind α)
    (f : α → Except CompileError.Kind β) :
    ofExcept (answer >>= f) = ofExcept answer >>= fun a => ofExcept (f a) := by
  cases answer <;> rfl

/-! ### Labels -/

theorem immediate_newLabel : Immediate newLabel :=
  immediate_get.bind fun _ => (immediate_modifyGet _).unless (by simp)

theorem immediate_placeLabel (label : LabelId) : Immediate (placeLabel label) := by
  refine immediate_get.bind fun d => ?_
  split
  · exact immediate_throw (by simp)
  · exact immediate_modify _

theorem immediate_nameLabel (name : String) : Immediate (nameLabel name) := by
  refine immediate_newLabel.bind fun label => immediate_get.bind fun d => ?_
  split
  · exact immediate_throw (by simp)
  · exact (immediate_modify _).bind fun _ => immediate_pure _

theorem immediate_defineLabel (name : String) : Immediate (defineLabel r name) := by
  have place : ∀ label, Immediate (do
      if (← get).buffer.isDefined label then
        throw (.labelRedefined name)
      placeLabel label) :=
    fun label => immediate_get.bind fun _ => (immediate_placeLabel label).unless (by simp)
  refine immediate_get.bind fun d => ?_
  split
  · exact place _
  · exact (immediate_throw (by simp)).bind place
  · exact (immediate_nameLabel name).bind place

theorem immediate_statementLabel (s : Statement) : Immediate (statementLabel r s) := by
  rw [statementLabel]
  split
  · exact immediate_defineLabel _
  · exact immediate_pure _

theorem immediate_forwardLabel (name : String) : Immediate (forwardLabel name) :=
  (immediate_nameLabel name).bind fun _ => (immediate_modify _).bind fun _ => immediate_pure _

theorem immediate_bindForward (arguments : List Argument) : Immediate (bindForward arguments) := by
  induction arguments with
  | nil => exact immediate_pure _
  | cons a arguments ih =>
    cases a with
    | unknown name =>
      exact (immediate_forwardLabel name).bind fun _ => ih.bind fun _ => immediate_pure _
    | constant _ | register _ _ _ | label _ | typeName _ =>
      exact ih.bind fun _ => immediate_pure _

/-! ### Operations -/

theorem immediate_payloads (params : List Parameter) (arguments : List Argument) :
    Immediate (payloads params arguments) := by
  induction params generalizing arguments with
  | nil => exact immediate_pure _
  | cons p params ih =>
    cases arguments with
    | nil => exact immediate_pure _
    | cons a arguments =>
      rw [payloads]
      split
      · exact immediate_throw (by simp)
      · rename_i payload _
        refine Immediate.bind ?_ fun _ => (ih arguments).bind fun _ => immediate_pure _
        cases payload with
        | register index => exact immediate_modify _
        | constant _ | label _ | native _ | raw _ => exact immediate_pure _

theorem immediate_write (codec : Codec) (payload : Payload) : Immediate (write codec payload) := by
  rw [write]
  split
  · exact immediate_modify _
  · exact immediate_throw (by simp)

theorem immediate_writeAll (layout : List Codec) (operands : List Payload) :
    Immediate (writeAll layout operands) := by
  induction layout generalizing operands with
  | nil => exact immediate_pure _
  | cons codec layout ih =>
    cases operands with
    | nil => exact immediate_pure _
    | cons payload operands => exact (immediate_write _ _).bind fun _ => ih operands

theorem immediate_emitBuiltin (base : Nat) (params : List Parameter) (version : Nat)
    (operands : List Payload) : Immediate (emitBuiltin base params version operands) := by
  rw [emitBuiltin]
  refine Immediate.unless ?_ (by simp)
  exact (immediate_modify _).bind fun _ => immediate_writeAll _ _

theorem immediate_nativeSlot (binding : NativeBinding) : Immediate (nativeSlot binding) := by
  have number : ∀ slot : Nat, Immediate (do
      if UInt16.size ≤ slot then
        throw .codeTooLarge
      return UInt16.ofNat slot : Drafting UInt16) := by
    intro slot
    refine Immediate.unless ?_ (by simp)
    exact immediate_pure _
  refine immediate_get.bind fun d => ?_
  simp only
  split
  · exact number _
  · exact (immediate_modify _).bind fun _ => number _

theorem immediate_operandBlock (layout : List Codec) (operands : List Payload) :
    Immediate (ofExcept (operandBlock layout operands)) := by
  refine immediate_ofExcept fun kind h => ?_
  rw [operandBlock] at h
  split at h
  · cases h
    simp
  · split at h <;> cases h
    simp

theorem immediate_emitNative (first version : Nat) (operands : List Payload) :
    Immediate (emitNative r first version operands) := by
  rw [emitNative]
  split
  · exact immediate_throw (by simp)
  · refine (immediate_nativeSlot _).bind fun slot => ?_
    refine (immediate_operandBlock _ _).bind fun block => ?_
    exact (immediate_modify _).bind fun _ => (immediate_write _ _).bind fun _ => immediate_write _ _

theorem immediate_select (op : Operation) (arguments : List Argument) :
    Immediate (ofExcept (op.select r arguments)) := by
  refine immediate_ofExcept fun kind h => ?_
  rw [Operation.select] at h
  split at h
  · split at h <;> cases h
    simp
  · split at h <;> cases h <;> simp

theorem immediate_emit (op : Operation) (arguments : List Argument) :
    Immediate (emit r op arguments) := by
  refine (immediate_select op arguments).bind fun o => ?_
  refine (immediate_bindForward _).bind fun bound => ?_
  refine (immediate_payloads _ _).bind fun chosen => ?_
  dsimp only
  split
  · exact immediate_emitBuiltin _ _ _ _
  · exact immediate_emitNative _ _ _

theorem immediate_emitNamed (name : String) (arguments : List Argument) :
    Immediate (emitNamed r name arguments) := by
  rw [emitNamed]
  split
  · exact immediate_emit _ _
  · exact immediate_throw (by simp)

theorem immediate_resolve (d : Draft) (t : Token) : Immediate (ofExcept (d.resolve r t)) := by
  refine immediate_ofExcept fun kind h => ?_
  rw [Draft.resolve] at h
  split at h
  · split at h <;> cases h
    simp
  · split at h <;> cases h
  · cases h
    simp

theorem immediate_resolveAll (d : Draft) (tokens : List Token) :
    Immediate (ofExcept (d.resolveAll r tokens)) := by
  rw [Draft.resolveAll]
  induction tokens with
  | nil => exact immediate_pure _
  | cons t tokens ih =>
    rw [List.mapM_cons, ofExcept_bind]
    refine (immediate_resolve d t).bind fun a => ?_
    rw [ofExcept_bind]
    exact ih.bind fun _ => immediate_pure _

/-! ### Blocks -/

theorem immediate_emitCondition (tokens : List Token) (yes no : LabelId) :
    Immediate (emitCondition r tokens yes no) := by
  refine Immediate.bind (immediate_ofExcept fun kind h => ?_)
    fun _ => immediate_get.bind fun d => ?_
  · unfold splitCondition at h
    split at h
    · split at h <;> cases h
      simp
    · cases h
      simp
  · refine (immediate_resolve d _).bind fun a => (immediate_resolve d _).bind fun b => ?_
    exact immediate_emitNamed _ _

theorem immediate_ifBlock (s : Statement) : Immediate (ifBlock r s) := by
  refine immediate_newLabel.bind fun _ => immediate_newLabel.bind fun _ => immediate_newLabel.bind
    fun _ => (immediate_emitCondition _ _ _).bind fun _ => (immediate_placeLabel _).bind fun _ => ?_
  exact immediate_modify _

theorem immediate_beginBranch (s : Statement) (elseLabel : LabelId) :
    Immediate (beginBranch r s elseLabel) := by
  rw [beginBranch]
  split
  · exact immediate_pure _
  · refine immediate_newLabel.bind fun _ => immediate_newLabel.bind fun _ =>
      (immediate_emitCondition _ _ _).bind fun _ => (immediate_placeLabel _).bind fun _ => ?_
    exact immediate_pure _

theorem immediate_elseBranch (s : Statement) : Immediate (elseBranch r s) := by
  refine immediate_get.bind fun d => ?_
  split
  · exact immediate_throw (by simp)
  · refine Immediate.unless ?_ (by simp)
    exact (immediate_emitNamed _ _).bind fun _ => (immediate_placeLabel _).bind fun _ =>
      (immediate_beginBranch _ _).bind fun _ => immediate_modify _

theorem immediate_endBlock (s : Statement) : Immediate (endBlock s) := by
  rw [endBlock]
  refine Immediate.unless (immediate_get.bind fun d => ?_) (by simp)
  split
  · exact immediate_throw (by simp)
  · refine (immediate_modify _).bind fun _ => immediate_get.bind fun d => ?_
    split
    · exact (immediate_placeLabel _).bind fun _ => immediate_placeLabel _
    · exact immediate_placeLabel _

/-! ### Declarations -/

theorem immediate_variableType (base : ValueType) (handle : Option (TypeTag → ValueType)) :
    Immediate (ofExcept (variableType base handle)) := by
  unfold variableType
  split
  · exact immediate_pure _
  · exact immediate_throw (by simp)
  · exact immediate_throw (by simp)
  · exact immediate_pure _

theorem immediate_namedType (d : Draft) (type : Token) (rest : List Token)
    (handle : Option (TypeTag → ValueType)) :
    Immediate (ofExcept (match d.lookup r type.text with
      | some (.typeName base) => do return (← variableType base handle, rest)
      | _ => .error (.invalidVariable (.unknownType type.text)))) := by
  split
  · rw [ofExcept_bind]
    exact (immediate_variableType _ _).bind fun _ => immediate_pure _
  · exact immediate_throw (by simp)

theorem immediate_declaredType (d : Draft) (tokens : List Token) :
    Immediate (ofExcept (d.declaredType r tokens)) := by
  unfold Draft.declaredType
  split
  · exact immediate_throw (by simp)
  · simp only
    split
    · exact immediate_namedType d _ _ _
    · exact immediate_namedType d _ _ _
    · exact immediate_throw (by simp)

theorem immediate_declaredName (d : Draft) (tokens : List Token) :
    Immediate (ofExcept (d.declaredName tokens)) := by
  unfold Draft.declaredName
  split
  · exact immediate_throw (by simp)
  · split
    · exact immediate_throw (by simp)
    · split
      · exact immediate_throw (by simp)
      · exact immediate_pure _

theorem immediate_initialToken (tokens : List Token) :
    Immediate (ofExcept (Draft.initialToken tokens)) := by
  unfold Draft.initialToken
  split
  · exact immediate_pure _
  · split
    split
    · exact immediate_throw (by simp)
    · exact immediate_throw (by simp)
    · exact immediate_pure _

theorem immediate_initialValue (d : Draft) (type : ValueType) (token : Option Token) :
    Immediate (ofExcept (d.initialValue r type token)) := by
  unfold Draft.initialValue
  split
  · exact immediate_pure _
  · rename_i token
    split
    · have hmap : (d.resolve r token).map some = d.resolve r token >>= fun a => .ok (some a) := by
        cases d.resolve r token <;> rfl
      rw [hmap, ofExcept_bind]
      exact (immediate_resolve d token).bind fun _ => immediate_pure _
    · exact immediate_throw (by simp)

theorem immediate_declareVariable (name : String) (type : ValueType) :
    Immediate (declareVariable r name type) := by
  refine immediate_get.bind fun d => Immediate.unless ?_ (by simp)
  refine Immediate.unless ?_ (by simp)
  dsimp only
  split
  · exact immediate_throw (by simp)
  · exact (immediate_modify _).bind fun _ => (immediate_modify _).bind fun _ => immediate_pure _

theorem immediate_declaration (s : Statement) : Immediate (declaration r s) := by
  refine immediate_get.bind fun d => (immediate_declaredType d _).bind fun (type, rest) => ?_
  refine (immediate_declaredName d rest).bind fun (name, rest) => ?_
  refine (immediate_initialToken rest).bind fun token => ?_
  refine (immediate_initialValue d type token).bind fun value => ?_
  refine (immediate_declareVariable name type).bind fun index => ?_
  cases value with
  | none => exact immediate_pure _
  | some value => exact immediate_emitNamed _ _

/-! ### Statements -/

/-- The errors of a statement are found at once, if the host has added no keyword of that name. -/
theorem immediate_statement {s : Statement} (own : r.Reads s) : Immediate (statement r s) := by
  rw [statement_eq]
  refine (immediate_modify _).bind fun _ => (immediate_statementLabel s).bind fun _ => ?_
  rw [performance]
  split
  · rename_i op hop
    rw [statementOf]
    split
    · exact immediate_get.bind fun d => (immediate_resolveAll d _).bind fun _ => immediate_emit _ _
    · exact immediate_ifBlock s
    · exact immediate_elseBranch s
    · exact immediate_endBlock s
    · exact immediate_declaration s
    · rename_i form hform
      exact absurd hform (own op hop form)
  · refine immediate_get.bind fun d => ?_
    split
    · exact immediate_get.bind fun d => (immediate_resolveAll d _).bind fun _ => immediate_emit _ _
    · exact immediate_throw (by simp)

end Drafting

end HookScript
