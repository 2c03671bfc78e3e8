/-
Two compilations side by side.

Two drafts may differ in what the compiler does not look at, or in what things are called.  The same
steps then do the same to both.

* `Together` — two steps, each from a state of its own, end in the same way;
* `Lockstep` — a relation of drafts that the steps of the compiler keep;
* `Lockstep.nameLabel`, `Lockstep.defineLabel` and `Lockstep.emitBound` — the steps for labels and
  for code.
-/
import HookScript.Compile.Script
import HookScript.Proofs.Registry.History

namespace HookScript

/-! ### Two steps -/

section

variable {ε σ α α' β β' : Type} {Q : σ → σ → Prop} {E : ε → ε → Prop} {R : α → α' → Prop}
  {S : β → β' → Prop} {x : EStateM ε σ α} {x' : EStateM ε σ α'} {f : α → EStateM ε σ β}
  {f' : α' → EStateM ε σ β'} {s s' : σ}

/-- The two steps, each from a state of its own, both answer or both fail, and what they end with is
related. -/
def Together (Q : σ → σ → Prop) (E : ε → ε → Prop) (R : α → α' → Prop) (x : EStateM ε σ α) (s : σ)
    (x' : EStateM ε σ α') (s' : σ) : Prop :=
  match x s, x' s' with
  | .ok a t, .ok a' t' => Q t t' ∧ R a a'
  | .error e t, .error e' t' => Q t t' ∧ E e e'
  | _, _ => False

theorem Together.cases (h : Together Q E R x s x' s') :
    (∃ a t a' t', x s = .ok a t ∧ x' s' = .ok a' t' ∧ Q t t' ∧ R a a') ∨
      ∃ e t e' t', x s = .error e t ∧ x' s' = .error e' t' ∧ Q t t' ∧ E e e' := by
  unfold Together at h
  split at h
  · exact .inl ⟨_, _, _, _, ‹_›, ‹_›, h⟩
  · exact .inr ⟨_, _, _, _, ‹_›, ‹_›, h⟩
  · exact h.elim

theorem Together.bind (h : Together Q E R x s x' s')
    (hf : ∀ a a' t t', Q t t' → R a a' → Together Q E S (f a) t (f' a') t') :
    Together Q E S (x >>= f) s (x' >>= f') s' := by
  obtain ⟨a, t, a', t', hx, hx', hq, hr⟩ | ⟨e, t, e', t', hx, hx', hq, he⟩ := h.cases
  · rw [Together, bind_of_ok hx, bind_of_ok hx']
    exact hf a a' t t' hq hr
  · rw [Together, bind_of_error hx, bind_of_error hx']
    exact ⟨hq, he⟩

theorem together_pure {a : α} {a' : α'} (h : Q s s') (hr : R a a') :
    Together Q E R (pure a) s (pure a') s' :=
  ⟨h, hr⟩

theorem together_throw {e e' : ε} (h : Q s s') (he : E e e') :
    Together Q E R (throw e) s (throw e') s' :=
  ⟨h, he⟩

theorem together_modify {g g' : σ → σ} (h : Q (g s) (g' s')) :
    Together Q E Eq (modify g : EStateM ε σ PUnit) s (modify g' : EStateM ε σ PUnit) s' :=
  ⟨h, rfl⟩

theorem together_get_bind {f : σ → EStateM ε σ β} {f' : σ → EStateM ε σ β'} :
    Together Q E S (get >>= f) s (get >>= f') s' ↔ Together Q E S (f s) s (f' s') s' :=
  Iff.rfl

end

/-- The two answers are related, or both are errors and these are. -/
inductive BothAnswer {ε α α' : Type} (E : ε → ε → Prop) (R : α → α' → Prop) :
    Except ε α → Except ε α' → Prop where
  | ok {a : α} {a' : α'} (h : R a a') : BothAnswer E R (.ok a) (.ok a')
  | error {e e' : ε} (h : E e e') : BothAnswer E R (.error e) (.error e')

theorem BothAnswer.bind {ε α α' β β' : Type} {E : ε → ε → Prop} {R : α → α' → Prop}
    {S : β → β' → Prop} {x : Except ε α} {x' : Except ε α'} {f : α → Except ε β}
    {f' : α' → Except ε β'} (h : BothAnswer E R x x')
    (hf : ∀ a a', R a a' → BothAnswer E S (f a) (f' a')) :
    BothAnswer E S (x >>= f) (x' >>= f') := by
  cases h with
  | ok h => exact hf _ _ h
  | error h => exact .error h

/-- A token as it is written, wherever it stands. -/
def Token.written (t : Token) : Token.Kind × String :=
  (t.kind, t.text)

theorem Token.number?_of_written {t t' : Token} (h : t'.written = t.written) :
    t'.number? = t.number? := by
  obtain ⟨hkind, htext⟩ := Prod.mk.inj h
  rw [Token.number?, Token.number?, hkind, htext]

namespace Drafting

open CompileError

/-- The compiler keeps the relation `Q` of drafts if names in `N` are called something else in the
second draft: what they stand for is the same, and so is the code.  Errors are related by `E`. -/
structure Lockstep (Q : Draft → Draft → Prop) (E : Kind → Kind → Prop) (ρ : String → String)
    (N : String → Prop) : Prop where
  buffer {d d' : Draft} (h : Q d d') : d'.buffer = d.buffer
  natives {d d' : Draft} (h : Q d d') : d'.natives = d.natives
  find {d d' : Draft} (h : Q d d') {name : String} (hn : N name) :
    d'.locals.find? (ρ name) = d.locals.find? name
  setBuffer {d d' : Draft} (h : Q d d') (buffer : CodeBuffer) :
    Q { d with buffer } { d' with buffer }
  setNatives {d d' : Draft} (h : Q d d') (natives : Array NativeBinding) :
    Q { d with natives } { d' with natives }
  touch {d d' : Draft} (h : Q d d') (index : UInt8) : Q (d.touch index) (d'.touch index)
  insert {d d' : Draft} (h : Q d d') {name : String} (hn : N name) (meaning : Meaning) :
    Q { d with locals := ⟨d.locals.entries.insert name meaning⟩ }
      { d' with locals := ⟨d'.locals.entries.insert (ρ name) meaning⟩ }
  refl (kind : Kind) : E kind kind
  redefined {name : String} (hn : N name) : E (.labelRedefined name) (.labelRedefined (ρ name))

theorem together_ofExcept {Q : Draft → Draft → Prop} {E : Kind → Kind → Prop} {α α' : Type}
    {R : α → α' → Prop} {answer : Except Kind α} {answer' : Except Kind α'} {d d' : Draft}
    (hq : Q d d') (h : BothAnswer E R answer answer') :
    Together Q E R (ofExcept answer) d (ofExcept answer') d' := by
  cases h with
  | ok h => exact together_pure hq h
  | error h => exact together_throw hq h

namespace Lockstep

variable {Q : Draft → Draft → Prop} {E : Kind → Kind → Prop} {ρ : String → String}
  {N : String → Prop} {d d' : Draft}

/-! ### Labels -/

theorem newLabel (L : Lockstep Q E ρ N) (h : Q d d') :
    Together Q E Eq Drafting.newLabel d Drafting.newLabel d' := by
  rw [Drafting.newLabel, together_get_bind, L.buffer h]
  split
  · exact together_throw h (L.refl _)
  · refine ⟨?_, by rw [L.buffer h]⟩
    rw [L.buffer h]
    exact L.setBuffer h _

theorem placeLabel (L : Lockstep Q E ρ N) (h : Q d d') (label : LabelId) :
    Together Q E Eq (Drafting.placeLabel label) d (Drafting.placeLabel label) d' := by
  rw [Drafting.placeLabel, together_get_bind, L.buffer h]
  split
  · exact together_throw h (L.refl _)
  · refine together_modify ?_
    rw [L.buffer h]
    exact L.setBuffer h _

theorem nameLabel (L : Lockstep Q E ρ N) (h : Q d d') {name : String} (hn : N name) :
    Together Q E Eq (Drafting.nameLabel name) d (Drafting.nameLabel (ρ name)) d' := by
  refine (L.newLabel h).bind ?_
  rintro label _ d d' h rfl
  simp only [together_get_bind, SymbolTable.insert, L.find h hn]
  cases hfind : d.locals.find? name with
  | some _ => exact together_throw h (L.redefined hn)
  | none => exact ⟨L.insert h hn _, rfl⟩

/-- A label is declared in both drafts, if its names stand for the same. -/
theorem defineLabel (L : Lockstep Q E ρ N) (h : Q d d') {r : Registry} {name : String}
    (hn : N name) (hl : d'.lookup r (ρ name) = d.lookup r name) :
    Together Q E Eq (Drafting.defineLabel r name) d (Drafting.defineLabel r (ρ name)) d' := by
  have hplace : ∀ {d d' : Draft} (label : LabelId), Q d d' →
      Together Q E Eq
        (do
          if (← get).buffer.isDefined label then throw (Kind.labelRedefined name)
          Drafting.placeLabel label) d
        (do
          if (← get).buffer.isDefined label then throw (Kind.labelRedefined (ρ name))
          Drafting.placeLabel label) d' := by
    intro d d' label h
    rw [together_get_bind, L.buffer h]
    split
    · exact together_throw h (L.redefined hn)
    · exact L.placeLabel h label
  simp only [Drafting.defineLabel, together_get_bind, hl]
  split
  · exact hplace _ h
  · exact together_throw h (L.redefined hn)
  · refine (L.nameLabel h hn).bind ?_
    rintro label _ d d' h rfl
    exact hplace label h

/-- The labels of two statements are declared, if they have any. -/
theorem statementLabel (L : Lockstep Q E ρ N) (h : Q d d') {r : Registry} {s s' : Statement}
    (hs : s'.label.map (·.text) = s.label.map fun t => ρ t.text)
    (hl : ∀ label, s.label = some label →
      N label.text ∧ d'.lookup r (ρ label.text) = d.lookup r label.text) :
    Together Q E Eq (Drafting.statementLabel r s) d (Drafting.statementLabel r s') d' := by
  rw [Drafting.statementLabel, Drafting.statementLabel]
  cases hlabel : s.label with
  | none =>
    rw [hlabel] at hs
    rw [Option.map_eq_none_iff.mp hs]
    exact together_pure h rfl
  | some label =>
    rw [hlabel] at hs
    obtain ⟨label', hlabel', htext⟩ := Option.map_eq_some_iff.mp hs
    obtain ⟨hn, hlookup⟩ := hl label hlabel
    rw [hlabel']
    dsimp only
    rw [htext]
    exact L.defineLabel h hn hlookup

/-! ### Code -/

theorem touchPayload (L : Lockstep Q E ρ N) (h : Q d d') (payload : Payload) :
    Together Q E Eq (Drafting.touchPayload payload) d (Drafting.touchPayload payload) d' := by
  cases payload with
  | register index => exact together_modify (L.touch h index)
  | constant _ | label _ | native _ | raw _ => exact together_pure h rfl

theorem payloads (L : Lockstep Q E ρ N) (h : Q d d') (params : List Parameter)
    (arguments : List Argument) :
    Together Q E Eq (Drafting.payloads params arguments) d
      (Drafting.payloads params arguments) d' := by
  induction params generalizing arguments d d' with
  | nil => exact together_pure h rfl
  | cons p params ih =>
    cases arguments with
    | nil => exact together_pure h rfl
    | cons a arguments =>
      rw [Drafting.payloads]
      split
      · exact together_throw h (L.refl _)
      · refine (L.touchPayload h _).bind ?_
        rintro - - d d' h -
        refine (ih h arguments).bind ?_
        rintro rest _ d d' h rfl
        exact together_pure h rfl

theorem push (L : Lockstep Q E ρ N) (h : Q d d') (byte : UInt8) :
    Together Q E Eq (Drafting.push byte) d (Drafting.push byte) d' := by
  refine together_modify ?_
  rw [L.buffer h]
  exact L.setBuffer h _

theorem write (L : Lockstep Q E ρ N) (h : Q d d') (codec : Codec) (payload : Payload) :
    Together Q E Eq (Drafting.write codec payload) d (Drafting.write codec payload) d' := by
  rw [Drafting.write]
  split
  · refine together_modify ?_
    rw [L.buffer h]
    exact L.setBuffer h _
  · exact together_throw h (L.refl _)

theorem writeAll (L : Lockstep Q E ρ N) (h : Q d d') (layout : List Codec)
    (payloads : List Payload) :
    Together Q E Eq (Drafting.writeAll layout payloads) d
      (Drafting.writeAll layout payloads) d' := by
  induction layout generalizing payloads d d' with
  | nil => exact together_pure h rfl
  | cons codec layout ih =>
    cases payloads with
    | nil => exact together_pure h rfl
    | cons payload payloads =>
      refine (L.write h codec payload).bind ?_
      rintro - - d d' h -
      exact ih h payloads

theorem emitBuiltin (L : Lockstep Q E ρ N) (h : Q d d') (base : Nat) (params : List Parameter)
    (version : Nat) (operands : List Payload) :
    Together Q E Eq (Drafting.emitBuiltin base params version operands) d
      (Drafting.emitBuiltin base params version operands) d' := by
  rw [Drafting.emitBuiltin]
  split
  · exact together_throw h (L.refl _)
  · refine (L.push h _).bind ?_
    rintro - - d d' h -
    exact L.writeAll h _ operands

theorem nativeSlot (L : Lockstep Q E ρ N) (h : Q d d') (binding : NativeBinding) :
    Together Q E Eq (Drafting.nativeSlot binding) d (Drafting.nativeSlot binding) d' := by
  have hfits : ∀ {d d' : Draft} (slot : Nat), Q d d' → Together Q E Eq
      (do
        if UInt16.size ≤ slot then throw Kind.codeTooLarge
        return UInt16.ofNat slot) d
      (do
        if UInt16.size ≤ slot then throw Kind.codeTooLarge
        return UInt16.ofNat slot) d' := by
    intro d d' slot h
    split
    · exact together_throw h (L.refl _)
    · exact together_pure h rfl
  simp only [Drafting.nativeSlot, together_get_bind, L.natives h]
  split
  · exact hfits _ h
  · have hpush : Q { d with natives := d.natives.push binding }
        { d' with natives := d'.natives.push binding } := by
      rw [L.natives h]
      exact L.setNatives h _
    exact hfits d.natives.size hpush

theorem emitNative (L : Lockstep Q E ρ N) (h : Q d d') (r : Registry) (first version : Nat)
    (operands : List Payload) :
    Together Q E Eq (Drafting.emitNative r first version operands) d
      (Drafting.emitNative r first version operands) d' := by
  rw [Drafting.emitNative]
  split
  · exact together_throw h (L.refl _)
  · refine (L.nativeSlot h _).bind ?_
    rintro slot _ d d' h rfl
    have hblock : ∀ answer : Except Kind (List UInt8), BothAnswer E Eq answer answer := by
      rintro (kind | block)
      · exact .error (L.refl kind)
      · exact .ok rfl
    refine (together_ofExcept h (hblock _)).bind ?_
    rintro block _ d d' h rfl
    refine (L.push h _).bind ?_
    rintro - - d d' h -
    refine (L.write h _ _).bind ?_
    rintro - - d d' h -
    exact L.write h _ _

end Lockstep

/-- Appends the code of an overload with arguments all of which are known. -/
def emitBound (r : Registry) (o : Overload) (bound : List Argument) : Drafting Unit := do
  let chosen ← payloads o.params bound
  let version := versionOf o.params (chosen.map (·.1))
  let operands := chosen.map (·.2)
  match o.target with
  | .builtin base => emitBuiltin base o.params version operands
  | .native first => emitNative r first version operands

theorem emit_eq (r : Registry) (op : Operation) (arguments : List Argument) :
    emit r op arguments = (do
      let o ← ofExcept (op.select r arguments)
      let bound ← bindForward arguments
      emitBound r o bound) := rfl

theorem Lockstep.emitBound {Q : Draft → Draft → Prop} {E : Kind → Kind → Prop}
    {ρ : String → String} {N : String → Prop} (L : Lockstep Q E ρ N) {d d' : Draft} (h : Q d d')
    (r : Registry) (o : Overload) (bound : List Argument) :
    Together Q E Eq (Drafting.emitBound r o bound) d (Drafting.emitBound r o bound) d' := by
  refine (L.payloads h o.params bound).bind ?_
  rintro chosen _ d d' h rfl
  dsimp only
  split
  · exact L.emitBuiltin h _ _ _ _
  · exact L.emitNative h r _ _ _

end Drafting

end HookScript
