/-
What statements do to a draft, in terms of the changes that they make.

A statement may do only what its licence permits: make labels for the names that its arguments refer
to, declare its variable, place labels of blocks, and emit operations.  A keyword of the host does
what it asks for, so the licence has to cover its requests (`Expansion.Keeps`).

* `Expansion.Comes` — the requests that a keyword comes to make, with the answers that it is given;
* `Drafting.performance_leads` — what a statement leads to, whatever its form.
-/
import HookScript.Proofs.Compile.Soundness
import HookScript.Proofs.Compile.Writing

namespace HookScript

/-! ### Keywords of the host -/

namespace Expansion

/-- The request is answered, and the keyword goes on. -/
inductive Answered (r : Registry) (d : Draft) : Expansion → Expansion → Draft → Prop where
  | lookup {name : String} {next : Option Meaning → Expansion} :
      Answered r d (.lookup name next) (next (d.lookup r name)) d
  | resolve {token : Token} {next : Except CompileError.Kind Argument → Expansion} :
      Answered r d (.resolve token next) (next (d.resolve r token)) d
  | emit {operation : String} {arguments : List Argument}
      {next : Except CompileError.Kind Unit → Expansion} {answer : Except CompileError.Kind Unit}
      {d' : Draft}
      (h : Drafting.attempt (Drafting.emitNamed r operation arguments) d = .ok answer d') :
      Answered r d (.emit operation arguments next) (next answer) d'
  | newLabel {next : Except CompileError.Kind LabelId → Expansion}
      {answer : Except CompileError.Kind LabelId} {d' : Draft}
      (h : Drafting.attempt Drafting.newLabel d = .ok answer d') :
      Answered r d (.newLabel next) (next answer) d'
  | placeLabel {label : LabelId} {next : Except CompileError.Kind Unit → Expansion}
      {answer : Except CompileError.Kind Unit} {d' : Draft}
      (h : Drafting.attempt (Drafting.placeLabel label) d = .ok answer d') :
      Answered r d (.placeLabel label next) (next answer) d'
  | isPlaced {label : LabelId} {next : Bool → Expansion} :
      Answered r d (.isPlaced label next) (next (d.buffer.isDefined label)) d
  | declareVariable {name : String} {type : ValueType}
      {next : Except CompileError.Kind UInt8 → Expansion}
      {answer : Except CompileError.Kind UInt8} {d' : Draft}
      (h : Drafting.attempt (Drafting.declareVariable r name type) d = .ok answer d') :
      Answered r d (.declareVariable name type next) (next answer) d'
  | inBlock {next : Bool → Expansion} : Answered r d (.inBlock next) (next d.inBlock) d

/-- The keyword comes from one request to another one. -/
inductive Comes (r : Registry) : Expansion → Draft → Expansion → Draft → Prop where
  | refl {e : Expansion} {d : Draft} : Comes r e d e d
  | head {e e' e'' : Expansion} {d d' d'' : Draft} (first : Answered r d e e' d')
      (rest : Comes r e' d' e'' d'') : Comes r e d e'' d''

/-- The licence covers the request. -/
def Covered (r : Registry) (L : Licence) (d : Draft) : Expansion → Prop
  | .emit operation arguments _ => ∀ op o, r.operation? operation = some op →
    op.select r arguments = .ok o → L.Allows arguments
  | .placeLabel label _ => L.places d label
  | .declareVariable name _ _ => L.declares name
  | _ => True

/-- The licence covers every request that the keyword comes to make. -/
def Keeps (r : Registry) (L : Licence) (e : Expansion) (d : Draft) : Prop :=
  ∀ e' d', Comes r e d e' d' → Covered r L d' e'

theorem Keeps.covered {r : Registry} {L : Licence} {e : Expansion} {d : Draft}
    (h : e.Keeps r L d) : e.Covered r L d :=
  h e d .refl

theorem Keeps.answered {r : Registry} {L : Licence} {e e' : Expansion} {d d' : Draft}
    (h : e.Keeps r L d) (ha : Answered r d e e' d') : e'.Keeps r L d' :=
  fun e'' d'' hc => h e'' d'' (.head ha hc)

/-- Where all deeds are permitted, all requests are covered. -/
theorem keeps_any (r : Registry) (e : Expansion) (d : Draft) :
    e.Keeps r (.emitting fun _ => True) d := by
  intro e' d' _
  cases e' with
  | emit => exact fun _ _ _ _ => ⟨fun _ _ => trivial, trivial⟩
  | placeLabel | declareVariable | done | reject | lookup | resolve | newLabel | isPlaced
  | inBlock => trivial

end Expansion

/-- If the argument is a writable register, it is one that a name stands for. -/
def Draft.Visible (r : Registry) (d : Draft) (a : Argument) : Prop :=
  ∀ index type, a = .register index type true →
    ∃ name, d.lookup r name = some (.register index type true)

/-- What statements other than those of the host's keywords do from the draft on is permitted: they
place labels of their own making, and emit operations with arguments that names stand for. -/
structure Licence.Usual (r : Registry) (d : Draft) (L : Licence) : Prop where
  places : ∀ d' label, d'.Unnamed label → L.places d' label
  emits : ∀ arguments, (∀ a ∈ arguments, ∃ d', d.Evolves r L d' ∧ d'.Visible r a) →
    L.emits arguments

theorem Licence.Usual.after {r : Registry} {L : Licence} {d d' : Draft} (h : L.Usual r d)
    (he : d.Evolves r L d') : L.Usual r d' := by
  refine ⟨h.places, fun arguments ha => h.emits arguments fun a hm => ?_⟩
  obtain ⟨d'', he', hv⟩ := ha a hm
  exact ⟨d'', he.trans he', hv⟩

namespace Drafting

open CompileError.Kind

variable {r : Registry} {L : Licence} {d : Draft}

/-- What is attempted leads to the same draft. -/
theorem attempt_leads {α : Type} {x : Drafting α} {done : α → Draft → Prop}
    {failed failed' : CompileError.Kind → Prop} (h : Leads r L x d done failed) :
    Leads r L (attempt x) d (fun answer d' => attempt x d = .ok answer d') failed' := by
  unfold Leads Ensures at h ⊢
  rw [attempt]
  cases hx : x d with
  | ok a d' =>
    rw [hx] at h
    exact ⟨h.1, rfl⟩
  | error kind d' =>
    rw [hx] at h
    exact ⟨h.1, rfl⟩

theorem declareVariable_leads {name : String} {type : ValueType} (hp : L.declares name) :
    Leads r L (declareVariable r name type) d
      (fun index d' => d'.lookup r name = some (.register index type true)) SparesLabels := by
  simp only [declareVariable, leads_get_bind]
  split
  · exact leads_throw (by simp)
  · rename_i hknown
    have hnew : d.lookup r name = none := by simpa using hknown
    split
    · exact leads_throw (by simp)
    · rename_i hfull
      cases hi : d.locals.insert name (.register (UInt8.ofNat d.nextRegister) type true) with
      | error _ => exact leads_throw (by simp)
      | ok locals =>
        obtain ⟨-, rfl⟩ := SymbolTable.insert_eq_ok hi
        -- the register is counted as in use together with its name
        refine ⟨.single (.declare hnew (by omega)) hp, ?_⟩
        simp only [Draft.lookup, Draft.touch]
        rw [SymbolTable.find?_insert, if_pos rfl]
        rfl

theorem emitNamed_leads (hr : r.Sound) (hd : d.Orderly r) {name : String}
    {arguments : List Argument}
    (hp : ∀ op o, r.operation? name = some op → op.select r arguments = .ok o →
      L.Allows arguments) :
    Leads r L (emitNamed r name arguments) d
      (fun _ d' => ∃ op l, r.operation? name = some op ∧ d.Appends r op arguments l d')
      (fun kind => kind.SparesLabels ∨
        ∃ op, r.operation? name = some op ∧ EmitFails r op arguments d kind) := by
  rw [emitNamed]
  cases hop : r.operation? name with
  | none => exact leads_throw (.inl (by simp))
  | some op =>
    refine (emit_leads hr hd hop fun o => hp op o hop).mono ?_ fun kind hk => .inr ⟨op, rfl, hk⟩
    rintro - d' - ⟨l, hl⟩
    exact ⟨op, l, rfl, hl⟩

/-- Where names among the arguments are known, no label is made. -/
theorem emitKnown_leads (hr : r.Sound) (hd : d.Orderly r) {name : String}
    {arguments : List Argument}
    (hknown : ∀ op o, r.operation? name = some op → op.select r arguments = .ok o →
      ∀ unknown, .unknown unknown ∉ arguments)
    (hp : L.emits arguments) :
    Leads r L (emitNamed r name arguments) d
      (fun _ d' => ∃ op l, r.operation? name = some op ∧ d.Appends r op arguments l d')
      SparesLabels := by
  refine (emitNamed_leads hr hd fun op o hop hsel => ⟨fun unknown hm => ?_, hp⟩).mono
    (fun _ _ _ h => h) ?_
  · exact absurd hm (hknown op o hop hsel unknown)
  · rintro kind (hk | ⟨op, hop, hk | ⟨o, unknown, hsel, -, hm, -⟩⟩)
    · exact hk
    · exact hk
    · exact absurd hm (hknown op o hop hsel unknown)

/-- A keyword does nothing that its licence does not cover, and fails only if it rejects its
statement. -/
theorem expand_leads (hr : r.Sound) (hd : d.Orderly r) {e : Expansion} (he : e.Keeps r L d) :
    Leads r L (expand r e) d (fun _ _ => True)
      (fun kind => ∃ d', e.Comes r d (.reject kind) d') := by
  -- what a keyword comes to after an answer it comes to
  have later : ∀ {e e' : Expansion} {d d' : Draft}, Expansion.Answered r d e e' d' → ∀ kind,
      (∃ d'', e'.Comes r d' (.reject kind) d'') → ∃ d'', e.Comes r d (.reject kind) d'' := by
    rintro e e' d d' ha kind ⟨d'', hc⟩
    exact ⟨d'', .head ha hc⟩
  induction e generalizing d with
  | done => exact leads_pure trivial
  | reject kind => exact leads_throw ⟨d, .refl⟩
  | lookup name next ih =>
    exact (ih _ hd (he.answered .lookup)).mono (fun _ _ _ h => h) (later .lookup)
  | resolve token next ih =>
    exact (ih _ hd (he.answered .resolve)).mono (fun _ _ _ h => h) (later .resolve)
  | isPlaced label next ih =>
    exact (ih _ hd (he.answered .isPlaced)).mono (fun _ _ _ h => h) (later .isPlaced)
  | inBlock next ih =>
    exact (ih _ hd (he.answered .inBlock)).mono (fun _ _ _ h => h) (later .inBlock)
  | emit operation arguments next ih =>
    refine (attempt_leads (emitNamed_leads hr hd he.covered)).bind fun answer d' hev ha => ?_
    exact (ih answer (hev.orderly hd) (he.answered (.emit ha))).mono (fun _ _ _ h => h)
      (later (.emit ha))
  | newLabel next ih =>
    refine (attempt_leads newLabel_leads).bind fun answer d' hev ha => ?_
    exact (ih answer (hev.orderly hd) (he.answered (.newLabel ha))).mono (fun _ _ _ h => h)
      (later (.newLabel ha))
  | placeLabel label next ih =>
    refine (attempt_leads (placeLabel_leads he.covered)).bind fun answer d' hev ha => ?_
    exact (ih answer (hev.orderly hd) (he.answered (.placeLabel ha))).mono (fun _ _ _ h => h)
      (later (.placeLabel ha))
  | declareVariable name type next ih =>
    refine (attempt_leads (declareVariable_leads he.covered)).bind fun answer d' hev ha => ?_
    exact (ih answer (hev.orderly hd) (he.answered (.declareVariable ha))).mono
      (fun _ _ _ h => h) (later (.declareVariable ha))

theorem evolves_of_attempt {α : Type} {x : Drafting α} {done : α → Draft → Prop}
    {failed : CompileError.Kind → Prop} (h : Leads r L x d done failed)
    {answer : Except CompileError.Kind α} {d' : Draft} (hx : attempt x d = .ok answer d') :
    d.Evolves r L d' :=
  have ha : Leads r L (attempt x) d (fun answer d' => attempt x d = .ok answer d') failed :=
    attempt_leads h
  (ha.of_ok hx).1

/-- The answer to a request is a change that the licence covers. -/
theorem evolves_of_answered (hr : r.Sound) (hd : d.Orderly r) {e e' : Expansion} {d' : Draft}
    (he : e.Covered r L d) (h : e.Answered r d e' d') : d.Evolves r L d' := by
  cases h with
  | lookup | resolve | isPlaced | inBlock => exact .refl
  | emit h => exact evolves_of_attempt (emitNamed_leads hr hd he) h
  | newLabel h => exact evolves_of_attempt newLabel_leads h
  | placeLabel h => exact evolves_of_attempt (placeLabel_leads he) h
  | declareVariable h => exact evolves_of_attempt (declareVariable_leads he) h

theorem evolves_of_comes (hr : r.Sound) (hd : d.Orderly r) {e e' : Expansion} {d' : Draft}
    (he : e.Keeps r L d) (h : e.Comes r d e' d') : d.Evolves r L d' := by
  induction h with
  | refl => exact .refl
  | head first _ ih =>
    have hfirst := evolves_of_answered hr hd he.covered first
    exact hfirst.trans (ih (hfirst.orderly hd) (he.answered first))

/-- A keyword goes on with the answer that it is given. -/
theorem expand_of_comes {e e' : Expansion} {d' : Draft} (h : e.Comes r d e' d') :
    expand r e d = expand r e' d' := by
  induction h with
  | refl => rfl
  | head first _ ih =>
    rw [← ih]
    cases first with
    | lookup | resolve | isPlaced | inBlock => rfl
    | emit h | newLabel h | placeLabel h | declareVariable h =>
      rw [expand]
      exact bind_of_ok h

/-! ### Answers -/

theorem sparesLabels_of_resolve {t : Token} {kind : CompileError.Kind}
    (h : d.resolve r t = .error kind) : kind.SparesLabels := by
  unfold Draft.resolve at h
  split at h
  · split at h <;> cases h
    simp
  · split at h <;> cases h
  · cases h
    simp

theorem lookup_of_resolve {t : Token} {index : UInt8} {type : ValueType} {writable : Bool}
    (h : d.resolve r t = .ok (.register index type writable)) :
    ∃ name, d.lookup r name = some (.register index type writable) := by
  unfold Draft.resolve at h
  split at h
  · split at h <;> cases h
  · split at h
    · rename_i meaning hl
      cases meaning <;> cases h
      exact ⟨_, hl⟩
    · cases h
  · cases h

theorem visible_of_resolve {t : Token} {a : Argument} (h : d.resolve r t = .ok a) :
    d.Visible r a := by
  rintro index type rfl
  exact lookup_of_resolve h

theorem resolve_leads (t : Token) :
    Leads r L (ofExcept (d.resolve r t)) d (fun a d' => d' = d ∧ d.Visible r a) SparesLabels :=
  leads_ofExcept (fun _ h => ⟨rfl, visible_of_resolve h⟩) fun _ h => sparesLabels_of_resolve h

/-- The first error among several tokens is that of one of them. -/
theorem exists_of_resolveAll_error {tokens : List Token} {kind : CompileError.Kind}
    (h : d.resolveAll r tokens = .error kind) : ∃ t ∈ tokens, d.resolve r t = .error kind := by
  rw [Draft.resolveAll] at h
  induction tokens with
  | nil => cases h
  | cons t tokens ih =>
    rw [List.mapM_cons] at h
    cases ht : d.resolve r t with
    | error kind' =>
      rw [ht] at h
      cases h
      exact ⟨t, by simp, ht⟩
    | ok a =>
      rw [ht] at h
      cases hrest : List.mapM (d.resolve r) tokens with
      | error kind' =>
        rw [hrest] at h
        cases h
        obtain ⟨t', hm, ht'⟩ := ih hrest
        exact ⟨t', List.mem_cons_of_mem _ hm, ht'⟩
      | ok rest =>
        rw [hrest] at h
        cases h

theorem resolveAll_leads (tokens : List Token) :
    Leads r L (ofExcept (d.resolveAll r tokens)) d
      (fun arguments d' => d' = d ∧ d.resolveAll r tokens = .ok arguments ∧
        ∀ a ∈ arguments, d.Visible r a)
      SparesLabels := by
  refine leads_ofExcept (fun arguments h => ⟨rfl, h, fun a ha => ?_⟩) fun kind h => ?_
  · obtain ⟨i, hi⟩ := List.mem_iff_getElem?.mp ha
    obtain ⟨t, -, ht⟩ := exists_left_of_forall₂ (forall₂_of_resolveAll h) hi
    exact visible_of_resolve ht
  · obtain ⟨t, -, ht⟩ := exists_of_resolveAll_error h
    exact sparesLabels_of_resolve ht

theorem initialValue_leads (type : ValueType) (token : Option Token) :
    Leads r L (ofExcept (d.initialValue r type token)) d
      (fun value d' => d.initialValue r type token = .ok value ∧ d' = d ∧
        ∀ a ∈ value, d.Visible r a)
      SparesLabels := by
  refine leads_ofExcept (fun value h => ⟨h, rfl, fun a ha => ?_⟩) fun kind h => ?_
  · cases ha
    unfold Draft.initialValue at h
    split at h
    · cases h
    · rename_i t
      split at h
      · cases hres : d.resolve r t with
        | error kind =>
          rw [hres] at h
          cases h
        | ok a' =>
          rw [hres] at h
          cases h
          exact visible_of_resolve hres
      · cases h
  · unfold Draft.initialValue at h
    split at h
    · cases h
    · rename_i t
      split at h
      · cases hres : d.resolve r t with
        | error kind' =>
          rw [hres] at h
          cases h
          exact sparesLabels_of_resolve hres
        | ok a' =>
          rw [hres] at h
          cases h
      · cases h
        simp

theorem answers_leads {α : Type} {answer : Except CompileError.Kind α} {P : α → Prop}
    (h : Answers answer P) :
    Leads r L (ofExcept answer) d (fun a d' => answer = .ok a ∧ d' = d) SparesLabels :=
  leads_ofExcept (fun _ ha => ⟨ha, rfl⟩) fun kind hk => (h.2 kind hk).2

/-! ### Blocks -/

/-- The test of a condition makes no label. -/
theorem emitCondition_leads (hr : r.Sound) (hd : d.Orderly r) (hL : L.Usual r d)
    (tokens : List Token) (yes no : LabelId) :
    Leads r L (emitCondition r tokens yes no) d (fun _ _ => True) SparesLabels := by
  rw [emitCondition]
  refine (answers_leads (splitCondition_answers tokens)).bind ?_
  rintro ⟨c, first, second⟩ _ - ⟨-, rfl⟩
  rw [leads_get_bind]
  refine (resolve_leads first).bind ?_
  rintro a _ - ⟨rfl, ha⟩
  refine (resolve_leads second).bind ?_
  rintro b d - ⟨rfl, hb⟩
  have hlabel : ∀ label, d.Visible r (.label label) := fun _ _ _ h => by cases h
  have hvisible := forall_mem_test (P := d.Visible r) c ha hb (hlabel yes) (hlabel no)
  refine (emitKnown_leads hr hd (fun op o hop hsel => not_unknown_of_test hr hop hsel) ?_).mono
    (fun _ _ _ _ => trivial) fun _ h => h
  exact hL.emits _ fun a ha => ⟨d, .refl, hvisible a ha⟩

theorem ifBlock_leads (hr : r.Sound) (hd : d.Orderly r) (hL : L.Usual r d) (s : Statement) :
    Leads r L (ifBlock r s) d (fun _ _ => True) SparesLabels := by
  rw [ifBlock]
  refine (newUnnamed_leads hd).bind fun thenLabel d₁ he₁ hthen => ?_
  have hd₁ := he₁.orderly hd
  refine (newUnnamed_leads hd₁).bind fun elseLabel d₂ he₂ helse => ?_
  have hd₂ := he₂.orderly hd₁
  refine (newUnnamed_leads hd₂).bind fun endLabel d₃ he₃ hend => ?_
  have hd₃ := he₃.orderly hd₂
  have hL₃ := hL.after ((he₁.trans he₂).trans he₃)
  refine (emitCondition_leads hr hd₃ hL₃ _ _ _).bind fun _ d₄ he₄ _ => ?_
  have hd₄ := he₄.orderly hd₃
  have hthen₄ := ((he₂.trans he₃).trans he₄).unnamed hd₁ hthen
  refine (placeLabel_leads (hL.places d₄ thenLabel hthen₄)).bind fun _ d₅ he₅ _ => ?_
  have hd₅ := he₅.orderly hd₄
  refine leads_modify (.minor (.note ?_)) trivial
  intro b hb
  rcases List.mem_cons.mp hb with rfl | hb
  · exact .inr ⟨((he₃.trans he₄).trans he₅).unnamed hd₂ helse, (he₄.trans he₅).unnamed hd₃ hend⟩
  · exact .inl hb

theorem beginBranch_leads (hr : r.Sound) (hd : d.Orderly r) (hL : L.Usual r d) (s : Statement)
    {elseLabel : LabelId} (helse : d.Unnamed elseLabel) :
    Leads r L (beginBranch r s elseLabel) d (fun answer d' => d'.Unnamed answer.2)
      SparesLabels := by
  rw [beginBranch]
  split
  · exact leads_pure helse
  · refine (newUnnamed_leads hd).bind fun thenLabel d₁ he₁ hthen => ?_
    have hd₁ := he₁.orderly hd
    refine (newUnnamed_leads hd₁).bind fun elseLabel d₂ he₂ helse => ?_
    have hd₂ := he₂.orderly hd₁
    refine (emitCondition_leads hr hd₂ (hL.after (he₁.trans he₂)) _ _ _).bind
      fun _ d₃ he₃ _ => ?_
    have hthen₃ := (he₂.trans he₃).unnamed hd₁ hthen
    refine (placeLabel_leads (hL.places d₃ thenLabel hthen₃)).bind fun _ d₄ he₄ _ => ?_
    exact leads_pure ((he₃.trans he₄).unnamed hd₂ helse)

theorem elseBranch_leads (hr : r.Sound) (hd : d.Orderly r) (hL : L.Usual r d) (s : Statement) :
    Leads r L (elseBranch r s) d (fun _ _ => True) SparesLabels := by
  simp only [elseBranch, leads_get_bind]
  cases hblocks : d.blocks with
  | nil => exact leads_throw (by simp)
  | cons block outer =>
    obtain ⟨helse, hend⟩ := hd.blocks block (by simp [hblocks])
    simp only
    split
    · exact leads_throw (by simp)
    · have hknown : ∀ unknown, .unknown unknown ∉ [Argument.label block.endLabel] := by simp
      have hgoto : L.emits [Argument.label block.endLabel] := by
        refine hL.emits _ fun a ha => ⟨d, .refl, ?_⟩
        rintro index type rfl
        simp at ha
      refine (emitKnown_leads hr hd (fun _ _ _ _ => hknown) hgoto).bind fun _ d₁ he₁ _ => ?_
      have hd₁ := he₁.orderly hd
      have helse₁ := he₁.unnamed hd helse
      refine (placeLabel_leads (hL.places d₁ _ helse₁)).bind fun _ d₂ he₂ _ => ?_
      have hd₂ := he₂.orderly hd₁
      have he := he₁.trans he₂
      refine (beginBranch_leads hr hd₂ (hL.after he) s (he.unnamed hd helse)).bind
        fun answer d₃ he₃ hnext => ?_
      refine leads_modify (.minor (.note ?_)) trivial
      intro b hb
      rcases List.mem_cons.mp hb with rfl | hb
      · exact .inr ⟨hnext, (he.trans he₃).unnamed hd hend⟩
      · have hold := hd.blocks b (by simp [hblocks, hb])
        exact .inr ⟨(he.trans he₃).unnamed hd hold.1, (he.trans he₃).unnamed hd hold.2⟩

theorem endBlock_leads (hd : d.Orderly r) (hL : L.Usual r d) (s : Statement) :
    Leads r L (endBlock s) d (fun _ _ => True) SparesLabels := by
  simp only [endBlock]
  split
  · exact leads_throw (by simp)
  · simp only [leads_get_bind]
    cases hblocks : d.blocks with
    | nil => exact leads_throw (by simp)
    | cons block outer =>
      obtain ⟨helse, hend⟩ := hd.blocks block (by simp [hblocks])
      have hclosed : d.Evolves r L { d with blocks := outer } :=
        .minor (.note fun b hb =>
          .inl (by simp [hblocks, hb]))
      refine leads_modify_bind hclosed ?_
      have hd₁ := hclosed.orderly hd
      -- the label behind the block, once the other one has its place
      have hplace : ∀ d', Draft.Evolves r L { d with blocks := outer } d' →
          Leads r L (placeLabel block.endLabel) d' (fun _ _ => True) SparesLabels := by
        intro d' he
        have hunnamed := (hclosed.trans he).unnamed hd hend
        exact (placeLabel_leads (hL.places d' _ hunnamed)).mono (fun _ _ _ _ => trivial)
          fun _ h => h
      simp only [leads_get_bind]
      split
      · refine (placeLabel_leads (hL.places _ _ (hclosed.unnamed hd helse))).bind
          fun _ d' he _ => hplace d' he
      · exact hplace _ .refl

/-! ### Statements -/

theorem declaration_leads (hr : r.Sound) (hd : d.Orderly r) (hL : L.Usual r d) (s : Statement)
    (hp : ∀ name, Draft.declaredVariable? s.arguments = some name → L.declares name) :
    Leads r L (declaration r s) d (fun _ _ => True) SparesLabels := by
  simp only [declaration, leads_get_bind]
  refine (answers_leads (Draft.declaredType_answers s.arguments)).bind ?_
  rintro ⟨type, rest⟩ _ - ⟨htype, rfl⟩
  refine (answers_leads (Draft.declaredName_answers rest)).bind ?_
  rintro ⟨name, rest'⟩ _ - ⟨hname, rfl⟩
  refine (answers_leads (Draft.initialToken_answers rest')).bind ?_
  rintro token _ - ⟨htoken, rfl⟩
  refine (initialValue_leads type token).bind ?_
  rintro value d - ⟨hvalue, rfl, hvisible⟩
  have hdeclared : d.declared r s.arguments = .ok (type, name, value) := by
    simp only [Draft.declared, bind, Except.bind, htype, hname, htoken, hvalue]
    rfl
  refine (declareVariable_leads (hp name (Draft.declaredVariable?_eq hdeclared))).bind
    fun index d' he hindex => ?_
  cases value with
  | none => exact leads_pure trivial
  | some value =>
    have hemits : L.emits [.register index type true, value] := by
      refine hL.emits _ fun a ha => ?_
      rcases List.mem_pair.mp ha with rfl | rfl
      · refine ⟨d', he, ?_⟩
        rintro index' type' ⟨⟩
        exact ⟨name, hindex⟩
      · exact ⟨d, .refl, hvisible a rfl⟩
    exact (emitKnown_leads hr (he.orderly hd) (fun _ _ hop hsel => not_unknown_of_set hr hop hsel)
      hemits).mono (fun _ _ _ _ => trivial) fun _ h => h

/-- Compiles what a statement says, apart from its label. -/
def performance (r : Registry) (s : Statement) : Drafting Unit := do
  match r.operation? s.name.text with
  | some op => statementOf r op s
  | none =>
    match memberOperation? r (← get) s.name.text with
    | some (op, object) =>
      let arguments ← ofExcept ((← get).resolveAll r s.arguments)
      emit r op (object :: arguments)
    | none => throw (.unknownOperation s.name.text)

theorem statement_eq (r : Registry) (s : Statement) :
    statement r s = (do
      modify fun d => { d with span := s.span }
      statementLabel r s
      performance r s) := rfl

theorem statement_apply (r : Registry) (s : Statement) (d : Draft) :
    statement r s d = (statementLabel r s >>= fun _ => performance r s)
      { d with span := s.span } := rfl

/-- Behind its label, a statement does what it says. -/
theorem statement_of_label {s : Statement} {d₁ : Draft}
    (h : statementLabel r s { d with span := s.span } = .ok () d₁) :
    statement r s d = performance r s d₁ :=
  (statement_apply r s d).trans (bind_of_ok h)

theorem performance_of_call {s : Statement} {op : Operation}
    (hop : r.operation? s.name.text = some op) (hform : op.form = .call) :
    performance r s d = (ofExcept (d.resolveAll r s.arguments) >>= emit r op) d := by
  simp only [performance, hop, statementOf, hform, get_bind]

theorem performance_of_member {s : Statement} {op : Operation} {object : Argument}
    (hop : r.operation? s.name.text = none)
    (hm : memberOperation? r d s.name.text = some (op, object)) :
    performance r s d = (ofExcept (d.resolveAll r s.arguments) >>= fun arguments =>
      emit r op (object :: arguments)) d := by
  simp only [performance, hop, get_bind, hm]

theorem performance_of_custom {s : Statement} {op : Operation} {form : Statement → Expansion}
    (hop : r.operation? s.name.text = some op) (hform : op.form = .custom form) :
    performance r s d = expand r (form s) d := by
  simp only [performance, hop, statementOf, hform]

/-- The statement is a call that refers twice to a label which is not declared yet. -/
def RefersTwice (r : Registry) (s : Statement) (d : Draft) (name : String) : Prop :=
  ∃ op o arguments, r.operation? s.name.text = some op ∧ op.form = .call ∧
    d.resolveAll r s.arguments = .ok arguments ∧ op.select r arguments = .ok o ∧
    Argument.Repeats arguments name

/-- The errors of a statement that has no form of the host's: a label is declared twice only if the
statement refers to it twice, before its declaration. -/
def CallFails (r : Registry) (s : Statement) (d : Draft) (kind : CompileError.Kind) : Prop :=
  kind.SparesLabels ∨ ∃ name, kind = .labelRedefined name ∧ RefersTwice r s d name

/-- A call is emitted with its arguments, and the unknown names among them get labels. -/
theorem call_leads (hr : r.Sound) (hd : d.Orderly r) (hL : L.Usual r d) {s : Statement}
    {op : Operation} (hop : r.operation? s.name.text = some op) (hform : op.form = .call)
    (hrefers : ∀ name, s.Refers name → d.lookup r name = none → L.names name) :
    Leads r L (ofExcept (d.resolveAll r s.arguments) >>= emit r op) d (fun _ _ => True)
      (CallFails r s d) := by
  refine ((resolveAll_leads s.arguments).mono (fun _ _ _ h => h) fun _ h => .inl h).bind ?_
  rintro arguments d - ⟨rfl, harguments, hvisible⟩
  have hunknown : ∀ o, op.select r arguments = .ok o → ∀ name, .unknown name ∈ arguments →
      s.Refers name ∧ d.lookup r name = none := fun o hsel name hm =>
    refers_of_unknown hr hop harguments hsel hm
  refine (emit_leads hr hd hop fun o hsel => ⟨fun name hm => ?_, ?_⟩).mono
    (fun _ _ _ _ => trivial) ?_
  · obtain ⟨hrefer, hnone⟩ := hunknown o hsel name hm
    exact hrefers name hrefer hnone
  · exact hL.emits _ fun a ha => ⟨d, .refl, hvisible a ha⟩
  · rintro kind (hk | ⟨o, name, hsel, hkind, hm, hk⟩)
    · exact .inl hk
    -- the arguments were resolved just now, so no name among them is known otherwise
    have hnone := (Draft.lookup_eq_none (hunknown o hsel name hm).2).1
    exact .inr ⟨name, hkind, op, o, arguments, hop, hform, harguments, hsel,
      hk.resolve_left (absurd hnone)⟩

/-- A member is emitted with its object and its arguments, which are all known. -/
theorem member_leads (hr : r.Sound) (hd : d.Orderly r) (hL : L.Usual r d) {name : String}
    {op : Operation} {object : Argument} (hm : memberOperation? r d name = some (op, object))
    (tokens : List Token) :
    Leads r L
      (ofExcept (d.resolveAll r tokens) >>= fun arguments => emit r op (object :: arguments)) d
      (fun _ _ => True) CompileError.Kind.SparesLabels := by
  obtain ⟨⟨name', hop', -⟩, meaning, owner, hlookup, rfl⟩ := memberOperation?_eq_some hm
  refine (resolveAll_leads tokens).bind ?_
  rintro arguments d - ⟨rfl, -, hvisible⟩
  have hknown : ∀ o, op.select r (.ofMeaning meaning :: arguments) = .ok o →
      ∀ name, .unknown name ∉ Argument.ofMeaning meaning :: arguments :=
    fun _ hsel => not_unknown_of_member hr hm hsel
  refine (emit_leads hr hd hop' fun o hsel =>
    ⟨fun name hn => absurd hn (hknown o hsel name), ?_⟩).mono (fun _ _ _ _ => trivial) ?_
  · refine hL.emits _ fun a ha => ⟨d, .refl, ?_⟩
    rcases List.mem_cons.mp ha with rfl | ha
    · rintro index type hregister
      cases meaning <;> cases hregister
      exact ⟨owner, hlookup⟩
    · exact hvisible a ha
  · rintro kind (hk | ⟨o, name, hsel, -, hn, -⟩)
    · exact hk
    · exact absurd hn (hknown o hsel name)

/-- A statement does what its licence permits. -/
theorem performance_leads (hr : r.Sound) (hd : d.Orderly r) (hL : L.Usual r d) (s : Statement)
    (hrefers : ∀ name, s.Refers name → d.lookup r name = none → L.names name)
    (hdeclares : ∀ name, r.Declares s name → L.declares name)
    (hkeeps : ∀ op form, r.operation? s.name.text = some op → op.form = .custom form →
      (form s).Keeps r L d) :
    Leads r L (performance r s) d (fun _ _ => True) (fun kind => CallFails r s d kind ∨
      ∃ op form d', r.operation? s.name.text = some op ∧ op.form = .custom form ∧
        (form s).Comes r d (.reject kind) d') := by
  rw [performance]
  cases hop : r.operation? s.name.text with
  | some op =>
    simp only [statementOf]
    cases hform : op.form with
    | call =>
      simp only [leads_get_bind]
      exact (call_leads hr hd hL hop hform hrefers).mono (fun _ _ _ h => h) fun _ h => .inl h
    | ifBlock =>
      exact (ifBlock_leads hr hd hL s).mono (fun _ _ _ h => h) fun _ h => .inl (.inl h)
    | elseBranch =>
      exact (elseBranch_leads hr hd hL s).mono (fun _ _ _ h => h) fun _ h => .inl (.inl h)
    | endBlock =>
      exact (endBlock_leads hd hL s).mono (fun _ _ _ h => h) fun _ h => .inl (.inl h)
    | declaration =>
      exact (declaration_leads hr hd hL s fun name hn => hdeclares name ⟨op, hop, hform, hn⟩).mono
        (fun _ _ _ h => h) fun _ h => .inl (.inl h)
    | custom form =>
      refine (expand_leads hr hd (hkeeps op form hop hform)).mono (fun _ _ _ h => h) ?_
      rintro kind ⟨d', hc⟩
      exact .inr ⟨op, form, d', rfl, hform, hc⟩
  | none =>
    simp only [leads_get_bind]
    cases hm : memberOperation? r d s.name.text with
    | none => exact leads_throw (.inl (.inl (by simp)))
    | some found =>
      exact (member_leads hr hd hL hm s.arguments).mono (fun _ _ _ h => h)
        fun _ h => .inl (.inl h)

theorem statementLabel_leads (s : Statement)
    (hnames : ∀ label, s.label = some label → L.names label.text)
    (hplaces : ∀ d label, L.places d label) :
    Leads r L (statementLabel r s) d (fun _ _ => True) (fun _ => True) := by
  rw [statementLabel]
  cases hs : s.label with
  | none => exact leads_pure trivial
  | some label =>
    -- the name has a label already, or gets one now
    have hplace : ∀ id d', Leads r L (do
        if (← get).buffer.isDefined id then
          throw (.labelRedefined label.text)
        placeLabel id) d' (fun _ _ => True) (fun _ => True) := by
      intro id d'
      simp only [leads_get_bind]
      split
      · exact leads_throw trivial
      · exact (placeLabel_leads (hplaces _ _)).mono (fun _ _ _ _ => trivial) fun _ _ => trivial
    simp only [defineLabel, leads_get_bind]
    split
    · exact hplace _ d
    · exact leads_throw trivial
    · have hname := nameLabel_leads (r := r) (L := L) (d := d) (hnames label hs)
      refine (hname.mono (fun _ _ _ h => h) fun _ _ => trivial).bind ?_
      exact fun id d' _ _ => hplace id d'

theorem evolves_of_label {A : List Argument → Prop} {s : Statement} {d' : Draft}
    (h : statementLabel r s { d with span := s.span } = .ok () d') :
    d.Evolves r (.emitting A) d' := by
  have hspan : d.Evolves r (.emitting A) { d with span := s.span } :=
    .minor (.note fun _ hb => .inl hb)
  exact hspan.trans
    ((statementLabel_leads s (fun _ _ => trivial) fun _ _ => trivial).of_ok h).1

/-- What the statement emits is permitted, whether it is one of a keyword of the host or not. -/
structure Emits (r : Registry) (A : List Argument → Prop) (s : Statement) (d : Draft) : Prop where
  visible : ∀ arguments,
    (∀ a ∈ arguments, ∃ d', d.Evolves r (.emitting A) d' ∧ d'.Visible r a) → A arguments
  keeps : ∀ op form d', r.operation? s.name.text = some op → op.form = .custom form →
    statementLabel r s { d with span := s.span } = .ok () d' →
    (form s).Keeps r (.emitting A) d'

theorem Emits.any (r : Registry) (s : Statement) (d : Draft) : Emits r (fun _ => True) s d :=
  ⟨fun _ _ => trivial, fun _ _ _ _ _ _ => Expansion.keeps_any _ _ _⟩

/-- A statement leads to changes only, where arguments that are emitted are as permitted. -/
theorem statement_leads (hr : r.Sound) (hd : d.Orderly r) {A : List Argument → Prop}
    {s : Statement} (hs : Emits r A s d) :
    Leads r (.emitting A) (statement r s) d (fun _ _ => True) (fun _ => True) := by
  rw [statement_eq]
  have hspan : d.Evolves r (.emitting A) { d with span := s.span } :=
    .minor (.note fun _ hb => .inl hb)
  refine leads_modify_bind hspan ?_
  refine (statementLabel_leads s (fun _ _ => trivial) fun _ _ => trivial).with_eq.bind ?_
  rintro ⟨⟩ d₁ he₁ ⟨-, hlabel⟩
  have he := hspan.trans he₁
  have husual : (Licence.emitting A).Usual r d₁ := by
    refine ⟨fun _ _ _ => trivial, fun arguments ha => hs.visible arguments fun a hm => ?_⟩
    obtain ⟨d', he', hv⟩ := ha a hm
    exact ⟨d', he.trans he', hv⟩
  exact (performance_leads hr (he.orderly hd) husual s (fun _ _ _ => trivial) (fun _ _ => trivial)
    fun op form hop hform => hs.keeps op form d₁ hop hform hlabel).mono (fun _ _ _ h => h)
    fun _ _ => trivial

end Drafting

namespace Draft

variable {r : Registry} {L : Licence} {d d' : Draft}

/-- An empty script has neither labels nor host functions. -/
theorem orderly_of_start {arguments : List HookArgument}
    (h : start r arguments = .ok d) : d.Orderly r := by
  have hnames : ∀ name label, d.locals.find? name ≠ some (.label label) := by
    intro name label hn
    obtain ⟨_, _, _, heq⟩ := register_of_start h hn
    cases heq
  have hregisters : ∀ name index type writable,
      d.locals.find? name = some (.register index type writable) →
        index.toNat < r.config.registers := by
    intro name index type writable hn
    obtain ⟨j, a, -, -, hlt, heq⟩ := argument_of_start h hn
    cases heq
    rw [UInt8.toNat_ofNat']
    exact Nat.lt_of_le_of_lt (Nat.mod_le _ _) hlt
  rw [start] at h
  split at h
  · cases h
  · cases h
    exact {
      count := Nat.zero_le _
      made := fun name label hn => absurd hn (hnames name label)
      distinct := fun name _ label hn => absurd hn (hnames name label)
      waits := by simp
      blocks := by simp
      natives := by simp
      registers := hregisters
      places := by simp [CodeBuffer.position?, CodeBuffer.empty] }

/-- So do statements in a row. -/
theorem evolves_of_compileAll (hr : r.Sound) (hd : d.Orderly r) {A : List Argument → Prop}
    {source : String} {statements : List (Except SyntaxError Statement)}
    (hs : ∀ done s rest d₁, statements = done ++ .ok s :: rest →
      d.compileAll r source done = .ok d₁ → Drafting.Emits r A s d₁)
    (h : d.compileAll r source statements = .ok d') : d.Evolves r (.emitting A) d' := by
  induction statements generalizing d with
  | nil =>
    cases h
    exact .refl
  | cons first rest ih =>
    obtain ⟨s, d₁, rfl, hstep, h⟩ := exists_of_compileAll_cons h
    obtain ⟨he, -⟩ := (Drafting.statement_leads hr hd (hs [] s rest d rfl rfl)).of_ok hstep
    refine he.trans (ih (he.orderly hd) (fun done s' rest' d₂ heq hd₂ => ?_) h)
    refine hs (.ok s :: done) s' rest' d₂ (by rw [heq]; rfl) ?_
    rw [compileAll, hstep]
    exact hd₂

end Draft

end HookScript
