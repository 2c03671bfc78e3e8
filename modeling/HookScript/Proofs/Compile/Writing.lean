/-
What the compiler writes, in terms of the changes that it makes to a draft.

* `Drafting.Leads` — what a step of the compiler leads to by changes that are permitted;
* `Drafting.bindForward_leads` — names among arguments become labels, or are declared twice;
* `Drafting.emit_leads` — emitting an operation appends one line, or none if it fails.
-/
import HookScript.Proofs.Compile.Changes

namespace HookScript

/-! ### Bytes -/

theorem CodeBuffer.push_eq_put (b : CodeBuffer) (byte : UInt8) :
    b.push byte = b.put [.bytes [byte]] := by
  simp [put, push, append]

theorem Codec.write_eq_put {codec : Codec} {payload : Payload}
    (hc : codec.canEncode payload = true) (b : CodeBuffer) :
    codec.write payload b = b.put [payload.piece] := by
  cases codec <;> cases payload <;> simp only [canEncode, Bool.false_eq_true] at hc
  case raw.raw bs => simp [write, CodeBuffer.put, CodeBuffer.push, CodeBuffer.append, Payload.piece]
  case register.register index => exact b.push_eq_put index
  all_goals rfl

theorem Line.fits_call (slot : UInt16) {block : List UInt8} (h : block.length < 256) :
    Fits ⟨.call, 0, [.native slot, .raw block]⟩ := by
  have hv : 0 < Builtin.call.versions := by decide
  exact ⟨hv, .cons rfl (.cons (decide_eq_true h) .nil)⟩

namespace Drafting

theorem push_eq (byte : UInt8) (d : Draft) : push byte d = .ok () (d.put [.bytes [byte]]) := by
  rw [Draft.put, ← CodeBuffer.push_eq_put]
  rfl

theorem write_eq {codec : Codec} {payload : Payload} (hc : codec.canEncode payload = true)
    (d : Draft) : write codec payload d = .ok () (d.put [payload.piece]) := by
  rw [Draft.put, ← Codec.write_eq_put hc, write, if_pos hc]
  rfl

theorem writeAll_eq {layout : List Codec} {payloads : List Payload}
    (he : Encodable layout payloads) (d : Draft) :
    writeAll layout payloads d = .ok () (d.put (payloads.map Payload.piece)) := by
  induction he generalizing d with
  | nil => rfl
  | @cons codec payload layout payloads hc _ ih =>
    rw [writeAll, bind_of_ok (write_eq hc d), ih, List.map_cons,
      ← List.singleton_append (l := payloads.map Payload.piece), Draft.put_append]

/-- Writing a builtin instruction whose operands fit appends its line. -/
theorem emitBuiltin_eq {b : Builtin} {version : Nat} {payloads : List Payload}
    (hl : Line.Fits ⟨b, version, payloads⟩) (d : Draft) :
    emitBuiltin b.base b.params version payloads d
      = .ok () (d.put (Line.pieces ⟨b, version, payloads⟩)) := by
  have hv : version < b.versions := hl.version
  obtain ⟨hlt, -⟩ := b.find?_version hv
  rw [emitBuiltin, if_neg (by omega)]
  refine (bind_of_ok (push_eq _ d)).trans ?_
  rw [writeAll_eq hl.encodable, ← Draft.put_append]
  rfl

end Drafting

namespace Draft

/-- The second draft is the first one with the line of the overload that the operation has for the
arguments. -/
structure Appends (r : Registry) (op : Operation) (arguments : List Argument) (l : Line)
    (d d' : Draft) : Prop where
  chosen : ∃ o bound, op.select r arguments = .ok o ∧
    List.Forall₂ Argument.Binds arguments bound ∧ o.Yields r d'.natives bound l
  fits : l.Fits
  holds : ∀ pieces, d.buffer.Holds pieces → d'.buffer.Holds (pieces ++ l.pieces)

/-- The two drafts have the same code, and the same host functions in use. -/
structure SameCode (d d' : Draft) : Prop where
  code : d'.buffer.code = d.buffer.code
  placeholders : d'.buffer.placeholders = d.buffer.placeholders
  natives : d'.natives = d.natives

theorem SameCode.refl {d : Draft} : d.SameCode d := ⟨rfl, rfl, rfl⟩

theorem SameCode.trans {d d' d'' : Draft} (h : d.SameCode d') (h' : d'.SameCode d'') :
    d.SameCode d'' :=
  ⟨h'.code.trans h.code, h'.placeholders.trans h.placeholders, h'.natives.trans h.natives⟩

/-- What is appended to the second draft is appended to the code of the first. -/
theorem SameCode.holds_put {d d' d'' : Draft} (h : d.SameCode d') (l : Line)
    (hbuffer : d''.buffer = d'.buffer) {pieces : List Piece} (hp : d.buffer.Holds pieces) :
    (d''.put l.pieces).buffer.Holds (pieces ++ l.pieces) := by
  refine CodeBuffer.Holds.put ⟨?_, ?_⟩ l.pieces
  · rw [hbuffer, h.code, hp.code]
  · rw [hbuffer, h.placeholders, hp.placeholders]

end Draft

/-! ### Steps -/

/-- A name that stands for nothing yet is among the arguments twice. -/
def Argument.Repeats (arguments : List Argument) (name : String) : Prop :=
  ∃ i j : Nat, i < j ∧ arguments[i]? = some (unknown name) ∧ arguments[j]? = some (unknown name)

namespace Drafting

open CompileError.Kind

/-- The step changes the draft as permitted, whether it succeeds or fails. -/
def Leads (r : Registry) (L : Licence) {α : Type} (x : Drafting α) (d : Draft)
    (done : α → Draft → Prop) (failed : CompileError.Kind → Prop) : Prop :=
  Ensures x d (fun a d' => d.Evolves r L d' ∧ done a d')
    fun kind d' => d.Evolves r L d' ∧ failed kind

section

variable {r : Registry} {L : Licence} {α β : Type} {x : Drafting α} {f : α → Drafting β}
  {d : Draft} {done : α → Draft → Prop} {failed failed' : CompileError.Kind → Prop}
  {after : β → Draft → Prop}

theorem Leads.bind (h : Leads r L x d done failed)
    (hf : ∀ a d', d.Evolves r L d' → done a d' → Leads r L (f a) d' after failed) :
    Leads r L (x >>= f) d after failed := by
  refine Ensures.bind h fun a d' ha => ?_
  refine (hf a d' ha.1 ha.2).mono ?_ ?_
  · exact fun b d'' hb => ⟨ha.1.trans hb.1, hb.2⟩
  · exact fun kind d'' hk => ⟨ha.1.trans hk.1, hk.2⟩

theorem Leads.mono {done' : α → Draft → Prop} (h : Leads r L x d done failed)
    (hd : ∀ a d', d.Evolves r L d' → done a d' → done' a d')
    (he : ∀ kind, failed kind → failed' kind) : Leads r L x d done' failed' :=
  Ensures.mono h (fun a d' ha => ⟨ha.1, hd a d' ha.1 ha.2⟩) fun kind _ hk => ⟨hk.1, he kind hk.2⟩

theorem Leads.with_eq (h : Leads r L x d done failed) :
    Leads r L x d (fun a d' => done a d' ∧ x d = .ok a d') failed := by
  unfold Leads Ensures at h ⊢
  cases hx : x d with
  | ok a d' =>
    rw [hx] at h
    exact ⟨h.1, h.2, rfl⟩
  | error kind d' =>
    rw [hx] at h
    exact h

theorem Leads.exists_ok (h : Leads r L x d done fun _ => False) :
    ∃ a d', x d = .ok a d' ∧ done a d' := by
  unfold Leads Ensures at h
  cases hx : x d with
  | ok a d' =>
    rw [hx] at h
    exact ⟨a, d', rfl, h.2⟩
  | error kind d' =>
    rw [hx] at h
    exact h.2.elim

theorem leads_pure {a : α} (h : done a d) : Leads r L (pure a) d done failed :=
  ⟨.refl, h⟩

theorem leads_throw {kind : CompileError.Kind} (h : failed kind) :
    Leads r L (throw kind : Drafting α) d done failed :=
  ⟨.refl, h⟩

theorem leads_of_ok {a : α} {d' : Draft} (hx : x d = .ok a d') (he : d.Evolves r L d')
    (h : done a d') : Leads r L x d done failed := by
  rw [Leads, Ensures, hx]
  exact ⟨he, h⟩

theorem leads_of_error {kind : CompileError.Kind} {d' : Draft} (hx : x d = .error kind d')
    (he : d.Evolves r L d') (h : failed kind) : Leads r L x d done failed := by
  rw [Leads, Ensures, hx]
  exact ⟨he, h⟩

theorem leads_get_bind {f : Draft → Drafting β} :
    Leads r L (get >>= f) d after failed ↔ Leads r L (f d) d after failed := Iff.rfl

theorem leads_pure_bind {a : α} :
    Leads r L ((pure a : Drafting α) >>= f) d after failed ↔ Leads r L (f a) d after failed :=
  Iff.rfl

theorem leads_modify {g : Draft → Draft} {done : PUnit → Draft → Prop}
    (hg : d.Evolves r L (g d)) (h : done ⟨⟩ (g d)) :
    Leads r L (modify g : Drafting PUnit) d done failed :=
  ⟨hg, h⟩

theorem leads_modify_bind {g : Draft → Draft} {f : PUnit → Drafting β}
    (hg : d.Evolves r L (g d)) (h : Leads r L (f ⟨⟩) (g d) after failed) :
    Leads r L ((modify g : Drafting PUnit) >>= f) d after failed :=
  Ensures.mono h (fun _ _ hb => ⟨hg.trans hb.1, hb.2⟩) fun _ _ hk => ⟨hg.trans hk.1, hk.2⟩

theorem leads_ofExcept {answer : Except CompileError.Kind α}
    (hok : ∀ a, answer = .ok a → done a d) (herror : ∀ kind, answer = .error kind → failed kind) :
    Leads r L (ofExcept answer) d done failed := by
  cases answer with
  | ok a => exact leads_pure (hok a rfl)
  | error kind => exact leads_throw (herror kind rfl)

end

variable {r : Registry} {L : Licence} {d : Draft}

theorem newLabel_leads :
    Leads r L newLabel d
      (fun label d' => label = d.buffer.nextLabel ∧ d.buffer.labels.size < maxLabels ∧
        d' = { d with buffer := d.buffer.newLabel })
      SparesLabels := by
  rw [newLabel, leads_get_bind]
  split
  · exact leads_throw (by simp)
  · rename_i h
    have hroom : d.buffer.labels.size < maxLabels := by simpa [CodeBuffer.labelCount] using h
    exact ⟨.minor (.newLabel hroom), rfl, hroom, rfl⟩

/-- A new label has no name yet. -/
theorem newUnnamed_leads (hd : d.Orderly r) :
    Leads r L newLabel d (fun label d' => d'.Unnamed label) SparesLabels := by
  refine newLabel_leads.mono ?_ fun _ h => h
  rintro label d' - ⟨rfl, -, rfl⟩
  refine ⟨?_, hd.find?_ne_nextLabel⟩
  show d.buffer.nextLabel.index.toNat < (d.buffer.labels.push none).size
  rw [hd.toNat_nextLabel, Array.size_push]
  exact Nat.lt_succ_self _

theorem placeLabel_leads {label : LabelId} (hp : L.places d label) :
    Leads r L (placeLabel label) d
      (fun _ d' => d.HasLabel label ∧ d.buffer.position? label = none ∧
        d.buffer.size < UInt32.size ∧ d' = { d with buffer := d.buffer.bindLabel label })
      SparesLabels := by
  rw [placeLabel, leads_get_bind]
  cases hfault : d.buffer.labelFault? label with
  | some fault => exact leads_throw (by simp)
  | none =>
    obtain ⟨hsmall, hmade, hunplaced⟩ := CodeBuffer.labelFault?_eq_none_iff.mp hfault
    exact ⟨.single (.place hmade hunplaced hsmall) hp, hmade, hunplaced, hsmall, rfl⟩

theorem nameLabel_leads {name : String} (hp : L.names name) :
    Leads r L (nameLabel name) d
      (fun label d' => d.buffer.labels.size < maxLabels ∧ d.locals.find? name = none ∧
        label = d.buffer.nextLabel ∧ d' = { d with
          buffer := d.buffer.newLabel
          locals := ⟨d.locals.entries.insert name (.label label)⟩ })
      (fun kind => kind.SparesLabels ∨
        kind = .labelRedefined name ∧ d.locals.find? name ≠ none) := by
  -- the label is made first, but where it also gets its name this counts as one change
  refine Ensures.bind
    (Ensures.mono newLabel_leads (fun _ _ h => h.2) fun _ _ h => ⟨h.1, .inl h.2⟩) ?_
  rintro label d' ⟨rfl, hroom, rfl⟩
  rw [ensures_get_bind]
  cases hinsert : d.locals.insert name (.label d.buffer.nextLabel) with
  | error m =>
    refine ⟨.minor (.newLabel hroom), .inr ⟨rfl, fun hnone => ?_⟩⟩
    rw [SymbolTable.insert, hnone] at hinsert
    cases hinsert
  | ok locals =>
    obtain ⟨hnone, rfl⟩ := SymbolTable.insert_eq_ok hinsert
    exact ⟨.single (.name hroom hnone) hp, hroom, hnone, rfl, rfl⟩

theorem forwardLabel_leads {name : String} (hp : L.names name) :
    Leads r L (forwardLabel name) d
      (fun label d' => d.buffer.labels.size < maxLabels ∧ d.locals.find? name = none ∧
        d'.locals.find? name = some (.label label) ∧ d.SameCode d' ∧
        ∀ other, other ≠ name → d'.locals.find? other = d.locals.find? other)
      (fun kind => kind.SparesLabels ∨
        kind = .labelRedefined name ∧ d.locals.find? name ≠ none) := by
  refine (nameLabel_leads hp).bind ?_
  rintro label d' - ⟨hroom, hnone, rfl, rfl⟩
  have hnew : (⟨d.locals.entries.insert name (.label d.buffer.nextLabel)⟩ : SymbolTable).find? name
      = some (.label d.buffer.nextLabel) := by
    rw [SymbolTable.find?_insert, if_pos rfl]
  refine ⟨.minor (.await hnew), hroom, hnone, hnew,
    ⟨rfl, rfl, rfl⟩, ?_⟩
  intro other hne
  exact (SymbolTable.find?_insert _ _ _ _).trans (if_neg hne.symm)

/-- Unknown names among the arguments become labels, unless one of them is known already when its
turn comes. -/
theorem bindForward_leads {arguments : List Argument}
    (hp : ∀ name, .unknown name ∈ arguments → L.names name) :
    Leads r L (bindForward arguments) d
      (fun bound d' => List.Forall₂ Argument.Binds arguments bound ∧ d.SameCode d')
      (fun kind => kind.SparesLabels ∨ ∃ name, kind = .labelRedefined name ∧
        .unknown name ∈ arguments ∧
        (d.locals.find? name ≠ none ∨ Argument.Repeats arguments name)) := by
  induction arguments generalizing d with
  | nil => exact leads_pure ⟨.nil, .refl⟩
  | cons a arguments ih =>
    have hrest : ∀ name, .unknown name ∈ arguments → L.names name := fun name hm =>
      hp name (List.mem_cons_of_mem _ hm)
    -- what the names behind the first argument object to counts for all of them
    have later : ∀ {name : String}, Argument.Repeats arguments name →
        Argument.Repeats (a :: arguments) name := by
      rintro name ⟨i, j, hlt, hi, hj⟩
      exact ⟨i + 1, j + 1, by omega, hi, hj⟩
    cases a with
    | unknown name =>
      refine ((forwardLabel_leads (hp name (by simp))).mono (fun _ _ _ h => h) ?_).bind ?_
      · exact fun kind hk => hk.imp id fun ⟨hkind, hknown⟩ =>
          ⟨name, hkind, by simp, .inl hknown⟩
      rintro label d₁ - ⟨-, -, hlabel, hcode, hother⟩
      refine ((ih hrest).mono (fun _ _ _ h => h) ?_).bind ?_
      · rintro kind (hk | ⟨other, hkind, hm, hk⟩)
        · exact .inl hk
        refine .inr ⟨other, hkind, List.mem_cons_of_mem _ hm, ?_⟩
        rcases hk with hk | hk
        · by_cases heq : other = name
          · obtain ⟨j, hj⟩ := List.mem_iff_getElem?.mp hm
            exact .inr ⟨0, j + 1, by omega, by rw [heq]; rfl, hj⟩
          · exact .inl (hother other heq ▸ hk)
        · exact .inr (later hk)
      · rintro bound d₂ - ⟨hb, hcode'⟩
        exact leads_pure ⟨.cons .forward hb, hcode.trans hcode'⟩
    | constant _ | register _ _ _ | label _ | typeName _ =>
      refine ((ih hrest).mono (fun _ _ _ h => h) ?_).bind ?_
      · rintro kind (hk | ⟨name, hkind, hm, hk⟩)
        · exact .inl hk
        · exact .inr ⟨name, hkind, List.mem_cons_of_mem _ hm, hk.imp id later⟩
      · rintro bound d₁ - ⟨hb, hcode⟩
        exact leads_pure ⟨.cons (.known (by simp)) hb, hcode⟩

/-- The registers of operands are counted as in use. -/
theorem payloads_leads {params : List Parameter} {bound : List Argument}
    {chosen : List (Nat × Payload)} (hchosen : Overload.Chosen params bound chosen)
    {failed : CompileError.Kind → Prop} :
    Leads r L (payloads params bound) d
      (fun chosen' d' => chosen' = chosen ∧ d.SameCode d') failed := by
  induction hchosen generalizing d with
  | nil => exact leads_pure ⟨rfl, .refl⟩
  | @cons p b choice params bound chosen hpay _ _ _ ih =>
    simp only [payloads, hpay]
    have htouch : Leads r L (touchPayload b.payload) d (fun _ d' => d.SameCode d') failed := by
      cases b.payload with
      | register index =>
        exact leads_modify (.minor .touch) ⟨rfl, rfl, rfl⟩
      | constant _ | label _ | native _ | raw _ => exact leads_pure .refl
    refine htouch.bind ?_
    rintro - d₁ - hcode
    refine ih.bind ?_
    rintro chosen d₂ - ⟨rfl, hcode'⟩
    exact leads_pure ⟨rfl, hcode.trans hcode'⟩

/-- A host function has one place in the script's own table. -/
theorem nativeSlot_leads {binding : NativeBinding} (hd : d.Orderly r)
    (hb : r.native? binding.id = some binding) :
    Leads r L (nativeSlot binding) d
      (fun slot d' => d'.natives[slot.toNat]? = some binding ∧ d'.buffer = d.buffer)
      SparesLabels := by
  simp only [nativeSlot, leads_get_bind]
  cases hfind : d.natives.findIdx? fun n => n.id == binding.id with
  | some slot =>
    obtain ⟨hlt, hid, -⟩ := Array.findIdx?_eq_some_iff_getElem.mp hfind
    -- the entry with the number of the host function is that host function
    have hentry : d.natives[slot] = binding := by
      have hregistered := hd.natives d.natives[slot] (Array.getElem_mem hlt)
      rw [beq_iff_eq.mp hid, hb] at hregistered
      exact (Option.some.inj hregistered).symm
    simp only [leads_pure_bind]
    split
    · exact leads_throw (by simp)
    · rename_i hslot
      refine leads_pure ⟨?_, rfl⟩
      rw [UInt16.toNat_ofNat_of_lt' (by omega), Array.getElem?_eq_getElem hlt, hentry]
  | none =>
    refine leads_modify_bind (.minor (.enter hb)) ?_
    simp only [leads_pure_bind]
    split
    · exact leads_throw (by simp)
    · rename_i hslot
      refine leads_pure ⟨?_, rfl⟩
      rw [UInt16.toNat_ofNat_of_lt' (by omega), Array.getElem?_push_size]

/-- Once the host function has its place, the call of one of its versions is appended. -/
theorem emitNative_eq {binding : NativeBinding} {first version : Nat}
    (hb : r.native? (first + version) = some binding) {slot : UInt16} {d₁ : Draft}
    (hslot : nativeSlot binding d = .ok slot d₁) {operands : List Payload}
    (he : Encodable binding.layout operands) (hl : ∀ id, .label id ∉ operands)
    (hshort : sizeOfPieces (operands.map Payload.piece) < 256) :
    emitNative r first version operands d
      = .ok () (d₁.put (Line.pieces ⟨.call, 0, [.native slot,
          .raw (assemble (fun _ => 0) (operands.map Payload.piece))]⟩)) := by
  have hnative : Codec.native.canEncode (.native slot) = true := rfl
  have hraw : Codec.raw.canEncode
      (.raw (assemble (fun _ => 0) (operands.map Payload.piece))) = true := by
    simpa [Codec.canEncode] using hshort
  rw [emitNative, hb]
  refine (bind_of_ok hslot).trans ?_
  have hblock : ofExcept (.ok (assemble (fun _ => 0) (operands.map Payload.piece))) d₁
      = .ok (assemble (fun _ => 0) (operands.map Payload.piece)) d₁ := rfl
  rw [operandBlock_eq_ok he hl]
  refine (bind_of_ok hblock).trans ?_
  rw [bind_of_ok (push_eq _ d₁), bind_of_ok (write_eq hnative _), write_eq hraw, ← Draft.put_append,
    ← Draft.put_append]
  rfl

/-- The errors of emitting an operation: a label is declared twice only if it is a name among the
arguments that is known when its turn comes. -/
def EmitFails (r : Registry) (op : Operation) (arguments : List Argument) (d : Draft)
    (kind : CompileError.Kind) : Prop :=
  kind.SparesLabels ∨ ∃ o name, op.select r arguments = .ok o ∧ kind = .labelRedefined name ∧
    .unknown name ∈ arguments ∧ (d.locals.find? name ≠ none ∨ Argument.Repeats arguments name)

theorem sparesLabels_of_select {op : Operation} {arguments : List Argument}
    {kind : CompileError.Kind} (h : op.select r arguments = .error kind) : kind.SparesLabels := by
  rw [Operation.select] at h
  split at h
  · split at h <;> cases h
    simp
  · split at h <;> cases h <;> simp

theorem plain_payload (a : Argument) : a.payload.Plain 256 := by
  cases a with
  | register index _ _ => exact index.toNat_lt
  | constant _ | label _ | typeName _ | unknown _ => trivial

/-- An operation is emitted by one of its overloads. -/
theorem exists_selected {op : Operation} {arguments : List Argument} {d' : Draft}
    (h : emit r op arguments d = .ok () d') : ∃ o, op.select r arguments = .ok o := by
  cases hsel : op.select r arguments with
  | ok o => exact ⟨o, rfl⟩
  | error kind =>
    rw [emit, hsel] at h
    cases h

/-- A call of a host function is appended, once the host function has its place. -/
theorem emitNative_leads (hd : d.Orderly r) {name : String} {op : Operation}
    (hop : r.operation? name = some op) {arguments bound : List Argument} {params : List Parameter}
    {first version : Nat} {doc : String}
    (hsel : op.select r arguments = .ok ⟨params, .native first, doc⟩)
    (hb : List.Forall₂ Argument.Binds arguments bound) (hemits : L.emits arguments)
    {binding : NativeBinding} (hversion : version < choiceCount params)
    (hregistered : r.native? (first + version) = some binding)
    (hid : r.native? binding.id = some binding)
    (henc : Encodable binding.layout (bound.map Argument.payload))
    (hl : ∀ id, .label id ∉ bound.map Argument.payload)
    (hshort : sizeOfPieces ((bound.map Argument.payload).map Payload.piece) < 256) :
    Leads r L (emitNative r first version (bound.map Argument.payload)) d
      (fun _ d' => ∃ (l : Line) (d₁ : Draft), d' = d₁.put l.pieces ∧ d₁.buffer = d.buffer ∧ l.Fits ∧
        Overload.Yields r d'.natives ⟨params, .native first, doc⟩ bound l)
      SparesLabels := by
  have hslot := nativeSlot_leads (L := L) hd hid
  cases hcall : nativeSlot binding d with
  | error kind d₁ =>
    obtain ⟨he₁, hk⟩ := hslot.of_error hcall
    refine leads_of_error (?_ : _ = EStateM.Result.error kind d₁) he₁ hk
    rw [emitNative, hregistered]
    exact bind_of_error hcall
  | ok slot d₁ =>
    obtain ⟨he₁, hentered, hbuffer⟩ := hslot.of_ok hcall
    have hblock : (assemble (fun _ => 0)
        ((bound.map Argument.payload).map Payload.piece)).length < 256 := by
      rwa [length_assemble]
    have hfit := Line.fits_call slot hblock
    have hyields : Overload.Yields r d₁.natives ⟨params, .native first, doc⟩ bound _ :=
      .native hregistered hversion hentered henc
    exact leads_of_ok (emitNative_eq hregistered hcall henc hl hshort)
      (he₁.tail (.write hop hsel hb hyields hfit) hemits) ⟨_, d₁, rfl, hbuffer, hfit, hyields⟩

/-- Emitting an operation appends one line. -/
theorem emit_leads (hr : r.Sound) (hd : d.Orderly r) {name : String} {op : Operation}
    (hop : r.operation? name = some op) {arguments : List Argument}
    (hp : ∀ o, op.select r arguments = .ok o → L.Allows arguments) :
    Leads r L (emit r op arguments) d (fun _ d' => ∃ l, d.Appends r op arguments l d')
      (EmitFails r op arguments d) := by
  rw [emit]
  cases hsel : op.select r arguments with
  | error kind => exact leads_throw (.inl (sparesLabels_of_select hsel))
  | ok o =>
    obtain ⟨ho, score, hfits, -⟩ := Operation.select_eq_ok hsel
    have hs := Overload.forall_of_totalScore? hfits
    obtain ⟨hnames, hemits⟩ := hp o hsel
    simp only [ofExcept, leads_pure_bind]
    refine ((bindForward_leads hnames).mono (fun _ _ _ h => h) ?_).bind ?_
    · rintro kind (hk | ⟨name, hk⟩)
      · exact .inl hk
      · exact .inr ⟨o, name, hsel, hk⟩
    rintro bound d₁ he₁ ⟨hb, hcode₁⟩
    obtain ⟨chosen, hchosen⟩ := Overload.Chosen.of_score hs hb
    refine (payloads_leads hchosen).bind ?_
    rintro chosen d₂ he₂ ⟨rfl, hcode₂⟩
    have hcode := hcode₁.trans hcode₂
    have hversion := versionOf_lt hchosen.valid
    have henc := hchosen.encodable
    rw [hchosen.payloads]
    cases hr.overloads name op hop o ho with
    | builtin b doc named =>
      have hfit : Line.Fits ⟨b, versionOf b.params (chosen.map Prod.fst),
          bound.map Argument.payload⟩ := ⟨b.versions_eq ▸ hversion, henc⟩
      have hyields : Overload.Yields r d₂.natives ⟨b.params, .builtin b.base, doc⟩ bound
          ⟨b, versionOf b.params (chosen.map Prod.fst), bound.map Argument.payload⟩ := .builtin _
      exact leads_of_ok (emitBuiltin_eq hfit d₂)
        (.single (.write hop hsel hb hyields hfit) hemits)
        ⟨_, ⟨_, bound, hsel, hb, hyields⟩, hfit, fun _ => hcode.holds_put _ rfl⟩
    | @native params first doc routine ofHost few entered =>
      have hplain : ∀ o ∈ bound.map Argument.payload, o.Plain 256 := by
        intro o ho
        obtain ⟨a, -, rfl⟩ := List.mem_map.mp ho
        exact plain_payload a
      refine (emitNative_leads (he₂.orderly (he₁.orderly hd)) hop hsel hb hemits hversion
        (entered _ hversion) (entered _ hversion) henc (not_label_of_ofHost ofHost hs hb)
        (sizeOfPieces_lt hs hb few hplain)).mono ?_ fun _ => .inl
      rintro - d₃ - ⟨l, d₄, rfl, hbuffer, hfit, hyields⟩
      exact ⟨l, ⟨_, bound, hsel, hb, hyields⟩, hfit, fun _ => hcode.holds_put l hbuffer⟩

end Drafting

end HookScript
