/-
What emitting an operation appends to the code.

* `Overload.Yields` — the line that an overload becomes with given arguments;
* `Registry.Writes` — the line is that of an operation, if no argument is still to be declared;
* `Drafting.operandBlock_eq_ok` — the operands of a host function fit a block;
* `Drafting.emit_ensures` — emitting an operation appends the line of the overload that is chosen,
  and never fails for a defect of the compiler.
-/
import HookScript.Proofs.Compile.Names
import HookScript.Proofs.Compile.Selection

namespace HookScript

/-- An error with which the compiler may stop: a defect only if the code has become too large. -/
def CompileError.Kind.Excused (kind : CompileError.Kind) (d : Draft) : Prop :=
  ∀ defect, kind = .internal defect → UInt32.size ≤ d.buffer.size

theorem CompileError.Kind.excused {kind : CompileError.Kind}
    (h : ∀ defect, kind ≠ .internal defect) (d : Draft) : kind.Excused d :=
  fun defect hd => absurd hd (h defect)

namespace Draft

/-- The argument stands for something in the script: a register that there is, or a label that is
placed or will be. -/
def Knows (r : Registry) (pending : List LabelId) (d : Draft) : Argument → Prop
  | .register index _ _ => index.toNat < r.config.registers
  | .label id => d.Settled pending id
  | .constant _ | .typeName _ | .unknown _ => True

theorem Grows.knows {r : Registry} {pending : List LabelId} {d d' : Draft} (h : d.Grows d')
    {a : Argument} (ha : d.Knows r pending a) : d'.Knows r pending a := by
  cases a with
  | label id => exact h.settled ha
  | register _ _ _ => exact ha
  | constant _ | typeName _ | unknown _ => trivial

/-- No name that was used before its declaration has been declared yet. -/
def Waiting (d : Draft) : Prop :=
  ∀ f ∈ d.forward, d.buffer.position? f.label = none

/-- Emitting leaves the blocks alone, and the names and labels unless a name is to be declared
later. -/
structure Frame (d d' : Draft) : Prop where
  blocks : d'.blocks = d.blocks
  nextRegister : d'.nextRegister = d.nextRegister
  span : d'.span = d.span
  forward : ∃ more, d'.forward = d.forward ++ more
  same : d'.forward = d.forward → d'.locals = d.locals ∧ d'.buffer.labels = d.buffer.labels
  waiting : d.Waiting → d'.Waiting
  names : ∃ more, d.Extends more d'

theorem empty_of_append_eq {α : Type} {a b c : Array α} (h : a ++ b ++ c = a) :
    b = #[] ∧ c = #[] := by
  have hsize := congrArg Array.size h
  simp only [Array.size_append] at hsize
  exact ⟨Array.eq_empty_of_size_eq_zero (by omega), Array.eq_empty_of_size_eq_zero (by omega)⟩

namespace Frame

variable {d d' d'' : Draft}

theorem refl : d.Frame d :=
  ⟨rfl, rfl, rfl, ⟨#[], by simp⟩, fun _ => ⟨rfl, rfl⟩, id, ⟨_, .refl⟩⟩

theorem trans (h : d.Frame d') (h' : d'.Frame d'') : d.Frame d'' := by
  obtain ⟨more, hm⟩ := h.forward
  obtain ⟨more', hm'⟩ := h'.forward
  obtain ⟨names, hn⟩ := h.names
  obtain ⟨names', hn'⟩ := h'.names
  refine ⟨h'.blocks.trans h.blocks, h'.nextRegister.trans h.nextRegister, h'.span.trans h.span,
    ⟨more ++ more', by rw [hm', hm, Array.append_assoc]⟩, fun heq => ?_,
    fun hw => h'.waiting (h.waiting hw), ⟨_, hn.trans hn'⟩⟩
  rw [hm', hm] at heq
  obtain ⟨rfl, rfl⟩ := empty_of_append_eq heq
  rw [Array.append_empty] at hm hm'
  obtain ⟨hl, hb⟩ := h.same hm
  obtain ⟨hl', hb'⟩ := h'.same hm'
  exact ⟨hl'.trans hl, hb'.trans hb⟩

end Frame

end Draft

/-! ### Lines of operations -/

/-- The line is an instruction of the overload, with operands for the given arguments. -/
inductive Overload.Yields (r : Registry) (natives : Array NativeBinding) :
    Overload → List Argument → Line → Prop where
  | builtin {b : Builtin} {doc : String} {bound : List Argument} (version : Nat) :
      Yields r natives ⟨b.params, .builtin b.base, doc⟩ bound
        ⟨b, version, bound.map Argument.payload⟩
  | native {params : List Parameter} {first : Nat} {doc : String} {bound : List Argument}
      {slot : UInt16} {binding : NativeBinding} {version : Nat}
      (registered : r.native? (first + version) = some binding)
      (valid : version < choiceCount params)
      (entered : natives[slot.toNat]? = some binding)
      (encodable : Encodable binding.layout (bound.map Argument.payload)) :
      Yields r natives ⟨params, .native first, doc⟩ bound
        ⟨.call, 0, [.native slot,
          .raw (assemble (fun _ => 0) ((bound.map Argument.payload).map Payload.piece))]⟩

/-- Further host functions change nothing. -/
theorem Overload.Yields.mono {r : Registry} {natives natives' : Array NativeBinding} {o : Overload}
    {bound : List Argument} {l : Line} (h : Yields r natives o bound l)
    (hn : ∃ more, natives' = natives ++ more) : Yields r natives' o bound l := by
  obtain ⟨more, rfl⟩ := hn
  cases h with
  | builtin version => exact .builtin version
  | native registered valid entered encodable =>
    refine .native registered valid ?_ encodable
    obtain ⟨hlt, -⟩ := Array.getElem?_eq_some_iff.mp entered
    rw [Array.getElem?_append_left hlt, entered]

/-- The line of a builtin instruction. -/
theorem Overload.Yields.eq_of_builtin {r : Registry} {natives : Array NativeBinding} {b : Builtin}
    {doc : String} {bound : List Argument} {l : Line}
    (h : Yields r natives ⟨b.params, .builtin b.base, doc⟩ bound l) :
    ∃ version, l = ⟨b, version, bound.map Argument.payload⟩ := by
  generalize hbase : Target.builtin b.base = base at h
  generalize b.params = params at h
  cases h with
  | builtin version => exact ⟨version, by rw [Builtin.base_injective (Target.builtin.inj hbase)]⟩
  | native => cases hbase

/-- What emitting an operation with the given arguments makes of a draft: the chosen overload is one
more line. -/
structure Draft.Emits (r : Registry) (op : Operation) (arguments : List Argument)
    (lines : List Line) (pending : List LabelId) (l : Line) (d d' : Draft) : Prop where
  chosen : ∃ o bound, op.select r arguments = .ok o ∧ List.Forall₂ Argument.Binds arguments bound ∧
    (d'.forward = d.forward → bound = arguments) ∧ o.Yields r d'.natives bound l
  sound : d'.Sound r (lines ++ [l]) pending
  grows : d.Grows d'
  frame : d.Frame d'
  known : (∀ name, .unknown name ∉ arguments) → d'.forward = d.forward
  /-- only names of arguments wait for a declaration -/
  waits : ∀ f ∈ d'.forward, f ∈ d.forward ∨ .unknown f.name ∈ arguments
  /-- and what stands in their places are their labels -/
  named : ∀ (i : Nat) (name : String), arguments[i]? = some (Argument.unknown name) →
    ∃ id, d'.locals.find? name = some (.label id) ∧ l.payloads[i]? = some (Payload.label id)

/-- The line is an instruction of the operation `name`, as it is chosen for the arguments, none of
which is still to be declared. -/
def Registry.Writes (r : Registry) (natives : Array NativeBinding) (name : String)
    (arguments : List Argument) (l : Line) : Prop :=
  ∃ op o, r.operation? name = some op ∧ op.select r arguments = .ok o ∧
    o.Yields r natives arguments l ∧ ∀ name, .unknown name ∉ arguments

theorem Registry.Writes.mono {r : Registry} {natives natives' : Array NativeBinding}
    {name : String} {arguments : List Argument} {l : Line}
    (h : r.Writes natives name arguments l) (hn : ∃ more, natives' = natives ++ more) :
    r.Writes natives' name arguments l := by
  obtain ⟨op, o, hop, hsel, hy, hknown⟩ := h
  exact ⟨op, o, hop, hsel, hy.mono hn, hknown⟩

theorem Draft.Emits.writes {r : Registry} {name : String} {op : Operation}
    (hop : r.operation? name = some op) {arguments : List Argument} {lines : List Line}
    {pending : List LabelId} {l : Line} {d d' : Draft}
    (h : Emits r op arguments lines pending l d d') (hf : d'.forward = d.forward) :
    r.Writes d'.natives name arguments l := by
  obtain ⟨o, bound, hsel, hb, hsame, hy⟩ := h.chosen
  rw [hsame hf] at hy hb
  exact ⟨op, o, hop, hsel, hy, Argument.known_of_binds hb⟩

namespace Drafting

open CompileError.Kind

variable {r : Registry} {lines : List Line} {pending : List LabelId} {d : Draft}

/-! ### Labels -/

theorem newLabel_ensures :
    Ensures newLabel d
      (fun label d' => d.buffer.labels.size < maxLabels ∧ label = d.buffer.nextLabel ∧
        d' = { d with buffer := d.buffer.newLabel })
      Excused := by
  simp only [newLabel, ensures_get_bind]
  split
  · exact excused (by simp) d
  · rename_i h
    exact ⟨by simpa [CodeBuffer.labelCount] using h, rfl, rfl⟩

theorem nameLabel_ensures (name : String) :
    Ensures (nameLabel name) d
      (fun label d' => d.buffer.labels.size < maxLabels ∧ label = d.buffer.nextLabel ∧
        d.locals.find? name = none ∧
        d' = { d with
          buffer := d.buffer.newLabel
          locals := ⟨d.locals.entries.insert name (.label label)⟩ })
      Excused := by
  refine newLabel_ensures.bind ?_
  rintro label d' ⟨hc, rfl, rfl⟩
  rw [ensures_get_bind]
  cases hi : d.locals.insert name (.label d.buffer.nextLabel) with
  | error _ =>
    exact excused (by simp) _
  | ok locals =>
    obtain ⟨hn, rfl⟩ := SymbolTable.insert_eq_ok hi
    exact ⟨hc, rfl, hn, rfl⟩

theorem forwardLabel_ensures (h : d.Sound r lines pending) (name : String) :
    Ensures (forwardLabel name) d
      (fun label d' => d'.Sound r lines pending ∧ d.Grows d' ∧ d.Frame d' ∧
        d'.forward ≠ d.forward ∧ d'.Settled pending label ∧
        d'.locals.find? name = some (.label label) ∧
        ∀ f ∈ d'.forward, f ∈ d.forward ∨ f.name = name)
      Excused := by
  refine (nameLabel_ensures name).bind ?_
  rintro label d' ⟨hc, rfl, hn, rfl⟩
  have hnew := h.newLabel hc
  have hnames := h.extends_forward hc hn d.span
  refine ⟨hnew.forward name d.span, Draft.Sound.grows_newLabel.trans
    (Draft.Sound.grows_forward _ _), ⟨rfl, rfl, rfl, ⟨#[_], rfl⟩, ?_, ?_, ⟨_, hnames⟩⟩, ?_, ?_,
    hnames.waits ⟨_, name, d.span⟩ (Array.mem_singleton.mpr rfl), ?_⟩
  · intro heq
    exact absurd heq (by simp)
  · intro hw f hf
    rcases Array.mem_push.mp hf with hf | rfl
    · exact (CodeBuffer.position?_newLabel _ _).trans (hw f hf)
    · exact (hnew.unplaced _ (by simp)).2
  · simp
  · exact .inr (.inl ⟨_, Array.mem_push_self, rfl⟩)
  · intro f hf
    rcases Array.mem_push.mp hf with hf | rfl
    · exact .inl hf
    · exact .inr rfl

/-- Unknown names among the arguments become labels that wait for a declaration. -/
theorem bindForward_ensures (h : d.Sound r lines pending) {arguments : List Argument}
    (hk : ∀ a ∈ arguments, d.Knows r pending a) :
    Ensures (bindForward arguments) d
      (fun bound d' => d'.Sound r lines pending ∧ d.Grows d' ∧ d.Frame d' ∧
        List.Forall₂ Argument.Binds arguments bound ∧ (∀ b ∈ bound, d'.Knows r pending b) ∧
        (d'.forward = d.forward → bound = arguments) ∧
        ((∀ name, .unknown name ∉ arguments) → d'.forward = d.forward) ∧
        (∀ f ∈ d'.forward, f ∈ d.forward ∨ .unknown f.name ∈ arguments) ∧
        ∀ (i : Nat) (name : String), arguments[i]? = some (Argument.unknown name) →
          ∃ id, d'.locals.find? name = some (.label id) ∧ bound[i]? = some (Argument.label id))
      Excused := by
  -- each name that is still unknown adds a label, so the draft changes on the way
  induction arguments generalizing d with
  | nil =>
    exact ⟨h, .refl, .refl, .nil, by simp, fun _ => rfl, fun _ => rfl, fun _ => .inl, by simp⟩
  | cons a arguments ih =>
    have hrest : ∀ a ∈ arguments, d.Knows r pending a := fun a ha =>
      hk a (List.mem_cons_of_mem _ ha)
    cases a with
    | unknown name =>
      refine (forwardLabel_ensures h name).bind ?_
      rintro label d₁ ⟨h₁, hg₁, hf₁, hne, hs, hnamed, hwaits⟩
      refine (ih h₁ fun a ha => hg₁.knows (hrest a ha)).bind ?_
      rintro bound d₂ ⟨h₂, hg₂, hf₂, hb, hk₂, -, -, hwaits₂, hnamed₂⟩
      refine ⟨h₂, hg₁.trans hg₂, hf₁.trans hf₂, .cons .forward hb, ?_, ?_,
        fun hknown => absurd (List.mem_cons_self) (hknown name), ?_, ?_⟩
      · intro b hb
        rcases List.mem_cons.mp hb with rfl | hb
        · exact hg₂.settled hs
        · exact hk₂ b hb
      · -- a name was added, so the names that wait are not the same as before
        intro heq
        obtain ⟨more, hm⟩ := hf₁.forward
        obtain ⟨more', hm'⟩ := hf₂.forward
        rw [hm', hm] at heq
        rw [hm, (Draft.empty_of_append_eq heq).1, Array.append_empty] at hne
        exact absurd rfl hne
      · intro f hf
        rcases hwaits₂ f hf with hf | hf
        · refine (hwaits f hf).imp id ?_
          rintro rfl
          exact List.mem_cons_self
        · exact .inr (List.mem_cons_of_mem _ hf)
      · intro i other hi
        cases i with
        | zero =>
          cases hi
          obtain ⟨names, hnames⟩ := hf₂.names
          exact ⟨label, hnames.locals _ _ hnamed, rfl⟩
        | succ i => exact hnamed₂ i other hi
    | constant _ | register _ _ _ | label _ | typeName _ =>
      refine (ih h hrest).bind ?_
      rintro bound d₂ ⟨h₂, hg₂, hf₂, hb, hk₂, hsame, hkeep, hwaits₂, hnamed₂⟩
      refine ⟨h₂, hg₂, hf₂, .cons (.known (by simp)) hb, ?_, fun heq => by rw [hsame heq],
        fun hknown => hkeep fun name hm => hknown name (List.mem_cons_of_mem _ hm),
        fun f hf => (hwaits₂ f hf).imp id (List.mem_cons_of_mem _), ?_⟩
      · intro b hb
        rcases List.mem_cons.mp hb with rfl | hb
        · exact hg₂.knows (hk _ (by simp))
        · exact hk₂ b hb
      · intro i name hi
        cases i with
        | zero => cases hi
        | succ i => exact hnamed₂ i name hi

/-! ### Operands -/

theorem touchPayload_ensures {payload : Payload} {capacity : Nat}
    (hc : capacity ≤ maxRegisters) (hu : d.registersUsed ≤ capacity)
    (hp : payload.Plain capacity) :
    Ensures (touchPayload payload) d
      (fun _ d' => ∃ used, d' = { d with registersUsed := used } ∧ d.registersUsed ≤ used ∧
        used ≤ capacity ∧ payload.Plain used)
      Excused := by
  simp only [maxRegisters] at hc
  cases payload with
  | register index =>
    have hp : index.toNat < capacity := hp
    refine ⟨max d.registersUsed (min (index.toNat + 1) 255), rfl, Nat.le_max_left _ _, by omega, ?_⟩
    show index.toNat < _
    omega
  | constant _ | label _ => exact ⟨d.registersUsed, rfl, Nat.le_refl _, hu, trivial⟩
  | native _ | raw _ => exact hp.elim

/-- The operand of an argument that is known. -/
theorem plain_of_knows {b : Argument} (hk : d.Knows r pending b) :
    b.payload.Plain r.config.registers := by
  cases b with
  | register index _ _ => exact hk
  | constant _ | label _ | typeName _ | unknown _ => trivial

/-- The registers of operands are counted as in use. -/
theorem payloads_ensures {params : List Parameter} {bound : List Argument}
    {chosen : List (Nat × Payload)} (hchosen : Overload.Chosen params bound chosen) {capacity : Nat}
    (hc : capacity ≤ maxRegisters) (hu : d.registersUsed ≤ capacity)
    (hp : ∀ b ∈ bound, b.payload.Plain capacity) :
    Ensures (payloads params bound) d
      (fun chosen' d' => chosen' = chosen ∧ ∃ used, d' = { d with registersUsed := used } ∧
        d.registersUsed ≤ used ∧ used ≤ capacity ∧
        ∀ o ∈ bound.map Argument.payload, o.Plain used)
      Excused := by
  -- registers are only ever added to those in use, so earlier operands stay plain
  induction hchosen generalizing d with
  | nil => exact ⟨rfl, d.registersUsed, rfl, Nat.le_refl _, hu, by simp⟩
  | @cons p b choice params bound chosen hpay _ _ _ ih =>
    simp only [payloads, hpay]
    refine (touchPayload_ensures hc hu (hp b (by simp))).bind ?_
    rintro - d₁ ⟨used, rfl, hle, hcap, hplain⟩
    refine (ih hcap fun b hb => hp b (List.mem_cons_of_mem _ hb)).bind ?_
    rintro chosen d₂ ⟨rfl, used', rfl, hle', hcap', hplain'⟩
    refine ⟨rfl, used', rfl, Nat.le_trans hle hle', hcap', ?_⟩
    intro o ho
    rcases List.mem_cons.mp ho with rfl | ho
    · exact hplain.mono hle'
    · exact hplain' o ho

/-! ### Bytes -/

theorem labels_write (codec : Codec) (payload : Payload) (b : CodeBuffer) :
    (codec.write payload b).labels = b.labels := by
  cases codec <;> cases payload <;> rfl

theorem write_ensures {codec : Codec} {payload : Payload}
    (he : codec.canEncode payload = true) {pieces : List Piece} (h : d.buffer.Holds pieces) :
    Ensures (write codec payload) d
      (fun _ d' => ∃ buffer, d' = { d with buffer } ∧ buffer.Holds (pieces ++ [payload.piece]) ∧
        buffer.labels = d.buffer.labels)
      Excused := by
  rw [write, if_pos he]
  exact ⟨_, rfl, h.write he, labels_write codec payload _⟩

theorem writeAll_ensures {layout : List Codec} {operands : List Payload}
    (he : Encodable layout operands) {pieces : List Piece} (h : d.buffer.Holds pieces) :
    Ensures (writeAll layout operands) d
      (fun _ d' => ∃ buffer, d' = { d with buffer } ∧
        buffer.Holds (pieces ++ operands.map Payload.piece) ∧ buffer.labels = d.buffer.labels)
      Excused := by
  induction he generalizing pieces d with
  | nil => exact ⟨d.buffer, rfl, by simpa using h, rfl⟩
  | @cons codec payload layout operands hc _ ih =>
    refine (write_ensures hc h).bind ?_
    rintro - d₁ ⟨buffer, rfl, hb, hlabels⟩
    refine (ih hb).mono ?_ (fun _ _ h => h)
    rintro - d₂ ⟨buffer', rfl, hb', hlabels'⟩
    refine ⟨buffer', rfl, ?_, hlabels'.trans hlabels⟩
    rw [List.append_assoc] at hb'
    exact hb'

theorem push_ensures (byte : UInt8) {pieces : List Piece} (h : d.buffer.Holds pieces) :
    Ensures (push byte) d
      (fun _ d' => ∃ buffer, d' = { d with buffer } ∧ buffer.Holds (pieces ++ [.bytes [byte]]) ∧
        buffer.labels = d.buffer.labels)
      Excused :=
  ⟨_, rfl, h.push byte, rfl⟩

/-- The line of a builtin instruction is appended. -/
theorem emitBuiltin_ensures {b : Builtin} {version : Nat} {operands : List Payload}
    (hl : Line.Fits ⟨b, version, operands⟩) {pieces : List Piece} (h : d.buffer.Holds pieces) :
    Ensures (emitBuiltin b.base b.params version operands) d
      (fun _ d' => ∃ buffer, d' = { d with buffer } ∧
        buffer.Holds (pieces ++ Line.pieces ⟨b, version, operands⟩) ∧
        buffer.labels = d.buffer.labels)
      Excused := by
  have hv : version < b.versions := hl.version
  obtain ⟨hlt, -⟩ := b.find?_version hv
  rw [emitBuiltin, if_neg (by omega)]
  refine (push_ensures _ h).bind ?_
  rintro - d₁ ⟨buffer₁, rfl, hb₁, hlabels₁⟩
  refine (writeAll_ensures hl.encodable hb₁).mono ?_ (fun _ _ h => h)
  rintro - d' ⟨buffer, rfl, hb, hlabels⟩
  refine ⟨buffer, rfl, ?_, hlabels.trans hlabels₁⟩
  rwa [List.append_assoc] at hb

/-! ### Calls of host functions -/

theorem nativeSlot_ensures {binding : NativeBinding} (hb : r.native? binding.id = some binding)
    (hn : ∀ n ∈ d.natives, r.native? n.id = some n) :
    Ensures (nativeSlot binding) d
      (fun slot d' => ∃ more, d' = { d with natives := d.natives ++ more } ∧
        (d.natives ++ more)[slot.toNat]? = some binding ∧
        ∀ n ∈ d.natives ++ more, r.native? n.id = some n)
      Excused := by
  simp only [nativeSlot, ensures_get_bind]
  cases hf : d.natives.findIdx? fun n => n.id == binding.id with
  | some slot =>
    simp only [ensures_pure_bind]
    split
    · exact excused (by simp) d
    · rename_i hslot
      obtain ⟨hlt, hid, -⟩ := Array.findIdx?_eq_some_iff_getElem.mp hf
      -- the entry with the number of the host function is that host function
      have hentry : d.natives[slot] = binding := by
        have := hn d.natives[slot] (Array.getElem_mem hlt)
        rw [beq_iff_eq.mp hid, hb] at this
        exact (Option.some.inj this).symm
      refine ⟨#[], by simp, ?_, by simpa using hn⟩
      rw [Array.append_empty, UInt16.toNat_ofNat_of_lt' (by omega), Array.getElem?_eq_getElem hlt,
        hentry]
  | none =>
    simp only [ensures_modify_bind, ensures_pure_bind]
    split
    · exact excused (by simp) _
    · rename_i hslot
      refine ⟨#[binding], by simp, ?_, ?_⟩
      · rw [UInt16.toNat_ofNat_of_lt' (by omega)]
        simp
      · intro n hm
        rcases Array.mem_append.mp hm with hm | hm
        · exact hn n hm
        · obtain rfl : n = binding := by simpa using hm
          exact hb

/-- The operands of a host function are written into a block, which they fit since there are few of
them. -/
theorem operandBlock_eq_ok {layout : List Codec} {operands : List Payload}
    (he : Encodable layout operands) (hl : ∀ id, .label id ∉ operands) :
    operandBlock layout operands
      = .ok (assemble (fun _ => 0) (operands.map Payload.piece)) := by
  have encode : ∀ {layout : List Codec} {operands : List Payload}, Encodable layout operands →
      ∀ {b : CodeBuffer} {pieces : List Piece}, b.Holds pieces →
      ∃ b', Codec.encodeAll layout operands b = .ok b' ∧
        b'.Holds (pieces ++ operands.map Payload.piece) := by
    intro layout operands he
    induction he with
    | nil => exact fun h => ⟨_, rfl, by simpa using h⟩
    | @cons codec payload layout operands hc _ ih =>
      intro b pieces h
      obtain ⟨b', hb', hh⟩ := ih (h.write hc)
      refine ⟨b', ?_, ?_⟩
      · rw [Codec.encodeAll, Codec.encode, if_pos hc]
        exact hb'
      · rw [List.append_assoc] at hh
        exact hh
  obtain ⟨b, hb, hh⟩ := encode he .empty
  rw [List.nil_append] at hh
  -- without labels nothing is left to fill in
  have hnone : ∀ id, .label id ∉ operands.map Payload.piece := by
    intro id hm
    obtain ⟨payload, hm, hp⟩ := List.mem_map.mp hm
    cases payload with
    | label id' => exact hl id' hm
    | _ => cases hp
  have hfinish : b.finish = .ok (assemble b.target (operands.map Payload.piece)).toArray :=
    hh.finish_eq_ok_iff.mpr ⟨fun id hm => absurd hm (hnone id), rfl⟩
  rw [operandBlock, hb]
  simp only [hfinish]
  exact congrArg Except.ok (assemble_congr fun id hm => absurd hm (hnone id))

/-- A block of operands of scripts takes at most four bytes for each of them. -/
theorem sizeOfPieces_le {operands : List Payload} {registers : Nat}
    (h : ∀ o ∈ operands, o.Plain registers) :
    sizeOfPieces (operands.map Payload.piece) ≤ 4 * operands.length := by
  induction operands with
  | nil => exact Nat.le_refl _
  | cons o operands ih =>
    have ho := h o (by simp)
    have hrest := ih fun o ho => h o (List.mem_cons_of_mem _ ho)
    have hsize : o.piece.size ≤ 4 := by
      cases o with
      | native _ | raw _ => exact ho.elim
      | constant _ | register _ | label _ => simp [Payload.piece, Piece.size]
    rw [List.map_cons, sizeOfPieces_cons, List.length_cons]
    omega

/-- Host functions are given no labels. -/
theorem not_label_of_ofHost {params : List Parameter} (hp : ∀ p ∈ params, p.OfHost)
    {arguments bound : List Argument}
    (hs : List.Forall₂ (fun p a => (Argument.score a p).isSome = true) params arguments)
    (hb : List.Forall₂ Argument.Binds arguments bound) :
    ∀ id, .label id ∉ bound.map Argument.payload := by
  induction hs generalizing bound with
  | nil =>
    cases hb
    simp
  | @cons p a params arguments hscore _ ih =>
    cases hb with
    | @cons _ b _ bound hbind hb =>
      obtain ⟨-, -, -, -, hl⟩ := Argument.exists_payload hscore hbind
      have hfirst := hl (hp p (by simp))
      intro id hm
      rcases List.mem_cons.mp hm with heq | hm
      · cases b <;> cases heq
        exact hfirst id rfl
      · exact ih (fun p hp' => hp p (List.mem_cons_of_mem _ hp')) hb id hm

/-- The call of a version of a host function is appended. -/
theorem emitNative_ensures {binding : NativeBinding} {first version : Nat}
    (hb : r.native? (first + version) = some binding) (hid : binding.id = first + version)
    {operands : List Payload} (he : Encodable binding.layout operands)
    (hl : ∀ id, .label id ∉ operands)
    (hshort : sizeOfPieces (operands.map Payload.piece) < 256)
    (hn : ∀ n ∈ d.natives, r.native? n.id = some n) {pieces : List Piece}
    (h : d.buffer.Holds pieces) :
    Ensures (emitNative r first version operands) d
      (fun _ d' => ∃ buffer more slot, d' = { d with buffer, natives := d.natives ++ more } ∧
        (d.natives ++ more)[slot.toNat]? = some binding ∧
        (∀ n ∈ d.natives ++ more, r.native? n.id = some n) ∧
        buffer.Holds (pieces ++ Line.pieces ⟨.call, 0, [.native slot,
          .raw (assemble (fun _ => 0) (operands.map Payload.piece))]⟩) ∧
        buffer.labels = d.buffer.labels)
      Excused := by
  rw [emitNative, hb]
  refine (nativeSlot_ensures (hid ▸ hb) hn).bind ?_
  rintro slot d₁ ⟨more, rfl, hentered, hn₁⟩
  rw [operandBlock_eq_ok he hl]
  simp only [ofExcept, ensures_pure_bind]
  have hd₁ : ({ d with natives := d.natives ++ more } : Draft).buffer.Holds pieces := h
  refine (push_ensures _ hd₁).bind ?_
  rintro - d₂ ⟨buffer₂, rfl, hb₂, hlabels₂⟩
  have hnative : Codec.native.canEncode (.native slot) = true := rfl
  refine (write_ensures hnative hb₂).bind ?_
  rintro - d₃ ⟨buffer₃, rfl, hb₃, hlabels₃⟩
  have hraw : Codec.raw.canEncode
      (.raw (assemble (fun _ => 0) (operands.map Payload.piece))) = true := by
    simpa [Codec.canEncode] using hshort
  refine (write_ensures hraw hb₃).mono ?_ (fun _ _ h => h)
  rintro - d₄ ⟨buffer₄, rfl, hb₄, hlabels₄⟩
  refine ⟨buffer₄, more, slot, rfl, hentered, hn₁, ?_,
    hlabels₄.trans (hlabels₃.trans hlabels₂)⟩
  simpa [Line.pieces, List.append_assoc] using hb₄

/-! ### Operations -/

theorem frame_of_labels {buffer : CodeBuffer} (hlabels : buffer.labels = d.buffer.labels)
    {natives : Array NativeBinding} {used : Nat} :
    d.Frame { d with buffer, natives, registersUsed := used } := by
  refine ⟨rfl, rfl, rfl, ⟨#[], by simp⟩, fun _ => ⟨rfl, hlabels⟩, fun hw f hf => ?_, ⟨#[], ?_⟩⟩
  · have hnone := hw f hf
    rwa [CodeBuffer.position?, ← hlabels] at hnone
  · refine .of_same rfl rfl (Nat.le_of_eq (congrArg Array.size hlabels.symm)) fun _ id _ => ?_
    rw [CodeBuffer.position?, CodeBuffer.position?, hlabels]

/-- The line of a builtin instruction is one more line of a sound draft. -/
theorem appendBuiltin_ensures (h : d.Sound r lines pending) {b : Builtin} {version : Nat}
    {operands : List Payload} (hfit : Line.Fits ⟨b, version, operands⟩) {used : Nat}
    (hle : d.registersUsed ≤ used) (hcap : used ≤ r.config.registers)
    (hplain : ∀ o ∈ operands, o.Plain used)
    (ht : ∀ label, .label label ∈ operands → d.Settled pending label) :
    Ensures (emitBuiltin b.base b.params version operands) { d with registersUsed := used }
      (fun _ d' => d'.Sound r (lines ++ [⟨b, version, operands⟩]) pending ∧ d.Grows d' ∧
        d.Frame d' ∧ d'.forward = d.forward)
      Excused := by
  have hb : ({ d with registersUsed := used } : Draft).buffer.Holds (piecesOf lines) := h.holds
  refine (emitBuiltin_ensures hfit hb).mono ?_ (fun _ _ h => h)
  rintro - d' ⟨buffer, rfl, hbuf, hlabels⟩
  have hlabels : buffer.labels = d.buffer.labels := hlabels
  have hnone : ∃ more, d.natives = d.natives ++ more := ⟨#[], by simp⟩
  refine ⟨h.write ?_ hlabels hnone h.natives hle hcap (.plain hfit hplain) ht,
    Draft.Sound.grows_write hlabels hnone hle, frame_of_labels hlabels, rfl⟩
  simpa [piecesOf] using hbuf

/-- The call of a host function is one more line of a sound draft. -/
theorem appendNative_ensures (h : d.Sound r lines pending) {binding : NativeBinding}
    {first version : Nat} (hb : r.native? (first + version) = some binding)
    (hid : binding.id = first + version) {operands : List Payload}
    (he : Encodable binding.layout operands) (hl : ∀ id, .label id ∉ operands)
    (hshort : sizeOfPieces (operands.map Payload.piece) < 256) {used : Nat}
    (hle : d.registersUsed ≤ used) (hcap : used ≤ r.config.registers)
    (hplain : ∀ o ∈ operands, o.Plain used) :
    Ensures (emitNative r first version operands) { d with registersUsed := used }
      (fun _ d' => ∃ slot : UInt16, d'.natives[slot.toNat]? = some binding ∧
        d'.Sound r (lines ++ [⟨.call, 0, [.native slot,
          .raw (assemble (fun _ => 0) (operands.map Payload.piece))]⟩]) pending ∧
        d.Grows d' ∧ d.Frame d' ∧ d'.forward = d.forward)
      Excused := by
  have hd : ({ d with registersUsed := used } : Draft).buffer.Holds (piecesOf lines) := h.holds
  have hn : ∀ n ∈ ({ d with registersUsed := used } : Draft).natives,
      r.native? n.id = some n := h.natives
  refine (emitNative_ensures hb hid he hl hshort hn hd).mono ?_ (fun _ _ h => h)
  rintro - d' ⟨buffer, more, slot, rfl, hentered, hn', hbuf, hlabels⟩
  have hlabels : buffer.labels = d.buffer.labels := hlabels
  have hmore : ∃ more', d.natives ++ more = d.natives ++ more' := ⟨more, rfl⟩
  have hblock : (assemble (fun _ => 0) (operands.map Payload.piece)).length < 256 := by
    rwa [length_assemble]
  refine ⟨slot, hentered, h.write ?_ hlabels hmore hn' hle hcap
    (.call hentered he hplain rfl hblock) (by simp), Draft.Sound.grows_write hlabels hmore hle,
    frame_of_labels hlabels, rfl⟩
  simpa [piecesOf] using hbuf

/-- The operands of a host function fit a block, since there are few of them. -/
theorem sizeOfPieces_lt {params : List Parameter} {arguments bound : List Argument}
    (hs : List.Forall₂ (fun p a => (Argument.score a p).isSome = true) params arguments)
    (hb : List.Forall₂ Argument.Binds arguments bound)
    (few : params.length ≤ RegistryError.argumentLimit) {registers : Nat}
    (hplain : ∀ o ∈ bound.map Argument.payload, o.Plain registers) :
    sizeOfPieces ((bound.map Argument.payload).map Payload.piece) < 256 := by
  have hsize := sizeOfPieces_le hplain
  have hlen : bound.length = params.length := hb.length_eq.symm.trans hs.length_eq.symm
  rw [List.length_map, hlen] at hsize
  simp only [RegistryError.argumentLimit] at few
  omega

/-- Emitting an operation appends a line of the overload that is chosen. -/
theorem emit_ensures (hr : r.Sound) {name : String} {op : Operation}
    (hop : r.operation? name = some op) (h : d.Sound r lines pending) {arguments : List Argument}
    (hk : ∀ a ∈ arguments, d.Knows r pending a) :
    Ensures (emit r op arguments) d
      (fun _ d' => ∃ l, Draft.Emits r op arguments lines pending l d d') Excused := by
  rw [emit]
  cases hsel : op.select r arguments with
  | error kind => exact excused (Operation.select_kind hsel) d
  | ok o =>
    obtain ⟨ho, score, hfits, -⟩ := Operation.select_eq_ok hsel
    have hs := Overload.forall_of_totalScore? hfits
    simp only [ofExcept, ensures_pure_bind]
    -- unknown names become labels first, and registers are counted, both before any byte is written
    refine (bindForward_ensures h hk).bind ?_
    rintro bound d₁ ⟨h₁, hg₁, hf₁, hb, hk₁, hsame, hkeep, hwaits, hnamed⟩
    have hcap := (RegistryConfig.of_fault?_eq_none hr.config).1
    obtain ⟨chosen, hchosen⟩ := Overload.Chosen.of_score hs hb
    refine (payloads_ensures hchosen hcap h₁.used fun b hb => plain_of_knows (hk₁ b hb)).bind ?_
    rintro chosen d₂ ⟨rfl, used, rfl, hle, hcap', hplain⟩
    have hversion := versionOf_lt hchosen.valid
    have henc := hchosen.encodable
    rw [hchosen.payloads]
    have hsound := hr.overloads name op hop o ho
    cases hsound with
    | builtin b doc named =>
      have hfit : Line.Fits ⟨b, versionOf b.params (chosen.map Prod.fst),
          bound.map Argument.payload⟩ := ⟨b.versions_eq ▸ hversion, henc⟩
      have htargets : ∀ label, .label label ∈ bound.map Argument.payload →
          d₁.Settled pending label := by
        intro label hm
        obtain ⟨b, hb, hp⟩ := List.mem_map.mp hm
        cases b <;> cases hp
        exact hk₁ _ hb
      refine (appendBuiltin_ensures h₁ hfit hle hcap' hplain htargets).mono ?_ (fun _ _ h => h)
      rintro - d₃ ⟨h₃, hg₃, hf₃, hforward⟩
      obtain ⟨names, hnames⟩ := hf₃.names
      refine ⟨_, ⟨_, bound, hsel, hb, fun hf => hsame (hforward ▸ hf), .builtin _⟩, h₃,
        hg₁.trans hg₃, hf₁.trans hf₃, fun hknown => hforward.trans (hkeep hknown),
        fun f hf => hwaits f (hforward ▸ hf), fun i name hi => ?_⟩
      obtain ⟨id, hid, hbound⟩ := hnamed i name hi
      exact ⟨id, hnames.locals _ _ hid, by rw [List.getElem?_map, hbound]; rfl⟩
    | @native params first doc routine ofHost few entered =>
      have hregistered := entered _ hversion
      have hl := not_label_of_ofHost ofHost hs hb
      have hshort := sizeOfPieces_lt hs hb few hplain
      refine (appendNative_ensures h₁ hregistered rfl henc hl hshort hle hcap' hplain).mono ?_
        (fun _ _ h => h)
      rintro - d₃ ⟨slot, hentered, h₃, hg₃, hf₃, hforward⟩
      refine ⟨_, ⟨_, bound, hsel, hb, fun hf => hsame (hforward ▸ hf),
        .native hregistered hversion hentered henc⟩, h₃,
        hg₁.trans hg₃, hf₁.trans hf₃, fun hknown => hforward.trans (hkeep hknown),
        fun f hf => hwaits f (hforward ▸ hf), fun i name hi => ?_⟩
      -- host functions are given no labels, hence no unknown names
      obtain ⟨id, -, hbound⟩ := hnamed i name hi
      exact absurd (List.mem_map_of_mem (List.mem_of_getElem? hbound)) (hl id)

end Drafting

end HookScript
