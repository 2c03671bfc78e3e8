/-
What is true of a script under compilation.

The code so far consists of lines (`Line`), and every label of the script is placed, waits for a
declaration, or is pending: it belongs to an open block or is in the hands of the compiler.

* `Draft.Sound` — the invariant, for given lines and pending labels;
* `Draft.Sound.bindLabel`, `Draft.Sound.newLabel`, `Draft.Sound.forward`, `Draft.Sound.declare` and
  `Draft.Sound.write` — what the changes of a draft do to it;
* `Draft.Grows` — what a draft keeps for good.
-/
import HookScript.Compile.Draft
import HookScript.Proofs.Code.Line
import HookScript.Proofs.Registry.History

namespace HookScript

/-! ### Labels of code buffers -/

namespace CodeBuffer

theorem position?_newLabel (b : CodeBuffer) (label : LabelId) :
    b.newLabel.position? label = b.position? label := by
  simp only [position?, newLabel, Array.getElem?_push]
  split
  · rename_i h
    simp [h]
  · rfl

theorem position?_bindLabel {b : CodeBuffer} {label : LabelId}
    (h : label.index.toNat < b.labels.size) (other : LabelId) :
    (b.bindLabel label).position? other
      = if label = other then some b.code.size else b.position? other := by
  have hid : label = other ↔ label.index.toNat = other.index.toNat := by
    cases label
    cases other
    simp [UInt16.toNat_inj]
  simp only [position?, bindLabel, Array.getElem?_setIfInBounds, hid]
  split
  · rfl
  · rfl

/-- A label can be bound if it has been made, has no position yet, and the code is not too long. -/
theorem labelFault?_eq_none_iff {b : CodeBuffer} {label : LabelId} :
    b.labelFault? label = none ↔
      b.size < UInt32.size ∧ label.index.toNat < b.labels.size ∧ b.position? label = none := by
  rw [labelFault?]
  split
  · rename_i hlarge
    simp only [reduceCtorEq, false_iff, not_and]
    omega
  · rename_i hsmall
    rw [and_iff_right (Nat.not_le.mp hsmall), position?]
    by_cases hl : label.index.toNat < b.labels.size
    · rw [Array.getElem?_eq_getElem hl]
      cases b.labels[label.index.toNat] <;> simp [hl]
    · simp [hl]

theorem isDefined_eq_true_iff {b : CodeBuffer} {label : LabelId} :
    b.isDefined label = true ↔ ∃ place, b.position? label = some place :=
  Option.isSome_iff_exists

end CodeBuffer

namespace Draft

/-- The label has been made for the script. -/
def HasLabel (d : Draft) (label : LabelId) : Prop :=
  label.index.toNat < d.buffer.labels.size

/-- The name of the label was used before its declaration. -/
def Awaits (d : Draft) (label : LabelId) : Prop :=
  ∃ f ∈ d.forward, f.label = label

/-- The label has a position, or will have one if the script is accepted. -/
def Settled (d : Draft) (pending : List LabelId) (label : LabelId) : Prop :=
  d.buffer.isDefined label = true ∨ d.Awaits label ∨ label ∈ pending

/-- What is true of a script under compilation whose code are the given lines, and in which the
given labels are still to be placed by the compiler. -/
structure Sound (r : Registry) (lines : List Line) (pending : List LabelId) (d : Draft) : Prop where
  holds : d.buffer.Holds (piecesOf lines)
  written : ∀ l ∈ lines, l.Sound d.natives d.registersUsed
  used : d.registersUsed ≤ r.config.registers
  natives : ∀ n ∈ d.natives, r.native? n.id = some n
  registers : ∀ name index type writable,
    d.locals.find? name = some (.register index type writable) →
      index.toNat < r.config.registers
  labelCount : d.buffer.labels.size ≤ Drafting.maxLabels
  /-- labels are placed where lines begin -/
  places : ∀ label place, d.buffer.position? label = some place →
    place < UInt32.size ∧ ∃ done, done <+: lines ∧ place = codeSize done
  named : ∀ name label, d.locals.find? name = some (.label label) →
    d.HasLabel label ∧ label ∉ pending ∧ (d.buffer.isDefined label = true ∨ d.Awaits label)
  targets : ∀ l ∈ lines, ∀ label, .label label ∈ l.payloads → d.Settled pending label
  unplaced : ∀ label ∈ pending, d.HasLabel label ∧ d.buffer.position? label = none
  waits : ∀ f ∈ d.forward, d.HasLabel f.label ∧ f.label ∉ pending
  nodup : pending.Nodup

/-- What a draft keeps for good: the positions of labels, the table of host functions, the registers
in use, and the names that wait for a declaration. -/
structure Grows (d d' : Draft) : Prop where
  positions : ∀ label place, d.buffer.position? label = some place →
    d'.buffer.position? label = some place
  natives : ∃ more, d'.natives = d.natives ++ more
  used : d.registersUsed ≤ d'.registersUsed
  forward : ∀ f ∈ d.forward, f ∈ d'.forward

namespace Grows

variable {d d' d'' : Draft}

theorem refl : d.Grows d := ⟨fun _ _ h => h, ⟨#[], by simp⟩, Nat.le_refl _, fun _ h => h⟩

theorem trans (h : d.Grows d') (h' : d'.Grows d'') : d.Grows d'' := by
  refine ⟨fun label place hp => h'.positions label place (h.positions label place hp), ?_,
    Nat.le_trans h.used h'.used, fun f hf => h'.forward f (h.forward f hf)⟩
  obtain ⟨more, hm⟩ := h.natives
  obtain ⟨more', hm'⟩ := h'.natives
  exact ⟨more ++ more', by rw [hm', hm, Array.append_assoc]⟩

theorem isDefined (h : d.Grows d') {label : LabelId} (hd : d.buffer.isDefined label = true) :
    d'.buffer.isDefined label = true := by
  obtain ⟨place, hp⟩ := CodeBuffer.isDefined_eq_true_iff.mp hd
  exact CodeBuffer.isDefined_eq_true_iff.mpr ⟨place, h.positions label place hp⟩

theorem awaits (h : d.Grows d') {label : LabelId} (ha : d.Awaits label) : d'.Awaits label := by
  obtain ⟨f, hf, hl⟩ := ha
  exact ⟨f, h.forward f hf, hl⟩

theorem settled (h : d.Grows d') {pending : List LabelId} {label : LabelId}
    (hs : d.Settled pending label) : d'.Settled pending label :=
  hs.imp h.isDefined (Or.imp h.awaits id)

end Grows

/-! ### Changes of the labels and names of a draft -/

namespace Sound

variable {r : Registry} {lines : List Line} {pending : List LabelId} {d : Draft}

theorem size_eq (h : d.Sound r lines pending) : d.buffer.size = codeSize lines :=
  h.holds.size_eq

theorem perm (h : d.Sound r lines pending) {pending' : List LabelId}
    (hp : pending.Perm pending') : d.Sound r lines pending' :=
  { h with
    named := fun name label hn =>
      let ⟨hl, hm, hs⟩ := h.named name label hn
      ⟨hl, fun hm' => hm (hp.mem_iff.mpr hm'), hs⟩
    targets := fun l hl label ht => (h.targets l hl label ht).imp id (Or.imp id hp.mem_iff.mp)
    unplaced := fun label hl => h.unplaced label (hp.mem_iff.mpr hl)
    waits := fun f hf => (h.waits f hf).imp id fun hm hm' => hm (hp.mem_iff.mpr hm')
    nodup := hp.nodup_iff.mp h.nodup }

theorem grows_newLabel : d.Grows { d with buffer := d.buffer.newLabel } :=
  ⟨fun label place hp => by rw [CodeBuffer.position?_newLabel, hp], ⟨#[], by simp⟩, Nat.le_refl _,
    fun _ h => h⟩

theorem toNat_nextLabel (h : d.Sound r lines pending) :
    d.buffer.nextLabel.index.toNat = d.buffer.labels.size := by
  have := h.labelCount
  simp only [Drafting.maxLabels] at this
  rw [CodeBuffer.nextLabel, UInt16.toNat_ofNat']
  omega

theorem newLabel (h : d.Sound r lines pending)
    (hc : d.buffer.labels.size < Drafting.maxLabels) :
    Sound r lines (d.buffer.nextLabel :: pending) { d with buffer := d.buffer.newLabel } := by
  have hsize : d.buffer.newLabel.labels.size = d.buffer.labels.size + 1 := by
    simp [CodeBuffer.newLabel]
  have hnext := h.toNat_nextLabel
  -- the number of the new label is larger than those of all labels so far
  have older : ∀ label, d.HasLabel label → label ≠ d.buffer.nextLabel := by
    rintro label hl rfl
    rw [HasLabel, hnext] at hl
    omega
  have keeps : ∀ label, d.HasLabel label →
      HasLabel { d with buffer := d.buffer.newLabel } label := by
    intro label hl
    show label.index.toNat < d.buffer.newLabel.labels.size
    rw [hsize]
    exact Nat.lt_succ_of_lt hl
  refine { h with
    holds := ⟨h.holds.code, h.holds.placeholders⟩
    labelCount := by rw [hsize]; omega
    places := fun label place hp => ?_
    named := fun name label hn => ?_
    targets := fun l hl label ht => ?_
    unplaced := fun label hl => ?_
    waits := fun f hf => ?_
    nodup := List.nodup_cons.mpr ⟨fun hm => older _ (h.unplaced _ hm).1 rfl, h.nodup⟩ }
  · rw [CodeBuffer.position?_newLabel] at hp
    exact h.places label place hp
  · obtain ⟨hl, hm, hs⟩ := h.named name label hn
    refine ⟨keeps label hl, ?_, hs.imp grows_newLabel.isDefined id⟩
    rw [List.mem_cons, not_or]
    exact ⟨older label hl, hm⟩
  · exact (grows_newLabel.settled (h.targets l hl label ht)).imp id
      (Or.imp id (List.mem_cons_of_mem _))
  · rw [CodeBuffer.position?_newLabel]
    rcases List.mem_cons.mp hl with rfl | hl
    · refine ⟨?_, ?_⟩
      · show d.buffer.nextLabel.index.toNat < d.buffer.newLabel.labels.size
        rw [hsize, hnext]
        exact Nat.lt_succ_self _
      · rw [CodeBuffer.position?, hnext]
        simp
    · exact ⟨keeps label (h.unplaced label hl).1, (h.unplaced label hl).2⟩
  · obtain ⟨hl, hm⟩ := h.waits f hf
    refine ⟨keeps f.label hl, ?_⟩
    rw [List.mem_cons, not_or]
    exact ⟨older f.label hl, hm⟩

theorem grows_bindLabel {label : LabelId} (hl : d.HasLabel label)
    (hu : d.buffer.position? label = none) :
    d.Grows { d with buffer := d.buffer.bindLabel label } := by
  refine ⟨fun other place hp => ?_, ⟨#[], by simp⟩, Nat.le_refl _, fun _ h => h⟩
  rw [CodeBuffer.position?_bindLabel hl]
  split
  · rename_i heq
    rw [← heq, hu] at hp
    cases hp
  · exact hp

/-- Placing a label, which is not pending any more. -/
theorem bindLabel (h : d.Sound r lines pending) {label : LabelId} (hl : d.HasLabel label)
    (hu : d.buffer.position? label = none) (hsize : d.buffer.size < UInt32.size)
    {pending' : List LabelId} (hsub : pending'.Sublist pending) (hout : label ∉ pending')
    (hrest : ∀ other ∈ pending, other = label ∨ other ∈ pending') :
    Sound r lines pending' { d with buffer := d.buffer.bindLabel label } := by
  have hg := grows_bindLabel hl hu
  have hlabels : (d.buffer.bindLabel label).labels.size = d.buffer.labels.size := by
    simp [CodeBuffer.bindLabel]
  have hd : (d.buffer.bindLabel label).isDefined label = true := by
    rw [CodeBuffer.isDefined, CodeBuffer.position?_bindLabel hl, if_pos rfl]
    rfl
  have keeps : ∀ other, d.HasLabel other →
      HasLabel { d with buffer := d.buffer.bindLabel label } other := by
    intro other ho
    show other.index.toNat < (d.buffer.bindLabel label).labels.size
    rwa [hlabels]
  refine { h with
    holds := ⟨h.holds.code, h.holds.placeholders⟩
    labelCount := by rw [hlabels]; exact h.labelCount
    places := fun other place hp => ?_
    named := fun name other hn => ?_
    targets := fun l hm other ht => ?_
    unplaced := fun other ho => ?_
    waits := fun f hf => ⟨keeps f.label (h.waits f hf).1, fun hm => (h.waits f hf).2 (hsub.mem hm)⟩
    nodup := h.nodup.sublist hsub }
  · rw [CodeBuffer.position?_bindLabel hl] at hp
    split at hp
    · cases hp
      exact ⟨hsize, lines, List.prefix_refl _, h.size_eq⟩
    · exact h.places other place hp
  · obtain ⟨ho, hm, hs⟩ := h.named name other hn
    exact ⟨keeps other ho, fun hm' => hm (hsub.mem hm'), hs.imp hg.isDefined hg.awaits⟩
  · -- the label that was pending has a position now, the others are still settled
    rcases h.targets l hm other ht with hs | hs | hs
    · exact .inl (hg.isDefined hs)
    · exact .inr (.inl hs)
    · rcases hrest other hs with rfl | hs
      · exact .inl hd
      · exact .inr (.inr hs)
  · obtain ⟨hh, hp⟩ := h.unplaced other (hsub.mem ho)
    refine ⟨keeps other hh, ?_⟩
    rw [CodeBuffer.position?_bindLabel hl, if_neg, hp]
    rintro rfl
    exact hout ho

/-- Giving a name to a label that is placed already. -/
theorem nameLabel (h : d.Sound r lines pending) {label : LabelId} (hl : d.HasLabel label)
    (hd : d.buffer.isDefined label = true) (name : String) :
    Sound r lines pending
      { d with locals := ⟨d.locals.entries.insert name (.label label)⟩ } := by
  refine { h with
    registers := fun other index type writable hn => ?_
    named := fun other label' hn => ?_ }
  · rw [SymbolTable.find?_insert] at hn
    split at hn
    · cases hn
    · exact h.registers other index type writable hn
  · rw [SymbolTable.find?_insert] at hn
    split at hn
    · cases hn
      refine ⟨hl, fun hm => ?_, .inl hd⟩
      rw [CodeBuffer.isDefined, (h.unplaced label hm).2] at hd
      cases hd
    · exact h.named other label' hn

theorem grows_forward (locals : SymbolTable) (f : ForwardLabel) :
    d.Grows { d with locals, forward := d.forward.push f } :=
  ⟨fun _ _ h => h, ⟨#[], by simp⟩, Nat.le_refl _, fun _ h => Array.mem_push_of_mem _ h⟩

/-- A pending label waits for the declaration of its name. -/
theorem forward {label : LabelId} (h : d.Sound r lines (label :: pending)) (name : String)
    (span : Span) :
    Sound r lines pending
      { d with
        locals := ⟨d.locals.entries.insert name (.label label)⟩
        forward := d.forward.push ⟨label, name, span⟩ } := by
  have hg : d.Grows _ :=
    grows_forward ⟨d.locals.entries.insert name (.label label)⟩ ⟨label, name, span⟩
  have hnodup := List.nodup_cons.mp h.nodup
  -- what was pending is waiting now, and so it remains settled
  have ha : Awaits { d with
      locals := ⟨d.locals.entries.insert name (.label label)⟩
      forward := d.forward.push ⟨label, name, span⟩ } label :=
    ⟨_, Array.mem_push_self, rfl⟩
  refine { h with
    registers := fun other index type writable hn => ?_
    named := fun other label' hn => ?_
    targets := fun l hl label' ht => ?_
    unplaced := fun label' hl => h.unplaced label' (List.mem_cons_of_mem _ hl)
    waits := fun f hf => ?_
    nodup := hnodup.2 }
  · rw [SymbolTable.find?_insert] at hn
    split at hn
    · cases hn
    · exact h.registers other index type writable hn
  · rw [SymbolTable.find?_insert] at hn
    split at hn
    · cases hn
      exact ⟨(h.unplaced label (by simp)).1, hnodup.1, .inr ha⟩
    · obtain ⟨hl, hm, hs⟩ := h.named other label' hn
      exact ⟨hl, fun hm' => hm (List.mem_cons_of_mem _ hm'), hs.imp hg.isDefined hg.awaits⟩
  · rcases h.targets l hl label' ht with hs | hs | hs
    · exact .inl (hg.isDefined hs)
    · exact .inr (.inl (hg.awaits hs))
    · rcases List.mem_cons.mp hs with rfl | hs
      · exact .inr (.inl ha)
      · exact .inr (.inr hs)
  · rcases Array.mem_push.mp hf with hf | rfl
    · exact (h.waits f hf).imp id fun hm hm' => hm (List.mem_cons_of_mem _ hm')
    · exact ⟨(h.unplaced label (by simp)).1, hnodup.1⟩

/-- A variable gets the next free register. -/
theorem declare (h : d.Sound r lines pending) {name : String} {type : ValueType}
    (hr : d.nextRegister < r.config.registers) (hc : r.config.registers ≤ maxRegisters) :
    Sound r lines pending
      { d with
        locals := ⟨d.locals.entries.insert name (.register (UInt8.ofNat d.nextRegister) type true)⟩
        nextRegister := d.nextRegister + 1
        registersUsed := max d.registersUsed (d.nextRegister + 1) } := by
  have hu := h.used
  simp only [maxRegisters] at hc
  refine { h with
    written := fun l hl => ?_
    used := by
      show max d.registersUsed (d.nextRegister + 1) ≤ r.config.registers
      omega
    registers := fun other index type writable hn => ?_
    named := fun other label' hn => ?_ }
  · -- lines that fit the registers so far fit one more
    have := (h.written l hl).mono #[] (Nat.le_max_left _ (d.nextRegister + 1))
    simpa using this
  · rw [SymbolTable.find?_insert] at hn
    split at hn
    · cases hn
      rw [UInt8.toNat_ofNat']
      omega
    · exact h.registers other index type writable hn
  · rw [SymbolTable.find?_insert] at hn
    split at hn
    · cases hn
    · exact h.named other label' hn

theorem grows_write {buffer : CodeBuffer} (hlabels : buffer.labels = d.buffer.labels)
    {natives : Array NativeBinding} (hn : ∃ more, natives = d.natives ++ more) {used : Nat}
    (hle : d.registersUsed ≤ used) :
    d.Grows { d with buffer, natives, registersUsed := used } := by
  refine ⟨fun label place hp => ?_, hn, hle, fun _ h => h⟩
  rwa [CodeBuffer.position?, hlabels]

/-- One more line, whose operands are known. -/
theorem write (h : d.Sound r lines pending) {buffer : CodeBuffer} {l : Line}
    (hb : buffer.Holds (piecesOf (lines ++ [l]))) (hlabels : buffer.labels = d.buffer.labels)
    {natives : Array NativeBinding} (hn : ∃ more, natives = d.natives ++ more)
    (hnatives : ∀ n ∈ natives, r.native? n.id = some n) {used : Nat}
    (hle : d.registersUsed ≤ used) (hused : used ≤ r.config.registers)
    (hl : l.Sound natives used)
    (ht : ∀ label, .label label ∈ l.payloads → d.Settled pending label) :
    Sound r (lines ++ [l]) pending { d with buffer, natives, registersUsed := used } := by
  -- writing does not move labels
  have position : ∀ label, buffer.position? label = d.buffer.position? label := by
    intro label
    rw [CodeBuffer.position?, CodeBuffer.position?, hlabels]
  have hg := grows_write hlabels hn hle
  have has : ∀ label, d.HasLabel label →
      HasLabel { d with buffer, natives, registersUsed := used } label := by
    intro label hl
    show label.index.toNat < buffer.labels.size
    rwa [hlabels]
  obtain ⟨more, rfl⟩ := hn
  refine { holds := hb, used := hused, natives := hnatives, registers := h.registers,
           nodup := h.nodup
           written := fun l' hl' => ?_
           labelCount := by rw [hlabels]; exact h.labelCount
           places := fun label place hp => ?_
           named := fun name label hm => ?_
           targets := fun l' hl' label ht' => ?_
           unplaced := fun label hm => ?_
           waits := fun f hf => (h.waits f hf).imp (has f.label) id }
  · rcases List.mem_append.mp hl' with hl' | hl'
    · exact (h.written l' hl').mono more hle
    · rwa [List.mem_singleton.mp hl']
  · rw [position] at hp
    obtain ⟨hlt, done, hdone, heq⟩ := h.places label place hp
    exact ⟨hlt, done, hdone.trans (List.prefix_append _ _), heq⟩
  · obtain ⟨hl', hm', hs⟩ := h.named name label hm
    exact ⟨has label hl', hm', hs.imp hg.isDefined hg.awaits⟩
  · rcases List.mem_append.mp hl' with hl' | hl'
    · exact hg.settled (h.targets l' hl' label ht')
    · rw [List.mem_singleton.mp hl'] at ht'
      exact hg.settled (ht label ht')
  · obtain ⟨hl', hp⟩ := h.unplaced label hm
    exact ⟨has label hl', by rw [position, hp]⟩

end Sound

end Draft

end HookScript
