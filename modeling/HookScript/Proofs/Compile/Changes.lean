/-
The changes that a script goes through while it is compiled.

Whatever the compiler does to a draft, where it fails as much as where it succeeds, is a chain of a
few changes.  That holds for every registry, whatever the keywords of its host ask for, so what a
change preserves is true of all drafts.

* `Draft.Change` — the changes, each with the deed that it amounts to;
* `Draft.Evolves` — a chain of changes whose deeds a `Licence` permits;
* `Draft.Orderly` — what all changes preserve;
-/
import HookScript.Proofs.Compile.Statements
import Mathlib.Logic.Relation

namespace HookScript

/-! ### Pieces that are appended -/

namespace CodeBuffer

/-- The buffer with pieces appended. -/
def put (b : CodeBuffer) : List Piece → CodeBuffer
  | [] => b
  | .bytes bs :: pieces => (b.append bs).put pieces
  | .label id :: pieces => (b.pushLabel id).put pieces

theorem put_append (b : CodeBuffer) (pieces more : List Piece) :
    b.put (pieces ++ more) = (b.put pieces).put more := by
  induction pieces generalizing b with
  | nil => rfl
  | cons piece pieces ih => cases piece <;> exact ih _

@[simp] theorem labels_put (b : CodeBuffer) (pieces : List Piece) :
    (b.put pieces).labels = b.labels := by
  induction pieces generalizing b with
  | nil => rfl
  | cons piece pieces ih => cases piece <;> exact ih _

theorem position?_put (b : CodeBuffer) (pieces : List Piece) (label : LabelId) :
    (b.put pieces).position? label = b.position? label := by
  rw [position?, position?, labels_put]

theorem Holds.put {b : CodeBuffer} {pieces : List Piece} (h : b.Holds pieces)
    (more : List Piece) : (b.put more).Holds (pieces ++ more) := by
  induction more generalizing b pieces with
  | nil => rwa [List.append_nil]
  | cons piece more ih =>
    rw [List.append_cons]
    cases piece with
    | bytes bs => exact ih (h.append bs)
    | label id => exact ih (h.pushLabel id)

end CodeBuffer

namespace Draft

/-- The draft with pieces appended to its code. -/
def put (d : Draft) (pieces : List Piece) : Draft :=
  { d with buffer := d.buffer.put pieces }

theorem put_append (d : Draft) (pieces more : List Piece) :
    d.put (pieces ++ more) = (d.put pieces).put more := by
  rw [put, CodeBuffer.put_append]
  rfl

end Draft

/-! ### Changes -/

/-- What a change of a draft amounts to. -/
inductive Deed where
  /-- nothing that others could mind -/
  | minor
  /-- makes a label for the name -/
  | names (name : String)
  /-- makes a variable of the name -/
  | declares (name : String)
  /-- binds the label to the code reached -/
  | places (label : LabelId)
  /-- appends the line of an operation with the arguments -/
  | emits (arguments : List Argument)

/-- Which deeds are permitted. -/
structure Licence where
  names : String → Prop
  declares : String → Prop
  places : Draft → LabelId → Prop
  emits : List Argument → Prop

/-- Everything is permitted but emitting other arguments. -/
def Licence.emitting (A : List Argument → Prop) : Licence :=
  ⟨fun _ => True, fun _ => True, fun _ _ => True, A⟩

/-- The deed is permitted, if the draft is the given one. -/
def Licence.Permits (L : Licence) (d : Draft) : Deed → Prop
  | .minor => True
  | .names name => L.names name
  | .declares name => L.declares name
  | .places label => L.places d label
  | .emits arguments => L.emits arguments

/-- An operation with the arguments is permitted, with the labels that it makes for names among
them. -/
def Licence.Allows (L : Licence) (arguments : List Argument) : Prop :=
  (∀ name, .unknown name ∈ arguments → L.names name) ∧ L.emits arguments

namespace Draft

/-- The label has been made, and no name stands for it. -/
def Unnamed (d : Draft) (label : LabelId) : Prop :=
  d.HasLabel label ∧ ∀ name, d.locals.find? name ≠ some (.label label)

/-- The changes of a draft. -/
inductive Change (r : Registry) (d : Draft) : Deed → Draft → Prop where
  | note {span : Span} {blocks : List Block}
      (unnamed : ∀ b ∈ blocks, b ∈ d.blocks ∨ d.Unnamed b.elseLabel ∧ d.Unnamed b.endLabel) :
      Change r d .minor { d with span, blocks }
  | touch {index : UInt8} : Change r d .minor (d.touch index)
  | newLabel (room : d.buffer.labels.size < Drafting.maxLabels) :
      Change r d .minor { d with buffer := d.buffer.newLabel }
  | name {name : String} (room : d.buffer.labels.size < Drafting.maxLabels)
      (new : d.locals.find? name = none) :
      Change r d (.names name) { d with
        buffer := d.buffer.newLabel
        locals := ⟨d.locals.entries.insert name (.label d.buffer.nextLabel)⟩ }
  | await {f : ForwardLabel} (known : d.locals.find? f.name = some (.label f.label)) :
      Change r d .minor { d with forward := d.forward.push f }
  | declare {name : String} {type : ValueType} (new : d.lookup r name = none)
      (free : d.nextRegister < r.config.registers) :
      Change r d (.declares name) (touch { d with
        locals := ⟨d.locals.entries.insert name (.register (UInt8.ofNat d.nextRegister) type true)⟩
        nextRegister := d.nextRegister + 1 } (UInt8.ofNat d.nextRegister))
  | place {label : LabelId} (made : d.HasLabel label)
      (unplaced : d.buffer.position? label = none) (small : d.buffer.size < UInt32.size) :
      Change r d (.places label) { d with buffer := d.buffer.bindLabel label }
  | enter {binding : NativeBinding} (registered : r.native? binding.id = some binding) :
      Change r d .minor { d with natives := d.natives.push binding }
  | write {name : String} {op : Operation} {o : Overload} {arguments bound : List Argument}
      {l : Line} (operation : r.operation? name = some op)
      (selected : op.select r arguments = .ok o)
      (binds : List.Forall₂ Argument.Binds arguments bound) (yields : o.Yields r d.natives bound l)
      (fits : l.Fits) :
      Change r d (.emits arguments) (d.put l.pieces)

/-- The second draft comes from the first one by changes that are permitted. -/
def Evolves (r : Registry) (L : Licence) : Draft → Draft → Prop :=
  Relation.ReflTransGen fun d d' => ∃ deed, L.Permits d deed ∧ d.Change r deed d'

namespace Evolves

variable {r : Registry} {L : Licence} {d d' d'' : Draft}

theorem refl : d.Evolves r L d := Relation.ReflTransGen.refl

theorem trans (h : d.Evolves r L d') (h' : d'.Evolves r L d'') : d.Evolves r L d'' :=
  Relation.ReflTransGen.trans h h'

theorem single {deed : Deed} (h : d.Change r deed d') (hp : L.Permits d deed) :
    d.Evolves r L d' :=
  Relation.ReflTransGen.single ⟨deed, hp, h⟩

theorem minor (h : d.Change r .minor d') : d.Evolves r L d' := single h trivial

theorem tail {deed : Deed} (h : d.Evolves r L d') (h' : d'.Change r deed d'')
    (hp : L.Permits d' deed) : d.Evolves r L d'' :=
  Relation.ReflTransGen.tail h ⟨deed, hp, h'⟩

/-- Whatever the permitted changes preserve is preserved. -/
theorem preserves {P : Draft → Prop}
    (hstep : ∀ d deed d', L.Permits d deed → d.Change r deed d' → P d → P d')
    (h : d.Evolves r L d') (hd : P d) : P d' := by
  induction h with
  | refl => exact hd
  | tail _ step ih =>
    obtain ⟨deed, hp, hc⟩ := step
    exact hstep _ deed _ hp hc ih

end Evolves

/-! ### What changes preserve -/

/-- Labels are numbered one after the other, neither two names nor a name and a block share one, and
the host functions in use are those of the registry. -/
structure Orderly (r : Registry) (d : Draft) : Prop where
  count : d.buffer.labels.size ≤ Drafting.maxLabels
  made : ∀ name label, d.locals.find? name = some (.label label) → d.HasLabel label
  distinct : d.locals.Distinct
  waits : ∀ f ∈ d.forward, d.locals.find? f.name = some (.label f.label)
  blocks : ∀ b ∈ d.blocks, d.Unnamed b.elseLabel ∧ d.Unnamed b.endLabel
  natives : ∀ n ∈ d.natives, r.native? n.id = some n
  registers : ∀ name index type writable,
    d.locals.find? name = some (.register index type writable) → index.toNat < r.config.registers
  places : ∀ label place, d.buffer.position? label = some place → place < UInt32.size

namespace Orderly

variable {r : Registry} {d : Draft}

theorem toNat_nextLabel (h : d.Orderly r) :
    d.buffer.nextLabel.index.toNat = d.buffer.labels.size := by
  have := h.count
  simp only [Drafting.maxLabels] at this
  rw [CodeBuffer.nextLabel, UInt16.toNat_ofNat']
  omega

/-- The next label is none of those made. -/
theorem ne_nextLabel (h : d.Orderly r) {label : LabelId} (hl : d.HasLabel label) :
    label ≠ d.buffer.nextLabel := by
  rintro rfl
  rw [HasLabel, h.toNat_nextLabel] at hl
  exact Nat.lt_irrefl _ hl

theorem position?_nextLabel (h : d.Orderly r) :
    d.buffer.position? d.buffer.nextLabel = none := by
  rw [CodeBuffer.position?, h.toNat_nextLabel, Array.getElem?_eq_none (Nat.le_refl _)]
  rfl

theorem target_lt (h : d.Orderly r) (label : LabelId) : d.buffer.target label < UInt32.size := by
  rw [CodeBuffer.target]
  cases hp : d.buffer.position? label with
  | none => decide
  | some place => exact h.places label place hp

theorem find?_ne_nextLabel (h : d.Orderly r) (name : String) :
    d.locals.find? name ≠ some (.label d.buffer.nextLabel) :=
  fun hn => h.ne_nextLabel (h.made name _ hn) rfl

end Orderly

theorem hasLabel_newLabel {d : Draft} {locals : SymbolTable} {label : LabelId}
    (h : d.HasLabel label) : HasLabel { d with buffer := d.buffer.newLabel, locals } label := by
  show label.index.toNat < (d.buffer.labels.push none).size
  rw [Array.size_push]
  exact Nat.lt_succ_of_lt h

namespace Change

variable {r : Registry} {d d' : Draft} {deed : Deed}

theorem hasLabel (h : d.Change r deed d') {label : LabelId} (hl : d.HasLabel label) :
    d'.HasLabel label := by
  cases h with
  | note | touch | await | declare | enter => exact hl
  | newLabel | name => exact hasLabel_newLabel hl
  | place =>
    show label.index.toNat < (d.buffer.labels.setIfInBounds _ _).size
    rwa [Array.size_setIfInBounds]
  | write =>
    show label.index.toNat < (d.buffer.put _).labels.size
    rwa [CodeBuffer.labels_put]

/-- A name keeps its meaning. -/
theorem find?_eq (h : d.Change r deed d') {name : String} {m : Meaning}
    (hn : d.locals.find? name = some m) : d'.locals.find? name = some m := by
  have insert : ∀ {new : String} {m' : Meaning}, d.locals.find? new = none →
      (⟨d.locals.entries.insert new m'⟩ : SymbolTable).find? name = some m := by
    intro new m' hnew
    rw [SymbolTable.find?_insert, if_neg, hn]
    rintro rfl
    rw [hnew] at hn
    cases hn
  cases h with
  | note | touch | newLabel | await | place | enter | write => exact hn
  | name _ new => exact insert new
  | declare new _ => exact insert (lookup_eq_none new).1

/-- What a name stands for that is new. -/
theorem find?_cases (h : d.Change r deed d') {name : String} {m : Meaning}
    (hn : d'.locals.find? name = some m) :
    d.locals.find? name = some m ∨
      (deed = .names name ∧ d.locals.find? name = none ∧ m = .label d.buffer.nextLabel) ∨
      deed = .declares name ∧ d.lookup r name = none ∧ d.nextRegister < r.config.registers ∧
        ∃ type, m = .register (UInt8.ofNat d.nextRegister) type true := by
  cases h with
  | note | touch | newLabel | await | place | enter | write => exact .inl hn
  | name _ new =>
    rw [SymbolTable.find?_insert] at hn
    split at hn
    · rename_i heq
      cases hn
      exact .inr (.inl ⟨congrArg _ heq, heq ▸ new, rfl⟩)
    · exact .inl hn
  | declare new free =>
    rw [Draft.touch, SymbolTable.find?_insert] at hn
    split at hn
    · rename_i heq
      cases hn
      exact .inr (.inr ⟨congrArg _ heq, heq ▸ new, free, _, rfl⟩)
    · exact .inl hn

theorem unnamed (h : d.Change r deed d') (hd : d.Orderly r) {label : LabelId}
    (hl : d.Unnamed label) : d'.Unnamed label := by
  refine ⟨h.hasLabel hl.1, fun name hn => ?_⟩
  rcases h.find?_cases hn with hold | ⟨-, -, heq⟩ | ⟨-, -, -, type, heq⟩
  · exact hl.2 name hold
  · cases heq
    exact hd.ne_nextLabel hl.1 rfl
  · cases heq

theorem hasLabel_nextLabel {name : String} (h : d.Change r (.names name) d') (hd : d.Orderly r) :
    d'.HasLabel d.buffer.nextLabel := by
  cases h with
  | name room new =>
    show d.buffer.nextLabel.index.toNat < (d.buffer.labels.push none).size
    rw [hd.toNat_nextLabel, Array.size_push]
    exact Nat.lt_succ_self _

theorem orderly (h : d.Change r deed d') (hd : d.Orderly r) : d'.Orderly r where
  count := by
    have hcount := hd.count
    cases h with
    | note | touch | await | declare | enter => exact hcount
    | newLabel room | name room =>
      show (d.buffer.labels.push none).size ≤ _
      rw [Array.size_push]
      exact room
    | place =>
      show (d.buffer.labels.setIfInBounds _ _).size ≤ _
      rwa [Array.size_setIfInBounds]
    | write =>
      show (d.buffer.put _).labels.size ≤ _
      rwa [CodeBuffer.labels_put]
  made name label hn := by
    rcases h.find?_cases hn with hold | ⟨rfl, -, heq⟩ | ⟨-, -, -, type, heq⟩
    · exact h.hasLabel (hd.made name label hold)
    · cases heq
      exact h.hasLabel_nextLabel hd
    · cases heq
  distinct name name' label hn hn' := by
    rcases h.find?_cases hn with hold | ⟨rfl, -, heq⟩ | ⟨-, -, -, type, heq⟩
    · rcases h.find?_cases hn' with hold' | ⟨-, -, heq'⟩ | ⟨-, -, -, type, heq'⟩
      · exact hd.distinct name name' label hold hold'
      · cases heq'
        exact absurd hold (hd.find?_ne_nextLabel name)
      · cases heq'
    · cases heq
      rcases h.find?_cases hn' with hold' | ⟨hdeed, -, -⟩ | ⟨-, -, -, type, heq'⟩
      · exact absurd hold' (hd.find?_ne_nextLabel name')
      · exact Deed.names.inj hdeed
      · cases heq'
    · cases heq
  waits f hf := by
    have old : ∀ f ∈ d.forward, d'.locals.find? f.name = some (.label f.label) :=
      fun f hf => h.find?_eq (hd.waits f hf)
    cases h with
    | note | touch | newLabel | name | declare | place | enter | write => exact old f hf
    | await known =>
      rcases Array.mem_push.mp hf with hf | rfl
      · exact old f hf
      · exact known
  blocks b hb := by
    have old : ∀ b ∈ d.blocks, d'.Unnamed b.elseLabel ∧ d'.Unnamed b.endLabel :=
      fun b hb => ⟨h.unnamed hd (hd.blocks b hb).1, h.unnamed hd (hd.blocks b hb).2⟩
    cases h with
    | touch | newLabel | name | await | declare | place | enter | write => exact old b hb
    | note unnamed => exact (unnamed b hb).elim (hd.blocks b) id
  natives n hn := by
    cases h with
    | note | touch | newLabel | name | await | declare | place | write => exact hd.natives n hn
    | enter registered =>
      rcases Array.mem_push.mp hn with hn | rfl
      · exact hd.natives n hn
      · exact registered
  registers name index type writable hn := by
    rcases h.find?_cases hn with hold | ⟨-, -, heq⟩ | ⟨-, -, hfree, type, heq⟩
    · exact hd.registers name index _ writable hold
    · cases heq
    · cases heq
      rw [UInt8.toNat_ofNat']
      exact Nat.lt_of_le_of_lt (Nat.mod_le _ _) hfree
  places label place hplace := by
    cases h with
    | note | touch | await | declare | enter => exact hd.places label place hplace
    | newLabel | name =>
      rw [CodeBuffer.position?_newLabel] at hplace
      exact hd.places label place hplace
    | place made _ small =>
      rw [CodeBuffer.position?_bindLabel made] at hplace
      split at hplace
      · cases hplace
        exact small
      · exact hd.places label place hplace
    | write =>
      exact hd.places label place ((CodeBuffer.position?_put _ _ _).symm.trans hplace)

theorem nextRegister_le (h : d.Change r deed d') : d.nextRegister ≤ d'.nextRegister := by
  cases h with
  | note | touch | newLabel | name | await | place | enter | write => exact Nat.le_refl _
  | declare => exact Nat.le_succ _

theorem registersUsed_le (h : d.Change r deed d') : d.registersUsed ≤ d'.registersUsed := by
  cases h with
  | note | newLabel | name | await | place | enter | write => exact Nat.le_refl _
  | touch | declare => exact Nat.le_max_left _ _

/-- A label gets a position only where it is placed. -/
theorem position?_eq (h : d.Change r deed d') {label : LabelId} (hl : d.HasLabel label)
    (hp : deed ≠ .places label) : d'.buffer.position? label = d.buffer.position? label := by
  cases h with
  | note | touch | await | declare | enter => rfl
  | newLabel | name => exact CodeBuffer.position?_newLabel _ _
  | @place other made =>
    refine (CodeBuffer.position?_bindLabel made _).trans (if_neg ?_)
    rintro rfl
    exact hp rfl
  | write => exact CodeBuffer.position?_put _ _ _

end Change

namespace Evolves

variable {r : Registry} {L : Licence} {d d' : Draft}

theorem orderly (h : d.Evolves r L d') (hd : d.Orderly r) : d'.Orderly r :=
  h.preserves (fun _ _ _ _ hc => hc.orderly) hd

theorem unnamed (h : d.Evolves r L d') (hd : d.Orderly r) {label : LabelId}
    (hl : d.Unnamed label) : d'.Unnamed label :=
  (h.preserves (P := fun d => d.Orderly r ∧ d.Unnamed label)
    (fun _ _ _ _ hc hd => ⟨hc.orderly hd.1, hc.unnamed hd.1 hd.2⟩) ⟨hd, hl⟩).2

theorem find?_eq (h : d.Evolves r L d') {name : String} {m : Meaning}
    (hn : d.locals.find? name = some m) : d'.locals.find? name = some m :=
  h.preserves (P := fun d => d.locals.find? name = some m)
    (fun _ _ _ _ hc hd => hc.find?_eq hd) hn

end Evolves

end Draft

end HookScript
