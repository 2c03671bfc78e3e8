/-
What becomes of the names of a script.

A name keeps its meaning for good, and a label that has a name gets its position from the statement
that declares it, and from nothing else.  Hence most steps of the compiler leave names and named
labels alone: all they add are names that are used before their declaration.

* `Draft.Extends` — what such a step does, with the list of the names that it adds;
* `Draft.Sound.extends_newLabel`, `Draft.Sound.extends_bindLabel` and `Draft.Sound.extends_forward`
  — the changes of a draft that are such steps;
* `Draft.Declares` — what the declaration of a label does.
-/
import HookScript.Proofs.Compile.Invariant

namespace HookScript

/-- No two names stand for one label. -/
def SymbolTable.Distinct (t : SymbolTable) : Prop :=
  ∀ name name' id, t.find? name = some (.label id) → t.find? name' = some (.label id) →
    name = name'

/-- A name for a label that has none yet. -/
theorem SymbolTable.Distinct.insert {t : SymbolTable} (h : t.Distinct) {id : LabelId}
    (hnew : ∀ name, t.find? name ≠ some (.label id)) (name : String) :
    Distinct ⟨t.entries.insert name (.label id)⟩ := by
  intro other other' id' ho ho'
  rw [find?_insert] at ho ho'
  split at ho <;> split at ho'
  · rename_i heq heq'
    exact heq.symm.trans heq'
  · cases ho
    exact absurd ho' (hnew other')
  · cases ho'
    exact absurd ho (hnew other)
  · exact h other other' id' ho ho'

namespace Draft

/-! ### Lookup -/

theorem lookup_eq_some {r : Registry} {d : Draft} {name : String} {meaning : Meaning}
    (h : d.lookup r name = some meaning) :
    d.locals.find? name = some meaning ∨ r.globals.find? name = some meaning := by
  rw [lookup] at h
  cases hf : d.locals.find? name with
  | some own =>
    rw [hf] at h
    exact .inl h
  | none =>
    rw [hf] at h
    exact .inr h

theorem lookup_eq_none {r : Registry} {d : Draft} {name : String} (h : d.lookup r name = none) :
    d.locals.find? name = none ∧ r.globals.find? name = none := by
  rw [lookup] at h
  cases hf : d.locals.find? name with
  | some own =>
    rw [hf] at h
    cases h
  | none =>
    rw [hf] at h
    exact ⟨rfl, h⟩

/-- A name that stands for nothing has stood for nothing while fewer names were known. -/
theorem lookup_eq_none_of_keeps {r : Registry} {d d' : Draft} {name : String}
    (keeps : ∀ m, d.locals.find? name = some m → d'.locals.find? name = some m)
    (h : d'.lookup r name = none) : d.lookup r name = none := by
  obtain ⟨hlocal, hglobal⟩ := lookup_eq_none h
  rw [lookup, hglobal]
  cases hfind : d.locals.find? name with
  | none => rfl
  | some m => cases hlocal.symm.trans (keeps m hfind)

/-! ### Steps -/

/-- The names of the second draft are those of the first, with their meanings and with the positions
of their labels, and those in `more`, whose labels wait for a declaration. -/
structure Extends (d : Draft) (more : Array ForwardLabel) (d' : Draft) : Prop where
  forward : d'.forward = d.forward ++ more
  labelCount : d.buffer.labels.size ≤ d'.buffer.labels.size
  locals : ∀ name m, d.locals.find? name = some m → d'.locals.find? name = some m
  positions : ∀ name id, d.locals.find? name = some (.label id) →
    d'.buffer.position? id = d.buffer.position? id
  waits : ∀ f ∈ more, d'.locals.find? f.name = some (.label f.label)
  added : ∀ name m, d'.locals.find? name = some m → d.locals.find? name = some m ∨
    ∃ f ∈ more, f.name = name ∧ m = .label f.label ∧ d'.buffer.position? f.label = none
  distinct : d.locals.Distinct → d'.locals.Distinct

/-- The second draft is the first one after the label `name` has been declared: the label, which had
no position before, is placed behind the code so far. -/
structure Declares (r : Registry) (d : Draft) (name : String) (d' : Draft) : Prop where
  known : (∃ id, d.locals.find? name = some (.label id)) ∨ d.lookup r name = none
  forward : d'.forward = d.forward
  size : d'.buffer.size = d.buffer.size
  locals : ∀ other m, d.locals.find? other = some m → d'.locals.find? other = some m
  added : ∀ other m, d'.locals.find? other = some m → d.locals.find? other = some m ∨ other = name
  placed : ∃ id, d'.locals.find? name = some (.label id) ∧
    d'.buffer.position? id = some d.buffer.size
  unplaced : ∀ id, d.locals.find? name = some (.label id) → d.buffer.position? id = none
  positions : d.locals.Distinct → ∀ other id, other ≠ name →
    d.locals.find? other = some (.label id) → d'.buffer.position? id = d.buffer.position? id
  distinct : d.locals.Distinct → d'.locals.Distinct

namespace Extends

variable {d d' d'' : Draft} {more more' : Array ForwardLabel}

/-- Names and named labels are as they were. -/
theorem of_same (hforward : d'.forward = d.forward) (hlocals : d'.locals = d.locals)
    (hcount : d.buffer.labels.size ≤ d'.buffer.labels.size)
    (hpos : ∀ name id, d.locals.find? name = some (.label id) →
      d'.buffer.position? id = d.buffer.position? id) : d.Extends #[] d' where
  forward := by rw [hforward, Array.append_empty]
  labelCount := hcount
  locals name m h := by rwa [hlocals]
  positions := hpos
  waits f hf := by cases (Array.not_mem_empty f) hf
  added name m h := by
    rw [hlocals] at h
    exact .inl h
  distinct h := by rwa [hlocals]

theorem refl : d.Extends #[] d := of_same rfl rfl (Nat.le_refl _) fun _ _ _ => rfl

theorem trans (h : d.Extends more d') (h' : d'.Extends more' d'') :
    d.Extends (more ++ more') d'' where
  forward := by rw [h'.forward, h.forward, Array.append_assoc]
  labelCount := Nat.le_trans h.labelCount h'.labelCount
  locals name m hm := h'.locals name m (h.locals name m hm)
  positions name id hn :=
    (h'.positions name id (h.locals name _ hn)).trans (h.positions name id hn)
  waits f hf := by
    rcases Array.mem_append.mp hf with hf | hf
    · exact h'.locals _ _ (h.waits f hf)
    · exact h'.waits f hf
  added name m hm := by
    rcases h'.added name m hm with hm | ⟨f, hf, hrest⟩
    · rcases h.added name m hm with hold | ⟨f, hf, hname, rfl, hpos⟩
      · exact .inl hold
      · -- the label got its name in the first step, so the second one does not place it
        refine .inr ⟨f, Array.mem_append_left _ hf, hname, rfl, ?_⟩
        rw [h'.positions name f.label hm, hpos]
    · exact .inr ⟨f, Array.mem_append_right _ hf, hrest⟩
  distinct hd := h'.distinct (h.distinct hd)

theorem withBlocks (h : d.Extends more d') (blocks : List Block) :
    d.Extends more { d' with blocks } :=
  { h with }

theorem of_withBlocks {blocks : List Block} (h : Extends { d with blocks } more d') :
    d.Extends more d' :=
  { h with }

end Extends

namespace Sound

variable {r : Registry} {lines : List Line} {pending : List LabelId} {d : Draft}

theorem extends_newLabel : d.Extends #[] { d with buffer := d.buffer.newLabel } := by
  refine .of_same rfl rfl ?_ fun name id hn => CodeBuffer.position?_newLabel _ _
  simp [CodeBuffer.newLabel]

/-- Placing a label that no name stands for. -/
theorem extends_bindLabel {label : LabelId} (hl : d.HasLabel label)
    (hfree : ∀ name, d.locals.find? name ≠ some (.label label)) :
    d.Extends #[] { d with buffer := d.buffer.bindLabel label } := by
  refine .of_same rfl rfl ?_ fun name id hn => ?_
  · simp [CodeBuffer.bindLabel]
  · rw [CodeBuffer.position?_bindLabel hl, if_neg]
    rintro rfl
    exact hfree name hn

/-- A new label is none of those that have names. -/
theorem find?_ne_nextLabel (h : d.Sound r lines pending) (name : String) :
    d.locals.find? name ≠ some (.label d.buffer.nextLabel) := by
  intro hn
  have hlt := (h.named name _ hn).1
  rw [HasLabel, h.toNat_nextLabel] at hlt
  exact Nat.lt_irrefl _ hlt

/-- A name that stands for nothing becomes that of a new label. -/
theorem extends_forward (h : d.Sound r lines pending)
    (hc : d.buffer.labels.size < Drafting.maxLabels) {name : String}
    (hn : d.locals.find? name = none) (span : Span) :
    d.Extends #[⟨d.buffer.nextLabel, name, span⟩]
      { d with
        buffer := d.buffer.newLabel
        locals := ⟨d.locals.entries.insert name (.label d.buffer.nextLabel)⟩
        forward := d.forward.push ⟨d.buffer.nextLabel, name, span⟩ } where
  forward := rfl
  labelCount := by simp [CodeBuffer.newLabel]
  locals other m hm := by
    rw [SymbolTable.find?_insert, if_neg, hm]
    rintro rfl
    rw [hn] at hm
    cases hm
  positions other id _ := CodeBuffer.position?_newLabel _ _
  waits f hf := by
    rw [Array.mem_singleton.mp hf, SymbolTable.find?_insert, if_pos rfl]
  added other m hm := by
    rw [SymbolTable.find?_insert] at hm
    split at hm
    · rename_i heq
      cases hm
      refine .inr ⟨_, Array.mem_singleton.mpr rfl, heq, rfl, ?_⟩
      exact ((h.newLabel hc).unplaced _ (by simp)).2
    · exact .inl hm
  distinct hd := hd.insert h.find?_ne_nextLabel name

/-- A label that was used before its declaration is declared. -/
theorem declares_known (h : d.Sound r lines pending) {name : String}
    {label : LabelId} (hn : d.locals.find? name = some (.label label))
    (hu : d.buffer.position? label = none) :
    d.Declares r name { d with buffer := d.buffer.bindLabel label } := by
  have hpos := CodeBuffer.position?_bindLabel (h.named name label hn).1
  refine ⟨.inl ⟨label, hn⟩, rfl, rfl, fun _ _ hm => hm, fun _ _ hm => .inl hm, ⟨label, hn, ?_⟩,
    fun id hid => ?_, fun hd other id hne ho => ?_, id⟩
  · rw [hpos, if_pos rfl]
    rfl
  · rw [hn] at hid
    cases hid
    exact hu
  · rw [hpos, if_neg]
    rintro rfl
    exact hne (hd other name label ho hn)

/-- A label is declared whose name stands for nothing so far. -/
theorem declares_new (h : d.Sound r lines pending) {name : String}
    (hnone : d.lookup r name = none)
    (hl : d.buffer.nextLabel.index.toNat < d.buffer.newLabel.labels.size) :
    d.Declares r name
      { d with
        buffer := d.buffer.newLabel.bindLabel d.buffer.nextLabel
        locals := ⟨d.locals.entries.insert name (.label d.buffer.nextLabel)⟩ } := by
  have hpos := CodeBuffer.position?_bindLabel hl
  have hn := (lookup_eq_none hnone).1
  refine ⟨.inr hnone, rfl, rfl, fun other m hm => ?_, fun other m hm => ?_,
    ⟨d.buffer.nextLabel, ?_, ?_⟩, fun id hid => ?_, fun _ other id _ ho => ?_,
    fun hd => hd.insert h.find?_ne_nextLabel name⟩
  · rw [SymbolTable.find?_insert, if_neg, hm]
    rintro rfl
    rw [hn] at hm
    cases hm
  · rw [SymbolTable.find?_insert] at hm
    split at hm
    · rename_i heq
      exact .inr heq.symm
    · exact .inl hm
  · rw [SymbolTable.find?_insert, if_pos rfl]
  · rw [hpos, if_pos rfl]
    rfl
  · rw [hn] at hid
    cases hid
  · rw [hpos, if_neg, CodeBuffer.position?_newLabel]
    rintro rfl
    exact h.find?_ne_nextLabel other ho

end Sound

end Draft

end HookScript
