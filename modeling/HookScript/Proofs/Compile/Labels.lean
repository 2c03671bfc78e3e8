/-
The labels of a script.

Names of labels come from two places: the statement that declares a label, and the arguments that
refer to it, before or behind that statement.  Wherever it comes from, the name stands for one label
for good, and the label gets its position from the statement that declares it.

* `Draft.Tracks` — what a draft knows of the labels of the statements that led to it, which every
  statement preserves (`Draft.Tracks.step`);
* `Draft.tracks_of_compileAll` — hence it is true of all drafts.
-/
import HookScript.Proofs.Compile.Soundness
import Mathlib.Data.List.Induction

namespace HookScript

/-- The statement declares the label. -/
def Statement.HasLabel (s : Statement) (name : String) : Prop :=
  ∃ label, s.label = some label ∧ label.text = name

namespace Draft

/-- What the draft `d` knows of the labels of the statements `done`, which led to it from the draft
`first`. -/
structure Tracks (r : Registry) (source : String) (first : Draft)
    (done : List (Except SyntaxError Statement)) (d : Draft) : Prop where
  distinct : d.locals.Distinct
  /-- labels without a position wait for their declaration, by their names -/
  waits : ∀ f ∈ d.forward, d.locals.find? f.name = some (.label f.label)
  awaited : ∀ name id, d.locals.find? name = some (.label id) →
    d.buffer.position? id = none → ∃ f ∈ d.forward, f.name = name
  referred : ∀ f ∈ d.forward, ∃ s, .ok s ∈ done ∧ s.Refers f.name
  /-- positions come from declarations -/
  placed : ∀ name id place, d.locals.find? name = some (.label id) →
    d.buffer.position? id = some place →
    ∃ i s d₀, done[i]? = some (Except.ok s) ∧ s.HasLabel name ∧
      first.compileAll r source (done.take i) = .ok d₀ ∧ place = d₀.buffer.size
  declared : ∀ (i : Nat) (s : Statement) (name : String), done[i]? = some (Except.ok s) →
    s.HasLabel name →
    ∃ id d₀, first.compileAll r source (done.take i) = .ok d₀ ∧
      d.locals.find? name = some (.label id) ∧ d.buffer.position? id = some d₀.buffer.size
  /-- a label is declared once -/
  unique : ∀ (i k : Nat) (s s' : Statement) (name : String), done[i]? = some (Except.ok s) →
    done[k]? = some (Except.ok s') → s.HasLabel name → s'.HasLabel name → i = k
  /-- names of labels are none of the registry's -/
  own : ∀ name id, d.locals.find? name = some (.label id) → r.globals.find? name = none
  /-- other names are arguments of the hook, or variables -/
  origin : ∀ name m, d.locals.find? name = some m →
    first.locals.find? name = some m ∨ (∃ id, m = .label id) ∨
      ∃ s, .ok s ∈ done ∧ r.Declares s name

variable {r : Registry} {source : String} {first d d' : Draft}
  {done : List (Except SyntaxError Statement)} {s : Statement}

/-- A statement among those of a list and one more is one of them, or that one. -/
theorem getElem?_concat_eq_some {i : Nat} {s' : Statement}
    (h : (done ++ [Except.ok s])[i]? = some (Except.ok s')) :
    done[i]? = some (Except.ok s') ∧ (done ++ [Except.ok s]).take i = done.take i ∨
      i = done.length ∧ s' = s ∧ (done ++ [Except.ok s]).take i = done := by
  rw [List.getElem?_append] at h
  split at h
  · rename_i hi
    exact .inl ⟨h, List.take_append_of_le_length (Nat.le_of_lt hi)⟩
  · rename_i hi
    obtain ⟨hlt, heq⟩ := List.getElem?_eq_some_iff.mp h
    have hlen : i = done.length := by
      rw [List.length_singleton] at hlt
      omega
    subst hlen
    simp only [Nat.sub_self, List.getElem_cons_zero] at heq
    cases heq
    exact .inr ⟨rfl, rfl, List.take_left⟩

/-- What is added behind a list of statements does not matter for those in it. -/
theorem getElem?_concat {i : Nat} {s' : Statement} (h : done[i]? = some (Except.ok s'))
    (s : Statement) :
    (done ++ [Except.ok s])[i]? = some (Except.ok s') ∧
      (done ++ [Except.ok s]).take i = done.take i := by
  obtain ⟨hi, -⟩ := List.getElem?_eq_some_iff.mp h
  exact ⟨by rw [List.getElem?_append_left hi, h], List.take_append_of_le_length (Nat.le_of_lt hi)⟩

namespace Tracks

/-- Before the first statement there are only the arguments of the hook. -/
theorem start {arguments : List HookArgument} (h : Draft.start r arguments = .ok first) :
    Tracks r source first [] first := by
  have hnames : ∀ name id, first.locals.find? name ≠ some (.label id) := by
    intro name id hn
    obtain ⟨_, _, _, heq⟩ := register_of_start h hn
    cases heq
  have hforward : first.forward = #[] := forward_of_start h
  exact {
    distinct := fun name _ id hn => absurd hn (hnames name id)
    waits := by simp [hforward]
    awaited := fun name id hn => absurd hn (hnames name id)
    referred := by simp [hforward]
    placed := fun name id _ hn => absurd hn (hnames name id)
    declared := by simp
    unique := by simp
    own := fun name id hn => absurd hn (hnames name id)
    origin := fun _ _ hn => .inl hn }

theorem withSpan (h : Tracks r source first done d) (span : Span) :
    Tracks r source first done { d with span } :=
  { h with }

/-- Another statement behind those of the list takes nothing away from what is known of them. -/
theorem referred_concat (h : Tracks r source first done d) {f : ForwardLabel} (hf : f ∈ d.forward)
    (s : Statement) : ∃ s', .ok s' ∈ done ++ [.ok s] ∧ s'.Refers f.name := by
  obtain ⟨s', hm, hr⟩ := h.referred f hf
  exact ⟨s', List.mem_append_left _ hm, hr⟩

theorem placed_concat (h : Tracks r source first done d) {name : String} {id : LabelId}
    {place : Nat} (hn : d.locals.find? name = some (.label id))
    (hp : d.buffer.position? id = some place) (s : Statement) :
    ∃ (i : Nat) (s' : Statement) (d₀ : Draft), (done ++ [Except.ok s])[i]? = some (Except.ok s') ∧
      s'.HasLabel name ∧
      first.compileAll r source ((done ++ [Except.ok s]).take i) = .ok d₀ ∧
        place = d₀.buffer.size := by
  obtain ⟨i, s', d₀, hi, hl, hc, hplace⟩ := h.placed name id place hn hp
  obtain ⟨hi', htake⟩ := getElem?_concat hi s
  exact ⟨i, s', d₀, hi', hl, htake ▸ hc, hplace⟩

/-- Labels stay unique with a statement whose label, if it has one, is new. -/
theorem unique_concat (h : Tracks r source first done d)
    (hnew : ∀ (i : Nat) s' name, done[i]? = some (Except.ok s') → s.HasLabel name →
      ¬ s'.HasLabel name)
    (i k : Nat) (s₁ s₂ : Statement) (name : String)
    (hi : (done ++ [Except.ok s])[i]? = some (Except.ok s₁))
    (hk : (done ++ [Except.ok s])[k]? = some (Except.ok s₂)) (hl : s₁.HasLabel name)
    (hl' : s₂.HasLabel name) : i = k := by
  rcases getElem?_concat_eq_some hi with ⟨hi, -⟩ | ⟨hlen, heq, -⟩
  · rcases getElem?_concat_eq_some hk with ⟨hk, -⟩ | ⟨-, heq, -⟩
    · exact h.unique i k s₁ s₂ name hi hk hl hl'
    · exact absurd hl (hnew i s₁ name hi (heq ▸ hl'))
  · rcases getElem?_concat_eq_some hk with ⟨hk, -⟩ | ⟨hlen', -⟩
    · exact absurd hl' (hnew k s₂ name hk (heq ▸ hl))
    · rw [hlen, hlen']

theorem origin_concat (h : Tracks r source first done d) {name : String} {m : Meaning}
    (hn : d.locals.find? name = some m) (s : Statement) :
    first.locals.find? name = some m ∨ (∃ id, m = .label id) ∨
      ∃ s', .ok s' ∈ done ++ [.ok s] ∧ r.Declares s' name := by
  refine (h.origin name m hn).imp id (Or.imp id ?_)
  rintro ⟨s', hm, hd⟩
  exact ⟨s', List.mem_append_left _ hm, hd⟩

/-- A statement without a label. -/
theorem unlabelled (h : Tracks r source first done d) (hs : s.label = none) :
    Tracks r source first (done ++ [.ok s]) d := by
  have hnone : ∀ name, ¬ s.HasLabel name := by
    rintro name ⟨label, hl, -⟩
    rw [hs] at hl
    cases hl
  refine { h with
    referred := fun f hf => h.referred_concat hf s
    placed := fun name id place hn hp => h.placed_concat hn hp s
    declared := fun i s' name hi hl => ?_
    unique := h.unique_concat fun _ _ name _ hl => absurd hl (hnone name)
    origin := fun name m hn => h.origin_concat hn s }
  rcases getElem?_concat_eq_some hi with ⟨hi, htake⟩ | ⟨-, rfl, -⟩
  · rw [htake]
    exact h.declared i s' name hi hl
  · exact absurd hl (hnone name)

/-- A label that can be declared has not been declared before. -/
theorem not_hasLabel_of_declares (h : Tracks r source first done d) {name : String}
    (hd : d.Declares r name d') {i : Nat} {s' : Statement}
    (hi : done[i]? = some (Except.ok s')) : ¬ s'.HasLabel name := by
  intro hl
  obtain ⟨id, _, -, hn, hp⟩ := h.declared i s' name hi hl
  rw [hd.unplaced id hn] at hp
  cases hp

/-- A statement whose label has been declared. -/
theorem labelled (h : Tracks r source first done d)
    (hdone : ∃ d₀, first.compileAll r source done = .ok d₀ ∧ d₀.buffer.size = d.buffer.size)
    {label : Token} (hs : s.label = some label) (hd : d.Declares r label.text d') :
    Tracks r source first (done ++ [.ok s]) d' := by
  obtain ⟨d₀, hdone, hsize⟩ := hdone
  obtain ⟨new, hnew, hplaced⟩ := hd.placed
  have hself : ∀ name, s.HasLabel name ↔ name = label.text := by
    intro name
    rw [Statement.HasLabel, hs]
    simp [eq_comm]
  have hlast : (done ++ [Except.ok s])[done.length]? = some (Except.ok s) := by simp
  -- names other than that of the label are as they were
  have old : ∀ name id, name ≠ label.text → d'.locals.find? name = some (.label id) →
      d.locals.find? name = some (.label id) ∧
        d'.buffer.position? id = d.buffer.position? id := by
    intro name id hne hn
    rcases hd.added name _ hn with hn | rfl
    · exact ⟨hn, hd.positions h.distinct name id hne hn⟩
    · exact absurd rfl hne
  refine {
    distinct := hd.distinct h.distinct
    waits := fun f hf => hd.locals _ _ (h.waits f (hd.forward ▸ hf))
    awaited := fun name id hn hp => ?_
    referred := fun f hf => h.referred_concat (hd.forward ▸ hf) s
    placed := fun name id place hn hp => ?_
    declared := fun i s' name hi hl => ?_
    unique := h.unique_concat fun i s' name hi hl => ?_
    own := fun name id hn => ?_
    origin := fun name m hn => ?_ }
  · by_cases hne : name = label.text
    · rw [hne, hnew] at hn
      cases hn
      rw [hplaced] at hp
      cases hp
    · obtain ⟨hold, hpos⟩ := old name id hne hn
      rw [hd.forward]
      exact h.awaited name id hold (hpos ▸ hp)
  · by_cases hne : name = label.text
    · rw [hne, hnew] at hn
      cases hn
      rw [hplaced] at hp
      cases hp
      exact ⟨done.length, s, d₀, hlast, (hself name).mpr hne, by rwa [List.take_left], hsize.symm⟩
    · obtain ⟨hold, hpos⟩ := old name id hne hn
      exact h.placed_concat hold (hpos ▸ hp) s
  · rcases getElem?_concat_eq_some hi with ⟨hi, htake⟩ | ⟨-, rfl, htake⟩
    · obtain ⟨id, d₁, hc, hn, hp⟩ := h.declared i s' name hi hl
      have hne : name ≠ label.text := by
        rintro rfl
        exact h.not_hasLabel_of_declares hd hi hl
      rw [htake]
      exact ⟨id, d₁, hc, hd.locals _ _ hn, by rw [hd.positions h.distinct name id hne hn, hp]⟩
    · obtain rfl := (hself name).mp hl
      exact ⟨new, d₀, by rwa [htake], hnew, by rw [hplaced, hsize]⟩
  · obtain rfl := (hself name).mp hl
    exact h.not_hasLabel_of_declares hd hi
  · by_cases hne : name = label.text
    · rcases hd.known with ⟨id', hold⟩ | hnone
      · exact h.own name id' (hne ▸ hold)
      · exact hne ▸ (lookup_eq_none hnone).2
    · exact h.own name id (old name id hne hn).1
  · rcases hd.added name m hn with hn | rfl
    · exact h.origin_concat hn s
    · rw [hnew] at hn
      cases hn
      exact .inr (.inl ⟨new, rfl⟩)

/-- Names that are used before their declaration. -/
theorem extend (h : Tracks r source first done d) {more : Array ForwardLabel}
    (hn : d.Extends more d')
    (hwaits : ∀ f ∈ d'.forward,
      f ∈ d.forward ∨ (∃ s, .ok s ∈ done ∧ s.Refers f.name) ∧ d.lookup r f.name = none) :
    Tracks r source first done d' where
  distinct := hn.distinct h.distinct
  waits f hf := by
    rw [hn.forward] at hf
    rcases Array.mem_append.mp hf with hf | hf
    · exact hn.locals _ _ (h.waits f hf)
    · exact hn.waits f hf
  awaited name id hname hp := by
    rw [hn.forward]
    rcases hn.added name _ hname with hold | ⟨f, hf, rfl, -, -⟩
    · obtain ⟨f, hf, hfname⟩ := h.awaited name id hold (hn.positions name id hold ▸ hp)
      exact ⟨f, Array.mem_append_left _ hf, hfname⟩
    · exact ⟨f, Array.mem_append_right _ hf, rfl⟩
  referred f hf := (hwaits f hf).elim (h.referred f) And.left
  placed name id place hname hp := by
    rcases hn.added name _ hname with hold | ⟨f, -, -, heq, hnone⟩
    · exact h.placed name id place hold (hn.positions name id hold ▸ hp)
    · cases heq
      rw [hnone] at hp
      cases hp
  declared i s name hi hl := by
    obtain ⟨id, d₀, hc, hname, hp⟩ := h.declared i s name hi hl
    exact ⟨id, d₀, hc, hn.locals _ _ hname, by rw [hn.positions name id hname, hp]⟩
  unique := h.unique
  own name id hname := by
    rcases hn.added name _ hname with hold | ⟨f, hf, rfl, -, -⟩
    · exact h.own name id hold
    · rcases hwaits f (hn.forward ▸ Array.mem_append_right _ hf) with hf | ⟨-, hnone⟩
      · exact h.own f.name f.label (h.waits f hf)
      · exact (lookup_eq_none hnone).2
  origin name m hname := by
    rcases hn.added name m hname with hold | ⟨f, -, -, rfl, -⟩
    · exact h.origin name m hold
    · exact .inr (.inl ⟨f.label, rfl⟩)

/-- A new variable. -/
theorem declare (h : Tracks r source first done d) {name : String} (type : ValueType)
    (hnew : d.lookup r name = none) (hs : ∃ s, .ok s ∈ done ∧ r.Declares s name) :
    Tracks r source first done (d.withVariable name type) := by
  have hnone := (lookup_eq_none hnew).1
  have find : ∀ other, (d.withVariable name type).locals.find? other
      = if name = other then some (.register (UInt8.ofNat d.nextRegister) type true)
        else d.locals.find? other := fun other => SymbolTable.find?_insert _ _ _ _
  have label : ∀ other id, (d.withVariable name type).locals.find? other = some (.label id) ↔
      d.locals.find? other = some (.label id) := by
    intro other id
    rw [find]
    split
    · rename_i heq
      rw [← heq, hnone]
      exact ⟨nofun, nofun⟩
    · exact Iff.rfl
  refine { h with
    distinct := fun other other' id ho ho' =>
      h.distinct other other' id ((label _ _).mp ho) ((label _ _).mp ho')
    waits := fun f hf => (label _ _).mpr (h.waits f hf)
    awaited := fun other id ho => h.awaited other id ((label _ _).mp ho)
    placed := fun other id place ho => h.placed other id place ((label _ _).mp ho)
    declared := fun i s other hi hl => ?_
    own := fun other id ho => h.own other id ((label _ _).mp ho)
    origin := fun other m ho => ?_ }
  · obtain ⟨id, d₀, hc, ho, hp⟩ := h.declared i s other hi hl
    exact ⟨id, d₀, hc, (label _ _).mpr ho, hp⟩
  · rw [find] at ho
    split at ho
    · rename_i heq
      exact .inr (.inr (heq ▸ hs))
    · exact h.origin other m ho

/-- What a draft knows of labels after one more statement. -/
theorem step (h : Tracks r source first done d)
    (hdone : first.compileAll r source done = .ok d) (ht : d.Takes r s d') :
    Tracks r source first (done ++ [.ok s]) d' := by
  obtain ⟨d₁, hnone, hlabel, hperforms⟩ := ht
  have hmem : Except.ok s ∈ done ++ [Except.ok s] := by simp
  have h₁ : Tracks r source first (done ++ [.ok s]) d₁ := by
    cases hs : s.label with
    | none =>
      rw [hnone hs]
      exact (h.withSpan s.span).unlabelled hs
    | some label =>
      exact (h.withSpan s.span).labelled ⟨d, hdone, rfl⟩ hs (hlabel label hs)
  cases hperforms with
  | refers names waits =>
    refine h₁.extend names fun f hf => (waits f hf).imp id ?_
    rintro ⟨hrefers, hnone⟩
    exact ⟨⟨s, hmem, hrefers⟩, hnone⟩
  | declares declared new names =>
    refine (h₁.declare _ new ⟨s, hmem, declared⟩).extend names fun f hf => .inl ?_
    rwa [names.forward, Array.append_empty] at hf

end Tracks

/-- A statement does not change what names stand for. -/
theorem Takes.keeps (h : d.Takes r s d') {name : String} {m : Meaning}
    (hn : d.locals.find? name = some m) : d'.locals.find? name = some m := by
  obtain ⟨d₁, hnone, hlabel, hperforms⟩ := h
  have h₁ : d₁.locals.find? name = some m := by
    cases hs : s.label with
    | none =>
      rw [hnone hs]
      exact hn
    | some label => exact (hlabel label hs).locals name m hn
  cases hperforms with
  | refers names waits => exact names.locals name m h₁
  | @declares type other declared new names =>
    refine names.locals name m ((SymbolTable.find?_insert _ _ _ _).trans ?_)
    rw [if_neg, h₁]
    rintro rfl
    rw [(lookup_eq_none new).1] at h₁
    cases h₁

/-- Nor do several of them. -/
theorem keeps_of_compileAll (hr : r.Built) {lines : List Line} (h : d.Ready r lines)
    {rest : List (Except SyntaxError Statement)} (hreads : ∀ s, .ok s ∈ rest → r.Reads s)
    (hd : d.compileAll r source rest = .ok d') {name : String} {m : Meaning}
    (hn : d.locals.find? name = some m) : d'.locals.find? name = some m := by
  induction rest generalizing lines d with
  | nil =>
    cases hd
    exact hn
  | cons next rest ih =>
    obtain ⟨s, d₁, rfl, hstep, hd⟩ := exists_of_compileAll_cons hd
    obtain ⟨more, hready, -, -, htakes⟩ :=
      (Drafting.statement_ensures hr (hreads s (by simp)) h).of_ok hstep
    exact ih hready (fun s hs => hreads s (List.mem_cons_of_mem _ hs)) hd (htakes.keeps hn)

/-- Every draft knows the labels of the statements that led to it. -/
theorem tracks_of_compileAll (hr : r.Built) {arguments : List HookArgument}
    (hfirst : start r arguments = .ok first) (hreads : ∀ s, .ok s ∈ done → r.Reads s)
    (hd : first.compileAll r source done = .ok d) :
    Tracks r source first done d ∧ ∃ lines, d.Ready r lines := by
  induction done using List.reverseRecOn generalizing d with
  | nil =>
    cases hd
    exact ⟨.start hfirst, [], (start_ready hr.sound hfirst).1⟩
  | append_singleton done next ih =>
    obtain ⟨s, d₀, rfl, hd₀, hstep⟩ := exists_of_compileAll_snoc hd
    obtain ⟨htracks, lines, hready⟩ := ih (fun s hs => hreads s (List.mem_append_left _ hs)) hd₀
    obtain ⟨more, hready', -, -, htakes⟩ :=
      (Drafting.statement_ensures hr (hreads s (by simp)) hready).of_ok hstep
    exact ⟨htracks.step hd₀ htakes, _, hready'⟩

end Draft

end HookScript
