/-
What opening, continuing and closing a block does to a draft.

Between statements the pending labels of a draft are those of its open blocks.

* `Draft.Ready` — the invariant between statements;
* `Drafting.ifBlock_ensures`, `Drafting.elseBranch_ensures` and `Drafting.endBlock_ensures` — the
  keywords, one by one;
* `Draft.Tests` — the test that a condition becomes.
-/
import HookScript.Compile.Script
import HookScript.Proofs.Compile.Emission

namespace HookScript

/-- The labels that an open block has yet to place. -/
def Block.pending (b : Block) : List LabelId :=
  match b.branch with
  | .conditional => [b.elseLabel, b.endLabel]
  | .last => [b.endLabel]

namespace Draft

/-- The labels that the open blocks have yet to place. -/
def pending (d : Draft) : List LabelId :=
  d.blocks.flatMap Block.pending

/-- The invariant between statements: only open blocks have labels to place, and the last branch of
a block begins where its latest condition leads. -/
structure Ready (r : Registry) (lines : List Line) (d : Draft) : Prop where
  sound : d.Sound r lines d.pending
  last : ∀ b ∈ d.blocks, b.branch = .last → d.buffer.isDefined b.elseLabel = true

/-- What a step leaves alone that has no names to declare: the names of the script, and those that
wait for a declaration. -/
structure Retains (d d' : Draft) : Prop where
  nextRegister : d'.nextRegister = d.nextRegister
  locals : d'.locals = d.locals
  waiting : d.Waiting → d'.Waiting
  names : d.Extends #[] d'

theorem Retains.refl (d : Draft) : d.Retains d := ⟨rfl, rfl, id, .refl⟩

theorem Retains.forward {d d' : Draft} (h : d.Retains d') : d'.forward = d.forward := by
  rw [h.names.forward, Array.append_empty]

theorem Retains.trans {d d' d'' : Draft} (h : d.Retains d') (h' : d'.Retains d'') :
    d.Retains d'' :=
  ⟨h'.nextRegister.trans h.nextRegister, h'.locals.trans h.locals,
    fun hw => h'.waiting (h.waiting hw), h.names.trans h'.names⟩

theorem Frame.retains {d d' : Draft} (h : d.Frame d') (hf : d'.forward = d.forward) :
    d.Retains d' := by
  obtain ⟨more, hn⟩ := h.names
  have hmore : more = #[] := by
    have heq : d.forward ++ more ++ #[] = d.forward := by
      rw [Array.append_empty]
      exact hn.forward.symm.trans hf
    exact (empty_of_append_eq heq).1
  exact ⟨h.nextRegister, (h.same hf).1, h.waiting, hmore ▸ hn⟩

theorem Retains.withBlocks {d d' : Draft} (h : d.Retains d') (blocks : List Block) :
    d.Retains { d' with blocks } :=
  ⟨h.nextRegister, h.locals, h.waiting, h.names.withBlocks blocks⟩

theorem Retains.of_withBlocks {d d' : Draft} {blocks : List Block}
    (h : Retains { d with blocks } d') : d.Retains d' :=
  ⟨h.nextRegister, h.locals, h.waiting, h.names.of_withBlocks⟩

theorem Grows.withBlocks {d d' : Draft} (h : d.Grows d') (blocks : List Block) :
    d.Grows { d' with blocks } :=
  ⟨h.positions, h.natives, h.used, h.forward⟩

theorem Sound.withBlocks {r : Registry} {lines : List Line} {pending : List LabelId} {d : Draft}
    (h : d.Sound r lines pending) (blocks : List Block) :
    Sound r lines pending { d with blocks } :=
  { h with holds := h.holds }

/-! ### Names -/

theorem lookup_knows {r : Registry} (hr : r.Sound) {lines : List Line} {pending : List LabelId}
    {d : Draft} (h : d.Sound r lines pending) {name : String} {meaning : Meaning}
    (hl : d.lookup r name = some meaning) : d.Knows r pending (.ofMeaning meaning) := by
  rcases lookup_eq_some hl with hl | hl
  · cases meaning with
    | constant _ | typeName _ => trivial
    | register index type writable => exact h.registers name index type writable hl
    | label label =>
      obtain ⟨-, -, hs⟩ := h.named name label hl
      exact hs.imp id .inl
  · have hm := hr.globals name meaning hl
    cases meaning with
    | constant _ | typeName _ => trivial
    | register index type writable => exact hm.1
    | label id => exact hm.elim

end Draft

/-- The error does not say that a label is declared twice, or not at all. -/
@[simp] def CompileError.Kind.SparesLabels (kind : CompileError.Kind) : Prop :=
  ∀ name, kind ≠ .labelRedefined name ∧ kind ≠ .labelNotDeclared name

/-- The error blames the script, and none of its labels. -/
@[simp] def CompileError.Kind.BlamesWords (kind : CompileError.Kind) : Prop :=
  (∀ defect, kind ≠ .internal defect) ∧ kind.SparesLabels

/-- The answer has a property, or is an error that blames words of the script. -/
def Answers {α : Type} (answer : Except CompileError.Kind α) (P : α → Prop) : Prop :=
  (∀ a, answer = .ok a → P a) ∧ ∀ kind, answer = .error kind → kind.BlamesWords

/-- Answers in a row succeed one after the other. -/
theorem exists_of_bind_eq_ok {ε α β : Type} {answer : Except ε α} {f : α → Except ε β} {b : β}
    (h : answer >>= f = .ok b) : ∃ a, answer = .ok a ∧ f a = .ok b := by
  cases answer with
  | ok a => exact ⟨a, rfl, h⟩
  | error e => cases h

namespace Answers

variable {α : Type} {P : α → Prop}

theorem ok {a : α} (h : P a) : Answers (.ok a) P := by
  constructor
  · rintro a' ⟨⟩
    exact h
  · rintro kind ⟨⟩

theorem error {kind : CompileError.Kind} (h : kind.BlamesWords) :
    Answers (.error kind) P := by
  constructor
  · rintro a ⟨⟩
  · rintro kind' ⟨⟩
    exact h

theorem bind {β : Type} {answer : Except CompileError.Kind α}
    {f : α → Except CompileError.Kind β} {Q : β → Prop} (h : Answers answer P)
    (hf : ∀ a, answer = .ok a → P a → Answers (f a) Q) : Answers (answer >>= f) Q := by
  cases answer with
  | ok a => exact hf a rfl (h.1 a rfl)
  | error kind => exact error (h.2 kind rfl)

end Answers

namespace Draft

variable {r : Registry} {lines : List Line} {pending : List LabelId} {d : Draft}

theorem resolve_answers (hr : r.Sound) (h : d.Sound r lines pending) (t : Token) :
    Answers (d.resolve r t) (d.Knows r pending) := by
  unfold resolve
  split
  · split
    · exact .ok trivial
    · exact .error (by simp)
  · split
    · rename_i hl
      exact .ok (lookup_knows hr h hl)
    · exact .ok trivial
  · exact .error (by simp)

theorem resolveAll_answers (hr : r.Sound) (h : d.Sound r lines pending) (tokens : List Token) :
    Answers (d.resolveAll r tokens) (fun arguments => ∀ a ∈ arguments, d.Knows r pending a) := by
  unfold resolveAll
  induction tokens with
  | nil => exact .ok (by simp)
  | cons t tokens ih =>
    rw [List.mapM_cons]
    refine (resolve_answers hr h t).bind fun a _ ha => ih.bind fun rest _ hrest => ?_
    exact .ok (List.forall_mem_cons.mpr ⟨ha, hrest⟩)

end Draft

/-- The line `l` behind `lines` is the test of a condition, and leads to what follows it or to
`elseLabel`. -/
def Draft.Tests (r : Registry) (tokens : List Token) (elseLabel : LabelId) (lines : List Line)
    (l : Line) (d d' : Draft) : Prop :=
  ∃ thenLabel c first second a b, splitCondition tokens = .ok (c, first, second) ∧
    d.resolve r first = .ok a ∧ d.resolve r second = .ok b ∧
    r.Writes d'.natives (c.test a b (.label thenLabel) (.label elseLabel)).1.name
      (c.test a b (.label thenLabel) (.label elseLabel)).2 l ∧
    d'.buffer.position? thenLabel = some (codeSize (lines ++ [l]))

theorem splitCondition_answers (tokens : List Token) :
    Answers (splitCondition tokens) fun _ => True := by
  unfold splitCondition
  split
  · split
    · exact .ok trivial
    · exact .ok trivial
    · exact .error (by simp)
  · exact .error (by simp)

namespace Drafting

open CompileError.Kind

variable {r : Registry} {lines : List Line} {pending : List LabelId} {d : Draft}

theorem ofExcept_ensures {α : Type} {answer : Except CompileError.Kind α} {P : α → Prop}
    (h : Answers answer P) :
    Ensures (ofExcept answer) d (fun a d' => answer = .ok a ∧ P a ∧ d' = d) Excused := by
  cases answer with
  | ok a => exact ⟨rfl, h.1 a rfl, rfl⟩
  | error kind => exact excused (h.2 kind rfl).1 d

/-! ### Labels and builtin instructions -/

/-- A label without a position is placed at the end of the code. -/
theorem placeLabel_ensures {label : LabelId} (hl : d.HasLabel label)
    (hu : d.buffer.position? label = none) :
    Ensures (placeLabel label) d
      (fun _ d' => d.buffer.size < UInt32.size ∧
        d' = { d with buffer := d.buffer.bindLabel label })
      Excused := by
  have hfree : d.buffer.labelFault? label = none ↔ d.buffer.size < UInt32.size := by
    rw [CodeBuffer.labelFault?_eq_none_iff, and_iff_left ⟨hl, hu⟩]
  simp only [placeLabel, ensures_get_bind]
  cases hfault : d.buffer.labelFault? label with
  | some fault =>
    rw [hfault] at hfree
    exact fun _ _ => Nat.not_lt.mp fun hsize => Option.some_ne_none _ (hfree.mpr hsize)
  | none => exact ⟨hfree.mp hfault, rfl⟩

/-- A pending label is placed at the end of the code. -/
theorem placePending_ensures {label : LabelId} (h : d.Sound r lines (label :: pending)) :
    Ensures (placeLabel label) d
      (fun _ d' => (∃ buffer, d' = { d with buffer }) ∧
        d'.Sound r lines pending ∧ d.Grows d' ∧ d.Retains d' ∧
        d'.buffer.position? label = some (codeSize lines))
      Excused := by
  obtain ⟨hl, hu⟩ := h.unplaced label (by simp)
  refine (placeLabel_ensures hl hu).mono ?_ (fun _ _ h => h)
  rintro - d' ⟨hsize, rfl⟩
  have hout := (List.nodup_cons.mp h.nodup).1
  refine ⟨⟨_, rfl⟩, h.bindLabel hl hu hsize (List.sublist_cons_self _ _) hout ?_,
    Draft.Sound.grows_bindLabel hl hu,
    ⟨rfl, rfl, fun hw f hf => ?_, Draft.Sound.extends_bindLabel hl ?_⟩, ?_⟩
  · exact fun other ho => List.mem_cons.mp ho
  · -- labels that wait for a declaration are not in the hands of the compiler
    have hne : label ≠ f.label := by
      rintro rfl
      exact (h.waits f hf).2 (by simp)
    rw [CodeBuffer.position?_bindLabel hl, if_neg hne]
    exact hw f hf
  · exact fun name hn => (h.named name label hn).2.1 (by simp)
  · rw [CodeBuffer.position?_bindLabel hl, if_pos rfl]
    exact congrArg some h.size_eq

/-- Emitting a builtin instruction by its name. -/
theorem emitNamed_ensures (hr : r.Built) (b : Builtin) (h : d.Sound r lines pending)
    (arguments : List Argument) (hk : ∀ a ∈ arguments, d.Knows r pending a) :
    Ensures (emitNamed r b.name arguments) d
      (fun _ d' => ∃ op l, r.operation? b.name = some op ∧
        Draft.Emits r op arguments lines pending l d d') Excused := by
  obtain ⟨op, hop, -⟩ := hr.offers b
  rw [emitNamed, hop]
  refine (emit_ensures hr.sound hop h hk).mono ?_ (fun _ _ h => h)
  rintro - d' ⟨l, hl⟩
  exact ⟨op, l, rfl, hl⟩

/-- A new label is pending. -/
theorem newPending_ensures (h : d.Sound r lines pending) :
    Ensures newLabel d
      (fun label d' => (∃ buffer, d' = { d with buffer }) ∧ d'.Sound r lines (label :: pending) ∧
        d.Grows d' ∧ d.Retains d')
      Excused := by
  refine newLabel_ensures.mono ?_ (fun _ _ h => h)
  rintro label d' ⟨hc, rfl, rfl⟩
  exact ⟨⟨_, rfl⟩, h.newLabel hc, Draft.Sound.grows_newLabel, rfl, rfl,
    fun hw f hf => (CodeBuffer.position?_newLabel _ _).trans (hw f hf),
    Draft.Sound.extends_newLabel⟩

/-! ### Blocks -/

theorem forall_mem_test {P : Argument → Prop} (c : Comparison) {a b yes no : Argument} (ha : P a)
    (hb : P b) (hyes : P yes) (hno : P no) : ∀ x ∈ (c.test a b yes no).2, P x := by
  cases c <;> simp [Comparison.test, ha, hb, hyes, hno]

/-- What a condition compares is known. -/
theorem not_unknown_of_test (hr : r.Sound) {c : Comparison} {a b : Argument} {yes no : LabelId}
    {op : Operation} (hop : r.operation? (c.test a b (.label yes) (.label no)).1.name = some op)
    {o : Overload} (hsel : op.select r (c.test a b (.label yes) (.label no)).2 = .ok o)
    (name : String) : .unknown name ∉ (c.test a b (.label yes) (.label no)).2 := by
  intro hm
  obtain ⟨i, hi⟩ := List.mem_iff_getElem?.mp hm
  obtain ⟨test, -, -, hname, -, hlabel⟩ :=
    Operation.exists_builtin_of_label hr hop hsel hi trivial
  -- the labels of a test stand behind the two values
  have hplace : i = 2 ∨ i = 3 := by
    have hparams : test.params = [.int, .int, .label, .label] := by
      rw [Builtin.eq_of_name _ (by cases c <;> simp [Comparison.test]) hname]
      cases c <;> rfl
    rw [hparams] at hlabel
    match i, hlabel with
    | 2, _ => exact .inl rfl
    | 3, _ => exact .inr rfl
  rcases hplace with rfl | rfl <;> cases c <;> cases hi

theorem emitCondition_ensures (hr : r.Built) (h : d.Sound r lines pending) (tokens : List Token)
    {yes no : LabelId} (hyes : d.Settled pending yes) (hno : d.Settled pending no) :
    Ensures (emitCondition r tokens yes no) d
      (fun _ d' => ∃ c first second a b op l, splitCondition tokens = .ok (c, first, second) ∧
        d.resolve r first = .ok a ∧ d.resolve r second = .ok b ∧
        r.operation? (c.test a b (.label yes) (.label no)).1.name = some op ∧
        Draft.Emits r op (c.test a b (.label yes) (.label no)).2 lines pending l d d' ∧
        d'.forward = d.forward)
      Excused := by
  rw [emitCondition]
  refine (ofExcept_ensures (splitCondition_answers tokens)).bind ?_
  rintro ⟨c, first, second⟩ d₁ ⟨hsplit, -, rfl⟩
  simp only [ensures_get_bind]
  refine (ofExcept_ensures (Draft.resolve_answers hr.sound h first)).bind ?_
  rintro a d₂ ⟨ha, hka, rfl⟩
  refine (ofExcept_ensures (Draft.resolve_answers hr.sound h second)).bind ?_
  rintro b d₃ ⟨hb, hkb, rfl⟩
  have hk := forall_mem_test (P := d₃.Knows r pending) c hka hkb
    (show d₃.Knows r pending (.label yes) from hyes) (show d₃.Knows r pending (.label no) from hno)
  refine (emitNamed_ensures hr _ h _ hk).mono ?_ (fun _ _ h => h)
  rintro - d₄ ⟨op, l, hop, hl⟩
  obtain ⟨o, -, hsel, -⟩ := hl.chosen
  exact ⟨c, first, second, a, b, op, l, hsplit, ha, hb, hop, hl,
    hl.known (not_unknown_of_test hr.sound hop hsel)⟩

/-- Appends the test of a condition, and places the label that it leads to if the condition
holds. -/
theorem testAndPlace_ensures (hr : r.Built) {thenLabel elseLabel : LabelId}
    (h : d.Sound r lines (thenLabel :: elseLabel :: pending)) (tokens : List Token) :
    Ensures (emitCondition r tokens thenLabel elseLabel >>= fun _ => placeLabel thenLabel) d
      (fun _ d' => ∃ l, d.Tests r tokens elseLabel lines l d' ∧
        d'.Sound r (lines ++ [l]) (elseLabel :: pending) ∧ d.Grows d' ∧ d.Retains d' ∧
        d'.blocks = d.blocks)
      Excused := by
  refine (emitCondition_ensures hr h tokens (.inr (.inr (by simp))) (.inr (.inr (by simp)))).bind ?_
  rintro - d₁ ⟨c, first, second, a, b, op, l, hsplit, ha, hb, hop, hl, hf⟩
  refine (placePending_ensures hl.sound).mono ?_ (fun _ _ h => h)
  rintro - d₂ ⟨⟨buffer, rfl⟩, h₂, hg₂, hret₂, hpos⟩
  exact ⟨l, ⟨thenLabel, c, first, second, a, b, hsplit, ha, hb, hl.writes hop hf, hpos⟩,
    h₂, hl.grows.trans hg₂, (hl.frame.retains hf).trans hret₂, hl.frame.blocks⟩

/-- An `if` appends the test of its condition and opens a block. -/
theorem ifBlock_ensures (hr : r.Built) (h : d.Ready r lines) (s : Statement) :
    Ensures (ifBlock r s) d
      (fun _ d' => ∃ elseLabel endLabel l,
        d.Tests r s.arguments elseLabel lines l d' ∧ d'.Ready r (lines ++ [l]) ∧ d.Grows d' ∧
        d.Retains d' ∧ d'.blocks = ⟨.conditional, elseLabel, endLabel, s.span⟩ :: d.blocks)
      Excused := by
  rw [ifBlock]
  refine (newPending_ensures h.sound).bind ?_
  rintro thenLabel d₁ ⟨⟨buffer₁, rfl⟩, h₁, hg₁, hret₁⟩
  refine (newPending_ensures h₁).bind ?_
  rintro elseLabel d₂ ⟨⟨buffer₂, rfl⟩, h₂, hg₂, hret₂⟩
  refine (newPending_ensures h₂).bind ?_
  rintro endLabel d₃ ⟨⟨buffer₃, rfl⟩, h₃, hg₃, hret₃⟩
  -- the label that is placed first was made first, and is the last of the pending ones
  have hperm : (endLabel :: elseLabel :: thenLabel :: d.pending).Perm
      (thenLabel :: elseLabel :: endLabel :: d.pending) :=
    (List.reverse_perm [thenLabel, elseLabel, endLabel]).append_right d.pending
  rw [← bind_assoc]
  refine (testAndPlace_ensures hr (h₃.perm hperm) s.arguments).bind ?_
  rintro - d₄ ⟨l, htest, h₄, hg₄, hret₄, hblocks⟩
  have hret := ((hret₁.trans hret₂).trans hret₃).trans hret₄
  have hblocks : d₄.blocks = d.blocks := hblocks
  have hpending : d₄.pending = d.pending := by rw [Draft.pending, Draft.pending, hblocks]
  have hg : d.Grows d₄ := ((hg₁.trans hg₂).trans hg₃).trans hg₄
  refine ⟨elseLabel, endLabel, l, htest, ⟨?_, ?_⟩, hg.withBlocks _, hret.withBlocks _,
    congrArg _ hblocks⟩
  · refine (h₄.perm (List.Perm.of_eq ?_)).withBlocks _
    rw [← hpending]
    rfl
  · intro b hb hlast
    rcases List.mem_cons.mp hb with rfl | hb
    · cases hlast
    · rw [hblocks] at hb
      exact hg.isDefined (h.last b hb hlast)

theorem tests_congr {d₁ d' : Draft} {tokens : List Token} {elseLabel : LabelId} {l : Line}
    (h : d₁.Tests r tokens elseLabel lines l d') (hl : d₁.locals = d.locals) :
    d.Tests r tokens elseLabel lines l d' := by
  have hres : ∀ t, d₁.resolve r t = d.resolve r t := by
    intro t
    simp only [Draft.resolve, Draft.lookup, hl]
  simpa only [Draft.Tests, hres] using h

/-- A branch ends by a jump to the end of the block, behind which its condition leads. -/
theorem leaveBranch_ensures (hr : r.Built) {elseLabel endLabel : LabelId}
    (h : d.Sound r lines (elseLabel :: endLabel :: pending)) :
    Ensures
      (emitNamed r Builtin.goto.name [.label endLabel] >>= fun _ => placeLabel elseLabel) d
      (fun _ d' => ∃ jump,
        r.Writes d'.natives Builtin.goto.name [.label endLabel] jump ∧
        d'.buffer.position? elseLabel = some (codeSize (lines ++ [jump])) ∧
        d'.Sound r (lines ++ [jump]) (endLabel :: pending) ∧ d.Grows d' ∧ d.Retains d' ∧
        d'.blocks = d.blocks)
      Excused := by
  refine (emitNamed_ensures hr .goto h [.label endLabel] ?_).bind ?_
  · intro a ha
    rw [List.mem_singleton.mp ha]
    exact .inr (.inr (by simp))
  · rintro - d₁ ⟨op, jump, hop, hjump⟩
    refine (placePending_ensures hjump.sound).mono ?_ (fun _ _ h => h)
    rintro - d₂ ⟨⟨buffer, rfl⟩, h₂, hg₂, hret₂, hpos⟩
    have hf := hjump.known (by simp)
    exact ⟨jump, hjump.writes hop hf, hpos, h₂, hjump.grows.trans hg₂,
      (hjump.frame.retains hf).trans hret₂, hjump.frame.blocks⟩

/-- What beginning a branch does behind the jump to the end of the block. -/
theorem beginBranch_ensures (hr : r.Built) (h : d.Sound r lines pending) (s : Statement)
    (elseLabel : LabelId) :
    Ensures (beginBranch r s elseLabel) d
      (fun (branch, label) d' =>
        (s.arguments = [] ∧ branch = .last ∧ label = elseLabel ∧ d' = d ∨
          s.arguments ≠ [] ∧ branch = .conditional ∧ ∃ l,
            d.Tests r s.arguments label lines l d' ∧ d'.Sound r (lines ++ [l]) (label :: pending)) ∧
        d.Grows d' ∧ d.Retains d' ∧ d'.blocks = d.blocks)
      Excused := by
  rw [beginBranch]
  split
  · rename_i he
    exact ⟨.inl ⟨List.isEmpty_iff.mp he, rfl, rfl, rfl⟩, .refl, .refl d, rfl⟩
  · rename_i he
    have hne : s.arguments ≠ [] := fun heq => he (List.isEmpty_iff.mpr heq)
    refine (newPending_ensures h).bind ?_
    rintro thenLabel d₁ ⟨⟨buffer₁, rfl⟩, h₁, hg₁, hret₁⟩
    refine (newPending_ensures h₁).bind ?_
    rintro newElse d₂ ⟨⟨buffer₂, rfl⟩, h₂, hg₂, hret₂⟩
    rw [← bind_assoc]
    refine (testAndPlace_ensures hr (h₂.perm (List.Perm.swap _ _ _)) s.arguments).bind ?_
    rintro - d₃ ⟨l, htest, h₃, hg₃, hret₃, hblocks⟩
    exact ⟨.inr ⟨hne, rfl, l, htest, h₃⟩, (hg₁.trans hg₂).trans hg₃,
      (hret₁.trans hret₂).trans hret₃, hblocks⟩

/-- An `else` jumps to the end of the block and begins the next branch. -/
theorem elseBranch_ensures (hr : r.Built) (h : d.Ready r lines) (s : Statement) :
    Ensures (elseBranch r s) d
      (fun _ d' => ∃ block outer jump, d.blocks = block :: outer ∧ block.branch = .conditional ∧
        r.Writes d'.natives Builtin.goto.name [.label block.endLabel] jump ∧
        d'.buffer.position? block.elseLabel = some (codeSize (lines ++ [jump])) ∧
        d.Grows d' ∧ d.Retains d' ∧
        (s.arguments = [] ∧ d'.Ready r (lines ++ [jump]) ∧
            d'.blocks = { block with branch := .last } :: outer ∨
          s.arguments ≠ [] ∧ ∃ elseLabel l,
            d.Tests r s.arguments elseLabel (lines ++ [jump]) l d' ∧
            d'.Ready r (lines ++ [jump] ++ [l]) ∧ d'.blocks = { block with elseLabel } :: outer))
      Excused := by
  simp only [elseBranch, ensures_get_bind]
  cases hblocks : d.blocks with
  | nil => exact excused (by simp) d
  | cons block outer =>
    simp only
    split
    · exact excused (by simp) d
    · rename_i hlast
      have hbranch : block.branch = .conditional := by
        cases hb : block.branch with
        | conditional => rfl
        | last => exact absurd hb hlast
      have hpending : d.pending
          = block.elseLabel :: block.endLabel :: outer.flatMap Block.pending := by
        simp [Draft.pending, hblocks, Block.pending, hbranch]
      have hsound := h.sound
      rw [hpending] at hsound
      rw [← bind_assoc]
      refine (leaveBranch_ensures hr hsound).bind ?_
      rintro - d₂ ⟨jump, hjump, hpos, h₂, hg₂, hret₂, -⟩
      refine (beginBranch_ensures hr h₂ s block.elseLabel).bind ?_
      rintro ⟨branch, label⟩ d₃ ⟨hbegin, hg₃, hret₃, hblocks₃⟩
      have hg := hg₂.trans hg₃
      have hret := hret₂.trans hret₃
      -- the blocks around this one are as they were
      have houter : ∀ b ∈ outer, b.branch = .last → d₃.buffer.isDefined b.elseLabel = true := by
        intro b hb hlast
        exact hg.isDefined (h.last b (hblocks ▸ List.mem_cons_of_mem _ hb) hlast)
      refine ⟨block, outer, jump, rfl, hbranch, hjump.mono hg₃.natives, hg₃.positions _ _ hpos,
        hg.withBlocks _, hret.withBlocks _, ?_⟩
      rcases hbegin with ⟨harg, rfl, rfl, rfl⟩ | ⟨harg, rfl, l, htest, h₃⟩
      · refine .inl ⟨harg, ⟨h₂.withBlocks _, fun b hb hlast => ?_⟩, rfl⟩
        rcases List.mem_cons.mp hb with rfl | hb
        · exact CodeBuffer.isDefined_eq_true_iff.mpr ⟨_, hpos⟩
        · exact houter b hb hlast
      · refine .inr ⟨harg, label, l, tests_congr htest hret₂.locals, ⟨?_, fun b hb hlast => ?_⟩, ?_⟩
        · have := h₃.withBlocks ({ block with elseLabel := label } :: outer)
          simpa [Draft.pending, Block.pending, hbranch] using this
        · rcases List.mem_cons.mp hb with rfl | hb
          · cases hlast
          · exact houter b hb hlast
        · rw [← hbranch]

/-- An `end` places what the block has yet to place. -/
theorem endBlock_ensures (h : d.Ready r lines) (s : Statement) :
    Ensures (endBlock s) d
      (fun _ d' => ∃ block outer, d.blocks = block :: outer ∧ s.arguments = [] ∧
        d'.Ready r lines ∧ d.Grows d' ∧ d.Retains d' ∧ d'.blocks = outer ∧
        d'.buffer.position? block.endLabel = some (codeSize lines) ∧
        (block.branch = .conditional →
          d'.buffer.position? block.elseLabel = some (codeSize lines)))
      Excused := by
  rw [endBlock]
  by_cases harg : s.arguments = []
  · simp only [harg, List.isEmpty_nil, Bool.not_true, Bool.false_eq_true, if_false,
      ensures_get_bind]
    cases hblocks : d.blocks with
    | nil => exact excused (by simp) d
    | cons block outer =>
      simp only [ensures_modify_bind, ensures_get_bind]
      have hsound := h.sound.withBlocks outer
      have hg : d.Grows { d with blocks := outer } := Draft.Grows.refl.withBlocks outer
      have hlast : ∀ b ∈ outer, b.branch = .last → d.buffer.isDefined b.elseLabel = true :=
        fun b hb => h.last b (hblocks ▸ List.mem_cons_of_mem _ hb)
      cases hbranch : block.branch with
      | conditional =>
        have hpending : d.pending
            = block.elseLabel :: block.endLabel :: outer.flatMap Block.pending := by
          simp [Draft.pending, hblocks, Block.pending, hbranch]
        rw [hpending] at hsound
        -- the condition of the latest branch has nowhere to lead yet
        have hnot : d.buffer.isDefined block.elseLabel = false := by
          rw [CodeBuffer.isDefined, (h.sound.unplaced _ (by simp [hpending])).2]
          rfl
        rw [hnot]
        simp only [Bool.not_false, if_true]
        refine (placePending_ensures hsound).bind ?_
        rintro - d₁ ⟨⟨buffer₁, rfl⟩, h₁, hg₁, hret₁, hpos₁⟩
        refine (placePending_ensures h₁).mono ?_ (fun _ _ h => h)
        rintro - d₂ ⟨⟨buffer₂, rfl⟩, h₂, hg₂, hret₂, hpos₂⟩
        have hg := (hg.trans hg₁).trans hg₂
        exact ⟨block, outer, rfl, trivial, ⟨h₂, fun b hb hb' => hg.isDefined (hlast b hb hb')⟩, hg,
          (hret₁.trans hret₂).of_withBlocks, rfl, hpos₂, fun _ => hg₂.positions _ _ hpos₁⟩
      | last =>
        have hpending : d.pending = block.endLabel :: outer.flatMap Block.pending := by
          simp [Draft.pending, hblocks, Block.pending, hbranch]
        rw [hpending] at hsound
        -- the last branch begins where that condition leads
        rw [h.last block (by simp [hblocks]) hbranch]
        simp only [Bool.not_true, Bool.false_eq_true, if_false]
        refine (placePending_ensures hsound).mono ?_ (fun _ _ h => h)
        rintro - d₁ ⟨⟨buffer₁, rfl⟩, h₁, hg₁, hret₁, hpos₁⟩
        have hg := hg.trans hg₁
        exact ⟨block, outer, rfl, trivial, ⟨h₁, fun b hb hb' => hg.isDefined (hlast b hb hb')⟩, hg,
          hret₁.of_withBlocks, rfl, hpos₁, fun hc => absurd (hbranch.symm.trans hc) (by decide)⟩
  · rw [if_pos (by simpa using harg)]
    exact excused (by simp) d

end Drafting

end HookScript
