/-
Scripts without labels have no loops.

Blocks are all that jumps in such a script.  When a jump or a test of a block is emitted, the label
that it leads to is still to be placed, and labels are placed at the end of the code.  So every jump
leads ahead.

* `Draft.Ahead` — the lines refer to labels behind them;
* `Draft.Evolves.position?_cases` — labels are placed at the end of the code;
* `Draft.ahead_of_statement` — what statements add to the lines refers to labels behind it;
* `runs_ahead_of_compile` — no jump leads back, and so all runs only go ahead.
-/
import HookScript.Proofs.Compile.Conduct
import HookScript.Proofs.Compile.References
import HookScript.Proofs.Machine.Ending
import HookScript.Proofs.Machine.Termination

namespace HookScript

/-! ### Positions of labels -/

theorem CodeBuffer.size_le_put (b : CodeBuffer) (pieces : List Piece) :
    b.size ≤ (b.put pieces).size := by
  have append : ∀ (code : Array UInt8) (bs : List UInt8), code.size ≤ (code ++ bs).size := by
    intro code bs
    rw [← Array.length_toList, ← Array.length_toList, Array.toList_appendList, List.length_append]
    exact Nat.le_add_right _ _
  induction pieces generalizing b with
  | nil => exact Nat.le_refl _
  | cons piece pieces ih =>
    cases piece with
    | bytes bs => exact Nat.le_trans (append _ _) (ih (b.append bs))
    | label id => exact Nat.le_trans (append _ _) (ih (b.pushLabel id))

namespace Draft

variable {r : Registry} {L : Licence} {d d' : Draft}

/-- A label that gets a position gets it at the end of the code, which does not shrink. -/
theorem Change.position?_cases {deed : Deed} (h : d.Change r deed d') :
    d.buffer.size ≤ d'.buffer.size ∧ ∀ label place, d'.buffer.position? label = some place →
      d.buffer.position? label = some place ∨ place = d.buffer.size := by
  cases h with
  | note | touch | await | declare | enter => exact ⟨Nat.le_refl _, fun _ _ => .inl⟩
  | newLabel | name =>
    refine ⟨Nat.le_refl _, fun label place hp => .inl ?_⟩
    rwa [CodeBuffer.position?_newLabel] at hp
  | place made =>
    refine ⟨Nat.le_refl _, fun label place hp => ?_⟩
    rw [CodeBuffer.position?_bindLabel made] at hp
    split at hp
    · cases hp
      exact .inr rfl
    · exact .inl hp
  | write =>
    refine ⟨CodeBuffer.size_le_put _ _, fun label place hp => .inl ?_⟩
    exact (CodeBuffer.position?_put _ _ _).symm.trans hp

/-- Labels that have been placed in between lie behind the code that there was. -/
theorem Evolves.position?_cases (h : d.Evolves r L d') {label : LabelId} {place : Nat}
    (hp : d'.buffer.position? label = some place) :
    d.buffer.position? label = some place ∨ d.buffer.size ≤ place := by
  have hkept : d.buffer.size ≤ d'.buffer.size ∧ ∀ place, d'.buffer.position? label = some place →
      d.buffer.position? label = some place ∨ d.buffer.size ≤ place := by
    refine h.preserves (P := fun d' => d.buffer.size ≤ d'.buffer.size ∧
      ∀ place, d'.buffer.position? label = some place →
        d.buffer.position? label = some place ∨ d.buffer.size ≤ place) ?_
      ⟨Nat.le_refl _, fun _ => .inl⟩
    rintro d₁ deed d₂ - hc ⟨hle, hpositions⟩
    obtain ⟨hle', hcases⟩ := hc.position?_cases
    refine ⟨Nat.le_trans hle hle', fun place hp => ?_⟩
    rcases hcases label place hp with hold | rfl
    · exact hpositions place hold
    · exact .inr hle
  exact hkept.2 place hp

/-! ### Lines -/

/-- The lines refer to labels that lie behind them, if these have been placed. -/
def Ahead (d : Draft) (lines : List Line) : Prop :=
  ∀ done l, done ++ [l] <+: lines → ∀ id place, .label id ∈ l.payloads →
    d.buffer.position? id = some place → codeSize (done ++ [l]) ≤ place

namespace Ahead

variable {lines : List Line} {l : Line}

theorem nil (d : Draft) : d.Ahead [] := by
  intro done l hprefix
  cases List.append_ne_nil_of_right_ne_nil done (by simp) (List.prefix_nil.mp hprefix)

/-- Labels that are placed later lie behind all lines so far. -/
theorem after (h : d.Ahead lines)
    (hlater : ∀ id place, d'.buffer.position? id = some place →
      d.buffer.position? id = some place ∨ codeSize lines ≤ place) : d'.Ahead lines := by
  intro done l hprefix id place hid hp
  rcases hlater id place hp with hold | hle
  · exact h done l hprefix id place hid hold
  · obtain ⟨rest, rfl⟩ := hprefix
    rw [codeSize_append] at hle
    exact Nat.le_trans (Nat.le_add_right _ _) hle

/-- One more line, whose labels are still to be placed, or have been placed behind it. -/
theorem snoc (h : d.Ahead lines)
    (hl : ∀ id place, .label id ∈ l.payloads → d.buffer.position? id = some place →
      codeSize (lines ++ [l]) ≤ place) : d.Ahead (lines ++ [l]) := by
  intro done l' hprefix id place hid hp
  rcases List.prefix_concat_iff.mp hprefix with hall | hprefix
  · obtain ⟨hdone, hlast⟩ := List.append_inj' hall rfl
    obtain rfl := List.singleton_inj.mp hlast
    rw [hdone]
    exact hl id place hid hp
  · exact h done l' hprefix id place hid hp

end Ahead

end Draft

/-! ### Labels of lines -/

/-- The labels of a line are those of its arguments. -/
theorem Overload.Yields.mem_of_label {r : Registry} {natives : Array NativeBinding} {o : Overload}
    {bound : List Argument} {l : Line} (h : Yields r natives o bound l) {id : LabelId}
    (hid : .label id ∈ l.payloads) : .label id ∈ bound := by
  cases h with
  | builtin version =>
    obtain ⟨a, ha, heq⟩ := List.mem_map.mp hid
    cases a <;> cases heq
    exact ha
  | native => simp at hid

theorem Registry.Writes.mem_of_label {r : Registry} {natives : Array NativeBinding} {name : String}
    {arguments : List Argument} {l : Line} (h : r.Writes natives name arguments l) {id : LabelId}
    (hid : .label id ∈ l.payloads) : .label id ∈ arguments := by
  obtain ⟨op, o, -, -, hyields, -⟩ := h
  exact hyields.mem_of_label hid

namespace Draft

variable {r : Registry} {d d' : Draft} {lines : List Line} {l : Line}

/-- The line of an operation without labels among its arguments has none either, if no name waits
for its declaration. -/
theorem Emits.not_label {op : Operation} {arguments : List Argument} {pending : List LabelId}
    (h : Emits r op arguments lines pending l d d') (hf : d'.forward = d.forward)
    (ha : ∀ id, .label id ∉ arguments) (id : LabelId) : .label id ∉ l.payloads := by
  obtain ⟨o, bound, -, -, hsame, hyields⟩ := h.chosen
  intro hid
  have hmem := hyields.mem_of_label hid
  rw [hsame hf] at hmem
  exact ha id hmem

/-- The labels of a test are that behind it, and the one that the failing condition leads to. -/
theorem Tests.ahead (hr : r.Sound) (hu : d.Unlabelled) {tokens : List Token} {elseLabel : LabelId}
    (h : d.Tests r tokens elseLabel lines l d') (helse : d'.buffer.position? elseLabel = none)
    {id : LabelId} {place : Nat} (hid : .label id ∈ l.payloads)
    (hp : d'.buffer.position? id = some place) : codeSize (lines ++ [l]) ≤ place := by
  obtain ⟨thenLabel, c, first, second, a, b, -, ha, hb, hwrites, hthen⟩ := h
  have hlabels : ∀ x ∈ (c.test a b (.label thenLabel) (.label elseLabel)).2,
      ∀ id, x = .label id → id = thenLabel ∨ id = elseLabel := by
    refine Drafting.forall_mem_test c ?_ ?_ ?_ ?_
    · exact fun id heq => absurd heq (hu.resolve hr ha id)
    · exact fun id heq => absurd heq (hu.resolve hr hb id)
    · rintro id ⟨⟩
      exact .inl rfl
    · rintro id ⟨⟩
      exact .inr rfl
  rcases hlabels _ (hwrites.mem_of_label hid) id rfl with rfl | rfl
  · rw [hthen] at hp
    cases hp
    exact Nat.le_refl _
  · rw [helse] at hp
    cases hp

/-! ### Statements -/

/-- A statement without a label gives no label a name, unless the name waits for its
declaration. -/
theorem Unlabelled.of_takes (hu : d.Unlabelled) {s : Statement} (hs : s.label = none)
    (h : d.Takes r s d') (hf : d'.forward = #[]) : d'.Unlabelled := by
  obtain ⟨d₁, hsame, -, hperforms⟩ := h
  have hu₁ : d₁.Unlabelled := by
    rw [hsame hs]
    exact hu
  intro name id hfind
  cases hperforms with
  | @refers more names waits =>
    have hmore : more = #[] := (Array.append_eq_empty_iff.mp (names.forward.symm.trans hf)).2
    rcases names.added name _ hfind with hold | ⟨f, hm, -⟩
    · exact hu₁ name id hold
    · simp [hmore] at hm
  | declares declared new names =>
    rcases names.added name _ hfind with hold | ⟨f, hm, -⟩
    · exact hu₁.withVariable _ _ name id hold
    · simp at hm

/-- A label that an open block has yet to place. -/
theorem Ready.unplaced (h : d.Ready r lines) {block : Block} {outer : List Block}
    (hblocks : d.blocks = block :: outer) {label : LabelId} (hl : label ∈ block.pending) :
    d.buffer.position? label = none := by
  refine (h.sound.unplaced label ?_).2
  rw [pending, hblocks, List.flatMap_cons]
  exact List.mem_append_left _ hl

/-- What an operation without labels adds to the lines has no labels. -/
theorem Emits.ahead {op : Operation} {arguments : List Argument} {pending : List LabelId}
    (h : Emits r op arguments lines pending l d d') (hf : d'.forward = d.forward)
    (harguments : ∀ id, .label id ∉ arguments) (ha : d'.Ahead lines) : d'.Ahead (lines ++ [l]) :=
  ha.snoc fun id _ hid => absurd hid (h.not_label hf harguments id)

theorem ahead_of_declaration (hr : r.Built) (h : d.Ready r lines) (hu : d.Unlabelled)
    {s : Statement} (hok : Drafting.declaration r s d = .ok () d') (ha : d'.Ahead lines) :
    ∃ more, d'.Ready r (lines ++ more) ∧ d'.Ahead (lines ++ more) := by
  obtain ⟨type, name, value, more, hdeclared, -, -, -, hvalue, hready, -⟩ :=
    (Drafting.declaration_ensures hr h s).of_ok hok
  refine ⟨more, hready, ?_⟩
  cases value with
  | none =>
    obtain rfl := hvalue
    rwa [List.append_nil]
  | some value =>
    -- neither the variable nor its first value is a label
    obtain ⟨l, rfl, hwrites⟩ := hvalue
    obtain ⟨t, ht⟩ := exists_resolve_of_declared hdeclared
    refine ha.snoc fun id _ hid => ?_
    rcases List.mem_pair.mp (hwrites.mem_of_label hid) with heq | heq
    · cases heq
    · exact absurd heq.symm (hu.resolve hr.sound ht id)

theorem ahead_of_ifBlock (hr : r.Built) (h : d.Ready r lines) (hu : d.Unlabelled) {s : Statement}
    (hok : Drafting.ifBlock r s d = .ok () d') (ha : d'.Ahead lines) :
    ∃ more, d'.Ready r (lines ++ more) ∧ d'.Ahead (lines ++ more) := by
  obtain ⟨elseLabel, endLabel, l, htest, hready, -, -, hblocks⟩ :=
    (Drafting.ifBlock_ensures hr h s).of_ok hok
  have helse : d'.buffer.position? elseLabel = none :=
    hready.unplaced hblocks (by simp [Block.pending])
  exact ⟨[l], hready, ha.snoc fun _ _ => htest.ahead hr.sound hu helse⟩

theorem ahead_of_elseBranch (hr : r.Built) (h : d.Ready r lines) (hu : d.Unlabelled)
    {s : Statement} (hok : Drafting.elseBranch r s d = .ok () d') (ha : d'.Ahead lines) :
    ∃ more, d'.Ready r (lines ++ more) ∧ d'.Ahead (lines ++ more) := by
  obtain ⟨block, outer, jump, -, hbranch, hjump, -, -, -, hbegin⟩ :=
    (Drafting.elseBranch_ensures hr h s).of_ok hok
  -- the end of the block is placed by its `end`
  have hleave : d'.buffer.position? block.endLabel = none →
      d'.Ahead (lines ++ [jump]) := fun hend => ha.snoc fun id place hid hp => by
    obtain heq := List.mem_singleton.mp (hjump.mem_of_label hid)
    cases heq
    rw [hend] at hp
    cases hp
  rcases hbegin with ⟨-, hready, hblocks⟩ | ⟨-, elseLabel, l, htest, hready, hblocks⟩
  · have hend : d'.buffer.position? block.endLabel = none :=
      hready.unplaced hblocks (by simp [Block.pending])
    exact ⟨[jump], hready, hleave hend⟩
  · have hend : d'.buffer.position? block.endLabel = none :=
      hready.unplaced hblocks (by simp [Block.pending, hbranch])
    have helse : d'.buffer.position? elseLabel = none :=
      hready.unplaced hblocks (by simp [Block.pending, hbranch])
    refine ⟨[jump] ++ [l], by rwa [← List.append_assoc], ?_⟩
    rw [← List.append_assoc]
    exact (hleave hend).snoc fun _ _ => htest.ahead hr.sound hu helse

/-- What a statement adds to the lines refers to labels behind it, if none of its names is a
label. -/
theorem ahead_of_statement (hr : r.Built) (own : r.OwnForms) (h : d.Ready r lines)
    (hd : d.Orderly r) (hu : d.Unlabelled) {s : Statement} (hs : s.label = none)
    (hok : Drafting.statement r s d = .ok () d') (hf : d'.forward = #[]) (ha : d.Ahead lines) :
    ∃ more, d'.Ready r (lines ++ more) ∧ d'.Ahead (lines ++ more) := by
  have h₀ := Drafting.ready_withSpan h s.span
  have hu₀ : Unlabelled { d with span := s.span } := hu
  -- labels that the statement places lie behind the lines so far
  have he := ((Drafting.statement_leads hr.sound hd (.any r s d)).of_ok hok).1
  have ha' : d'.Ahead lines := ha.after fun id place hp => by
    rw [← h.sound.size_eq]
    exact he.position?_cases hp
  rw [Drafting.statement_of_unlabelled hs] at hok
  cases hform : r.formOf s with
  | call =>
    obtain ⟨_, _, arguments, l, -, hl, harguments, -⟩ :=
      Drafting.emits_of_performance hr h₀ hform hok
    have hforward : d'.forward = d.forward := by rw [hf, hl.grows.of_span.forward_eq_empty hf]
    exact ⟨[l], hl.ready h₀, hl.ahead hforward (harguments hu₀) ha'⟩
  | declaration =>
    rw [Drafting.performance_of_declaration hform] at hok
    exact ahead_of_declaration hr h₀ hu₀ hok ha'
  | ifBlock =>
    rw [Drafting.performance_of_ifBlock hform] at hok
    exact ahead_of_ifBlock hr h₀ hu₀ hok ha'
  | elseBranch =>
    rw [Drafting.performance_of_elseBranch hform] at hok
    exact ahead_of_elseBranch hr h₀ hu₀ hok ha'
  | endBlock =>
    rw [Drafting.performance_of_endBlock hform] at hok
    obtain ⟨_, _, -, -, hready, -⟩ := (Drafting.endBlock_ensures h₀ s).of_ok hok
    exact ⟨[], by rwa [List.append_nil], by rwa [List.append_nil]⟩
  | custom form => exact absurd hform ((own.reads s).formOf_ne form)

/-- Statements without labels refer to labels behind them. -/
theorem ahead_of_compileAll (hr : r.Built) (own : r.OwnForms) {source : String}
    {statements : List Statement} (h : d.Ready r lines) (hd : d.Orderly r) (hu : d.Unlabelled)
    (hs : ∀ s ∈ statements, s.label = none)
    (hok : d.compileAll r source (statements.map .ok) = .ok d') (hf : d'.forward = #[])
    (ha : d.Ahead lines) : ∃ more, d'.Ready r (lines ++ more) ∧ d'.Ahead (lines ++ more) := by
  induction statements generalizing lines d with
  | nil =>
    cases hok
    exact ⟨[], by rwa [List.append_nil], by rwa [List.append_nil]⟩
  | cons s rest ih =>
    obtain ⟨hlabel, hs⟩ := List.forall_mem_cons.mp hs
    obtain ⟨d₁, hstep, hok⟩ := compileAll_cons_eq_ok hok
    have hf₁ := forward_of_statement hr own h hstep hok hf
    obtain ⟨_, -, -, -, htakes⟩ := (Drafting.statement_ensures hr (own.reads s) h).of_ok hstep
    have he := ((Drafting.statement_leads hr.sound hd (.any r s d)).of_ok hstep).1
    obtain ⟨more, h₁, ha₁⟩ := ahead_of_statement hr own h hd hu hlabel hstep hf₁ ha
    obtain ⟨more', h', ha'⟩ :=
      ih h₁ (he.orderly hd) (hu.of_takes hlabel htakes hf₁) hs hok ha₁
    exact ⟨more ++ more', by rwa [← List.append_assoc], by rwa [← List.append_assoc]⟩

/-- Closed, a script whose lines refer to labels behind them has no jump that leads back. -/
theorem Closes.jumpsAhead {closed : Draft} {p : Program} (h : d.Closes r lines l closed p)
    (ha : d.Ahead lines) :
    Program.JumpsAhead (Line.tiles closed.buffer.target 0 (lines ++ [l])) := by
  -- the final line has no labels, and places none
  have hclosed : closed.Ahead (lines ++ [l]) := by
    refine (ha.after fun id place hp => .inl ?_).snoc fun id place hid => ?_
    · rwa [CodeBuffer.position?, h.labels] at hp
    · have hmem := h.writes.mem_of_label hid
      cases hmem
  intro tile ht target hlabel
  obtain ⟨done, l', rest, hall, rfl⟩ := Line.exists_of_mem_tiles ht
  obtain ⟨id, hid, rfl⟩ := Line.exists_of_mem_targets (List.mem_filterMap.mpr ⟨_, hlabel, rfl⟩)
  have hpiece : .label id ∈ piecesOf (lines ++ [l]) := by
    refine List.mem_flatMap.mpr ⟨l', by simp [hall], List.mem_cons_of_mem _ ?_⟩
    exact List.mem_map.mpr ⟨_, hid, rfl⟩
  obtain ⟨place, hp⟩ := CodeBuffer.isDefined_eq_true_iff.mp (h.targets id hpiece)
  have hle := hclosed done l' (by simp [hall]) id place hid hp
  have htarget : closed.buffer.target id = place := by
    rw [CodeBuffer.target, hp]
    rfl
  have hpos := l'.size_pos
  simp only [codeSize_append, codeSize_cons] at hle
  rw [htarget]
  simp only
  omega

end Draft

/-! ### Whole scripts -/

/-- In the program of a script without labels, every jump leads to an offset behind its own.  So its
runs only go ahead, whatever their workers and inputs: no instruction is carried out twice, and with
a budget of the number of instructions no run uses it up, unless a host function says so. -/
theorem runs_ahead_of_compile {r : Registry} (hr : r.Built) (own : r.OwnForms)
    {hook : Option HookSignature} {source : String} {p : Program}
    (h : compile r hook source = .ok p) (small : p.code.size < UInt32.size)
    (unlabelled : ∀ s : Statement,
      .ok s ∈ Statement.readAll r.config.maxArguments (tokenize source) → s.label = none) :
    p.sweep.2 = none ∧ Program.JumpsAhead p.sweep.1.toList ∧
      ∀ worker inputs, p.RunsAhead worker inputs := by
  obtain ⟨first, last, c⟩ := Draft.exists_compilation h small
  obtain ⟨statements, hread⟩ := Draft.exists_statements_of_compileAll c.all
  have hall := c.all
  rw [hread] at unlabelled hall
  have hlabels : ∀ s ∈ statements, s.label = none := fun s hs =>
    unlabelled s (List.mem_map_of_mem hs)
  obtain ⟨hstart, -⟩ := Draft.start_ready hr.sound c.start
  obtain ⟨hnames, hwaiting⟩ := Draft.start_unlabelled c.start
  have hwaiting := Draft.waiting_of_compileAll hr own hstart hlabels hall hwaiting
  -- any lines that make up the last draft are the code of the program
  have closes : ∀ {lines : List Line}, last.Ready r lines →
      ∃ l, last.Closes r lines l (last.lastFrom r []) p := fun hready =>
    (Draft.finish_of_ready hr source hready c.small).2 p c.finish
  obtain ⟨⟨lines, hready⟩, -⟩ := Draft.compileAll_ready hr own hstart hall
  obtain ⟨l, hclosed⟩ := closes hready
  obtain ⟨lines, hready, hahead⟩ := Draft.ahead_of_compileAll hr own hstart
    (Draft.orderly_of_start c.start) hnames hlabels hall (hclosed.forward_eq_empty hwaiting)
    (.nil first)
  obtain ⟨l, hclosed⟩ := closes hready
  obtain ⟨hne, tiles, ht, hc⟩ := Program.verify_eq_ok_iff.mp hclosed.verified
  have ha : Program.JumpsAhead tiles := ht.unique hclosed.tiling ▸ hclosed.jumpsAhead hahead
  rw [ht.sweep_eq]
  refine ⟨rfl, ha, fun worker inputs => ?_⟩
  have obtained : p.Obtained r := .compiled h
  refine Program.runsAhead_of_tiling ht hc ha
    (fun binding hm => (obtained.formed hr binding hm).length_le) fun m hm hend => ?_
  -- a run would have to go past the final `exit`
  obtain ⟨final, hfinal, hexit⟩ := exit_of_compile hr h ht
  have hgoes := (Program.goesPast_of_reaches ht hc hne hfinal hm hend).2
  rw [hexit] at hgoes
  exact hgoes

/-- A script with a chain, one of whose branches calls a host function. -/
def choosingScript : String := "if lt r0 3; double r0 r0; else; set r0 6; end;"

theorem runs_ahead_of_choosingScript : ∃ r p, Registry.Built r ∧ r.OwnForms ∧
    compile r none choosingScript = .ok p ∧ p.code.size < UInt32.size ∧
    (∀ s : Statement, .ok s ∈ Statement.readAll r.config.maxArguments (tokenize choosingScript) →
      s.label = none) ∧
    p.natives.size = 1 ∧ p.sweep.1.size = 5 ∧ p.sweep.2 = none ∧
    Program.JumpsAhead p.sweep.1.toList ∧ (∀ worker inputs, p.RunsAhead worker inputs) ∧
    ∀ worker inputs e, (p.run 5 worker inputs).result = .error e →
      ∀ limit, e.fault ≠ .stepLimit limit := by
  obtain ⟨r₀, hr₀, h⟩ := Registry.exists_standard {} (fun r₀ => decide (r₀.natives.size = 0) &&
    doublingRequest.passes r₀ fun r => decide (r.natives.size = 2) &&
      (r.operations.toList.all (fun op => !op.2.form.isCustom) &&
        ((Statement.readAll r.config.maxArguments (tokenize choosingScript)).all (fun read =>
          read.toOption.all fun s : Statement => s.label.isNone) &&
        (compile r none choosingScript).toOption.any fun p : Program =>
          decide (p.code.size < UInt32.size) && (decide (p.natives.size = 1) &&
            decide (p.sweep.1.size = 5))))) (by decide +kernel)
  obtain ⟨hempty, h⟩ := Bool.and_eq_true_iff.mp h
  obtain ⟨r, hrequest, h⟩ := doublingRequest.exists_of_passes h
  simp only [Bool.and_eq_true] at h
  obtain ⟨htwo, hown, hlabels, h⟩ := h
  obtain ⟨p, hp, h⟩ := exists_ok h
  simp only [Bool.and_eq_true, decide_eq_true_eq] at h
  obtain ⟨hsmall, hone, hfive⟩ := h
  have hbuilt : r.Built := (Registry.Built.of_standard hr₀).of_request doublingRequest hrequest
  have own := Registry.ownForms_of_all hown
  have hlabels : ∀ s : Statement,
      .ok s ∈ Statement.readAll r.config.maxArguments (tokenize choosingScript) → s.label = none :=
    fun s hs => by simpa [Except.toOption] using List.all_eq_true.mp hlabels _ hs
  have hosts : ∀ n ∈ p.natives, ∀ operands worker limit,
      (n.routine.run operands worker).1 ≠ .fail (.stepLimit limit) := by
    intro n hn operands worker limit
    rw [Program.routine_of_doublingRequest hbuilt (of_decide_eq_true hempty) hrequest
      (of_decide_eq_true htwo) hp n hn]
    simp [doublingRoutine, HostRoutine.run]
  obtain ⟨hsweep, hahead, hruns⟩ := runs_ahead_of_compile hbuilt own hp hsmall hlabels
  exact ⟨r, p, hbuilt, own, hp, hsmall, hlabels, hone, hfive, hsweep, hahead, hruns,
    fun worker inputs => (hruns worker inputs).ends hosts 5 (Nat.le_of_eq hfive)⟩

end HookScript
