/-
Statements that are valid where they stand.

Apart from the blocks that are open, an ordinary statement or a declaration is valid in a draft if
it can be compiled there, and a statement of a block if its condition compares two integers.  Such a
statement is compiled if it may stand where it does, as long as there is room for labels and code.

* `Draft.Full` and `Drafting.Fits` — nothing but a lack of room makes a step of the compiler fail;
* `Draft.Compares` and `Statement.ValidIn` — valid conditions and statements;
* `Drafting.succeeds_emitCondition_iff` — no other conditions can be tested;
* `Draft.Stands` — the blocks of a draft are those of the chains that are open;
* `Drafting.nestsInto_of_statement` — what has been compiled may stand where it does;
* `Drafting.statement_nests` — what a valid statement makes of them, or why it fails.
-/
import HookScript.Proofs.Compile.ForwardLabels
import HookScript.Proofs.Control.Nesting

namespace HookScript

/-! ### Room -/

/-- The draft has as many labels, or as much code, as scripts can have. -/
def Draft.Full (d : Draft) : Prop :=
  Drafting.maxLabels ≤ d.buffer.labels.size ∨ UInt32.size ≤ d.buffer.size

namespace Drafting

variable {r : Registry} {lines : List Line} {pending : List LabelId} {d : Draft} {α β : Type}

/-- The step fails only if there is no room. -/
def Fits (x : Drafting α) (d : Draft) : Prop :=
  Ensures x d (fun _ _ => True) (fun _ d' => d'.Full)

theorem Fits.bind {x : Drafting α} {f : α → Drafting β} {done : α → Draft → Prop}
    {failed : CompileError.Kind → Draft → Prop} (h : Fits x d) (hx : Ensures x d done failed)
    (hf : ∀ a d', done a d' → Fits (f a) d') : Fits (x >>= f) d :=
  ((h.and hx).mono (fun _ _ h => h.2) fun _ _ h => h.1).bind hf

theorem fits_pure (a : α) : Fits (pure a) d := trivial

theorem fits_modify {g : Draft → Draft} : Fits (modify g : Drafting PUnit) d := trivial

theorem fits_of_succeeds {x : Drafting α} (h : Succeeds x d) : Fits x d := by
  obtain ⟨a, d', hx⟩ := h
  rw [Fits, Ensures, hx]
  trivial

theorem fits_newLabel : Fits newLabel d := by
  simp only [Fits, newLabel, ensures_get_bind]
  split
  · rename_i hfull
    exact Or.inl hfull
  · trivial

/-- A label that the compiler has yet to place is placed. -/
theorem fits_placePending {label : LabelId} (h : d.Sound r lines (label :: pending)) :
    Fits (placeLabel label) d := by
  obtain ⟨hl, hu⟩ := h.unplaced label (by simp)
  simp only [Fits, placeLabel, ensures_get_bind]
  cases hfault : d.buffer.labelFault? label with
  | none => trivial
  | some fault =>
    refine .inr (Nat.not_lt.mp fun hsize => ?_)
    rw [CodeBuffer.labelFault?_eq_none_iff.mpr ⟨hsize, hl, hu⟩] at hfault
    cases hfault

end Drafting

/-! ### Conditions -/

/-- The argument is an integer, as a constant or in a register. -/
inductive Argument.IsInteger : Argument → Prop where
  | constant (value : Int32) : IsInteger (.constant value)
  | register (index : UInt8) (writable : Bool) : IsInteger (.register index .int writable)

/-- The token stands for an integer. -/
def Draft.ReadsInteger (r : Registry) (d : Draft) (t : Token) : Prop :=
  ∃ a, d.resolve r t = .ok a ∧ a.IsInteger

/-- The tokens are a condition, which compares two integers. -/
def Draft.Compares (r : Registry) (d : Draft) (tokens : List Token) : Prop :=
  ∃ c first second, splitCondition tokens = .ok (c, first, second) ∧
    d.ReadsInteger r first ∧ d.ReadsInteger r second

theorem Draft.Compares.of_locals {r : Registry} {d d' : Draft} {tokens : List Token}
    (h : d.Compares r tokens) (hl : d'.locals = d.locals) : d'.Compares r tokens := by
  have hres : ∀ t, d'.resolve r t = d.resolve r t := by
    intro t
    simp only [resolve, lookup, hl]
  simpa only [Compares, ReadsInteger, hres] using h

theorem Argument.IsInteger.ne_unknown {a : Argument} (h : a.IsInteger) (name : String) :
    a ≠ .unknown name := by
  cases h <;> simp

theorem Argument.isInteger_iff {a : Argument} : a.IsInteger ↔ (a.score .int).isSome = true := by
  constructor
  · intro h
    cases h <;> rfl
  · intro h
    cases a with
    | constant value => exact .constant value
    | register index type writable =>
      cases type with
      | int => exact .register index writable
      | ptr _ | ptre _ => cases h
    | label _ | typeName _ | unknown _ => cases h

/-- The test fits two values exactly if both are integers. -/
theorem Comparison.isSome_score?_test_iff (c : Comparison) {a b : Argument} (yes no : LabelId) :
    ((Registry.builtinOverload (c.test a b (.label yes) (.label no)).1).score?
      (c.test a b (.label yes) (.label no)).2).isSome = true ↔ a.IsInteger ∧ b.IsInteger := by
  constructor
  · intro h
    obtain ⟨score, hscore⟩ := Option.isSome_iff_exists.mp h
    have hs := Overload.forall_of_totalScore? hscore
    rw [Argument.isInteger_iff, Argument.isInteger_iff]
    cases c with
    | eq | neq | le | gt =>
      obtain ⟨hfirst, hrest⟩ := List.forall₂_cons.mp hs
      exact ⟨hfirst, (List.forall₂_cons.mp hrest).1⟩
    | ge | lt =>
      -- these two exchange the values
      obtain ⟨hsecond, hrest⟩ := List.forall₂_cons.mp hs
      exact ⟨(List.forall₂_cons.mp hrest).1, hsecond⟩
  · rintro ⟨ha, hb⟩
    cases ha <;> cases hb <;> cases c <;> rfl

namespace Drafting

variable {r : Registry} {lines : List Line} {pending : List LabelId} {d : Draft}

theorem ofExcept_eq_ok {α : Type} {answer : Except CompileError.Kind α} {a : α} {d' : Draft} :
    ofExcept answer d = .ok a d' ↔ answer = .ok a ∧ d' = d := by
  cases answer with
  | error kind => exact ⟨nofun, nofun⟩
  | ok a' =>
    constructor
    · intro h
      cases h
      exact ⟨rfl, rfl⟩
    · rintro ⟨h, rfl⟩
      cases h
      rfl

theorem succeeds_get_bind {α : Type} {f : Draft → Drafting α} :
    Succeeds (get >>= f) d ↔ Succeeds (f d) d := by
  rw [Succeeds, get_bind, Succeeds]

theorem succeeds_emitNamed (hr : r.Built) {b : Builtin}
    (hb : b ∈ [Builtin.goto, .set, .testLe, .testEq]) {arguments : List Argument}
    (hfits : ((Registry.builtinOverload b).score? arguments).isSome = true) {i : Nat} {a : Argument}
    (hi : arguments[i]? = some a) (ha : a.IsLabel) (known : ∀ name, .unknown name ∉ arguments) :
    Succeeds (emitNamed r b.name arguments) d := by
  obtain ⟨op, hop, -⟩ := hr.offers b
  rw [emitNamed, hop]
  exact (succeeds_emit_builtin (Registry.select_of_label hr hb hop hfits hi ha)).mpr
    (succeeds_bindForward_known known)

theorem isSome_score?_of_emitNamed (hr : r.Built) {b : Builtin}
    (hb : b ∈ [Builtin.goto, .set, .testLe, .testEq]) {arguments : List Argument} {i : Nat}
    {a : Argument} (hi : arguments[i]? = some a) (ha : a.IsLabel)
    (h : Succeeds (emitNamed r b.name arguments) d) :
    ((Registry.builtinOverload b).score? arguments).isSome = true := by
  obtain ⟨op, hop, -⟩ := hr.offers b
  rw [emitNamed, hop] at h
  obtain ⟨o, d₁, hselect, -⟩ := succeeds_bind.mp h
  obtain ⟨hsel, -⟩ := ofExcept_eq_ok.mp hselect
  obtain ⟨b', doc, rfl, hname, -⟩ := Operation.exists_builtin_of_label hr.sound hop hsel hi ha
  obtain ⟨-, score, hscore, -⟩ := Operation.select_eq_ok hsel
  rw [← Builtin.eq_of_name b hb hname]
  exact Option.isSome_iff_exists.mpr ⟨score, hscore⟩

theorem succeeds_goto (hr : r.Built) (label : LabelId) :
    Succeeds (emitNamed r Builtin.goto.name [.label label]) d :=
  succeeds_emitNamed hr (by simp) rfl (i := 0) rfl trivial (by simp)

/-- A condition is tested exactly if it compares integers. -/
theorem succeeds_emitCondition_iff (hr : r.Built) {tokens : List Token} {yes no : LabelId} :
    Succeeds (emitCondition r tokens yes no) d ↔ d.Compares r tokens := by
  have htest : ∀ (c : Comparison) (a b : Argument), (c.test a b (.label yes) (.label no)).1
      ∈ [Builtin.goto, .set, .testLe, .testEq] := fun c _ _ => by cases c <;> simp [Comparison.test]
  -- behind the two values stands a label
  have hlabel : ∀ (c : Comparison) (a b : Argument), ∃ label,
      (c.test a b (.label yes) (.label no)).2[2]? = some (.label label) :=
    fun c _ _ => by cases c <;> exact ⟨_, rfl⟩
  rw [emitCondition]
  constructor
  · intro h
    obtain ⟨⟨c, first, second⟩, _, ho, hrest⟩ := succeeds_bind.mp h
    obtain ⟨hsplit, rfl⟩ := ofExcept_eq_ok.mp ho
    obtain ⟨a, _, ho, hrest⟩ := succeeds_bind.mp (succeeds_get_bind.mp hrest)
    obtain ⟨hfirst, rfl⟩ := ofExcept_eq_ok.mp ho
    obtain ⟨b, _, ho, hemit⟩ := succeeds_bind.mp hrest
    obtain ⟨hsecond, rfl⟩ := ofExcept_eq_ok.mp ho
    obtain ⟨label, hplace⟩ := hlabel c a b
    have hfits := isSome_score?_of_emitNamed hr (htest c a b) hplace trivial hemit
    obtain ⟨ha, hb⟩ := (c.isSome_score?_test_iff yes no).mp hfits
    exact ⟨c, first, second, hsplit, ⟨a, hfirst, ha⟩, b, hsecond, hb⟩
  · rintro ⟨c, first, second, hsplit, ⟨a, hfirst, ha⟩, b, hsecond, hb⟩
    rw [hsplit]
    refine succeeds_bind.mpr ⟨_, d, rfl, succeeds_bind.mpr ⟨d, d, rfl, ?_⟩⟩
    simp only [hfirst, hsecond]
    refine succeeds_bind.mpr ⟨a, d, rfl, succeeds_bind.mpr ⟨b, d, rfl, ?_⟩⟩
    have known : ∀ x ∈ (c.test a b (.label yes) (.label no)).2, ∀ name, x ≠ .unknown name :=
      forall_mem_test c ha.ne_unknown hb.ne_unknown (by simp) (by simp)
    obtain ⟨label, hplace⟩ := hlabel c a b
    exact succeeds_emitNamed hr (htest c a b) ((c.isSome_score?_test_iff yes no).mpr ⟨ha, hb⟩)
      hplace trivial fun name hm => known _ hm name rfl

/-! ### Blocks -/

theorem fits_testAndPlace (hr : r.Built) {thenLabel elseLabel : LabelId}
    (h : d.Sound r lines (thenLabel :: elseLabel :: pending)) {tokens : List Token}
    (hc : d.Compares r tokens) :
    Fits (emitCondition r tokens thenLabel elseLabel >>= fun _ => placeLabel thenLabel) d := by
  refine (fits_of_succeeds ((succeeds_emitCondition_iff hr).mpr hc)).bind
    (emitCondition_ensures hr h tokens (.inr (.inr (by simp))) (.inr (.inr (by simp)))) ?_
  rintro - d₁ ⟨_, _, _, _, _, _, _, -, -, -, -, hl, -⟩
  exact fits_placePending hl.sound

theorem fits_ifBlock (hr : r.Built) (h : d.Ready r lines) {s : Statement}
    (hc : d.Compares r s.arguments) : Fits (ifBlock r s) d := by
  rw [ifBlock]
  refine fits_newLabel.bind (newPending_ensures h.sound) ?_
  rintro thenLabel d₁ ⟨⟨buffer₁, rfl⟩, h₁, -⟩
  refine fits_newLabel.bind (newPending_ensures h₁) ?_
  rintro elseLabel d₂ ⟨⟨buffer₂, rfl⟩, h₂, -⟩
  refine fits_newLabel.bind (newPending_ensures h₂) ?_
  rintro endLabel d₃ ⟨⟨buffer₃, rfl⟩, h₃, -⟩
  have hperm : (endLabel :: elseLabel :: thenLabel :: d.pending).Perm
      (thenLabel :: elseLabel :: endLabel :: d.pending) :=
    (List.reverse_perm [thenLabel, elseLabel, endLabel]).append_right d.pending
  have h₃ := h₃.perm hperm
  rw [← bind_assoc]
  exact (fits_testAndPlace hr h₃ (hc.of_locals rfl)).bind (testAndPlace_ensures hr h₃ _)
    fun _ _ _ => fits_modify

theorem fits_beginBranch (hr : r.Built) (h : d.Sound r lines pending) {s : Statement}
    (hc : s.arguments = [] ∨ d.Compares r s.arguments) (elseLabel : LabelId) :
    Fits (beginBranch r s elseLabel) d := by
  rw [beginBranch]
  split
  · exact fits_pure _
  · rename_i he
    have hc := hc.resolve_left fun heq => he (List.isEmpty_iff.mpr heq)
    refine fits_newLabel.bind (newPending_ensures h) ?_
    rintro thenLabel d₁ ⟨⟨buffer₁, rfl⟩, h₁, -⟩
    refine fits_newLabel.bind (newPending_ensures h₁) ?_
    rintro newElse d₂ ⟨⟨buffer₂, rfl⟩, h₂, -⟩
    have h₂ := h₂.perm (List.Perm.swap _ _ _)
    rw [← bind_assoc]
    exact (fits_testAndPlace hr h₂ (hc.of_locals rfl)).bind (testAndPlace_ensures hr h₂ _)
      fun _ _ _ => fits_pure _

theorem fits_elseBranch (hr : r.Built) (h : d.Ready r lines) {s : Statement}
    (hc : s.arguments = [] ∨ d.Compares r s.arguments) {block : Block} {outer : List Block}
    (hblocks : d.blocks = block :: outer) (hbranch : block.branch = .conditional) :
    Fits (elseBranch r s) d := by
  have hsound : d.Sound r lines
      (block.elseLabel :: block.endLabel :: outer.flatMap Block.pending) := by
    have := h.sound
    simpa [Draft.pending, hblocks, Block.pending, hbranch] using this
  simp only [Fits, elseBranch, ensures_get_bind, hblocks]
  rw [if_neg (by simp [hbranch]), ← bind_assoc]
  have hleave : Fits (emitNamed r Builtin.goto.name [.label block.endLabel] >>= fun _ =>
      placeLabel block.elseLabel) d := by
    refine (fits_of_succeeds (succeeds_goto hr _)).bind
      (emitNamed_ensures hr .goto hsound [.label block.endLabel] ?_) ?_
    · intro a ha
      rw [List.mem_singleton.mp ha]
      exact .inr (.inr (by simp))
    · rintro - d₁ ⟨op, jump, -, hjump⟩
      exact fits_placePending hjump.sound
  refine hleave.bind (leaveBranch_ensures hr hsound) ?_
  rintro - d₁ ⟨jump, -, -, h₁, -, hret, -⟩
  exact (fits_beginBranch hr h₁ (hc.imp id (·.of_locals hret.locals)) _).bind
    (beginBranch_ensures hr h₁ s _) fun _ _ _ => fits_modify

theorem fits_endBlock (h : d.Ready r lines) {s : Statement} (harg : s.arguments = [])
    {block : Block} {outer : List Block} (hblocks : d.blocks = block :: outer) :
    Fits (endBlock s) d := by
  have hsound := h.sound.withBlocks outer
  simp only [Fits, endBlock, harg, List.isEmpty_nil, Bool.not_true, Bool.false_eq_true, if_false,
    ensures_get_bind, hblocks, ensures_modify_bind]
  cases hbranch : block.branch with
  | conditional =>
    have hpending : d.pending
        = block.elseLabel :: block.endLabel :: outer.flatMap Block.pending := by
      simp [Draft.pending, hblocks, Block.pending, hbranch]
    rw [hpending] at hsound
    have hnot : d.buffer.isDefined block.elseLabel = false := by
      rw [CodeBuffer.isDefined, (h.sound.unplaced _ (by simp [hpending])).2]
      rfl
    rw [hnot]
    simp only [Bool.not_false, if_true]
    refine (fits_placePending hsound).bind (placePending_ensures hsound) ?_
    rintro - d₁ ⟨-, h₁, -⟩
    exact fits_placePending h₁
  | last =>
    have hpending : d.pending = block.endLabel :: outer.flatMap Block.pending := by
      simp [Draft.pending, hblocks, Block.pending, hbranch]
    rw [hpending] at hsound
    rw [h.last block (by simp [hblocks]) hbranch]
    simp only [Bool.not_true, Bool.false_eq_true, if_false]
    exact fits_placePending hsound

/-! ### Declarations -/

/-- A declaration that is valid outside of blocks is rejected inside, for its variable. -/
theorem declaration_inBlock {s : Statement}
    (hv : Succeeds (declaration r s) { d with blocks := [] }) (hb : d.inBlock = true) :
    ∃ name, Draft.declaredVariable? s.arguments = some name ∧
      declaration r s d = .error (.variableInBlock name) d := by
  obtain ⟨_, _, hv⟩ := hv
  rw [declaration, get_bind] at hv
  have htypes : Draft.declaredType r { d with blocks := [] } s.arguments
      = d.declaredType r s.arguments := rfl
  rw [htypes] at hv
  cases htype : d.declaredType r s.arguments with
  | error kind =>
    rw [htype] at hv
    cases hv
  | ok found =>
    obtain ⟨type, rest⟩ := found
    rw [htype] at hv
    have hv : (ofExcept (Draft.declaredName { d with blocks := [] } rest) >>= _) _ = _ := hv
    cases rest with
    | nil => cases hv
    | cons name rest =>
      rw [Draft.declaredName] at hv
      split at hv
      · cases hv
      · rename_i hsymbol
        have hname : d.declaredName (name :: rest) = .error (.variableInBlock name.text) := by
          rw [Draft.declaredName, if_neg hsymbol, if_pos hb]
        refine ⟨name.text, Draft.declaredVariable?_of_declaredType htype, ?_⟩
        rw [declaration, get_bind, htype]
        show (ofExcept (d.declaredName (name :: rest)) >>= _) d = _
        rw [hname]
        rfl

end Drafting

/-! ### Statements -/

/-- Behind its label, the statement is valid whatever chains are open. -/
def Statement.CompilesIn (r : Registry) (d : Draft) (s : Statement) : Prop :=
  match r.formOf s with
  | .call => Drafting.Succeeds (Drafting.performance r s) d
  | .custom _ => Drafting.Succeeds (Drafting.performance r s) d
  | .declaration => Drafting.Succeeds (Drafting.performance r s) { d with blocks := [] }
  | .ifBlock => d.Compares r s.arguments
  | .elseBranch => s.arguments = [] ∨ d.Compares r s.arguments
  | .endBlock => s.arguments = []

/-- The statement is valid where it stands, whatever chains are open there: its label is, and so is
what follows the label. -/
def Statement.ValidIn (r : Registry) (d : Draft) (s : Statement) : Prop :=
  ∃ d₁, Drafting.statementLabel r s { d with span := s.span } = .ok () d₁ ∧ s.CompilesIn r d₁

/-- The block is that of an open chain. -/
structure Block.Is (b : Block) (c : OpenChain) : Prop where
  span : b.span = c.opening.span
  branch : b.branch = c.branch

/-- The open blocks are those of the open chains. -/
def Draft.Stands (d : Draft) (opened : List OpenChain) : Prop :=
  List.Forall₂ Block.Is d.blocks opened

theorem Draft.Stands.of_blocks {d d' : Draft} {opened : List OpenChain} (h : d.Stands opened)
    (hblocks : d'.blocks = d.blocks) : d'.Stands opened := by
  rwa [Stands, hblocks]

namespace Drafting

variable {r : Registry} {lines : List Line} {d d₁ d' : Draft} {s : Statement}
  {opened : List OpenChain}

theorem blocks_of_statementLabel (hr : r.Sound) (h : d.Ready r lines)
    (hok : statementLabel r s d = .ok () d₁) : d₁.blocks = d.blocks := by
  rw [statementLabel] at hok
  cases hs : s.label with
  | none =>
    rw [hs] at hok
    cases hok
    rfl
  | some label =>
    rw [hs] at hok
    exact ((defineLabel_ensures hr h.sound label.text).of_ok hok).2.2.1

/-! ### Statements that have been compiled -/

/-- The statement may stand behind the open chains, and the blocks of the draft are those of the
chains that are open behind it. -/
def NestsInto (r : Registry) (opened : List OpenChain) (s : Statement) (d' : Draft) : Prop :=
  ∃ opened', r.nest? opened s = some opened' ∧ d'.Stands opened'

theorem nestsInto_of_ifBlock (hr : r.Built) (h : d.Ready r lines) (hopened : d.Stands opened)
    (hform : r.formOf s = .ifBlock) (hok : ifBlock r s d = .ok () d') :
    NestsInto r opened s d' := by
  obtain ⟨elseLabel, endLabel, l, -, -, -, -, hblocks⟩ := (ifBlock_ensures hr h s).of_ok hok
  refine ⟨_, Registry.nest?_if hform, ?_⟩
  rw [Draft.Stands, hblocks]
  exact .cons ⟨rfl, rfl⟩ hopened

theorem nestsInto_of_elseBranch (hr : r.Built) (h : d.Ready r lines) (hopened : d.Stands opened)
    (hform : r.formOf s = .elseBranch) (hok : elseBranch r s d = .ok () d') :
    NestsInto r opened s d' := by
  obtain ⟨block, outer, _, hblocks, hbranch, -, -, -, -, hbegin⟩ :=
    (elseBranch_ensures hr h s).of_ok hok
  rw [Draft.Stands, hblocks] at hopened
  cases hopened with
  | @cons _ chain _ chains hblock houter =>
    obtain ⟨opening, branch⟩ := chain
    obtain rfl : branch = .conditional := hblock.branch.symm.trans hbranch
    refine ⟨_, Registry.nest?_else hform opening chains, ?_⟩
    rw [Draft.Stands]
    rcases hbegin with ⟨hnil, -, hblocks'⟩ | ⟨hne, _, _, -, -, hblocks'⟩
    · rw [hblocks', hnil]
      exact .cons ⟨hblock.span, rfl⟩ houter
    · rw [hblocks', if_neg (by simpa using hne)]
      exact .cons ⟨hblock.span, hbranch⟩ houter

theorem nestsInto_of_endBlock (h : d.Ready r lines) (hopened : d.Stands opened)
    (hform : r.formOf s = .endBlock) (hok : endBlock s d = .ok () d') :
    NestsInto r opened s d' := by
  obtain ⟨block, outer, hblocks, -, -, -, -, hblocks', -⟩ := (endBlock_ensures h s).of_ok hok
  rw [Draft.Stands, hblocks] at hopened
  cases hopened with
  | cons hblock houter =>
    refine ⟨_, Registry.nest?_end hform, ?_⟩
    rwa [Draft.Stands, hblocks']

theorem nestsInto_of_declaration (hr : r.Built) (h : d.Ready r lines) (hopened : d.Stands opened)
    (hform : r.formOf s = .declaration) (hok : declaration r s d = .ok () d') :
    NestsInto r opened s d' := by
  obtain ⟨_, _, _, _, -, hblocks, -, -, -, -, -, -, hblocks'⟩ :=
    (declaration_ensures hr h s).of_ok hok
  rw [Draft.Stands, hblocks] at hopened
  cases hopened
  refine ⟨[], by rw [Registry.nest?_declaration hform]; rfl, ?_⟩
  rw [Draft.Stands, hblocks']
  exact .nil

/-- What has been compiled may stand where it does. -/
theorem nestsInto_of_performance (hr : r.Built) (own : r.OwnForms) (h : d.Ready r lines)
    (hopened : d.Stands opened) (hok : performance r s d = .ok () d') :
    NestsInto r opened s d' := by
  cases hform : r.formOf s with
  | call =>
    obtain ⟨_, _, _, _, -, hl, -⟩ := emits_of_performance hr h hform hok
    exact ⟨opened, Registry.nest?_call hform, hopened.of_blocks hl.frame.blocks⟩
  | ifBlock =>
    rw [performance_of_ifBlock hform] at hok
    exact nestsInto_of_ifBlock hr h hopened hform hok
  | elseBranch =>
    rw [performance_of_elseBranch hform] at hok
    exact nestsInto_of_elseBranch hr h hopened hform hok
  | endBlock =>
    rw [performance_of_endBlock hform] at hok
    exact nestsInto_of_endBlock h hopened hform hok
  | declaration =>
    rw [performance_of_declaration hform] at hok
    exact nestsInto_of_declaration hr h hopened hform hok
  | custom form => exact absurd hform ((own.reads s).formOf_ne form)

theorem nestsInto_of_statement (hr : r.Built) (own : r.OwnForms) (h : d.Ready r lines)
    (hopened : d.Stands opened) (hok : statement r s d = .ok () d') :
    NestsInto r opened s d' := by
  have h₀ := ready_withSpan h s.span
  rw [statement_apply] at hok
  cases hlabel : statementLabel r s { d with span := s.span } with
  | error kind d₁ =>
    rw [bind_of_error hlabel] at hok
    cases hok
  | ok u d₁ =>
    rw [bind_of_ok hlabel] at hok
    have h₁ := ((statementLabel_ensures hr.sound h₀ s).of_ok hlabel).1
    have hblocks := blocks_of_statementLabel hr.sound h₀ hlabel
    exact nestsInto_of_performance hr own h₁ (hopened.of_blocks hblocks) hok

/-! ### Valid statements -/

/-- What a statement leads to that may stand behind the open chains or not. -/
def Nests (r : Registry) (opened : List OpenChain) (s : Statement) (x : Drafting Unit)
    (d : Draft) : Prop :=
  Ensures x d (fun _ d' => ∃ opened', r.nest? opened s = some opened' ∧ d'.Stands opened')
    (fun kind d' => r.Offends opened s kind ∨ d'.Full)

theorem Fits.nests {x : Drafting Unit} (h : Fits x d)
    (hok : ∀ d', x d = .ok () d' → NestsInto r opened s d') : Nests r opened s x d := by
  rw [Nests, Ensures]
  cases hx : x d with
  | ok u d' => exact hok d' hx
  | error kind d' => exact .inr (h.of_error hx)

theorem ifBlock_nests (hr : r.Built) (h : d.Ready r lines) (hopened : d.Stands opened)
    (hform : r.formOf s = .ifBlock) (hv : d.Compares r s.arguments) :
    Nests r opened s (ifBlock r s) d :=
  (fits_ifBlock hr h hv).nests fun _ => nestsInto_of_ifBlock hr h hopened hform

theorem elseBranch_nests (hr : r.Built) (h : d.Ready r lines) (hopened : d.Stands opened)
    (hform : r.formOf s = .elseBranch) (hv : s.arguments = [] ∨ d.Compares r s.arguments) :
    Nests r opened s (elseBranch r s) d := by
  have hchains := hopened
  rw [Draft.Stands] at hchains
  cases hblocks : d.blocks with
  | nil =>
    rw [hblocks] at hchains
    cases hchains
    simp only [Nests, elseBranch, ensures_get_bind, hblocks]
    exact .inl (.unexpectedElse hform)
  | cons block outer =>
    rw [hblocks] at hchains
    cases hchains with
    | @cons _ chain _ chains hblock houter =>
      cases hbranch : block.branch with
      | last =>
        obtain ⟨opening, branch⟩ := chain
        obtain rfl : branch = .last := hblock.branch.symm.trans hbranch
        simp only [Nests, elseBranch, ensures_get_bind, hblocks]
        rw [if_pos hbranch]
        exact .inl (.duplicateElse hform)
      | conditional =>
        exact (fits_elseBranch hr h hv hblocks hbranch).nests fun _ =>
          nestsInto_of_elseBranch hr h hopened hform

theorem endBlock_nests (h : d.Ready r lines) (hopened : d.Stands opened)
    (hform : r.formOf s = .endBlock) (hv : s.arguments = []) :
    Nests r opened s (endBlock s) d := by
  cases hblocks : d.blocks with
  | nil =>
    rw [Draft.Stands, hblocks] at hopened
    cases hopened
    simp only [Nests, endBlock, hv, List.isEmpty_nil, Bool.not_true, Bool.false_eq_true, if_false,
      ensures_get_bind, hblocks]
    exact .inl (.unexpectedEnd hform)
  | cons block outer =>
    exact (fits_endBlock h hv hblocks).nests fun _ => nestsInto_of_endBlock h hopened hform

theorem declaration_nests (hr : r.Built) (h : d.Ready r lines) (hopened : d.Stands opened)
    (hform : r.formOf s = .declaration)
    (hv : Succeeds (declaration r s) { d with blocks := [] }) :
    Nests r opened s (declaration r s) d := by
  cases hblocks : d.blocks with
  | nil =>
    have hsame : { d with blocks := [] } = d := by rw [← hblocks]
    rw [hsame] at hv
    exact (fits_of_succeeds hv).nests fun _ => nestsInto_of_declaration hr h hopened hform
  | cons block outer =>
    rw [Draft.Stands, hblocks] at hopened
    cases hopened with
    | cons hblock houter =>
      obtain ⟨name, hname, hx⟩ := declaration_inBlock hv (by rw [Draft.inBlock, hblocks]; rfl)
      rw [Nests, Ensures, hx]
      exact .inl (.variableInBlock hform hname)

/-- A valid statement makes of the open chains what it should, or may not stand behind them, or
there is no room for it. -/
theorem performance_nests (hr : r.Built) (own : r.OwnForms) (h : d.Ready r lines)
    (hopened : d.Stands opened) (hv : s.CompilesIn r d) : Nests r opened s (performance r s) d := by
  rw [Statement.CompilesIn] at hv
  cases hform : r.formOf s with
  | call =>
    rw [hform] at hv
    exact (fits_of_succeeds hv).nests fun _ => nestsInto_of_performance hr own h hopened
  | ifBlock =>
    rw [hform] at hv
    rw [performance_of_ifBlock hform]
    exact ifBlock_nests hr h hopened hform hv
  | elseBranch =>
    rw [hform] at hv
    rw [performance_of_elseBranch hform]
    exact elseBranch_nests hr h hopened hform hv
  | endBlock =>
    rw [hform] at hv
    rw [performance_of_endBlock hform]
    exact endBlock_nests h hopened hform hv
  | declaration =>
    rw [hform] at hv
    rw [performance_of_declaration hform] at hv ⊢
    exact declaration_nests hr h hopened hform hv
  | custom form => exact absurd hform ((own.reads s).formOf_ne form)

/-- So does a statement with its label. -/
theorem statement_nests (hr : r.Built) (own : r.OwnForms) (h : d.Ready r lines)
    (hopened : d.Stands opened) (hv : s.ValidIn r d) : Nests r opened s (statement r s) d := by
  obtain ⟨d₁, hlabel, hv⟩ := hv
  have h₀ := ready_withSpan h s.span
  have h₁ := ((statementLabel_ensures hr.sound h₀ s).of_ok hlabel).1
  have hblocks := blocks_of_statementLabel hr.sound h₀ hlabel
  rw [Nests, Ensures, statement_of_label hlabel]
  exact performance_nests hr own h₁ (hopened.of_blocks hblocks) hv

end Drafting

/-! ### Validity can be tested -/

instance Drafting.decidableSucceeds {α : Type} (x : Drafting α) (d : Draft) :
    Decidable (Succeeds x d) :=
  match hx : x d with
  | .ok a d' => .isTrue ⟨a, d', hx⟩
  | .error _ _ => .isFalse fun ⟨_, _, hx'⟩ => nomatch hx.symm.trans hx'

instance Argument.decidableIsInteger : (a : Argument) → Decidable a.IsInteger
  | .constant value => .isTrue (.constant value)
  | .register index .int writable => .isTrue (.register index writable)
  | .register _ (.ptr _) _ | .register _ (.ptre _) _ | .label _ | .typeName _ | .unknown _ =>
    .isFalse nofun

section

variable (r : Registry) (d : Draft)

instance Draft.decidableReadsInteger (t : Token) : Decidable (d.ReadsInteger r t) :=
  match ht : d.resolve r t with
  | .error _ => .isFalse fun ⟨_, ht', _⟩ => nomatch ht.symm.trans ht'
  | .ok a => decidable_of_iff a.IsInteger
    ⟨fun ha => ⟨a, ht, ha⟩, fun ⟨_, ht', ha⟩ => Except.ok.inj (ht.symm.trans ht') ▸ ha⟩

instance Draft.decidableCompares (tokens : List Token) : Decidable (d.Compares r tokens) :=
  match hsplit : splitCondition tokens with
  | .error _ => .isFalse fun ⟨_, _, _, hsplit', _⟩ => nomatch hsplit.symm.trans hsplit'
  | .ok (c, first, second) => decidable_of_iff (d.ReadsInteger r first ∧ d.ReadsInteger r second) <|
    ⟨fun h => ⟨c, first, second, hsplit, h⟩, by
      rintro ⟨_, _, _, hsplit', h⟩
      cases hsplit.symm.trans hsplit'
      exact h⟩

instance Statement.decidableCompilesIn (s : Statement) : Decidable (s.CompilesIn r d) :=
  match hform : r.formOf s with
  | .call | .custom _ => decidable_of_iff (Drafting.Succeeds (Drafting.performance r s) d)
    (by rw [CompilesIn, hform])
  | .declaration =>
    decidable_of_iff (Drafting.Succeeds (Drafting.performance r s) { d with blocks := [] })
      (by rw [CompilesIn, hform])
  | .ifBlock => decidable_of_iff (d.Compares r s.arguments) (by rw [CompilesIn, hform])
  | .elseBranch => decidable_of_iff (s.arguments.isEmpty = true ∨ d.Compares r s.arguments)
    (by rw [CompilesIn, hform, List.isEmpty_iff])
  | .endBlock => decidable_of_iff (s.arguments.isEmpty = true)
    (by rw [CompilesIn, hform, List.isEmpty_iff])

instance Statement.decidableValidIn (s : Statement) : Decidable (s.ValidIn r d) :=
  match hlabel : Drafting.statementLabel r s { d with span := s.span } with
  | .error _ _ => .isFalse fun ⟨_, hlabel', _⟩ => nomatch hlabel.symm.trans hlabel'
  | .ok _ d₁ => decidable_of_iff (s.CompilesIn r d₁)
    ⟨fun h => ⟨d₁, hlabel, h⟩, by
      rintro ⟨_, hlabel', h⟩
      cases hlabel.symm.trans hlabel'
      exact h⟩

end

/-- Whether all statements are valid where they stand, up to the first one that is rejected. -/
def Draft.allValid (r : Registry) (d : Draft) : List Statement → Bool
  | [] => true
  | s :: rest => decide (s.ValidIn r d) &&
    match Drafting.statement r s d with
    | .ok () d' => d'.allValid r rest
    | .error _ _ => true

theorem Draft.validIn_of_allValid {r : Registry} {source : String} {d d' : Draft}
    {done rest : List Statement} {s : Statement} (h : d.allValid r (done ++ s :: rest) = true)
    (hd : d.compileAll r source (done.map .ok) = .ok d') : s.ValidIn r d' := by
  induction done generalizing d with
  | nil =>
    cases hd
    exact of_decide_eq_true (Bool.and_eq_true_iff.mp h).1
  | cons first done ih =>
    obtain ⟨d₁, hstep, hd⟩ := compileAll_cons_eq_ok hd
    have hrest := (Bool.and_eq_true_iff.mp h).2
    rw [hstep] at hrest
    exact ih hrest hd

end HookScript
