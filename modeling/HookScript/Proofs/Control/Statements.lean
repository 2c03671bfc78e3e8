/-
Statements as the machine carries them out.

* `Draft.Unlabelled` — no name of the script stands for a label;
* `Drafting.performance_of_ifBlock` and its likes — a keyword is compiled by its form;
* `Drafting.emits_of_performance` — what has been emitted for a call does what the call does.

In a script without labels of its own, and without names that are used before their declaration:

* `Simulated` — what is to be shown of statements in a row: compiled, they do what they do as part
  of a script;
* `Statement.simulated` — so do statements that are no part of a chain.
-/
import HookScript.Proofs.Compile.Conduct
import HookScript.Proofs.Control.Instructions

namespace HookScript

namespace Draft

variable {r : Registry} {d d' : Draft}

/-- No name of the script stands for a label. -/
def Unlabelled (d : Draft) : Prop :=
  ∀ name id, d.locals.find? name ≠ some (.label id)

theorem Unlabelled.lookup (h : d.Unlabelled) (hr : r.Sound) {name : String} {meaning : Meaning}
    (hl : d.lookup r name = some meaning) (id : LabelId) :
    Argument.ofMeaning meaning ≠ .label id := by
  cases meaning with
  | label id' =>
    -- labels are names of the script itself, never of the registry
    rcases lookup_eq_some hl with hl | hl
    · exact absurd hl (h name id')
    · exact (hr.globals name _ hl).elim
  | constant _ | register _ _ _ | typeName _ => exact nofun

theorem Unlabelled.resolve (h : d.Unlabelled) (hr : r.Sound) {t : Token} {a : Argument}
    (ha : d.resolve r t = .ok a) (id : LabelId) : a ≠ .label id := by
  unfold Draft.resolve at ha
  split at ha
  · split at ha
    · cases ha
      exact nofun
    · cases ha
  · split at ha
    · rename_i hl
      cases ha
      exact h.lookup hr hl id
    · cases ha
      exact nofun
  · cases ha

theorem Unlabelled.resolveAll (h : d.Unlabelled) (hr : r.Sound) {tokens : List Token}
    {arguments : List Argument} (ha : d.resolveAll r tokens = .ok arguments) (id : LabelId) :
    .label id ∉ arguments := by
  unfold Draft.resolveAll at ha
  induction tokens generalizing arguments with
  | nil =>
    cases ha
    simp
  | cons t tokens ih =>
    rw [List.mapM_cons] at ha
    obtain ⟨a, ht, ha⟩ := exists_of_bind_eq_ok ha
    obtain ⟨rest, hrest, ha⟩ := exists_of_bind_eq_ok ha
    cases ha
    intro hm
    rcases List.mem_cons.mp hm with heq | hm
    · exact h.resolve hr ht id heq.symm
    · exact ih hrest hm

theorem Unlabelled.withVariable (h : d.Unlabelled) (name : String) (type : ValueType) :
    (d.withVariable name type).Unlabelled := by
  intro other id hf
  rw [Draft.withVariable, SymbolTable.find?_insert] at hf
  split at hf
  · cases hf
  · exact h other id hf

theorem Grows.forward_eq_empty (h : d.Grows d') (hf : d'.forward = #[]) : d.forward = #[] := by
  refine Array.eq_empty_iff_forall_not_mem.mpr fun f hm => ?_
  have := h.forward f hm
  rw [hf] at this
  exact absurd this (Array.not_mem_empty f)

/-- The statement that is being compiled does not matter for what a draft keeps. -/
theorem Grows.of_span {span : Span} (h : Grows { d with span } d') : d.Grows d' :=
  ⟨h.positions, h.natives, h.used, h.forward⟩

theorem Unlabelled.of_scope (h : d.Unlabelled) (hs : d'.scope = d.scope) : d'.Unlabelled := by
  intro name id
  rw [show d'.locals = d.locals from congrArg Scope.locals hs]
  exact h name id

/-- Outside of blocks a declaration depends on nothing but names. -/
theorem declared_scope (h : d.blocks = []) (tokens : List Token) :
    d.scope.draft.declared r tokens = d.declared r tokens := by
  have hname : ∀ rest, d.scope.draft.declaredName rest = d.declaredName rest := by
    intro rest
    unfold declaredName
    rw [inBlock, inBlock, h]
    rfl
  simp only [declared, hname]
  rfl

/-- A first value is an argument that a token stands for. -/
theorem exists_resolve_of_declared {tokens : List Token} {type : ValueType} {name : String}
    {value : Argument} (h : d.declared r tokens = .ok (type, name, some value)) :
    ∃ t, d.resolve r t = .ok value := by
  rw [declared] at h
  obtain ⟨⟨type', rest⟩, -, h⟩ := exists_of_bind_eq_ok h
  obtain ⟨⟨name', rest'⟩, -, h⟩ := exists_of_bind_eq_ok h
  obtain ⟨token, -, h⟩ := exists_of_bind_eq_ok h
  obtain ⟨value', hvalue, h⟩ := exists_of_bind_eq_ok h
  cases h
  unfold initialValue at hvalue
  split at hvalue
  · cases hvalue
  · rename_i t
    split at hvalue
    · cases ht : d.resolve r t with
      | error kind =>
        rw [ht] at hvalue
        cases hvalue
      | ok a =>
        rw [ht] at hvalue
        cases hvalue
        exact ⟨t, ht⟩
    · cases hvalue

theorem Retains.scope_eq (h : d.Retains d') : d'.scope = d.scope := by
  rw [scope, scope, h.nextRegister, h.locals]

end Draft

/-! ### Statements by their form -/

theorem Registry.exists_operation {r : Registry} {s : Statement} {form : StatementForm}
    (h : r.formOf s = form) (hne : form ≠ .call) :
    ∃ op, r.operation? s.name.text = some op ∧ op.form = form := by
  cases hop : r.operation? s.name.text with
  | none =>
    rw [formOf, hop] at h
    exact absurd h.symm hne
  | some op =>
    rw [formOf_of_operation hop] at h
    exact ⟨op, rfl, h⟩

theorem Registry.Reads.formOf_ne {r : Registry} {s : Statement} (own : r.Reads s)
    (form : Statement → Expansion) : r.formOf s ≠ .custom form := by
  intro hform
  obtain ⟨op, hop, hop'⟩ := exists_operation hform nofun
  exact own op hop form hop'

namespace Drafting

variable {r : Registry} {lines : List Line} {d d' : Draft} {s : Statement}

/-- A statement without a label does what it says. -/
theorem statement_of_unlabelled (hs : s.label = none) (d : Draft) :
    statement r s d = performance r s { d with span := s.span } :=
  statement_of_label (by simp only [statementLabel, hs]; rfl)

/-- A keyword is compiled by its form. -/
theorem performance_of_form {form : StatementForm} (hform : r.formOf s = form)
    (hne : form ≠ .call) : ∃ op : Operation, op.form = form ∧
      performance r s = statementOf r op s := by
  obtain ⟨op, hop, hop'⟩ := Registry.exists_operation hform hne
  exact ⟨op, hop', by simp only [performance, hop]⟩

theorem performance_of_ifBlock (hform : r.formOf s = .ifBlock) :
    performance r s = ifBlock r s := by
  obtain ⟨op, hop, heq⟩ := performance_of_form hform nofun
  rw [heq, statementOf, hop]

theorem performance_of_elseBranch (hform : r.formOf s = .elseBranch) :
    performance r s = elseBranch r s := by
  obtain ⟨op, hop, heq⟩ := performance_of_form hform nofun
  rw [heq, statementOf, hop]

theorem performance_of_endBlock (hform : r.formOf s = .endBlock) :
    performance r s = endBlock s := by
  obtain ⟨op, hop, heq⟩ := performance_of_form hform nofun
  rw [heq, statementOf, hop]

theorem performance_of_declaration (hform : r.formOf s = .declaration) :
    performance r s = declaration r s := by
  obtain ⟨op, hop, heq⟩ := performance_of_form hform nofun
  rw [heq, statementOf, hop]

/-- What has been compiled without being an operation is a member, with the object in front. -/
theorem emits_of_member (hr : r.Built) (h : d.Ready r lines)
    (hop : r.operation? s.name.text = none) (hok : performance r s d = .ok () d') :
    ∃ op object arguments l, memberOperation? r d s.name.text = some (op, object) ∧
      d.resolveAll r s.arguments = .ok arguments ∧
      Draft.Emits r op (object :: arguments) lines d.pending l d d' := by
  cases hm : memberOperation? r d s.name.text with
  | none =>
    simp only [performance, hop, get_bind, hm] at hok
    cases hok
  | some found =>
    obtain ⟨op, object⟩ := found
    rw [performance_of_member hop hm] at hok
    obtain ⟨arguments, l, ha, hl⟩ := (emitMember_ensures hr.sound h hm s.arguments).of_ok hok
    exact ⟨op, object, arguments, l, rfl, ha, hl⟩

/-- A call that has been compiled is an operation, whose arguments are no labels, and with which it
does what the statement does. -/
theorem emits_of_performance (hr : r.Built) (h : d.Ready r lines) (hform : r.formOf s = .call)
    (hok : performance r s d = .ok () d') :
    ∃ name op arguments l, r.operation? name = some op ∧
      Draft.Emits r op arguments lines d.pending l d d' ∧
      (d.Unlabelled → ∀ id, .label id ∉ arguments) ∧
      ∀ world, s.evaluate r d.scope world
        = (op.evaluate r arguments world).map fun ending => (d.scope, ending) := by
  cases hop : r.operation? s.name.text with
  | some op =>
    rw [Registry.formOf_of_operation hop] at hform
    rw [performance_of_call hop hform] at hok
    obtain ⟨arguments, l, ha, hl⟩ :=
      (emitArguments_ensures hr.sound h hop [] (by simp) s.arguments).of_ok hok
    refine ⟨_, op, arguments, l, hop, hl, fun hu => hu.resolveAll hr.sound ha, fun world => ?_⟩
    -- what tokens stand for is decided by names, and the scope has those of the draft
    have ha' : d.scope.draft.resolveAll r s.arguments = .ok arguments := ha
    simp only [Statement.evaluate, hop, hform, ha', Except.toOption]
    exact Option.map_eq_bind.symm
  | none =>
    obtain ⟨op, object, arguments, l, hm, ha, hl⟩ := emits_of_member hr h hop hok
    obtain ⟨⟨name, hop', -⟩, meaning, owner, hlookup, rfl⟩ := memberOperation?_eq_some hm
    refine ⟨name, op, .ofMeaning meaning :: arguments, l, hop', hl, fun hu id hmem => ?_,
      fun world => ?_⟩
    · rcases List.mem_cons.mp hmem with heq | hmem
      · exact hu.lookup hr.sound hlookup id heq.symm
      · exact hu.resolveAll hr.sound ha id hmem
    · have ha' : d.scope.draft.resolveAll r s.arguments = .ok arguments := ha
      have hm' : memberOperation? r d.scope.draft s.name.text
          = some (op, .ofMeaning meaning) := hm
      simp only [Statement.evaluate, hop, hm', ha', Except.toOption]
      exact Option.map_eq_bind.symm

end Drafting

/-! ### What statements do on the machine -/

/-- The statements in between have been compiled: `d` with the lines `lines` has become `d'` with
`more` lines, which do on the machine what `eval` does, whatever program they become part of. -/
structure Simulated (r : Registry) (lines more : List Line) (d d' : Draft)
    (eval : World → Option Ending) : Prop where
  ready : d'.Ready r (lines ++ more)
  grows : d.Grows d'
  blocks : d'.blocks = d.blocks
  unlabelled : d'.Unlabelled
  /-- variables are not declared inside blocks -/
  scope : d.blocks ≠ [] → d'.scope = d.scope
  runs {p : Program} {target : LabelId → Nat} {all : List Line} :
    d'.Within p target all (lines ++ more) → ∀ world, ∃ ending, eval world = some ending ∧
      world.Runs p (codeSize lines) (codeSize (lines ++ more)) more.length ending

section

variable {r : Registry} {lines : List Line} {d d' : Draft}

/-- An operation that is emitted does what it does with its arguments. -/
theorem Draft.Emits.simulated (hr : r.Built) (h : d.Ready r lines)
    (hu : d.Unlabelled) {name : String} {op : Operation} (hop : r.operation? name = some op)
    {arguments : List Argument} (ha : ∀ id, .label id ∉ arguments) {l : Line}
    (hl : Draft.Emits r op arguments lines d.pending l d d') (hf : d'.forward = #[]) :
    Simulated r lines [l] d d' (op.evaluate r arguments) ∧ d'.scope = d.scope := by
  have hforward : d'.forward = d.forward := by rw [hf, hl.grows.forward_eq_empty hf]
  have hscope := (hl.frame.retains hforward).scope_eq
  have hlocals : d'.locals = d.locals := (hl.frame.same hforward).1
  refine ⟨⟨hl.ready h, hl.grows, hl.frame.blocks, ?_, fun _ => hscope, fun hw world => ?_⟩, hscope⟩
  · intro name id
    rw [hlocals]
    exact hu name id
  · exact (hl.writes hop hforward).runs hr.sound hw.carries hw.natives hw.lines ha hop world

theorem Drafting.declaration_simulated (hr : r.Built)
    (h : d.Ready r lines) (hu : d.Unlabelled) {s : Statement}
    (hok : declaration r s d = .ok () d') :
    ∃ more eval, Simulated r lines more d d' eval ∧
      ∀ world, d.scope.declare r s.arguments world
        = (eval world).map fun ending => (d'.scope, ending) := by
  obtain ⟨type, name, value, more, hdeclared, hblocks, -, -, hvalue, hready, hg, hret, hblocks'⟩ :=
    (declaration_ensures hr h s).of_ok hok
  have hscope : d'.scope = d.scope.withVariable name type := hret.scope_eq
  have hlocals := hret.locals
  have hu' : d'.Unlabelled := by
    intro other id
    rw [hlocals]
    exact hu.withVariable name type other id
  have hdeclared' : d.scope.draft.declared r s.arguments = .ok (type, name, value) := by
    rw [Draft.declared_scope hblocks, hdeclared]
  cases value with
  | none =>
    obtain rfl := hvalue
    refine ⟨[], fun world => some (.next world), ⟨hready, hg, hblocks'.trans hblocks.symm, hu',
      fun hne => absurd hblocks hne, fun hw world => ⟨_, rfl, 0, Nat.le_refl 0, ?_⟩⟩,
      fun world => ?_⟩
    · rw [List.append_nil]
      exact .none _
    · rw [hscope]
      simp [Scope.declare, hdeclared', Except.toOption]
  | some value =>
    obtain ⟨l, rfl, hwrites⟩ := hvalue
    obtain ⟨set, _, hset, _⟩ := id hwrites
    obtain ⟨t, ht⟩ := Draft.exists_resolve_of_declared hdeclared
    have hlabels : ∀ id, .label id ∉
        [.register (UInt8.ofNat d.nextRegister) type true, value] := by
      intro id hm
      rcases List.mem_pair.mp hm with heq | heq
      · cases heq
      · exact hu.resolve hr.sound ht id heq.symm
    refine ⟨[l], set.evaluate r [.register (UInt8.ofNat d.nextRegister) type true, value],
      ⟨hready, hg, hblocks'.trans hblocks.symm, hu', fun hne => absurd hblocks hne,
        fun hw world => hwrites.runs hr.sound hw.carries hw.natives hw.lines hlabels
          hset world⟩,
      fun world => ?_⟩
    rw [hscope]
    simp [Scope.declare, hdeclared', Except.toOption, hset]
    exact Option.map_eq_bind.symm

/-- The statement that is being compiled does not matter for what is simulated. -/
theorem Simulated.of_span {more : List Line} {span : Span} {eval : World → Option Ending}
    (h : Simulated r lines more { d with span } d' eval) :
    Simulated r lines more d d' eval :=
  ⟨h.ready, h.grows.of_span, h.blocks, h.unlabelled, h.scope, h.runs⟩

/-- A statement that is no part of a chain does what it does as part of a script. -/
theorem Statement.simulated (hr : r.Built) (h : d.Ready r lines)
    (hu : d.Unlabelled) {s : Statement} (hs : s.label = none) (hform : (r.formOf s).IsPlain)
    (hok : Drafting.statement r s d = .ok () d') (hf : d'.forward = #[]) :
    ∃ more eval, Simulated r lines more d d' eval ∧
      ∀ world, s.evaluate r d.scope world = (eval world).map fun ending => (d'.scope, ending) := by
  have h₀ := Drafting.ready_withSpan h s.span
  have hu₀ : Draft.Unlabelled { d with span := s.span } := hu
  rw [Drafting.statement_of_unlabelled hs] at hok
  cases hform' : r.formOf s with
  | call =>
    obtain ⟨name, op, arguments, l, hop, hl, ha, heval⟩ :=
      Drafting.emits_of_performance hr h₀ hform' hok
    obtain ⟨hsim, hscope⟩ := hl.simulated hr h₀ hu₀ hop (ha hu₀) hf
    refine ⟨[l], op.evaluate r arguments, hsim.of_span, fun world => ?_⟩
    rw [hscope]
    exact heval world
  | declaration =>
    rw [Drafting.performance_of_declaration hform'] at hok
    obtain ⟨op, hop, hop'⟩ := Registry.exists_operation hform' nofun
    obtain ⟨more, eval, hsim, heval⟩ := Drafting.declaration_simulated hr h₀ hu₀ hok
    simp only [evaluate, hop, hop']
    exact ⟨more, eval, hsim.of_span, heval⟩
  | ifBlock | elseBranch | endBlock | custom _ =>
    rw [hform'] at hform
    exact hform.elim

end

end HookScript
