/-
Errors of nesting.

If all statements of a script are valid but for the blocks that are open around them, the compiler
reports an error of nesting exactly if the script is not a tree of nested blocks.  It blames the
first statement that may not stand where it does or, at the end, the innermost chain that is open.

* `CompileError.Kind.IsBlockError` — the errors of nesting;
* `Draft.compileAll_nests` — all statements are compiled, or the first offence is reported;
* `NestingOutcome` — what becomes of the script then;
* `block_errors_iff` — which errors of nesting are reported, and for which scripts.
-/
import HookScript.Proofs.Compile.Closing
import HookScript.Proofs.Control.Validity

namespace HookScript

/-- The error is about the nesting of blocks. -/
def CompileError.Kind.IsBlockError : CompileError.Kind → Prop
  | .unexpectedElse | .unexpectedEnd | .duplicateElse | .variableInBlock _
  | .unterminatedBlock => True
  | _ => False

theorem Registry.FirstOffence.isBlockError {r : Registry} {opened : List OpenChain}
    {statements : List Statement} {s : Statement} {kind : CompileError.Kind}
    (h : r.FirstOffence opened statements s kind) : kind.IsBlockError := by
  induction h with
  | here offends => cases offends <;> trivial
  | later _ _ ih => exact ih

/-- The number of labels that a compilation makes. -/
def labelsMade (r : Registry) (hook : Option HookSignature) (source : String) : Nat :=
  (lastDraft? r hook source).elim 0 fun d => d.buffer.labelCount

namespace Draft

variable {r : Registry} {source : String} {lines : List Line} {d : Draft} {opened : List OpenChain}

/-- As long as there is room, valid statements are all compiled and open the chains that they
should, or the first one is reported that may not stand where it does. -/
theorem compileAll_nests (hr : r.Built) (own : r.OwnForms) {statements : List Statement}
    (h : d.Ready r lines) (hopened : d.Stands opened)
    (valid : ∀ done s rest d', statements = done ++ s :: rest →
      d.compileAll r source (done.map .ok) = .ok d' → s.ValidIn r d')
    (room : ¬ (d.lastFrom r (statements.map .ok)).Full) :
    (∃ d' opened', d.compileAll r source (statements.map .ok) = .ok d' ∧
      r.nestAll? opened statements = some opened' ∧ d'.Stands opened') ∨
    ∃ s kind,
      d.compileAll r source (statements.map .ok) = .error (.inStatement source s.span kind) ∧
        r.FirstOffence opened statements s kind := by
  induction statements generalizing lines d opened with
  | nil => exact .inl ⟨d, opened, rfl, rfl, hopened⟩
  | cons s rest ih =>
    have hs := Drafting.statement_nests hr own h hopened (valid [] s rest d rfl rfl)
    rw [List.map_cons, lastFrom] at room
    rw [List.map_cons, compileAll]
    cases hstep : Drafting.statement r s d with
    | error kind failed =>
      rw [hstep] at room
      have hoffends := (hs.of_error hstep).resolve_right room
      exact .inr ⟨s, kind, rfl, .here hoffends⟩
    | ok u d₁ =>
      rw [hstep] at room
      obtain ⟨opened₁, hnests, hopened₁⟩ := hs.of_ok hstep
      obtain ⟨more, h₁, -⟩ := (Drafting.statement_ensures hr (own.reads s) h).of_ok hstep
      have valid₁ : ∀ done s' rest' d', rest = done ++ s' :: rest' →
          d₁.compileAll r source (done.map .ok) = .ok d' → s'.ValidIn r d' := by
        intro done s' rest' d' heq hd
        refine valid (s :: done) s' rest' d' (by rw [heq]; rfl) ?_
        rw [List.map_cons, compileAll, hstep]
        exact hd
      rcases ih h₁ hopened₁ valid₁ room with
        ⟨d', opened', hd, hall, hopened'⟩ | ⟨s', kind, he, hfirst⟩
      · exact .inl ⟨d', opened', hd, Registry.nestAll?_cons_eq_some.mpr ⟨opened₁, hnests, hall⟩,
          hopened'⟩
      · exact .inr ⟨s', kind, he, .later hnests hfirst⟩

/-- A chain that is open at the end is reported; otherwise the errors are others. -/
theorem finish_blockError_iff (hr : r.Built) (h : d.Ready r lines) (hopened : d.Stands opened)
    {e : CompileError} :
    (d.finish r source = .error e ∧ e.kind.IsBlockError) ↔
      ∃ chain outer, opened = chain :: outer ∧
        e = .inStatement source chain.opening.span .unterminatedBlock := by
  rw [finish_eq_error_iff hr h]
  constructor
  · rintro ⟨⟨kind, span, hfault, rfl⟩, hblock⟩
    cases hfault with
    | unterminated hblocks =>
      rw [Stands, hblocks] at hopened
      cases hopened with
      | @cons _ chain _ outer hblock _ => exact ⟨chain, outer, rfl, by rw [hblock.span]⟩
    | undeclared => exact hblock.elim
    | ownExit => exact hblock.elim
    | tooLong => exact hblock.elim
  · rintro ⟨chain, outer, rfl, rfl⟩
    rw [Stands] at hopened
    generalize hblocks : d.blocks = blocks at hopened
    cases hopened with
    | cons hblock _ => exact ⟨⟨_, _, .unterminated hblocks, by rw [hblock.span]⟩, trivial⟩

end Draft

/-- What is wrong with the nesting of a script, and the statement that is blamed for it. -/
inductive Registry.Misnests (r : Registry) (statements : List Statement) :
    Statement → CompileError.Kind → Prop where
  /-- a statement may not stand where it does -/
  | offence {s : Statement} {kind : CompileError.Kind}
      (first : r.FirstOffence [] statements s kind) : Misnests r statements s kind
  /-- a chain is open at the end -/
  | unterminated {chain : OpenChain} {outer : List OpenChain}
      (opened : r.nestAll? [] statements = some (chain :: outer)) :
      Misnests r statements chain.opening .unterminatedBlock

theorem Registry.Misnests.not_closed {r : Registry} {statements : List Statement} {s : Statement}
    {kind : CompileError.Kind} (h : r.Misnests statements s kind) :
    r.nestAll? [] statements ≠ some [] := by
  intro hclosed
  cases h with
  | offence first => cases first.nestAll?_eq_none.symm.trans hclosed
  | unterminated opened => cases opened.symm.trans hclosed

/-- What becomes of a script whose statements are valid but for their nesting: all of them are
compiled, and it remains to close the script, or the first offence is reported. -/
inductive NestingOutcome (r : Registry) (hook : Option HookSignature) (source : String)
    (statements : List Statement) : Prop where
  | compiled {d : Draft} {lines : List Line} {opened : List OpenChain}
      (halfway : HalfwayDraft r hook source (statements.map .ok) d)
      (closing : compile r hook source = d.finish r source) (ready : d.Ready r lines)
      (nests : r.nestAll? [] statements = some opened) (stands : d.Stands opened)
      (small : (d.lastFrom r []).buffer.size < UInt32.size)
  | rejected {s : Statement} {kind : CompileError.Kind}
      (rejection : compile r hook source = .error (.inStatement source s.span kind))
      (first : r.FirstOffence [] statements s kind)

section

variable {r : Registry} {hook : Option HookSignature} {source : String}
  {statements : List Statement}

theorem nestingOutcome (hr : r.Built) (own : r.OwnForms)
    (accepted : ∀ signature ∈ hook, signature ∈ r.hooks)
    (hread : Statement.readAll r.config.maxArguments (tokenize source) = statements.map .ok)
    (valid : ∀ done s rest d, statements = done ++ s :: rest →
      HalfwayDraft r hook source (done.map .ok) d → s.ValidIn r d)
    (small : emittedSize r hook source < UInt32.size)
    (few : labelsMade r hook source < Drafting.maxLabels) :
    NestingOutcome r hook source statements := by
  obtain ⟨first, hfirst⟩ := Draft.exists_start hr accepted
  obtain ⟨hready, hnone⟩ := Draft.start_ready hr.sound hfirst
  have hopened : first.Stands [] := by
    rw [Draft.Stands, hnone]
    exact .nil
  have hcompile : compile r hook source
      = (first.compileAll r source (statements.map .ok) >>= fun d => d.finish r source) := by
    rw [compile, compileWith, hfirst, ← hread]
  have hlast : lastDraft? r hook source = some (first.lastFrom r (statements.map .ok)) := by
    rw [lastDraft?, hfirst, hread]
    rfl
  rw [emittedSize, hlast, Option.elim_some] at small
  rw [labelsMade, hlast] at few
  have room : ¬ (first.lastFrom r (statements.map .ok)).Full :=
    fun hfull => hfull.elim (Nat.not_le_of_lt few) (Nat.not_le_of_lt small)
  have halfway : ∀ done rest d, statements = done ++ rest →
      first.compileAll r source (done.map .ok) = .ok d →
      HalfwayDraft r hook source (done.map .ok) d := by
    intro done rest d heq hd
    exact ⟨⟨rest.map .ok, by rw [hread, heq, List.map_append]⟩, first, hfirst, hd⟩
  rcases Draft.compileAll_nests hr own hready hopened
    (fun done s rest d heq hd => valid done s rest d heq (halfway done _ d heq hd)) room with
    ⟨d, opened, hd, hall, hstands⟩ | ⟨s, kind, he, hfirst⟩
  · obtain ⟨⟨more, hlines⟩, -⟩ := Draft.compileAll_ready hr own hready hd
    have hclosed := Draft.lastFrom_append hd []
    rw [List.append_nil] at hclosed
    refine .compiled (halfway statements [] d (by simp) hd) ?_ hlines hall hstands (hclosed ▸ small)
    rw [hcompile, hd]
    rfl
  · refine .rejected ?_ hfirst
    rw [hcompile, he]
    rfl

namespace NestingOutcome

/-- The errors of nesting that are reported are those that the script has. -/
theorem blockError_iff (hr : r.Built) (h : NestingOutcome r hook source statements)
    {e : CompileError} :
    (compile r hook source = .error e ∧ e.kind.IsBlockError) ↔
      ∃ s kind, r.Misnests statements s kind ∧ e = .inStatement source s.span kind := by
  cases h with
  | compiled _ closing ready nests stands _ =>
    rw [closing, Draft.finish_blockError_iff hr ready stands]
    constructor
    · rintro ⟨chain, outer, rfl, rfl⟩
      exact ⟨_, _, .unterminated nests, rfl⟩
    · rintro ⟨s, kind, hwrong, rfl⟩
      cases hwrong with
      | offence first => cases first.nestAll?_eq_none.symm.trans nests
      | unterminated opened => exact ⟨_, _, Option.some.inj (nests.symm.trans opened), rfl⟩
  | rejected rejection first =>
    rw [rejection]
    constructor
    · rintro ⟨he, -⟩
      cases he
      exact ⟨_, _, .offence first, rfl⟩
    · rintro ⟨s, kind, hwrong, rfl⟩
      cases hwrong with
      | offence first' =>
        obtain ⟨rfl, rfl⟩ := first.unique first'
        exact ⟨rfl, first.isBlockError⟩
      | unterminated opened => cases first.nestAll?_eq_none.symm.trans opened

/-- Either a script closes all its chains, or something is wrong with its nesting. -/
theorem closed_iff (h : NestingOutcome r hook source statements) :
    r.nestAll? [] statements = some [] ↔ ¬ ∃ s kind, r.Misnests statements s kind := by
  constructor
  · rintro hclosed ⟨s, kind, hwrong⟩
    exact hwrong.not_closed hclosed
  · intro hnone
    cases h with
    | @compiled _ _ opened _ _ _ nests _ _ =>
      cases opened with
      | nil => exact nests
      | cons chain outer => exact absurd ⟨_, _, .unterminated nests⟩ hnone
    | rejected _ first => exact absurd ⟨_, _, .offence first⟩ hnone

/-- A script that declares the labels that it uses is accepted if it closes all its chains, and if
it can be closed itself. -/
theorem ok_iff (hr : r.Built) (h : NestingOutcome r hook source statements)
    (declared : ∀ d, HalfwayDraft r hook source (statements.map .ok) d →
      ∀ f ∈ d.forward, d.buffer.isDefined f.label = true) :
    (∃ p, compile r hook source = .ok p) ↔
      r.nestAll? [] statements = some [] ∧ ¬ r.HasOwnExit := by
  constructor
  · rintro ⟨p, hp⟩
    have hclosed : r.nestAll? [] statements = some [] := by
      refine h.closed_iff.mpr fun ⟨s, kind, hwrong⟩ => ?_
      cases hp.symm.trans ((h.blockError_iff hr).mpr ⟨s, kind, hwrong, rfl⟩).1
    refine ⟨hclosed, fun hown => ?_⟩
    cases h with
    | @compiled d _ _ halfway closing _ nests stands _ =>
      cases hclosed.symm.trans nests
      have hend := Draft.openEnd?_eq_none_iff.mpr
        ⟨List.forall₂_nil_right_iff.mp stands, declared d halfway⟩
      rw [closing, Draft.finish_of_hasOwnExit hr hown hend] at hp
      cases hp
    | rejected _ first => cases first.nestAll?_eq_none.symm.trans hclosed
  · rintro ⟨hclosed, hown⟩
    cases h with
    | @compiled d _ _ halfway closing ready nests stands small =>
      cases hclosed.symm.trans nests
      rw [closing]
      exact Draft.exists_finish hr hown ready (Draft.openEnd?_eq_none_iff.mpr
        ⟨List.forall₂_nil_right_iff.mp stands, declared d halfway⟩) small
    | rejected _ first => cases first.nestAll?_eq_none.symm.trans hclosed

end NestingOutcome

/-- If the statements of a script are valid apart from the blocks that are open around them, an
error of nesting is reported exactly where the script is not a tree of nested blocks whose chains
declare no variables; it is that of the first statement that may not stand where it does, or that of
the innermost chain that is open at the end.  Trees are accepted if all labels that they use are
declared, unless the host has a function `exit`, which no script can be closed with. -/
theorem block_errors_iff (hr : r.Built) (own : r.OwnForms)
    (accepted : ∀ signature ∈ hook, signature ∈ r.hooks)
    (hread : Statement.readAll r.config.maxArguments (tokenize source) = statements.map .ok)
    (valid : ∀ done s rest d, statements = done ++ s :: rest →
      HalfwayDraft r hook source (done.map .ok) d → s.ValidIn r d)
    (small : emittedSize r hook source < UInt32.size)
    (few : labelsMade r hook source < Drafting.maxLabels) :
    ((∀ e, compile r hook source = .error e → ¬ e.kind.IsBlockError) ↔
      ∃ body : Body, body.ReadBy r ∧ body.DeclaresOutside r ∧ body.statements = statements) ∧
    (∀ e, (compile r hook source = .error e ∧ e.kind.IsBlockError) ↔
      ∃ s kind, r.Misnests statements s kind ∧ e = .inStatement source s.span kind) ∧
    ((∀ d, HalfwayDraft r hook source (statements.map .ok) d →
        ∀ f ∈ d.forward, d.buffer.isDefined f.label = true) →
      ((∃ p, compile r hook source = .ok p) ↔
        (∃ body : Body, body.ReadBy r ∧ body.DeclaresOutside r ∧ body.statements = statements) ∧
          ¬ r.HasOwnExit)) := by
  have outcome := nestingOutcome hr own accepted hread valid small few
  have reported := fun e => outcome.blockError_iff (e := e) hr
  rw [← Registry.nestAll?_eq_nil_iff]
  refine ⟨?_, reported, outcome.ok_iff hr⟩
  rw [outcome.closed_iff]
  constructor
  · rintro hnone ⟨s, kind, hwrong⟩
    obtain ⟨he, hblock⟩ := (reported _).mpr ⟨s, kind, hwrong, rfl⟩
    exact hnone _ he hblock
  · intro hnone e he hblock
    obtain ⟨s, kind, hwrong, -⟩ := (reported e).mp ⟨he, hblock⟩
    exact hnone ⟨s, kind, hwrong⟩

end

/-- Answers that are no errors are those of a list of values. -/
theorem map_ok_filterMap {ε α : Type} {answers : List (Except ε α)}
    (h : answers.all (fun answer => answer.toOption.isSome) = true) :
    (answers.filterMap Except.toOption).map Except.ok = answers := by
  induction answers with
  | nil => rfl
  | cons answer rest ih =>
    obtain ⟨hanswer, hrest⟩ := Bool.and_eq_true_iff.mp h
    match answer with
    | .ok a => exact congrArg (List.cons (Except.ok a)) (ih hrest)
    | .error _ => cases hanswer

/-- A script with a chain inside of a chain that goes on behind its last branch. -/
def twofoldScript : String :=
  "var int x 3; if le r0 x; add r0 10; if r0 eq x; else; set r0 1; else lt r0 3; end; end; end;"

theorem block_errors_iff_twofoldScript : ∃ r, ∃ statements : List Statement,
    Registry.Built r ∧ r.OwnForms ∧
      Statement.readAll r.config.maxArguments (tokenize twofoldScript) = statements.map .ok ∧
      (∀ done s rest d, statements = done ++ s :: rest →
        HalfwayDraft r none twofoldScript (done.map .ok) d → s.ValidIn r d) ∧
      emittedSize r none twofoldScript < UInt32.size ∧
      labelsMade r none twofoldScript < Drafting.maxLabels ∧
      (∃ s, r.Misnests statements s .duplicateElse) ∧
      ¬ ∃ body : Body, body.ReadBy r ∧ body.DeclaresOutside r ∧ body.statements = statements := by
  obtain ⟨r, hr, h⟩ := Registry.exists_standard {} (fun r =>
    let answers := Statement.readAll r.config.maxArguments (tokenize twofoldScript)
    r.operations.toList.all (fun op => !op.2.form.isCustom) &&
      (answers.all (fun answer => answer.toOption.isSome) &&
        ((Draft.start r []).toOption.any (fun first =>
            first.allValid r (answers.filterMap Except.toOption)) &&
          (decide (emittedSize r none twofoldScript < UInt32.size) &&
            (decide (labelsMade r none twofoldScript < Drafting.maxLabels) &&
              decide (rejection? (compile r none twofoldScript) = some .duplicateElse))))))
    (by decide +kernel)
  simp only [Bool.and_eq_true, decide_eq_true_eq] at h
  obtain ⟨hown, hread, hvalid, small, few, hrejected⟩ := h
  obtain ⟨first, hfirst, hvalid⟩ := exists_ok hvalid
  obtain ⟨e, he, hkind⟩ := exists_rejection hrejected
  have hbuilt := Registry.Built.of_standard hr
  have own := Registry.ownForms_of_all hown
  have hread := (map_ok_filterMap hread).symm
  generalize (Statement.readAll r.config.maxArguments (tokenize twofoldScript)).filterMap
    Except.toOption = statements at hread hvalid
  have valid : ∀ done s rest d, statements = done ++ s :: rest →
      HalfwayDraft r none twofoldScript (done.map .ok) d → s.ValidIn r d := by
    rintro done s rest d rfl ⟨-, first', hfirst', hd⟩
    cases hfirst.symm.trans hfirst'
    exact Draft.validIn_of_allValid hvalid hd
  have accepted : ∀ signature ∈ (none : Option HookSignature), signature ∈ r.hooks := nofun
  obtain ⟨htree, hreported, -⟩ := block_errors_iff hbuilt own accepted hread valid small few
  have hblock : e.kind.IsBlockError := by
    rw [hkind]
    trivial
  obtain ⟨s, kind, hwrong, rfl⟩ := (hreported e).mp ⟨he, hblock⟩
  cases hkind
  exact ⟨r, statements, hbuilt, own, hread, valid, small, few, ⟨s, hwrong⟩,
    fun hbody => htree.mpr hbody _ he hblock⟩

end HookScript
