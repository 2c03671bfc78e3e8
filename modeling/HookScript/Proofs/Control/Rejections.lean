/-
Where errors point.

A compilation ends with its first error, which has the place and the text of the statement that is
to blame for it.  That is the first statement that cannot be compiled.  If all of them can, it
remains to close the script: a block that is still open is the fault of the `if` that opened the
innermost one, and a label that is never declared that of the statement with its first use, of all
such labels the first one.  What else can be wrong there, a host function `exit` or code of 2^32
bytes and more, is put down to the last statement.

* `Draft.compileAll_eq_error_iff` — the statement at which a compilation stops;
* `Draft.nestsInto_of_compileAll` — the blocks that are open behind statements that were compiled;
* `Rejection` — why a script is rejected, and what is reported;
* `compile_eq_error_iff` — these are the errors of all scripts for which compilation begins.
-/
import HookScript.Proofs.Compile.ImmediateErrors
import HookScript.Proofs.Compile.LabelUses
import HookScript.Proofs.Control.BlockErrors
import HookScript.Proofs.Statement.Positions

namespace HookScript

namespace Draft

variable {r : Registry} {source : String} {lines : List Line} {d d' : Draft}
  {statements : List (Except SyntaxError Statement)} {opened : List OpenChain}

/-! ### The first statement that fails -/

theorem compileAll_cons_ok (s : Statement) (rest : List (Except SyntaxError Statement)) :
    d.compileAll r source (.ok s :: rest)
      = d.compileAll r source [.ok s] >>= fun d' => d'.compileAll r source rest := by
  rw [compileAll, compileAll]
  cases Drafting.statement r s d <;> rfl

/-- An error is that of one statement, and all statements in front of it have been compiled. -/
theorem compileAll_eq_error_iff {e : CompileError} :
    d.compileAll r source statements = .error e ↔
      ∃ (earlier : List Statement) (next : Except SyntaxError Statement)
        (later : List (Except SyntaxError Statement)) (d' : Draft),
        statements = earlier.map .ok ++ next :: later ∧
          d.compileAll r source (earlier.map .ok) = .ok d' ∧
          d'.compileAll r source [next] = .error e := by
  constructor
  · intro h
    induction statements generalizing d with
    | nil => cases h
    | cons next rest ih =>
      cases next with
      | error cause => exact ⟨[], .error cause, rest, d, rfl, rfl, h⟩
      | ok s =>
        cases hs : d.compileAll r source [.ok s] with
        | error e' =>
          rw [compileAll_cons_ok, hs] at h
          cases h
          exact ⟨[], .ok s, rest, d, rfl, rfl, hs⟩
        | ok d₁ =>
          rw [compileAll_cons_ok, hs] at h
          obtain ⟨earlier, next, later, d', rfl, hearlier, hnext⟩ := ih h
          refine ⟨s :: earlier, next, later, d', rfl, ?_, hnext⟩
          rw [List.map_cons, compileAll_cons_ok, hs]
          exact hearlier
  · rintro ⟨earlier, next, later, d', rfl, hearlier, hnext⟩
    rw [compileAll_append, hearlier]
    show d'.compileAll r source (next :: later) = .error e
    cases next with
    | error cause => exact hnext
    | ok s =>
      rw [compileAll_cons_ok, hnext]
      rfl

theorem compileAll_single_eq_error_iff {s : Statement} {e : CompileError} :
    d.compileAll r source [.ok s] = .error e ↔
      e = .inStatement source s.span e.kind ∧
        ∃ d', Drafting.statement r s d = .error e.kind d' := by
  rw [compileAll]
  cases hs : Drafting.statement r s d with
  | ok u d₁ =>
    constructor
    · intro h
      cases h
    · rintro ⟨-, _, h⟩
      cases h
  | error kind d₁ =>
    constructor
    · intro h
      cases h
      exact ⟨rfl, d₁, rfl⟩
    · rintro ⟨he, d', h⟩
      cases h
      exact congrArg Except.error he.symm

/-! ### Open blocks -/

/-- Statements that have been compiled leave the chains open that they should. -/
theorem nestsInto_of_compileAll (hr : r.Built) (own : r.OwnForms) {parsed : List Statement}
    (h : d.Ready r lines) (hopened : d.Stands opened)
    (hd : d.compileAll r source (parsed.map .ok) = .ok d') :
    ∃ opened', r.nestAll? opened parsed = some opened' ∧ d'.Stands opened' := by
  induction parsed generalizing lines d opened with
  | nil =>
    cases hd
    exact ⟨opened, rfl, hopened⟩
  | cons s rest ih =>
    obtain ⟨d₁, hstep, hrest⟩ := compileAll_cons_eq_ok hd
    obtain ⟨more, h₁, -⟩ := (Drafting.statement_ensures hr (own.reads s) h).of_ok hstep
    obtain ⟨opened₁, hs, hopened₁⟩ := Drafting.nestsInto_of_statement hr own h hopened hstep
    obtain ⟨opened', hall, hopened'⟩ := ih h₁ hopened₁ hrest
    exact ⟨opened', Registry.nestAll?_cons_eq_some.mpr ⟨opened₁, hs, hall⟩, hopened'⟩

end Draft

/-! ### Rejections -/

/-- Why a script is rejected whose compilation has begun, and the error `e` that is reported. -/
inductive Rejection (r : Registry) (hook : Option HookSignature) (source : String)
    (statements : List (Except SyntaxError Statement)) (e : CompileError) : Prop where
  /-- something cannot be read, behind statements all of which have been compiled -/
  | unread {earlier : List Statement} {cause : SyntaxError}
      {later : List (Except SyntaxError Statement)} {d : Draft}
      (read : statements = earlier.map .ok ++ .error cause :: later)
      (compiled : HalfwayDraft r hook source (earlier.map .ok) d)
      (reported : e = .ofSyntaxError cause) : Rejection r hook source statements e
  /-- a statement cannot be compiled, behind statements all of which have been -/
  | failed {earlier : List Statement} {s : Statement}
      {later : List (Except SyntaxError Statement)} {d d' : Draft}
      (read : statements = earlier.map .ok ++ .ok s :: later)
      (compiled : HalfwayDraft r hook source (earlier.map .ok) d)
      (fails : Drafting.statement r s d = .error e.kind d') (early : ¬ e.kind.IsClosing)
      (located : e.PointsAt r.config.maxArguments source s) : Rejection r hook source statements e
  /-- the script ends inside a block -/
  | unterminated {parsed : List Statement} {d : Draft} {chain : OpenChain} {outer : List OpenChain}
      (read : statements = parsed.map .ok) (compiled : HalfwayDraft r hook source statements d)
      (opened : r.nestAll? [] parsed = some (chain :: outer))
      (opening : chain.opening ∈ parsed ∧ r.formOf chain.opening = .ifBlock)
      (reported : e.kind = .unterminatedBlock)
      (located : e.PointsAt r.config.maxArguments source chain.opening) :
      Rejection r hook source statements e
  /-- a label is used and never declared -/
  | undeclared {parsed : List Statement} {d : Draft} {i j : Nat} {s : Statement} {name : String}
      (read : statements = parsed.map .ok) (compiled : HalfwayDraft r hook source statements d)
      (closed : r.nestAll? [] parsed = some [])
      (first : r.FirstUse ((hook.map (·.arguments)).getD []) statements
        (fun name => ¬ LabelAmong statements name) i j s name)
      (reported : e.kind = .labelNotDeclared name)
      (located : e.PointsAt r.config.maxArguments source s) : Rejection r hook source statements e
  /-- the final instruction has the same name as a function of the host -/
  | ownExit {parsed : List Statement} {d : Draft}
      (read : statements = parsed.map .ok) (compiled : HalfwayDraft r hook source statements d)
      (closed : r.nestAll? [] parsed = some [])
      (declared : ∀ i j s name, r.Uses ((hook.map (·.arguments)).getD []) statements i j s name →
        LabelAmong statements name)
      (own : r.HasOwnExit)
      (reported : e = .inStatement source d.span (.conflictingOverloads Builtin.exit.name "")) :
      Rejection r hook source statements e
  /-- the code is longer than positions can tell, and a call in it cannot be read back -/
  | tooLong {parsed : List Statement} {d last : Draft} {place : Nat}
      (read : statements = parsed.map .ok) (compiled : HalfwayDraft r hook source statements d)
      (closed : r.nestAll? [] parsed = some [])
      (declared : ∀ i j s name, r.Uses ((hook.map (·.arguments)).getD []) statements i j s name →
        LabelAmong statements name)
      (ended : Drafting.emitNamed r Builtin.exit.name [] d = .ok () last)
      (long : last.TooLong place)
      (reported : e = .inStatement source d.span (.internal (.verification (.truncated place)))) :
      Rejection r hook source statements e

namespace Draft

variable {r : Registry} {hook : Option HookSignature} {source : String}
  {statements : List (Except SyntaxError Statement)} {parsed : List Statement} {first d : Draft}
  {e : CompileError} (hr : r.Built) (own : r.OwnForms)
  (hfirst : start r ((hook.map (·.arguments)).getD []) = .ok first)
  (hread : Statement.readAll r.config.maxArguments (tokenize source) = statements)

include hfirst in
theorem compileAll_of_halfway {done : List (Except SyntaxError Statement)}
    (h : HalfwayDraft r hook source done d) : first.compileAll r source done = .ok d := by
  obtain ⟨-, first', hfirst', hd⟩ := h
  cases hfirst.symm.trans hfirst'
  exact hd

include own hfirst hread in
/-- The error of a statement that cannot be read or compiled. -/
theorem rejection_of_compileAll (he : first.compileAll r source statements = .error e) :
    Rejection r hook source statements e := by
  obtain ⟨earlier, next, later, d', hsplit, hearlier, hnext⟩ := compileAll_eq_error_iff.mp he
  have hhalf : HalfwayDraft r hook source (earlier.map .ok) d' :=
    ⟨⟨next :: later, by rw [hread, hsplit]⟩, first, hfirst, hearlier⟩
  cases next with
  | error cause =>
    cases hnext
    exact .unread hsplit hhalf rfl
  | ok s =>
    obtain ⟨hlocated, d'', hfails⟩ := compileAll_single_eq_error_iff.mp hnext
    have hs : .ok s ∈ Statement.readAll r.config.maxArguments (tokenize source) := by
      simp [hread, hsplit]
    exact .failed hsplit hhalf hfails
      (Drafting.immediate_statement (own.reads s) _ _ _ hfails)
      ((CompileError.pointsAt_iff hs).mpr hlocated)

include hr own hfirst

/-- When all statements have been compiled, the open blocks are those of the open chains. -/
theorem exists_stands (hd : first.compileAll r source (parsed.map .ok) = .ok d) :
    ∃ opened lines, r.nestAll? [] parsed = some opened ∧ d.Stands opened ∧ d.Ready r lines := by
  obtain ⟨hready, hnone⟩ := start_ready hr.sound hfirst
  have hbegun : first.Stands [] := by
    rw [Stands, hnone]
    exact .nil
  obtain ⟨opened, hopened, hstands⟩ := nestsInto_of_compileAll hr own hready hbegun hd
  obtain ⟨-, lines, hready'⟩ := tracks_of_compileAll hr hfirst (fun s _ => own.reads s) hd
  exact ⟨opened, lines, hopened, hstands, hready'⟩

/-- At the end all forward labels have positions exactly if all labels in use are declared. -/
theorem forward_isDefined_iff (hd : first.compileAll r source statements = .ok d) :
    (∀ f ∈ d.forward, d.buffer.isDefined f.label = true) ↔ ∀ i j s name,
      r.Uses ((hook.map (·.arguments)).getD []) statements i j s name →
        LabelAmong statements name := by
  rw [← undeclared?_eq_none_iff]
  constructor
  · intro hnone i j s name huses
    by_contra hname
    obtain ⟨f, hf⟩ := exists_undeclared hr own hfirst hd huses hname
    cases hnone.symm.trans hf
  · intro declared
    refine Option.eq_none_iff_forall_not_mem.mpr fun f hf => ?_
    obtain ⟨i, j, s, huse, -⟩ := firstUse_of_undeclared hr own hfirst hd hf
    exact huse.among (declared i j s f.name huse.uses)

include hread

/-- What speaks against closing a script can be told from its statements. -/
theorem rejection_of_finish (hd : first.compileAll r source statements = .ok d)
    (he : d.finish r source = .error e) : Rejection r hook source statements e := by
  obtain ⟨parsed, rfl⟩ := exists_statements_of_compileAll hd
  have hhalf : HalfwayDraft r hook source (parsed.map .ok) d :=
    ⟨⟨[], by rw [hread, List.append_nil]⟩, first, hfirst, hd⟩
  obtain ⟨opened, lines, hopened, hstands, hready⟩ := exists_stands hr own hfirst hd
  obtain ⟨kind, span, hfault, rfl⟩ := (finish_eq_error_iff hr hready).mp he
  have closed : d.blocks = [] → r.nestAll? [] parsed = some [] := by
    intro hblocks
    rw [Stands, hblocks] at hstands
    cases hstands
    exact hopened
  cases hfault with
  | @unterminated block outer hblocks =>
    rw [Stands, hblocks] at hstands
    cases hstands with
    | @cons _ chain _ chains hblock _ =>
      have hopening : chain.opening ∈ parsed ∧ r.formOf chain.opening = .ifBlock :=
        (Registry.opening_of_nestAll? hopened List.mem_cons_self).resolve_left (by simp)
      have hs : .ok chain.opening ∈ Statement.readAll r.config.maxArguments (tokenize source) := by
        rw [hread]
        exact List.mem_map_of_mem hopening.1
      refine .unterminated rfl hhalf hopened hopening rfl ?_
      rw [CompileError.pointsAt_iff hs, hblock.span]
      rfl
  | @undeclared earlier later f hblocks used declared missing =>
    obtain ⟨i, j, s, huse, hspan⟩ := firstUse_of_undeclared hr own hfirst hd
      (undeclared?_eq_some_iff.mpr ⟨earlier, later, used, declared, missing⟩)
    have hs : .ok s ∈ Statement.readAll r.config.maxArguments (tokenize source) :=
      hread ▸ List.mem_of_getElem? huse.uses.statement
    refine .undeclared rfl hhalf (closed hblocks) huse rfl ?_
    rw [CompileError.pointsAt_iff hs, hspan]
    rfl
  | ownExit hblocks declared hown =>
    exact .ownExit rfl hhalf (closed hblocks)
      ((forward_isDefined_iff hr own hfirst hd).mp declared) hown rfl
  | tooLong hblocks declared ended long =>
    exact .tooLong rfl hhalf (closed hblocks)
      ((forward_isDefined_iff hr own hfirst hd).mp declared) ended long rfl

/-- A script with a reason to be rejected is not compiled to its end, or not closed, and the error
is the one that is reported. -/
theorem error_of_rejection (h : Rejection r hook source statements e) :
    first.compileAll r source statements = .error e ∨
      ∃ d, first.compileAll r source statements = .ok d ∧ d.finish r source = .error e := by
  have located : ∀ s, .ok s ∈ statements → e.PointsAt r.config.maxArguments source s →
      e = .inStatement source s.span e.kind := fun s hs =>
    (CompileError.pointsAt_iff (hread ▸ hs)).mp
  cases h with
  | unread read compiled reported =>
    exact .inl (compileAll_eq_error_iff.mpr
      ⟨_, _, _, _, read, compileAll_of_halfway hfirst compiled, congrArg _ reported.symm⟩)
  | @failed earlier s later d d' read compiled fails early pointsAt =>
    refine .inl (compileAll_eq_error_iff.mpr
      ⟨_, _, _, _, read, compileAll_of_halfway hfirst compiled, ?_⟩)
    exact compileAll_single_eq_error_iff.mpr ⟨located s (by simp [read]) pointsAt, d', fails⟩
  | @unterminated parsed d chain outer read compiled opened opening reported pointsAt =>
    subst read
    have hd := compileAll_of_halfway hfirst compiled
    obtain ⟨opened', lines, hopened, hstands, hready⟩ := exists_stands hr own hfirst hd
    cases opened.symm.trans hopened
    rw [Stands] at hstands
    generalize hblocks : d.blocks = blocks at hstands
    cases hstands with
    | cons hblock _ =>
      refine .inr ⟨d, hd, (finish_eq_error_iff hr hready).mpr ⟨_, _, .unterminated hblocks, ?_⟩⟩
      rw [hblock.span, located _ (List.mem_map_of_mem opening.1) pointsAt, reported]
  | @undeclared parsed d i j s name read compiled closed huse reported pointsAt =>
    subst read
    have hd := compileAll_of_halfway hfirst compiled
    obtain ⟨opened', lines, hopened, hstands, hready⟩ := exists_stands hr own hfirst hd
    cases closed.symm.trans hopened
    -- the label that is reported is the one with the first use
    obtain ⟨f, hf⟩ := exists_undeclared hr own hfirst hd huse.uses huse.among
    obtain ⟨i', j', s', huse', hspan⟩ := firstUse_of_undeclared hr own hfirst hd hf
    obtain ⟨rfl, rfl, hname⟩ := huse.unique huse'
    obtain ⟨earlier, later, used, declared, missing⟩ := undeclared?_eq_some_iff.mp hf
    refine .inr ⟨d, hd, (finish_eq_error_iff hr hready).mpr ⟨_, _,
      .undeclared (List.forall₂_nil_right_iff.mp hstands) used declared missing, ?_⟩⟩
    rw [← hspan, ← hname, located s (List.mem_of_getElem? huse.uses.statement) pointsAt, reported]
  | @ownExit parsed d read compiled closed declared own' reported =>
    subst read
    have hd := compileAll_of_halfway hfirst compiled
    obtain ⟨opened', lines, hopened, hstands, hready⟩ := exists_stands hr own hfirst hd
    cases closed.symm.trans hopened
    have hdeclared := (forward_isDefined_iff hr own hfirst hd).mpr declared
    refine .inr ⟨d, hd, (finish_eq_error_iff hr hready).mpr ⟨_, _,
      .ownExit (List.forall₂_nil_right_iff.mp hstands) hdeclared own', reported⟩⟩
  | @tooLong parsed d last place read compiled closed declared ended long reported =>
    subst read
    have hd := compileAll_of_halfway hfirst compiled
    obtain ⟨opened', lines, hopened, hstands, hready⟩ := exists_stands hr own hfirst hd
    cases closed.symm.trans hopened
    have hdeclared := (forward_isDefined_iff hr own hfirst hd).mpr declared
    refine .inr ⟨d, hd, (finish_eq_error_iff hr hready).mpr ⟨_, _,
      .tooLong (List.forall₂_nil_right_iff.mp hstands) hdeclared ended long, reported⟩⟩

end Draft

/-- If compilation begins, and the host has added no keywords, a script is rejected exactly for the
first thing in it that cannot be read or compiled, or else for what is wrong with it at its end.
The error has the place and the text of the statement that is to blame: the first one that cannot be
compiled, the `if` of the innermost block that is open at the end, or the one with the first use of
a label that is never declared, if no block is open.  Lines and columns have no bound, as in
`Position`. -/
theorem compile_eq_error_iff {r : Registry} (hr : r.Built) (own : r.OwnForms)
    {hook : Option HookSignature} {first : Draft}
    (hfirst : Draft.start r ((hook.map (·.arguments)).getD []) = .ok first) {source : String}
    {statements : List (Except SyntaxError Statement)}
    (hread : Statement.readAll r.config.maxArguments (tokenize source) = statements)
    (e : CompileError) :
    compile r hook source = .error e ↔ Rejection r hook source statements e := by
  have hcompile : compile r hook source
      = first.compileAll r source statements >>= fun d => d.finish r source := by
    rw [compile, compileWith, hfirst, ← hread]
  rw [hcompile]
  constructor
  · intro he
    cases hall : first.compileAll r source statements with
    | error e' =>
      rw [hall] at he
      cases he
      exact Draft.rejection_of_compileAll own hfirst hread hall
    | ok d =>
      rw [hall] at he
      exact Draft.rejection_of_finish hr own hfirst hread hall he
  · intro h
    rcases Draft.error_of_rejection hr own hfirst hread h with hall | ⟨d, hall, he⟩
    · rw [hall]
      rfl
    · rw [hall]
      exact he

/-- A script with three jumps ahead, only one of which leads to a label that there is. -/
def strayingScript : String :=
  "goto back; # over what follows\nskip: test_le r0 5\n  never later;\n" ++
    "goto later;\nback: add r0 1;"

/-- The error of that script, which is that of its second statement. -/
def strayingError : CompileError :=
  ⟨.labelNotDeclared "never", 2, 1, "skip: test_le r0 5\n  never later;"⟩

theorem compile_eq_error_iff_strayingScript : ∃ r first i j s, Registry.standard? {} = .ok r ∧
    r.Built ∧ r.OwnForms ∧ Draft.start r [] = .ok first ∧
    compile r none strayingScript = .error strayingError ∧
    r.FirstUse [] (Statement.readAll r.config.maxArguments (tokenize strayingScript))
      (fun name => ¬ LabelAmong
        (Statement.readAll r.config.maxArguments (tokenize strayingScript)) name) i j s "never" ∧
    strayingError.PointsAt r.config.maxArguments strayingScript s := by
  obtain ⟨r, hr, h⟩ := Registry.exists_standard {} (fun r =>
    r.operations.toList.all (fun op => !op.2.form.isCustom) &&
      ((Draft.start r []).toOption.any (fun _ => true) &&
        match compile r none strayingScript with
        | .error e => decide (e = strayingError)
        | .ok _ => false)) (by decide +kernel)
  simp only [Bool.and_eq_true] at h
  obtain ⟨hown, hfirst, he⟩ := h
  obtain ⟨first, hfirst, -⟩ := exists_ok hfirst
  have hbuilt := Registry.Built.of_standard hr
  have own := Registry.ownForms_of_all hown
  have hrejected : compile r none strayingScript = .error strayingError := by
    split at he
    · rename_i e heq
      rw [heq, of_decide_eq_true he]
    · cases he
  have rejection := (@compile_eq_error_iff r hbuilt own none first hfirst strayingScript _ rfl
    strayingError).mp hrejected
  -- of all rejections only one has an error of this kind
  cases rejection with
  | unread _ _ reported => cases reported
  | failed _ _ _ early _ => exact absurd trivial early
  | unterminated _ _ _ _ reported _ => cases reported
  | @undeclared _ _ i j s name _ _ _ huse reported located =>
    cases reported
    exact ⟨r, first, i, j, s, hr, hbuilt, own, hfirst, hrejected, huse, located⟩
  | ownExit _ _ _ _ _ reported => cases reported
  | tooLong _ _ _ _ _ _ reported => cases reported

end HookScript
