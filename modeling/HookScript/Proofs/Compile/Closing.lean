/-
The end of a script.

The compiler closes a script with an `exit` of its own, which picks an overload as all statements
do.  A host function `exit` without parameters fits as well as the instruction, so that neither is
picked.  With such a function in the registry no script can be closed, not even an empty one;
without it, open blocks and labels that are never declared are all that can be wrong at the end,
unless the code has become longer than positions can tell.

* `Registry.HasOwnExit` — there is a host function `exit` without parameters;
* `Draft.exists_start` — scripts can have the arguments of a hook that the registry has accepted;
* `Draft.finish_eq_error_iff` — why a script is not closed;
* `closing_rejects_iff` — the same of whole scripts, and which registries take the empty script.
-/
import HookScript.Proofs.Compile.ForwardLabels

namespace HookScript

namespace Registry

/-- There is a host function `exit` without parameters. -/
def HasOwnExit (r : Registry) : Prop :=
  ∃ o, r.Offers Builtin.exit.name o ∧ o.params = [] ∧ ∀ base, o.target ≠ .builtin base

theorem not_hasOwnExit_of_all {r : Registry}
    (h : (r.overloadsOf Builtin.exit.name).all (fun o =>
      !o.params.isEmpty || decide (o.target = .builtin Builtin.exit.base)) = true) :
    ¬ r.HasOwnExit := by
  rintro ⟨o, ⟨op, hop, ho⟩, hparams, hnative⟩
  rw [overloadsOf_eq hop] at h
  have hall := List.all_eq_true.mp h o ho
  rw [hparams, List.isEmpty_nil, Bool.not_true, Bool.false_or] at hall
  exact hnative _ (of_decide_eq_true hall)

end Registry

theorem Overload.score?_nil (o : Overload) : (o.score? []).isSome = true ↔ o.params = [] := by
  rw [score?]
  cases o.params with
  | nil => simp [totalScore?]
  | cons p params => simp [totalScore?]

theorem Builtin.eq_exit_of_name {b : Builtin} : b.name = exit.name → b = exit := by
  cases b <;> decide

namespace Registry

variable {r : Registry} {op : Operation}

/-- Between the instruction and the function of the host there is a tie. -/
theorem select_exit_of_hasOwnExit (hr : r.Built) (h : r.HasOwnExit)
    (hop : r.operation? Builtin.exit.name = some op) :
    op.select r [] = .error (.conflictingOverloads Builtin.exit.name "") := by
  obtain ⟨o, ⟨op', hop', ho⟩, hparams, hnative⟩ := h
  rw [hop] at hop'
  cases hop'
  obtain ⟨op', hop', hm⟩ := hr.offers .exit
  rw [hop] at hop'
  cases hop'
  have fits : ∀ o' : Overload, o'.params = [] → o'.score? [] = some 0 := by
    intro o' hp
    rw [Overload.score?, hp]
    rfl
  have ht := Overload.best?_tracks op.overloads []
  rw [Operation.select, hr.tidy.named _ _ hop]
  cases hb : Overload.best? op.overloads [] with
  | none =>
    rw [hb] at ht
    exact absurd (ht _ hm) (by rw [fits _ rfl]; exact Option.some_ne_none 0)
  | some best =>
    rw [hb] at ht
    -- nothing scores more than an overload without parameters
    have hscore : best.score = 0 := by
      have hs := (Overload.score?_nil best.overload).mp (by rw [ht.fits]; rfl)
      exact Option.some.inj (ht.fits.symm.trans (fits _ hs))
    cases htied : best.tied with
    | true => simp [htied, argumentNames]
    | false =>
      have hown := ht.only htied o ho (by rw [fits o hparams, hscore])
      have hbuiltin := ht.only htied _ hm (by rw [fits _ rfl, hscore])
      exact absurd (congrArg Overload.target (hown.trans hbuiltin.symm)) (hnative _)

theorem select_exit_of_not_hasOwnExit (hr : r.Built) (h : ¬ r.HasOwnExit)
    (hop : r.operation? Builtin.exit.name = some op) :
    op.select r [] = .ok (builtinOverload .exit) := by
  refine select_builtin hr .exit hop rfl fun o ho hs => ?_
  have hparams := (Overload.score?_nil o).mp hs
  cases hr.sound.overloads _ op hop o ho with
  | builtin b doc named => rw [Builtin.eq_exit_of_name named]
  | native routine ofHost few entered =>
    exact absurd ⟨_, ⟨op, hop, ho⟩, hparams, fun _ => Target.noConfusion⟩ h

end Registry

namespace Draft

variable {r : Registry} {source : String} {lines : List Line} {d : Draft}

/-! ### The beginning -/

/-- Arguments of different names that there are registers for become names. -/
theorem exists_bindArguments {capacity i : Nat} {arguments : List HookArgument}
    {names : SymbolTable} (few : i + arguments.length ≤ capacity)
    (distinct : (arguments.map (·.name)).Nodup)
    (new : ∀ a ∈ arguments, names.find? a.name = none) :
    ∃ names', bindArguments capacity i arguments names = .ok names' := by
  induction arguments generalizing i names with
  | nil => exact ⟨names, rfl⟩
  | cons a arguments ih =>
    rw [List.length_cons] at few
    rw [List.map_cons, List.nodup_cons] at distinct
    rw [bindArguments, if_neg (by omega), SymbolTable.insert, new a List.mem_cons_self]
    refine ih (by omega) distinct.2 fun b hb => ?_
    rw [SymbolTable.find?_insert, if_neg, new b (List.mem_cons_of_mem _ hb)]
    intro heq
    exact distinct.1 (heq ▸ List.mem_map_of_mem hb)

/-- Scripts for a hook of the registry can begin, and so can scripts without one. -/
theorem exists_start (hr : r.Built) {hook : Option HookSignature}
    (accepted : ∀ signature ∈ hook, signature ∈ r.hooks) :
    ∃ first, start r ((hook.map (·.arguments)).getD []) = .ok first := by
  obtain ⟨names, hnames⟩ : ∃ names, bindArguments r.config.registers 0
      ((hook.map (·.arguments)).getD []) .empty = .ok names := by
    cases hook with
    | none => exact ⟨_, rfl⟩
    | some signature =>
      obtain ⟨few, distinct⟩ := hr.tidy.hooks signature (accepted signature rfl)
      refine exists_bindArguments (by simpa using few) distinct fun a _ => ?_
      simp [SymbolTable.find?, SymbolTable.empty]
  rw [start, hnames]
  exact ⟨_, rfl⟩

/-! ### The end -/

/-- With a host function `exit` the final instruction is not found. -/
theorem finish_of_hasOwnExit (hr : r.Built) (h : r.HasOwnExit) (hend : d.openEnd? = none) :
    d.finish r source
      = .error (.inStatement source d.span (.conflictingOverloads Builtin.exit.name "")) := by
  obtain ⟨op, hop, -⟩ := hr.offers .exit
  have hemit : Drafting.emitNamed r Builtin.exit.name [] d
      = .error (.conflictingOverloads Builtin.exit.name "") d := by
    rw [Drafting.emitNamed, hop]
    show Drafting.emit r op [] d = _
    rw [Drafting.emit, Registry.select_exit_of_hasOwnExit hr h hop]
    rfl
  rw [finish, hend, hemit]

/-- Without one, the script becomes a program, unless it is too long. -/
theorem exists_finish_or_tooLong (hr : r.Built) (h : ¬ r.HasOwnExit) (hd : d.Ready r lines)
    (hend : d.openEnd? = none) :
    (∃ p, d.finish r source = .ok p) ∨
      ∃ l closed place, Drafting.emitNamed r Builtin.exit.name [] d = .ok () closed ∧
        closed.Sound r (lines ++ [l]) [] ∧ r.Writes closed.natives Builtin.exit.name [] l ∧
        closed.TooLong place := by
  obtain ⟨hblocks, hdeclared⟩ := openEnd?_eq_none_iff.mp hend
  have hsound : d.Sound r lines [] := by
    have hpending : d.pending = [] := by simp [pending, hblocks]
    exact hpending ▸ hd.sound
  obtain ⟨op, hop, -⟩ := hr.offers .exit
  have hsel := Registry.select_exit_of_not_hasOwnExit hr h hop
  obtain ⟨u, closed, hx⟩ := (Drafting.succeeds_emit_builtin hsel).mpr
    (Drafting.succeeds_bindForward_known (d := d) (by simp))
  have hemit : Drafting.emitNamed r Builtin.exit.name [] d = .ok u closed := by
    rw [Drafting.emitNamed, hop]
    exact hx
  obtain ⟨op', l, hop', hl⟩ :=
    (Drafting.emitNamed_ensures hr .exit hsound [] (by simp)).of_ok hemit
  rcases closes_of_emits hr.sound hsound hblocks hdeclared hop' hl with
    ⟨p, hp, -⟩ | ⟨place, hlong⟩
  · refine .inl ⟨p, ?_⟩
    rw [finish, hend, hemit]
    simp only [hp]
  · exact .inr ⟨l, closed, place, hemit, hl.sound, hl.writes hop' (hl.known (by simp)), hlong⟩

/-- Scripts that are not too long become programs. -/
theorem exists_finish (hr : r.Built) (h : ¬ r.HasOwnExit) (hd : d.Ready r lines)
    (hend : d.openEnd? = none) (small : (d.lastFrom r []).buffer.size < UInt32.size) :
    ∃ p, d.finish r source = .ok p := by
  refine (exists_finish_or_tooLong hr h hd hend).resolve_right ?_
  rintro ⟨l, closed, place, hemit, -, -, hlong⟩
  rw [lastFrom, hend, hemit] at small
  exact Nat.not_le_of_lt small hlong.size

/-- With nothing in front of it, the final instruction is not too long. -/
theorem exists_finish_of_empty (hr : r.Built) (h : ¬ r.HasOwnExit) (hd : d.Ready r [])
    (hend : d.openEnd? = none) : ∃ p, d.finish r source = .ok p := by
  refine (exists_finish_or_tooLong hr h hd hend).resolve_right ?_
  rintro ⟨l, last, place, -, hsound, ⟨_, _, -, -, hyields, -⟩, hlong⟩
  have hsize : l.size ≤ 4 := by
    cases hyields <;>
      simp [Line.size, Line.pieces, Payload.piece, Piece.size, assemble, sizeOfPieces]
  have hlast : last.buffer.size = l.size := hsound.holds.size_eq.trans (by simp [piecesOf]; rfl)
  have hle : UInt32.size ≤ 4 := Nat.le_trans (hlast ▸ hlong.size) hsize
  exact absurd hle (by decide)

/-- A script that is too long is refused. -/
theorem finish_of_tooLong (hend : d.openEnd? = none) {closed : Draft} {place : Nat}
    (hemit : Drafting.emitNamed r Builtin.exit.name [] d = .ok () closed)
    (hlong : closed.TooLong place) :
    d.finish r source
      = .error (.inStatement source d.span (.internal (.verification (.truncated place)))) := by
  rw [finish, hend, hemit]
  simp only [hlong.refused]

/-- What speaks against closing a script, and the statement that is blamed for it. -/
inductive EndFault (r : Registry) (d : Draft) : CompileError.Kind → Span → Prop where
  /-- a block is open; the innermost one is reported -/
  | unterminated {block : Block} {outer : List Block} (opened : d.blocks = block :: outer) :
      EndFault r d .unterminatedBlock block.span
  /-- a label is never declared; the one that was used first is reported -/
  | undeclared {earlier later : List ForwardLabel} {f : ForwardLabel} (closed : d.blocks = [])
      (used : d.forward.toList = earlier ++ f :: later)
      (declared : ∀ g ∈ earlier, d.buffer.isDefined g.label = true)
      (missing : d.buffer.isDefined f.label = false) :
      EndFault r d (.labelNotDeclared f.name) f.span
  /-- the final instruction has the same name as a function of the host -/
  | ownExit (closed : d.blocks = []) (declared : ∀ f ∈ d.forward, d.buffer.isDefined f.label = true)
      (own : r.HasOwnExit) :
      EndFault r d (.conflictingOverloads Builtin.exit.name "") d.span
  /-- the code is longer than positions can tell, and a call in it cannot be read back -/
  | tooLong {last : Draft} {place : Nat} (closed : d.blocks = [])
      (declared : ∀ f ∈ d.forward, d.buffer.isDefined f.label = true)
      (ended : Drafting.emitNamed r Builtin.exit.name [] d = .ok () last)
      (long : last.TooLong place) :
      EndFault r d (.internal (.verification (.truncated place))) d.span

theorem undeclared?_eq_some_iff {f : ForwardLabel} :
    d.undeclared? = some f ↔ ∃ earlier later, d.forward.toList = earlier ++ f :: later ∧
      (∀ g ∈ earlier, d.buffer.isDefined g.label = true) ∧ d.buffer.isDefined f.label = false := by
  rw [undeclared?, ← Array.find?_toList, List.find?_eq_some_iff_append]
  simp only [Bool.not_not, Bool.not_eq_true']
  constructor
  · rintro ⟨hf, earlier, later, hused, hdeclared⟩
    exact ⟨earlier, later, hused, hdeclared, hf⟩
  · rintro ⟨earlier, later, hused, hdeclared, hf⟩
    exact ⟨hf, earlier, later, hused, hdeclared⟩

/-- A script is not closed exactly if something speaks against it. -/
theorem finish_eq_error_iff (hr : r.Built) (hd : d.Ready r lines) {e : CompileError} :
    d.finish r source = .error e ↔
      ∃ kind span, d.EndFault r kind span ∧ e = .inStatement source span kind := by
  constructor
  · intro he
    cases hend : d.openEnd? with
    | none =>
      obtain ⟨hblocks, hdeclared⟩ := openEnd?_eq_none_iff.mp hend
      by_cases hown : r.HasOwnExit
      · rw [finish_of_hasOwnExit hr hown hend] at he
        cases he
        exact ⟨_, _, .ownExit hblocks hdeclared hown, rfl⟩
      · rcases exists_finish_or_tooLong hr hown hd hend with
          ⟨p, hp⟩ | ⟨l, last, place, hemit, -, -, hlong⟩
        · rw [hp] at he
          cases he
        · rw [finish_of_tooLong hend hemit hlong] at he
          cases he
          exact ⟨_, _, .tooLong hblocks hdeclared hemit hlong, rfl⟩
    | some fault =>
      rw [finish, hend] at he
      cases he
      rw [openEnd?] at hend
      split at hend
      · rename_i hblocks
        cases hend
        exact ⟨_, _, .unterminated hblocks, rfl⟩
      · rename_i hblocks
        obtain ⟨f, hf, heq⟩ := Option.map_eq_some_iff.mp hend
        cases heq
        obtain ⟨earlier, later, hused, hdeclared, hmissing⟩ := undeclared?_eq_some_iff.mp hf
        exact ⟨_, _, .undeclared hblocks hused hdeclared hmissing, rfl⟩
  · rintro ⟨kind, span, hfault, rfl⟩
    cases hfault with
    | @unterminated block outer opened =>
      have hend : d.openEnd? = some (.unterminatedBlock, block.span) := by rw [openEnd?, opened]
      rw [finish, hend]
    | @undeclared earlier later f closed used declared missing =>
      have hfind := undeclared?_eq_some_iff.mpr ⟨earlier, later, used, declared, missing⟩
      have hend : d.openEnd? = some (.labelNotDeclared f.name, f.span) := by
        rw [openEnd?, closed, hfind]
        rfl
      rw [finish, hend]
    | ownExit closed declared own =>
      exact finish_of_hasOwnExit hr own (openEnd?_eq_none_iff.mpr ⟨closed, declared⟩)
    | tooLong closed declared ended long =>
      exact finish_of_tooLong (openEnd?_eq_none_iff.mpr ⟨closed, declared⟩) ended long

end Draft

/-- A script whose statements compile is rejected at its end only if a block is open, if a label
that it uses is never declared, if the host has a function `exit` without parameters, which ties
with the instruction that closes all scripts, or if its code has 2^32 bytes or more, with a call
that cannot be read back.  So the empty script is accepted, for any hook of the registry, exactly
where the host has no such function. -/
theorem closing_rejects_iff {r : Registry} (hr : r.Built) (own : r.OwnForms)
    {hook : Option HookSignature} (accepted : ∀ signature ∈ hook, signature ∈ r.hooks)
    {source : String} {statements : List (Except SyntaxError Statement)}
    (hread : Statement.readAll r.config.maxArguments (tokenize source) = statements) :
    (∀ d, HalfwayDraft r hook source statements d → ∀ e, compile r hook source = .error e ↔
      ∃ kind span, d.EndFault r kind span ∧ e = .inStatement source span kind) ∧
    (statements = [] → ((∃ p, compile r hook source = .ok p) ↔ ¬ r.HasOwnExit)) := by
  subst hread
  have closing : ∀ d, HalfwayDraft r hook source
      (Statement.readAll r.config.maxArguments (tokenize source)) d →
      compile r hook source = d.finish r source ∧ ∃ lines, d.Ready r lines := by
    rintro d ⟨-, first, hfirst, hd⟩
    refine ⟨?_, ?_⟩
    · rw [compile, compileWith, hfirst]
      simp only [hd]
      rfl
    · obtain ⟨⟨more, hready⟩, -⟩ :=
        Draft.compileAll_ready hr own (Draft.start_ready hr.sound hfirst).1 hd
      exact ⟨_, hready⟩
  refine ⟨fun d hd e => ?_, fun hnil => ?_⟩
  · obtain ⟨heq, lines, hready⟩ := closing d hd
    rw [heq]
    exact Draft.finish_eq_error_iff hr hready
  · obtain ⟨first, hfirst⟩ := Draft.exists_start hr accepted
    obtain ⟨heq, -⟩ := closing first ⟨List.prefix_refl _, first, hfirst, hnil ▸ rfl⟩
    obtain ⟨hready, hblocks⟩ := Draft.start_ready hr.sound hfirst
    have hend : first.openEnd? = none := Draft.openEnd?_eq_none_iff.mpr
      ⟨hblocks, by simp [Draft.forward_of_start hfirst]⟩
    rw [heq]
    constructor
    · rintro ⟨p, hp⟩ hown
      rw [Draft.finish_of_hasOwnExit hr hown hend] at hp
      cases hp
    · exact fun hown => Draft.exists_finish_of_empty hr hown hready hend

/-- A hook whose scripts compute a chance from a distance. -/
def reactionHook : HookSignature :=
  ((HookSignature.named "reaction").writable "chance" .int).readOnly "distance" .int
    |>.returning 1

theorem closing_rejects_iff_reactionHook : ∃ r, Registry.Built r ∧ r.OwnForms ∧
    reactionHook ∈ r.hooks ∧ Statement.readAll r.config.maxArguments (tokenize "") = [] ∧
    ¬ r.HasOwnExit ∧ ∃ p, compile r (some reactionHook) "" = .ok p := by
  obtain ⟨r₀, hr₀, h⟩ := Registry.exists_standard {} (fun r₀ =>
    (Registration.Request.hook reactionHook).passes r₀ fun r =>
      r.operations.toList.all (fun op => !op.2.form.isCustom) &&
        (decide (reactionHook ∈ r.hooks) &&
          ((Statement.readAll r.config.maxArguments (tokenize "")).isEmpty &&
            (r.overloadsOf Builtin.exit.name).all fun o =>
              !o.params.isEmpty || decide (o.target = .builtin Builtin.exit.base))))
    (by decide +kernel)
  obtain ⟨r, hr, h⟩ := Registration.Request.exists_of_passes h
  simp only [Bool.and_eq_true, decide_eq_true_eq] at h
  obtain ⟨hown, hhook, hempty, hexit⟩ := h
  have hbuilt := (Registry.Built.of_standard hr₀).of_request (.hook reactionHook) hr
  have own := Registry.ownForms_of_all hown
  have hnil := List.isEmpty_iff.mp hempty
  have hnot := Registry.not_hasOwnExit_of_all hexit
  refine ⟨r, hbuilt, own, hhook, hnil, hnot, ?_⟩
  exact ((closing_rejects_iff hbuilt own (by simpa using hhook) hnil).2 rfl).mpr hnot

/-- A request for a host function `exit` without parameters. -/
def ownExitRequest : Registration.Request :=
  .function "exit" [] "" (.finish .proceed)

/-- A host may add a function `exit`, and then the empty script is rejected. -/
theorem conflictingOverloads_of_ownExitRequest : ∃ r₀ r e, Registry.standard? {} = .ok r₀ ∧
    ownExitRequest.perform r₀ = .ok () r ∧ r.Built ∧ r.OwnForms ∧
    Statement.readAll r.config.maxArguments (tokenize "") = [] ∧
    compile r none "" = .error e ∧ e.kind = .conflictingOverloads "exit" "" := by
  obtain ⟨r₀, hr₀, h⟩ := Registry.exists_standard {} (fun r₀ => ownExitRequest.passes r₀ fun r =>
    r.operations.toList.all (fun op => !op.2.form.isCustom) &&
      ((Statement.readAll r.config.maxArguments (tokenize "")).isEmpty &&
        decide (rejection? (compile r none "") = some (.conflictingOverloads "exit" ""))))
    (by decide +kernel)
  obtain ⟨r, hr, h⟩ := ownExitRequest.exists_of_passes h
  simp only [Bool.and_eq_true, decide_eq_true_eq] at h
  obtain ⟨hown, hempty, hrejected⟩ := h
  obtain ⟨e, he, hkind⟩ := exists_rejection hrejected
  exact ⟨r₀, r, e, hr₀, hr, (Registry.Built.of_standard hr₀).of_request ownExitRequest hr,
    Registry.ownForms_of_all hown, List.isEmpty_iff.mp hempty, he, hkind⟩

end HookScript
