/-
Whole scripts as the machine carries them out.

The induction is on the tree of the script.  Of a chain, what follows the first branch is entered in
two ways (`Others.simulated`): from the end of the branch before it, which leads to the end of the
chain, and from the test of that branch if its condition does not hold.

* `Body.simulated` — compiled, the statements of a script do what the script means.
-/
import HookScript.Proofs.Compile.Soundness
import HookScript.Proofs.Control.Statements

namespace HookScript

namespace Draft

variable {r : Registry} {source : String} {d d' : Draft}

theorem compileAll_cons_eq_ok {s : Statement} {rest : List Statement}
    (h : d.compileAll r source ((s :: rest).map .ok) = .ok d') :
    ∃ d₁, Drafting.statement r s d = .ok () d₁ ∧
      d₁.compileAll r source (rest.map .ok) = .ok d' := by
  obtain ⟨_, d₁, heq, hs, h⟩ := exists_of_compileAll_cons h
  cases heq
  exact ⟨d₁, hs, h⟩

theorem compileAll_append_eq_ok {done rest : List Statement}
    (h : d.compileAll r source ((done ++ rest).map .ok) = .ok d') :
    ∃ d₁, d.compileAll r source (done.map .ok) = .ok d₁ ∧
      d₁.compileAll r source (rest.map .ok) = .ok d' := by
  rw [List.map_append, compileAll_append] at h
  exact exists_of_bind_eq_ok h

end Draft

section

variable {r : Registry} {lines : List Line} {d d' : Draft}

/-- Statements in a row. -/
theorem Simulated.append {more more' : List Line} {d₁ : Draft} {eval eval' : World → Option Ending}
    (h : Simulated r lines more d d₁ eval)
    (h' : Simulated r (lines ++ more) more' d₁ d' eval') :
    Simulated r lines (more ++ more') d d'
      (fun world => (eval world).bind fun ending => ending.andThen eval') := by
  refine ⟨?_, h.grows.trans h'.grows, h'.blocks.trans h.blocks, h'.unlabelled, fun hne => ?_,
    fun hw world => ?_⟩
  · rw [← List.append_assoc]
    exact h'.ready
  · exact (h'.scope (h.blocks ▸ hne)).trans (h.scope hne)
  · rw [← List.append_assoc] at hw
    have hw₁ := hw.of_grows h'.grows (List.prefix_append (lines ++ more) more')
    obtain ⟨ending, heval, hruns⟩ := h.runs hw₁ world
    rw [heval, ← List.append_assoc, List.length_append]
    -- only if the first statements go on, the next ones are carried out
    cases ending with
    | next world' =>
      obtain ⟨ending', heval', hruns'⟩ := h'.runs hw world'
      exact ⟨ending', heval', hruns.trans hruns'⟩
    | ended result world' =>
      exact ⟨_, rfl, hruns.mono (Nat.le_add_right _ _)⟩

theorem Simulated.nil (h : d.Ready r lines) (hu : d.Unlabelled) :
    Simulated r lines [] d d fun world => some (.next world) := by
  refine ⟨by rwa [List.append_nil], .refl, rfl, hu, fun _ => rfl, fun hw world => ⟨_, rfl, 0,
    Nat.le_refl 0, ?_⟩⟩
  rw [List.append_nil]
  exact .none _

/-! ### Keywords of blocks -/

/-- What an `if` makes of a draft. -/
theorem Statement.opens (hr : r.Built) (h : d.Ready r lines) {s : Statement} (hs : s.label = none)
    (hform : r.formOf s = .ifBlock) (hok : Drafting.statement r s d = .ok () d') :
    ∃ elseLabel endLabel l, d.Tests r s.arguments elseLabel lines l d' ∧ d'.Ready r (lines ++ [l]) ∧
      d.Grows d' ∧ d'.scope = d.scope ∧
      d'.blocks = ⟨.conditional, elseLabel, endLabel, s.span⟩ :: d.blocks := by
  rw [Drafting.statement_of_unlabelled hs, Drafting.performance_of_ifBlock hform] at hok
  obtain ⟨elseLabel, endLabel, l, htest, hready, hg, hret, hblocks⟩ :=
    (Drafting.ifBlock_ensures hr (Drafting.ready_withSpan h s.span) s).of_ok hok
  exact ⟨elseLabel, endLabel, l, Drafting.tests_congr htest rfl, hready, hg.of_span,
    hret.scope_eq, hblocks⟩

/-- What an `else` makes of a draft with an open block. -/
theorem Statement.continues (hr : r.Built) (h : d.Ready r lines) {s : Statement}
    (hs : s.label = none) (hform : r.formOf s = .elseBranch) {block : Block} {outer : List Block}
    (hblocks : d.blocks = block :: outer) (hok : Drafting.statement r s d = .ok () d') :
    ∃ jump, r.Writes d'.natives Builtin.goto.name [.label block.endLabel] jump ∧
      d'.buffer.position? block.elseLabel = some (codeSize (lines ++ [jump])) ∧
      d.Grows d' ∧ d'.scope = d.scope ∧
      (s.arguments = [] ∧ d'.Ready r (lines ++ [jump]) ∧
          d'.blocks = { block with branch := .last } :: outer ∨
        s.arguments ≠ [] ∧ ∃ elseLabel l,
          d.Tests r s.arguments elseLabel (lines ++ [jump]) l d' ∧
          d'.Ready r (lines ++ [jump] ++ [l]) ∧ d'.blocks = { block with elseLabel } :: outer) := by
  rw [Drafting.statement_of_unlabelled hs, Drafting.performance_of_elseBranch hform] at hok
  obtain ⟨block', outer', jump, hblocks', -, hwrites, hpos, hg, hret, hbegin⟩ :=
    (Drafting.elseBranch_ensures hr (Drafting.ready_withSpan h s.span) s).of_ok hok
  have hsame : block' :: outer' = block :: outer := hblocks'.symm.trans hblocks
  obtain ⟨rfl, rfl⟩ := List.cons.inj hsame
  refine ⟨jump, hwrites, hpos, hg.of_span, hret.scope_eq, hbegin.imp id ?_⟩
  rintro ⟨hne, elseLabel, l, htest, hready, hblocks⟩
  exact ⟨hne, elseLabel, l, Drafting.tests_congr htest rfl, hready, hblocks⟩

/-- What an `end` makes of a draft with an open block. -/
theorem Statement.closes (h : d.Ready r lines) {s : Statement} (hs : s.label = none)
    (hform : r.formOf s = .endBlock) {block : Block} {outer : List Block}
    (hblocks : d.blocks = block :: outer) (hok : Drafting.statement r s d = .ok () d') :
    d'.Ready r lines ∧ d.Grows d' ∧ d'.scope = d.scope ∧ d'.blocks = outer ∧
      d'.buffer.position? block.endLabel = some (codeSize lines) ∧
      (block.branch = .conditional →
        d'.buffer.position? block.elseLabel = some (codeSize lines)) := by
  rw [Drafting.statement_of_unlabelled hs, Drafting.performance_of_endBlock hform] at hok
  obtain ⟨block', outer', hblocks', -, hready, hg, hret, houter, hend, helse⟩ :=
    (Drafting.endBlock_ensures (Drafting.ready_withSpan h s.span) s).of_ok hok
  have hsame : block' :: outer' = block :: outer := hblocks'.symm.trans hblocks
  obtain ⟨rfl, rfl⟩ := List.cons.inj hsame
  exact ⟨hready, hg.of_span, hret.scope_eq, houter, hend, helse⟩

/-! ### Chains -/

/-- What follows a branch of an open block has been compiled, up to the end of the block: `d` with
the lines `lines` has become `d'` with `more` lines. -/
structure Continued (r : Registry) (lines more : List Line) (block : Block) (outer : List Block)
    (d d' : Draft) (eval : World → Option Ending) : Prop where
  ready : d'.Ready r (lines ++ more)
  grows : d.Grows d'
  blocks : d'.blocks = outer
  scope : d'.scope = d.scope
  /-- the end of the branch before leads to the end of the block -/
  passed {p : Program} {target : LabelId → Nat} {all : List Line} :
    d'.Within p target all (lines ++ more) → ∀ world : World,
      world.Runs p (codeSize lines) (codeSize (lines ++ more)) more.length (.next world)
  /-- the condition of the branch before, if it does not hold, leads to what comes next -/
  entered {p : Program} {target : LabelId → Nat} {all : List Line} :
    d'.Within p target all (lines ++ more) → ∀ world, ∃ ending, eval world = some ending ∧
      world.Runs p (target block.elseLabel) (codeSize (lines ++ more)) more.length ending
  closed : d'.buffer.position? block.endLabel = some (codeSize (lines ++ more))

/-- The end of a chain. -/
theorem Continued.close (h : d.Ready r lines) {s : Statement} (hs : s.label = none)
    (hform : r.formOf s = .endBlock) {block : Block} {outer : List Block}
    (hblocks : d.blocks = block :: outer) (hbranch : block.branch = .conditional)
    (hok : Drafting.statement r s d = .ok () d') :
    Continued r lines [] block outer d d' fun world => some (.next world) := by
  obtain ⟨hready, hg, hscope, houter, hend, helse⟩ := Statement.closes h hs hform hblocks hok
  rw [← List.append_nil lines] at hready hend
  refine ⟨hready, hg, houter, hscope, fun hw world => ⟨0, Nat.le_refl 0, ?_⟩, fun hw world =>
    ⟨_, rfl, 0, Nat.le_refl 0, ?_⟩, hend⟩
  · rw [List.append_nil]
    exact .none _
  · rw [hw.positions _ _ (helse hbranch), List.append_nil]
    exact .none _

/-- The jump at the end of a branch leads to the end of the chain. -/
theorem passed_of_goto (hr : r.Built) {p : Program} {target : LabelId → Nat} {all more : List Line}
    {natives : Array NativeBinding} {block : Block} {jump : Line}
    (hjump : r.Writes natives Builtin.goto.name [.label block.endLabel] jump)
    (hw : d'.Within p target all (lines ++ ([jump] ++ more)))
    (hclosed : d'.buffer.position? block.endLabel = some (codeSize (lines ++ ([jump] ++ more))))
    (world : World) :
    world.Runs p (codeSize lines) (codeSize (lines ++ ([jump] ++ more))) ([jump] ++ more).length
      (.next world) := by
  have hprefix : lines ++ [jump] <+: all := by
    refine List.IsPrefix.trans ?_ hw.lines
    rw [← List.append_assoc]
    exact List.prefix_append _ _
  have hsteps := hjump.goto_steps hr.sound hw.carries hprefix world
  rw [hw.positions _ _ hclosed] at hsteps
  exact ⟨1, by simp, hsteps⟩

/-- A branch without a condition, behind the jump. -/
theorem Continued.last (hr : r.Built) {closing : Statement}
    {d₁ d₂ : Draft} {jump : Line} {more : List Line} {block : Block} {outer : List Block}
    {eval : World → Option Ending}
    (hjump : r.Writes d₁.natives Builtin.goto.name [.label block.endLabel] jump)
    (hentry : d₁.buffer.position? block.elseLabel = some (codeSize (lines ++ [jump])))
    (hg : d.Grows d₁) (hscope : d₁.scope = d.scope)
    (hblocks : d₁.blocks = { block with branch := .last } :: outer)
    (hsim : Simulated r (lines ++ [jump]) more d₁ d₂ eval)
    (hs : closing.label = none) (hform : r.formOf closing = .endBlock)
    (hok : Drafting.statement r closing d₂ = .ok () d') :
    Continued r lines ([jump] ++ more) block outer d d' eval := by
  obtain ⟨hready, hg', hscope', houter, hend, -⟩ :=
    Statement.closes hsim.ready hs hform (hsim.blocks.trans hblocks) hok
  rw [List.append_assoc] at hready hend
  refine ⟨hready, (hg.trans hsim.grows).trans hg', houter,
    hscope'.trans ((hsim.scope (by simp [hblocks])).trans hscope),
    fun hw world => passed_of_goto hr hjump hw hend world, fun hw world => ?_, hend⟩
  rw [← List.append_assoc] at hw ⊢
  -- if the condition did not hold, the run is behind the jump already
  have hw₂ := hw.of_grows hg' (List.prefix_refl _)
  obtain ⟨ending, heval, hruns⟩ := hsim.runs hw₂ world
  rw [hw₂.positions _ _ (hsim.grows.positions _ _ hentry)]
  exact ⟨ending, heval, hruns.mono (by simp)⟩

/-- The test of a branch, the branch, and what follows it: the branch is carried out if its
condition holds, and what follows it if not. -/
theorem runs_of_tests (hr : r.Built) {p : Program} {target : LabelId → Nat}
    {all more more' : List Line} {tokens : List Token} {d₁ d₂ : Draft} {test : Line} {block : Block}
    {outer : List Block} {eval eval' : World → Option Ending}
    (htest : d.Tests r tokens block.elseLabel lines test d₁)
    (hsim : Simulated r (lines ++ [test]) more d₁ d₂ eval)
    (hcont : Continued r (lines ++ [test] ++ more) more' block outer d₂ d' eval')
    (hw : d'.Within p target all (lines ++ [test] ++ more ++ more')) (world : World) :
    ∃ ending, (do
        if ← d.scope.condition r tokens world then eval world else eval' world) = some ending ∧
      world.Runs p (codeSize lines) (codeSize (lines ++ [test] ++ more ++ more'))
        (1 + more.length + more'.length) ending := by
  have hw₂ := hw.of_grows hcont.grows (List.prefix_append (lines ++ [test] ++ more) more')
  have hw₁ := hw₂.of_grows hsim.grows (List.prefix_append (lines ++ [test]) more)
  obtain ⟨holds, hcondition, hsteps⟩ := htest.steps hr.sound hw₁ world
  rw [hcondition]
  cases holds with
  | true =>
    obtain ⟨ending, heval, hruns⟩ := hsim.runs hw₂ world
    refine ⟨ending, heval, ?_⟩
    rw [Nat.add_assoc]
    refine World.Runs.after hsteps ?_
    -- a branch that goes on is followed by the jump to the end of the chain
    cases ending with
    | next world' => exact hruns.trans (hcont.passed hw world')
    | ended result world' => exact hruns.mono (Nat.le_add_right _ _)
  | false =>
    obtain ⟨ending, heval, hruns⟩ := hcont.entered hw world
    refine ⟨ending, heval, ?_⟩
    exact (World.Runs.after hsteps hruns).mono (by omega)

/-- A branch with a condition, behind the jump, and what follows it. -/
theorem Continued.next (hr : r.Built) {tokens : List Token}
    {d₁ d₂ : Draft} {jump test : Line} {more more' : List Line} {block : Block}
    {elseLabel : LabelId} {outer : List Block} {eval eval' : World → Option Ending}
    (hjump : r.Writes d₁.natives Builtin.goto.name [.label block.endLabel] jump)
    (hentry : d₁.buffer.position? block.elseLabel = some (codeSize (lines ++ [jump])))
    (hg : d.Grows d₁) (hscope : d₁.scope = d.scope)
    (hblocks : d₁.blocks = { block with elseLabel } :: outer)
    (htest : d.Tests r tokens elseLabel (lines ++ [jump]) test d₁)
    (hsim : Simulated r (lines ++ [jump] ++ [test]) more d₁ d₂ eval)
    (hcont : Continued r (lines ++ [jump] ++ [test] ++ more) more'
      { block with elseLabel } outer d₂ d' eval') :
    Continued r lines ([jump] ++ ([test] ++ more ++ more')) block outer d d'
      (fun world => do if ← d.scope.condition r tokens world then eval world else eval' world) := by
  have hlines : lines ++ ([jump] ++ ([test] ++ more ++ more'))
      = lines ++ [jump] ++ [test] ++ more ++ more' := by simp
  have hend := hcont.closed
  rw [← hlines] at hend
  refine ⟨hlines ▸ hcont.ready, (hg.trans hsim.grows).trans hcont.grows, hcont.blocks,
    hcont.scope.trans ((hsim.scope (by simp [hblocks])).trans hscope),
    fun hw world => passed_of_goto hr hjump hw hend world, fun hw world => ?_, hend⟩
  have hplace := hw.positions _ _
    (hcont.grows.positions _ _ (hsim.grows.positions _ _ hentry))
  rw [hlines] at hw ⊢
  obtain ⟨ending, heval, hruns⟩ := runs_of_tests hr htest hsim hcont hw world
  rw [hplace]
  exact ⟨ending, heval, hruns.mono (by simp; omega)⟩

/-- A chain: the test of its first branch, the branch, and what follows it. -/
theorem Simulated.chain (hr : r.Built) (hu : d.Unlabelled)
    {tokens : List Token} {d₁ d₂ : Draft} {test : Line} {more more' : List Line} {block : Block}
    {eval eval' : World → Option Ending}
    (htest : d.Tests r tokens block.elseLabel lines test d₁) (hg : d.Grows d₁)
    (hscope : d₁.scope = d.scope) (hblocks : d₁.blocks = block :: d.blocks)
    (hsim : Simulated r (lines ++ [test]) more d₁ d₂ eval)
    (hcont : Continued r (lines ++ [test] ++ more) more' block d.blocks d₂ d' eval') :
    Simulated r lines ([test] ++ more ++ more') d d'
        (fun world => do if ← d.scope.condition r tokens world then eval world else eval' world) ∧
      d'.scope = d.scope := by
  have hlines : lines ++ ([test] ++ more ++ more') = lines ++ [test] ++ more ++ more' := by simp
  have hscope' : d'.scope = d.scope :=
    hcont.scope.trans ((hsim.scope (by simp [hblocks])).trans hscope)
  refine ⟨⟨hlines ▸ hcont.ready, (hg.trans hsim.grows).trans hcont.grows, hcont.blocks,
    hu.of_scope hscope', fun _ => hscope', fun hw world => ?_⟩, hscope'⟩
  rw [hlines] at hw ⊢
  obtain ⟨ending, heval, hruns⟩ := runs_of_tests hr htest hsim hcont hw world
  exact ⟨ending, heval, hruns.mono (by simp; omega)⟩

/-! ### The induction -/

variable {source : String}

/-- If no name waits for its declaration at the end, none does after the first statement. -/
theorem forward_of_statement (hr : r.Built) (own : r.OwnForms) (h : d.Ready r lines) {s : Statement}
    {d₁ : Draft} (hstep : Drafting.statement r s d = .ok () d₁)
    {rest : List (Except SyntaxError Statement)} (hok : d₁.compileAll r source rest = .ok d')
    (hf : d'.forward = #[]) : d₁.forward = #[] := by
  obtain ⟨more, h₁, -⟩ := (Drafting.statement_ensures hr (own.reads s) h).of_ok hstep
  exact (Draft.compileAll_ready hr own h₁ hok).2.forward_eq_empty hf

/-- If no name waits for its declaration at the end, none does in between. -/
theorem forward_of_compileAll (hr : r.Built) (own : r.OwnForms) (h : d.Ready r lines) {d₁ : Draft}
    {done rest : List (Except SyntaxError Statement)} (hdone : d.compileAll r source done = .ok d₁)
    (hok : d₁.compileAll r source rest = .ok d') (hf : d'.forward = #[]) : d₁.forward = #[] := by
  obtain ⟨⟨more, h₁⟩, -⟩ := Draft.compileAll_ready hr own h hdone
  exact (Draft.compileAll_ready hr own h₁ hok).2.forward_eq_empty hf

mutual

/-- Compiled, the statements of a script or of a branch do what they mean. -/
theorem Body.simulated (hr : r.Built) (own : r.OwnForms) :
    ∀ (body : Body) {lines : List Line} {d d' : Draft}, body.ReadBy r →
      (∀ s ∈ body.statements, s.label = none) → d.Ready r lines → d.Unlabelled →
      d.compileAll r source (body.statements.map .ok) = .ok d' → d'.forward = #[] →
      ∃ more, Simulated r lines more d d' (body.eval r d.scope)
  | .done, lines, d, d', _, _, h, hu, hok, _ => by
    cases hok
    exact ⟨[], .nil h hu⟩
  | .plain s rest, lines, d, d', hread, hlabels, h, hu, hok, hf => by
    obtain ⟨hform, hrest⟩ := hread
    rw [Body.statements] at hlabels hok
    obtain ⟨hs, hlabels⟩ := List.forall_mem_cons.mp hlabels
    obtain ⟨d₁, hstep, hok⟩ := Draft.compileAll_cons_eq_ok hok
    have hf₁ := forward_of_statement hr own h hstep hok hf
    obtain ⟨more, eval, hsim, heval⟩ := s.simulated hr h hu hs hform hstep hf₁
    obtain ⟨more', hsim'⟩ :=
      rest.simulated hr own hrest hlabels hsim.ready hsim.unlabelled hok hf
    have heq : (Body.plain s rest).eval r d.scope
        = fun world => (eval world).bind fun ending => ending.andThen (rest.eval r d₁.scope) := by
      funext world
      rw [Body.eval, heval]
      cases eval world <;> rfl
    exact ⟨more ++ more', heq ▸ hsim.append hsim'⟩
  | .chain opening branch others rest, lines, d, d', hread, hlabels, h, hu, hok, hf => by
    obtain ⟨hform, hbranch, hothers, hrest⟩ := hread
    rw [Body.statements] at hlabels hok
    simp only [List.forall_mem_cons, List.forall_mem_append] at hlabels
    obtain ⟨hs, hlabels₁, hlabels₂, hlabels₃⟩ := hlabels
    obtain ⟨d₁, hstep, hok⟩ := Draft.compileAll_cons_eq_ok hok
    have hf₁ := forward_of_statement hr own h hstep hok hf
    obtain ⟨elseLabel, endLabel, test, htest, h₁, hg₁, hscope₁, hblocks₁⟩ :=
      opening.opens hr h hs hform hstep
    have hu₁ := hu.of_scope hscope₁
    -- the draft before the branch, before what follows it, and behind the chain
    obtain ⟨d₂, hok₁, hok⟩ := Draft.compileAll_append_eq_ok hok
    have hf₂ := forward_of_compileAll hr own h₁ hok₁ hok hf
    obtain ⟨more₁, hsim₁⟩ := branch.simulated hr own hbranch hlabels₁ h₁ hu₁ hok₁ hf₂
    obtain ⟨d₃, hok₂, hok₃⟩ := Draft.compileAll_append_eq_ok hok
    have hf₃ := forward_of_compileAll hr own hsim₁.ready hok₂ hok₃ hf
    obtain ⟨more₂, hcont⟩ := others.simulated hr own hothers hlabels₂ hsim₁.ready
      hsim₁.unlabelled (hsim₁.blocks.trans hblocks₁) rfl hok₂ hf₃
    -- names of the chain are those in front of it: blocks declare no variables
    rw [hscope₁] at hsim₁
    rw [hsim₁.scope (by simp [hblocks₁]), hscope₁] at hcont
    obtain ⟨hchain, hscope₃⟩ := Simulated.chain hr hu htest hg₁ hscope₁ hblocks₁ hsim₁ hcont
    obtain ⟨more₃, hsim₃⟩ :=
      rest.simulated hr own hrest hlabels₃ hchain.ready hchain.unlabelled hok₃ hf
    rw [hscope₃] at hsim₃
    have heq : (Body.chain opening branch others rest).eval r d.scope = fun world => (do
        if ← d.scope.condition r opening.arguments world then branch.eval r d.scope world
        else others.eval r d.scope world).bind fun ending =>
          ending.andThen (rest.eval r d.scope) := by
      funext world
      rw [Body.eval]
      cases d.scope.condition r opening.arguments world with
      | none => rfl
      | some holds => cases holds <;> rfl
    exact ⟨[test] ++ more₁ ++ more₂ ++ more₃, heq ▸ hchain.append hsim₃⟩

/-- Compiled, what follows the first branch of a chain does what it means. -/
theorem Others.simulated (hr : r.Built) (own : r.OwnForms) :
    ∀ (others : Others) {lines : List Line} {d d' : Draft} {block : Block} {outer : List Block},
      others.ReadBy r → (∀ s ∈ others.statements, s.label = none) → d.Ready r lines →
      d.Unlabelled → d.blocks = block :: outer → block.branch = .conditional →
      d.compileAll r source (others.statements.map .ok) = .ok d' → d'.forward = #[] →
      ∃ more, Continued r lines more block outer d d' (others.eval r d.scope)
  | .close closing, lines, d, d', block, outer, hread, hlabels, h, hu, hblocks, hbranch, hok,
      hf => by
    obtain ⟨d₁, hstep, hok⟩ := Draft.compileAll_cons_eq_ok hok
    cases hok
    have hs := hlabels closing (by simp [Others.statements])
    exact ⟨[], .close h hs hread hblocks hbranch hstep⟩
  | .last s branch closing, lines, d, d', block, outer, hread, hlabels, h, hu, hblocks, hbranch,
      hok, hf => by
    obtain ⟨hform, harg, hread, hform'⟩ := hread
    rw [Others.statements] at hlabels hok
    simp only [List.forall_mem_cons, List.forall_mem_append] at hlabels
    obtain ⟨hs, hlabels₁, hs', -⟩ := hlabels
    obtain ⟨d₁, hstep, hok⟩ := Draft.compileAll_cons_eq_ok hok
    have hf₁ := forward_of_statement hr own h hstep hok hf
    obtain ⟨jump, hjump, hentry, hg₁, hscope₁, hbegin⟩ :=
      s.continues hr h hs hform hblocks hstep
    rcases hbegin with ⟨-, h₁, hblocks₁⟩ | ⟨hne, -⟩
    · obtain ⟨d₂, hok₁, hok⟩ := Draft.compileAll_append_eq_ok hok
      have hf₂ := forward_of_compileAll hr own h₁ hok₁ hok hf
      obtain ⟨more, hsim⟩ :=
        branch.simulated hr own hread hlabels₁ h₁ (hu.of_scope hscope₁) hok₁ hf₂
      obtain ⟨d₃, hstep', hok⟩ := Draft.compileAll_cons_eq_ok hok
      cases hok
      rw [hscope₁] at hsim
      exact ⟨_, .last hr hjump hentry hg₁ hscope₁ hblocks₁ hsim hs' hform' hstep'⟩
    · exact absurd harg hne
  | .next s branch others, lines, d, d', block, outer, hread, hlabels, h, hu, hblocks, hbranch,
      hok, hf => by
    obtain ⟨hform, harg, hread, hothers⟩ := hread
    rw [Others.statements] at hlabels hok
    simp only [List.forall_mem_cons, List.forall_mem_append] at hlabels
    obtain ⟨hs, hlabels₁, hlabels₂⟩ := hlabels
    obtain ⟨d₁, hstep, hok⟩ := Draft.compileAll_cons_eq_ok hok
    have hf₁ := forward_of_statement hr own h hstep hok hf
    obtain ⟨jump, hjump, hentry, hg₁, hscope₁, hbegin⟩ :=
      s.continues hr h hs hform hblocks hstep
    rcases hbegin with ⟨hnil, -⟩ | ⟨-, elseLabel, test, htest, h₁, hblocks₁⟩
    · exact absurd hnil harg
    · obtain ⟨d₂, hok₁, hok₂⟩ := Draft.compileAll_append_eq_ok hok
      have hf₂ := forward_of_compileAll hr own h₁ hok₁ hok₂ hf
      obtain ⟨more, hsim⟩ :=
        branch.simulated hr own hread hlabels₁ h₁ (hu.of_scope hscope₁) hok₁ hf₂
      obtain ⟨more', hcont⟩ := others.simulated hr own hothers hlabels₂ hsim.ready
        hsim.unlabelled (hsim.blocks.trans hblocks₁) hbranch hok₂ hf
      rw [hscope₁] at hsim
      rw [hsim.scope (by simp [hblocks₁]), hscope₁] at hcont
      exact ⟨_, .next hr hjump hentry hg₁ hscope₁ hblocks₁ htest hsim hcont⟩

end

end

end HookScript
