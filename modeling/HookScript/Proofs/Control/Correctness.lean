/-
Structured control flow is compiled correctly.

A script without labels of its own is a tree of nested blocks (`exists_body`), and the machine does
with its program what the tree means.

* `Draft.Closes.carries` — the lines of a script are the code of its program;
* `Program.Carries.size_sweep` — a listing has one entry for each line;
* `World.Runs.run_eq` — a run with a budget is the stretch of code that it carries out;
* `compile_correct` — a run of the program is an evaluation of the tree.
-/
import HookScript.Program.Listing
import HookScript.Proofs.Control.Reading

namespace HookScript

/-! ### Programs of scripts -/

namespace Draft

variable {r : Registry} {source : String} {lines : List Line} {d d' : Draft}

/-- All statements of a script that is compiled have been read. -/
theorem exists_statements_of_compileAll {read : List (Except SyntaxError Statement)}
    (h : d.compileAll r source read = .ok d') :
    ∃ statements : List Statement, read = statements.map .ok := by
  induction read generalizing d with
  | nil => exact ⟨[], rfl⟩
  | cons next read ih =>
    obtain ⟨s, d₁, rfl, -, h⟩ := exists_of_compileAll_cons h
    obtain ⟨statements, rfl⟩ := ih h
    exact ⟨s :: statements, rfl⟩

/-- Without labels of statements, a name that waits for its declaration goes on waiting. -/
theorem waiting_of_compileAll (hr : r.Built) (own : r.OwnForms) {statements : List Statement}
    (h : d.Ready r lines) (hs : ∀ s ∈ statements, s.label = none)
    (hok : d.compileAll r source (statements.map .ok) = .ok d') (hw : d.Waiting) : d'.Waiting := by
  induction statements generalizing lines d with
  | nil =>
    cases hok
    exact hw
  | cons s rest ih =>
    obtain ⟨hlabel, hs⟩ := List.forall_mem_cons.mp hs
    obtain ⟨d₁, hstep, hok⟩ := compileAll_cons_eq_ok hok
    obtain ⟨more, h₁, -, hw₁, -⟩ := (Drafting.statement_ensures hr (own.reads s) h).of_ok hstep
    exact ih h₁ hs hok (hw₁ hlabel hw)

/-- At the start the names of a script are those of its hook's arguments. -/
theorem start_unlabelled {arguments : List HookArgument} (h : start r arguments = .ok d) :
    d.Unlabelled ∧ d.Waiting := by
  rw [start] at h
  split at h
  · cases h
  · rename_i locals hb
    cases h
    obtain ⟨-, hfound⟩ := bindArguments_eq_ok hb (by simp [SymbolTable.find?, SymbolTable.empty])
    refine ⟨fun name id hf => ?_, fun f hf => by simp at hf⟩
    obtain ⟨_, _, _, heq, -⟩ := hfound name _ hf
    cases heq

namespace Closes

variable {l : Line} {closed : Draft} {p : Program}

/-- If no name can be declared any more, none waits at the end. -/
theorem forward_eq_empty (h : d.Closes r lines l closed p) (hw : d.Waiting) :
    d.forward = #[] := by
  refine Array.eq_empty_iff_forall_not_mem.mpr fun f hf => ?_
  have hd := h.declared f hf
  rw [CodeBuffer.isDefined, hw f hf] at hd
  cases hd

theorem carries (h : d.Closes r lines l closed p) :
    p.Carries closed.buffer.target (lines ++ [l]) := by
  have hrange : ∀ l' ∈ lines ++ [l], ∀ label, .label label ∈ l'.payloads →
      closed.buffer.target label < UInt32.size := by
    intro l' hl' label hm
    have hpiece : .label label ∈ piecesOf (lines ++ [l]) := by
      refine List.mem_flatMap.mpr ⟨l', hl', List.mem_cons_of_mem _ ?_⟩
      exact List.mem_map.mpr ⟨_, hm, rfl⟩
    obtain ⟨place, hp⟩ := CodeBuffer.isDefined_eq_true_iff.mp (h.targets label hpiece)
    rw [CodeBuffer.target, hp]
    exact (h.sound.places label place hp).1
  -- the program has passed verification, so its code is a tiling, and it can only be this one
  obtain ⟨-, tiles, ht, -⟩ := Program.verify_eq_ok_iff.mp h.verified
  have hcode : p.code.toList = [] ++ assemble closed.buffer.target (piecesOf (lines ++ [l])) := by
    rw [h.code]
    rfl
  obtain rfl :=
    Line.eq_tiles_of_tiling (fun l' hl' => (h.sound.written l' hl').fits) hrange hcode ht
  refine ⟨hcode, fun l' hl' => ?_, hrange, ht⟩
  rw [h.natives, h.registers]
  exact h.sound.written l' hl'

/-- The lines in front of the last one are those of the draft that has been closed. -/
theorem within (h : d.Closes r lines l closed p) :
    d.Within p closed.buffer.target (lines ++ [l]) lines := by
  refine ⟨h.carries, List.prefix_append _ _, h.natives ▸ h.grows.natives, fun label place hp => ?_⟩
  rw [CodeBuffer.target, h.grows.positions label place hp]
  rfl

end Closes

end Draft

/-! ### Numbers of instructions -/

/-- Sweeping over a tiling finds its instructions. -/
theorem Program.Tiling.sweepOnto_eq {p : Program} {place : Nat} {tiles : List (Nat × Instruction)}
    (h : p.Tiling place tiles) (found : Array (Nat × Instruction)) :
    p.sweepOnto found place = (found ++ tiles.toArray, none) := by
  induction h generalizing found with
  | stop =>
    rw [sweepOnto, if_neg (Nat.lt_irrefl _)]
    simp
  | @next place i rest fetched accepted tail ih =>
    rw [sweepOnto, if_pos (Instruction.lt_size_of_fetch fetched)]
    split
    · rename_i hf
      rw [fetched] at hf
      cases hf
    · rename_i hf
      rw [fetched] at hf
      cases hf
      rw [ih]
      simp

theorem Program.Tiling.sweep_eq {p : Program} {tiles : List (Nat × Instruction)}
    (h : p.Tiling 0 tiles) : p.sweep = (tiles.toArray, none) := by
  rw [sweep, h.sweepOnto_eq, Array.empty_append]

theorem Line.length_tiles (target : LabelId → Nat) (place : Nat) (lines : List Line) :
    (tiles target place lines).length = lines.length := by
  induction lines generalizing place with
  | nil => rfl
  | cons l lines ih => rw [tiles, List.length_cons, List.length_cons, ih]

/-- A program has one instruction for each of its lines. -/
theorem Program.Carries.size_sweep {p : Program} {target : LabelId → Nat} {all : List Line}
    (h : p.Carries target all) : p.sweep.1.size = all.length := by
  rw [h.tiling.sweep_eq, List.size_toArray, Line.length_tiles]

/-! ### The end of a script -/

theorem Operation.evaluate_exit {r : Registry} {op : Operation}
    (hsel : op.select r [] = .ok (Registry.builtinOverload .exit)) (world : World) :
    op.evaluate r [] world = some (.ended (.ok (world.worker.registers.get 0)) world) := by
  have hfind : Opcode.find? (UInt8.ofNat Builtin.exit.base) = some (Builtin.exit.opcode 0) := by
    decide
  simp [evaluate, hsel, Except.toOption, Registry.builtinOverload, hfind]
  rfl

/-- The final line ends the script with the value of register 0. -/
theorem Registry.Writes.exit_runs {r : Registry} (hr : r.Built) {p : Program}
    {target : LabelId → Nat} {lines : List Line} {l : Line} (hp : p.Carries target (lines ++ [l]))
    (h : r.Writes p.natives Builtin.exit.name [] l) (world : World) :
    world.Runs p (codeSize lines) (codeSize (lines ++ [l])) 1
      (.ended (.ok (world.worker.registers.get 0)) world) := by
  obtain ⟨op, o, hop, hsel, -, -⟩ := id h
  obtain rfl := Registry.select_exit hr hop hsel
  obtain ⟨ending, heval, hruns⟩ := h.runs hr.sound hp ⟨#[], by simp⟩ (List.prefix_refl _) (by simp)
    hop world
  rw [op.evaluate_exit hsel] at heval
  cases heval
  exact hruns

/-! ### Runs -/

/-- A run whose budget covers a stretch of code in which the script ends. -/
theorem World.Runs.run_eq {p : Program} {world after : World} {place stop count : Nat}
    {result : Except Fault Int32} (h : world.Runs p place stop count (.ended result after))
    (budget : Nat) {left : Nat} (hle : count ≤ left) :
    ∃ e, (world.machine place).runFor p budget left = ⟨e, after.worker, after.log⟩ ∧
      e.mapError RuntimeError.fault = result := by
  obtain ⟨n, hn, m, place', e, hsteps, hstep, he⟩ := h
  obtain ⟨more, rfl⟩ : ∃ more, left = n + (more + 1) := ⟨left - n - 1, by omega⟩
  refine ⟨e, ?_, he⟩
  rw [hsteps.runFor, Machine.runFor, hstep]
  rfl

/-- What a script is evaluated on: the worker of a run whose inputs have been stored. -/
def Program.world (p : Program) (worker : Worker) (inputs : List Int32) : World :=
  ⟨{ worker with registers := worker.registers.reset p.registers.toNat inputs }, #[]⟩

/-- The run leads to the ending: to the same result or fault, the same registers and host objects,
and the same events. -/
def Run.Agrees (run : Run) (ending : Ending) : Prop :=
  run.result.mapError RuntimeError.fault = ending.result ∧ run.worker = ending.world.worker ∧
    run.log = ending.world.log

/-- The script consists of the statements of the tree, each where its form belongs. -/
def Body.Reads (r : Registry) (source : String) (body : Body) : Prop :=
  body.ReadBy r ∧
    Statement.readAll r.config.maxArguments (tokenize source) = body.statements.map .ok

/-- The lines of a script, up to its end, as a whole run. -/
theorem run_of_simulated {r : Registry} (hr : r.Built) {p : Program} {first d closed : Draft}
    {lines : List Line} {l : Line} {eval : World → Option Ending}
    (hclosed : d.Closes r lines l closed p)
    (hsim : Simulated r [] lines first d eval)
    (worker : Worker) (inputs : List Int32) {budget : Nat} (hbudget : p.sweep.1.size ≤ budget) :
    ∃ ending, eval (p.world worker inputs) = some ending ∧
      (p.run budget worker inputs).Agrees ending := by
  obtain ⟨ending, heval, hruns⟩ := hsim.runs hclosed.within (p.world worker inputs)
  rw [hclosed.carries.size_sweep, List.length_append] at hbudget
  refine ⟨ending, heval, ?_⟩
  -- behind its last statement the script ends by the final instruction
  have hend : (p.world worker inputs).Runs p 0 (codeSize (lines ++ [l])) (lines.length + 1)
      (.ended ending.result ending.world) := by
    cases ending with
    | next world =>
      have hwrites := hclosed.writes
      rw [← hclosed.natives] at hwrites
      exact hruns.trans (hwrites.exit_runs hr hclosed.carries world)
    | ended result world => exact hruns.mono (Nat.le_succ _)
  obtain ⟨e, hrun, he⟩ := hend.run_eq budget hbudget
  have hrun : p.run budget worker inputs = ⟨e, ending.world.worker, ending.world.log⟩ := hrun
  rw [hrun]
  exact ⟨he, rfl, rfl⟩

/-- Every script without labels of its own that is compiled is a tree of nested blocks, and however
it is read as one: a run of its program with a budget of at least its number of instructions leads
to what the tree leads to when it is evaluated on the same worker and inputs. -/
theorem compile_correct {r : Registry} (hr : r.Built) (own : r.OwnForms)
    {hook : Option HookSignature} {source : String} {p : Program}
    (h : compile r hook source = .ok p) (small : p.code.size < UInt32.size)
    (unlabelled : ∀ s : Statement,
      .ok s ∈ Statement.readAll r.config.maxArguments (tokenize source) → s.label = none) :
    ∃ first, Draft.start r ((hook.map (·.arguments)).getD []) = .ok first ∧
      (∃ body : Body, body.Reads r source) ∧
      ∀ body : Body, body.Reads r source → ∀ worker inputs budget, p.sweep.1.size ≤ budget →
        ∃ ending, body.eval r first.scope (p.world worker inputs) = some ending ∧
          (p.run budget worker inputs).Agrees ending := by
  rw [← emittedSize_of_compile h] at small
  obtain ⟨first, d, hfirst, hd, hfinish, hlast⟩ := exists_drafts_of_compile h
  rw [emittedSize, hlast] at small
  obtain ⟨statements, hread⟩ := Draft.exists_statements_of_compileAll hd
  rw [hread] at unlabelled hd
  have hlabels : ∀ s ∈ statements, s.label = none := fun s hs =>
    unlabelled s (List.mem_map_of_mem hs)
  obtain ⟨hstart, hopen⟩ := Draft.start_ready hr.sound hfirst
  obtain ⟨hnames, hwaiting⟩ := Draft.start_unlabelled hfirst
  have hwaiting := Draft.waiting_of_compileAll hr own hstart hlabels hd hwaiting
  -- any lines that make up the draft are the code of the program
  have closes : ∀ {lines : List Line}, d.Ready r lines →
      ∃ l, d.Closes r lines l (d.lastFrom r []) p := fun hready =>
    (Draft.finish_of_ready hr source hready small).2 p hfinish
  obtain ⟨⟨lines, hready⟩, -⟩ := Draft.compileAll_ready hr own hstart hd
  obtain ⟨last, hclosed⟩ := closes hready
  have hforward := hclosed.forward_eq_empty hwaiting
  refine ⟨first, hfirst, ?_, fun body hbody worker inputs budget hbudget => ?_⟩
  · obtain ⟨body, hbody, rfl⟩ := exists_body hr own hstart hlabels hopen hd hclosed.blocks
    exact ⟨body, hbody, hread⟩
  · have heq : statements.map Except.ok = body.statements.map .ok := hread.symm.trans hbody.2
    obtain rfl := List.map_injective_iff.mpr (fun _ _ h => Except.ok.inj h) heq
    obtain ⟨more, hsim⟩ := body.simulated hr own hbody.1 hlabels hstart hnames hd hforward
    obtain ⟨l, hclosed⟩ := closes hsim.ready
    exact run_of_simulated hr hclosed hsim worker inputs hbudget

/-- A script with a chain inside of a chain, an empty branch and an early end. -/
def branchingScript : String :=
  "var int x 3; if le r0 x; if r0 eq 1; add r0 10; else lt r0 3; sub x r0; return x; " ++
    "else; exit; end; else gt r0 100; else; mul r0 x; end; add r0 x;"

theorem compile_correct_branchingScript : ∃ r p first ending, ∃ body : Body,
    Registry.standard? {} = .ok r ∧ r.Built ∧ r.OwnForms ∧
      compile r none branchingScript = .ok p ∧ p.code.size < UInt32.size ∧
      (∀ s : Statement, .ok s ∈ Statement.readAll r.config.maxArguments (tokenize branchingScript) →
        s.label = none) ∧
      Draft.start r [] = .ok first ∧ body.Reads r branchingScript ∧ p.sweep.1.size ≤ 16 ∧
      body.eval r first.scope (p.world .fresh [2]) = some ending ∧ ending.result = .ok 1 ∧
      (p.run 16 .fresh [2]).Agrees ending := by
  obtain ⟨r, hr, h⟩ := Registry.exists_standard {} (fun r =>
    r.operations.toList.all (fun op => !op.2.form.isCustom) &&
      ((Statement.readAll r.config.maxArguments (tokenize branchingScript)).all (fun read =>
        read.toOption.all fun s : Statement => s.label.isNone) &&
      (compile r none branchingScript).toOption.any (fun p : Program =>
        decide (p.code.size < UInt32.size) && (decide (p.sweep.1.size ≤ 16) &&
          decide ((p.run 16 .fresh [2]).result = .ok 1))))) (by decide +kernel)
  simp only [Bool.and_eq_true, Option.any_eq_true, decide_eq_true_eq] at h
  obtain ⟨hown, hlabels, p, hp, hsmall, hbudget, hresult⟩ := h
  have hbuilt := Registry.Built.of_standard hr
  have own := Registry.ownForms_of_all hown
  have hp : compile r none branchingScript = .ok p := by
    cases hc : compile r none branchingScript with
    | error e =>
      rw [hc] at hp
      cases hp
    | ok p' =>
      rw [hc] at hp
      cases hp
      rfl
  have hlabels : ∀ s : Statement,
      .ok s ∈ Statement.readAll r.config.maxArguments (tokenize branchingScript) → s.label = none :=
    fun s hs => by simpa [Except.toOption] using List.all_eq_true.mp hlabels _ hs
  obtain ⟨first, hfirst, ⟨body, hbody⟩, hruns⟩ := compile_correct hbuilt own hp hsmall hlabels
  obtain ⟨ending, heval, hagrees⟩ := hruns body hbody .fresh [2] 16 hbudget
  refine ⟨r, p, first, ending, body, hr, hbuilt, own, hp, hsmall, hlabels, hfirst, hbody, hbudget,
    heval, ?_, hagrees⟩
  rw [← hagrees.1, hresult]
  rfl

end HookScript
