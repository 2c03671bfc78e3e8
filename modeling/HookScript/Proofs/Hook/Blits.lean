/-
Blits as maps of pixels.

A blit runs its script with one worker for all pixels, and counts the runs that fault.  Nothing of
that shows in the pixels: each of them is what its own source and destination pixel make of it.

* `BlitHook.blit_of_some` — a scripted blit is composed by runs with fresh registers
  (`BlitHook.scripted`);
* `BlitHook.scripted_blits_map_pixels` — hence what becomes of each pixel;
* `BlitHook.scriptless_blits_run_shading` — a blit without a script is the blit of the script that
  adds the shade.
-/
import HookScript.Proofs.Hook.Shading
import HookScript.Proofs.Host.Objects
import HookScript.Proofs.Machine.Ending

namespace HookScript

/-- The result of a run with inputs does not depend on what was in the registers. -/
theorem Program.result_run_congr {p : Program} (verified : p.verify = .ok ()) (budget : Nat)
    (objects : HostObjects) {inputs : List Int32} (hinputs : inputs ≠ []) (f f' : RegisterFile) :
    (p.run budget ⟨f, objects⟩ inputs).result = (p.run budget ⟨f', objects⟩ inputs).result := by
  obtain ⟨-, tiles, ht, hc⟩ := verify_eq_ok_iff.mp verified
  have hpositive := List.length_pos_of_ne_nil hinputs
  have hsame := (Machine.runFor_agree ht hc (Nat.le_max_left _ inputs.length) budget budget
    ht.place_mem (p.start_agree objects f f' inputs)).2
  -- register 0 holds an input, so the machines agree on it
  refine hsame.resolve_right fun ⟨hnone, _⟩ => ?_
  omega

/-- A run starts with its inputs in the registers. -/
theorem Program.get_start_of_input (p : Program) (worker : Worker) {inputs : List Int32} {r : UInt8}
    (hr : r.toNat < maxRegisters) {value : Int32} (hinput : inputs[r.toNat]? = some value) :
    (p.start worker inputs).worker.registers.get r = value := by
  rw [Program.start, RegisterFile.get_reset, if_pos hr, RegisterFile.resetSlot, hinput]
  rfl

/-- A hook's run is a run of its program.  A fault yields zero, and the budget stays as it is. -/
theorem ScriptHook.runProgram_spec (h : ScriptHook) (p : Program) (worker : Worker)
    (inputs : List Int32) :
    (h.runProgram p worker inputs).value =
        (p.run h.budget worker inputs).result.toOption.getD 0 ∧
      (h.runProgram p worker inputs).worker = (p.run h.budget worker inputs).worker ∧
      (h.runProgram p worker inputs).hook.budget = h.budget := by
  simp only [runProgram]
  cases (p.run h.budget worker inputs).result with
  | ok value => exact ⟨rfl, rfl, rfl⟩
  | error e => exact ⟨rfl, rfl, rfl⟩

theorem ScriptHook.load_of_compile {r : Registry} {signature : HookSignature} {source : String}
    {p : Program} (h : compile r (some signature) source = .ok p) (context : String) :
    load r signature (some source) context =
      (ofProgram signature.name p .mod, [p.compiledEvent]) := by
  simp only [load, attempt?, h]

/-- The program of a hook that has been loaded is a compiled script. -/
theorem ScriptHook.obtained_of_load {r : Registry} {signature : HookSignature}
    {source : Option String} {context : String} {p : Program}
    (h : (load r signature source context).1.program = some p) : p.Obtained r := by
  have attempted : ∀ {origin rejected source hook events},
      attempt? r signature origin rejected source = (some hook, events) →
      hook.program = some p → p.Obtained r := by
    intro origin rejected source hook events hattempt hprogram
    cases source with
    | none => cases hattempt
    | some source =>
      rw [attempt?] at hattempt
      split at hattempt
      · rename_i q hq
        cases hattempt
        cases hprogram
        exact .compiled hq
      · cases hattempt
  rw [load] at h
  split at h
  · rename_i hattempt
    exact attempted hattempt h
  · split at h
    · rename_i hattempt
      exact attempted hattempt h
    · cases h

namespace BlitHook

/-! ### Scripted blits -/

/-- The inputs of the run for a pixel. -/
def pixelInputs (context : BlitContext) (handles : List Int32) (new old : UInt8) : List Int32 :=
  Int32.ofNat new.toNat :: Int32.ofNat old.toNat :: context.shade :: context.animationFrame ::
    context.part :: handles

/-- The result of a run with fresh registers, zero if it faults. -/
def freshResult (p : Program) (budget : Nat) (objects : HostObjects) (inputs : List Int32) :
    Int32 :=
  (p.run budget ⟨.zero, objects⟩ inputs).result.toOption.getD 0

/-- What a script makes of a pixel on its own. -/
def scripted (p : Program) (budget : Nat) (objects : HostObjects) (context : BlitContext)
    (handles : List Int32) (new old : UInt8) : UInt8 :=
  if new = 0 then old
  else blend old (freshResult p budget objects (pixelInputs context handles new old))

/-- The value of a hook's run is that of a run with fresh registers. -/
theorem value_runProgram {p : Program} (verified : p.verify = .ok ()) (h : ScriptHook)
    (worker : Worker) {inputs : List Int32} (hinputs : inputs ≠ []) :
    (h.runProgram p worker inputs).value = freshResult p h.budget worker.objects inputs := by
  rw [(h.runProgram_spec p worker inputs).1, freshResult,
    Program.result_run_congr verified h.budget worker.objects hinputs .zero worker.registers]

/-- A blit goes on behind the pixels that are written, with what fresh runs make of the others. -/
theorem blitScripted_eq {p : Program} (verified : p.verify = .ok ()) (observes : p.Observes)
    (context : BlitContext) (handles : List Int32) (state : Progress)
    (pixels : List (UInt8 × UInt8)) :
    (blitScripted p context handles state pixels).written =
        state.written.appendList (pixels.map fun both =>
          scripted p state.hook.budget state.worker.objects context handles both.1 both.2) ∧
      (blitScripted p context handles state pixels).worker.objects = state.worker.objects := by
  -- objects and budget stay as they are, and nothing else of the state shows in a pixel
  induction pixels generalizing state with
  | nil => exact ⟨rfl, rfl⟩
  | cons pixel pixels ih =>
    obtain ⟨new, old⟩ := pixel
    rw [blitScripted, List.map_cons, scripted]
    split
    · exact ih _
    · let run := state.hook.runProgram p state.worker (pixelInputs context handles new old)
      have hvalue : run.value = freshResult p state.hook.budget state.worker.objects
          (pixelInputs context handles new old) :=
        value_runProgram verified state.hook state.worker (List.cons_ne_nil _ _)
      obtain ⟨-, hworker, (hbudget : run.hook.budget = state.hook.budget)⟩ :=
        state.hook.runProgram_spec p state.worker (pixelInputs context handles new old)
      have hobjects : run.worker.objects = state.worker.objects :=
        (congrArg Worker.objects hworker).trans (Program.objects_run observes _ _ _)
      obtain ⟨hwritten, hkept⟩ := ih ⟨state.written.push (blend old run.value), run.hook,
        run.worker, state.events.appendList run.events⟩
      refine ⟨hwritten.trans ?_, hkept.trans hobjects⟩
      simp only [hvalue, hbudget, hobjects]
      rfl

/-- The pixels of a scripted blit are composed by fresh runs, and all objects stay as they are. -/
theorem blit_of_some {p : Program} (verified : p.verify = .ok ()) (observes : p.Observes)
    {h : ScriptHook} (hprogram : h.program = some p) (context : BlitContext)
    (handles : List Int32) (worker : Worker) (source destination : List UInt8) :
    (blit h context handles worker source destination).written.toList =
        composed (scripted p h.budget worker.objects context handles) source destination ∧
      (blit h context handles worker source destination).worker.objects = worker.objects := by
  obtain ⟨hwritten, hobjects⟩ := blitScripted_eq verified observes context handles
    ⟨#[], h, worker, #[]⟩ (source.zip destination)
  simp only [blit, hprogram]
  refine ⟨?_, hobjects⟩
  rw [hwritten]
  simp [composed]

/-- The low byte of a result. -/
def lowByte (result : Int32) : UInt8 :=
  .ofInt result.toInt

theorem blend_eq (old : UInt8) (result : Int32) :
    blend old result = if lowByte result = 0 then old else lowByte result := by
  have hlow : UInt8.ofNat result.toUInt32.toNat = lowByte result := by
    have hword : (result.toUInt32.toNat : Int) % 2 ^ 32 = result.toInt % 2 ^ 32 := by
      rw [← Int32.toInt_toBitVec, BitVec.toInt_eq_toNat_bmod]
      exact Int.bmod_emod.symm
    rw [lowByte, UInt8.ofInt, ← UInt8.toNat_inj, UInt8.toNat_ofNat', UInt8.toNat_ofNat']
    omega
  rw [blend, hlow]

/-- A scripted blit is a map of pixels. -/
theorem scripted_blits_map_pixels {r : Registry} {p : Program} {h : ScriptHook}
    (obtained : p.Obtained r) (hprogram : h.program = some p) (observes : p.Observes)
    (context : BlitContext) (handles : List Int32) (worker : Worker)
    (source destination : List UInt8) :
    let after := blit h context handles worker source destination
    after.written.size = destination.length ∧ after.worker.objects = worker.objects ∧
      ∀ (i : Nat) (old : UInt8), destination[i]? = some old →
        (source[i]? = none ∨ source[i]? = some 0 → after.written[i]? = some old) ∧
        ∀ new, source[i]? = some new → new ≠ 0 →
          let result := freshResult p h.budget worker.objects (pixelInputs context handles new old)
          after.written[i]? = some (if lowByte result = 0 then old else lowByte result) := by
  obtain ⟨hwritten, hobjects⟩ := blit_of_some obtained.verify observes hprogram context handles
    worker source destination
  refine ⟨?_, hobjects, fun i old hold => ⟨?_, fun new hnew hopaque => ?_⟩⟩
  · rw [← Array.length_toList, hwritten, length_composed]
  · intro hsource
    rw [← Array.getElem?_toList, hwritten, getElem?_composed, hold, Option.map_some]
    rcases hsource with hsource | hsource <;> rw [hsource] <;> rfl
  · rw [← Array.getElem?_toList, hwritten, getElem?_composed, hold, hnew, Option.map_some,
      Option.elim_some, scripted, if_neg hopaque, blend_eq]

/-- A script that hands the shade to the function that doubles. -/
def doublingShade : String := "double new_pixel shade;"

theorem scripted_blits_map_pixels_doublingShade : ∃ r₀ r p,
    Registry.standard? {} = .ok r₀ ∧ doublingRequest.perform r₀ = .ok () r ∧
    let h := (ScriptHook.load r (signature "recolor") (some doublingShade) "mod").1
    p.Obtained r ∧ h.program = some p ∧ p.natives.size = 1 ∧ p.Observes ∧
    let after := blit h ⟨3, 0, 0⟩ [] Program.usedWorker [0, 0x34] [0x11, 0x22, 0x33]
    after.written.size = 3 ∧ after.worker.objects = .empty ∧ after.written[0]? = some 0x11 ∧
      after.written[1]? = some 6 ∧ after.written[2]? = some 0x33 := by
  obtain ⟨r₀, hr₀, h⟩ := Registry.exists_standard {} (fun r₀ => decide (r₀.natives.size = 0) &&
    doublingRequest.passes r₀ fun r => decide (r.natives.size = 2) &&
      (compile r (some (signature "recolor")) doublingShade).toOption.any fun p : Program =>
        decide (p.natives.size = 1) && decide (freshResult p Program.defaultBudget .empty
          (pixelInputs ⟨3, 0, 0⟩ [] 0x34 0x22) = 6)) (by decide +kernel)
  obtain ⟨hempty, h⟩ := Bool.and_eq_true_iff.mp h
  obtain ⟨r, hr, h⟩ := doublingRequest.exists_of_passes h
  obtain ⟨htwo, h⟩ := Bool.and_eq_true_iff.mp h
  obtain ⟨p, hp, h⟩ := exists_ok h
  obtain ⟨hone, hresult⟩ := Bool.and_eq_true_iff.mp h
  have hbuilt := (Registry.Built.of_standard hr₀).of_request doublingRequest hr
  have hroutine := Program.routine_of_doublingRequest hbuilt (of_decide_eq_true hempty) hr
    (of_decide_eq_true htwo) hp
  have observes : p.Observes := fun n hn operands w => by
    rw [hroutine n hn]
    exact Worker.objects_store w operands 0 _
  have hprogram : (ScriptHook.load r (signature "recolor") (some doublingShade) "mod").1.program =
      some p := by
    rw [ScriptHook.load_of_compile hp]
    rfl
  have obtained := ScriptHook.obtained_of_load hprogram
  obtain ⟨hsize, hobjects, hpixels⟩ := scripted_blits_map_pixels obtained hprogram observes
    ⟨3, 0, 0⟩ [] Program.usedWorker [0, 0x34] [0x11, 0x22, 0x33]
  refine ⟨r₀, r, p, hr₀, hr, obtained, hprogram, of_decide_eq_true hone, observes, hsize, hobjects,
    (hpixels 0 0x11 rfl).1 (.inr rfl), ?_, (hpixels 2 0x33 rfl).1 (.inl rfl)⟩
  have hresult : freshResult p Program.defaultBudget .empty (pixelInputs ⟨3, 0, 0⟩ [] 0x34 0x22)
      = 6 := of_decide_eq_true hresult
  have hpixel := (hpixels 1 0x22 rfl).2 0x34 rfl (by decide)
  rw [ScriptHook.load_of_compile hp] at hpixel ⊢
  refine hpixel.trans ?_
  change some (if lowByte (freshResult p Program.defaultBudget .empty _) = 0 then _
    else lowByte (freshResult p Program.defaultBudget .empty _)) = _
  rw [hresult]
  rfl

/-! ### Blits without a script -/

/-- A script that adds the shade of the blit to the source pixel. -/
def shadingScript : String := "add_shade new_pixel shade;"

/-- The code of the script: the shade in register 2 is added to register 0, and that is all. -/
def shadingCode : Array UInt8 := #[81, 0, 2, 0]

theorem compile_shadingScript {r : Registry} (hr : Registry.standard? {} = .ok r) (name : String) :
    ∃ p, compile r (some (signature name)) shadingScript = .ok p ∧ p.code = shadingCode ∧
      p.natives = #[] := by
  obtain ⟨r', hr', h⟩ := Registry.exists_standard {} (fun r =>
    (compile r (some (signature "")) shadingScript).toOption.any fun p : Program =>
      decide (p.code = shadingCode) && p.natives.isEmpty) (by decide +kernel)
  cases hr.symm.trans hr'
  obtain ⟨p, hp, h⟩ := exists_ok h
  obtain ⟨hcode, hnatives⟩ := Bool.and_eq_true_iff.mp h
  -- the name of the hook does not matter
  exact ⟨p, hp, of_decide_eq_true hcode, Array.isEmpty_iff.mp hnatives⟩

theorem freshResult_shadingCode {p : Program} (hcode : p.code = shadingCode) {budget : Nat}
    (hbudget : 2 ≤ budget) (objects : HostObjects) (context : BlitContext) (handles : List Int32)
    (new old : UInt8) :
    freshResult p budget objects (pixelInputs context handles new old) =
      Arithmetic.addShade (Arithmetic.palettePixel new) context.shade := by
  obtain ⟨left, rfl⟩ := Nat.exists_eq_add_of_le' hbudget
  have hfirst : Instruction.fetch p.code 0 =
      .ok ⟨Builtin.addShade.opcode 1, [.register 0, .register 2], 3⟩ := by
    rw [hcode]
    decide +kernel
  have hlast : Instruction.fetch p.code 3 = .ok ⟨Builtin.exit.opcode 0, [], 4⟩ := by
    rw [hcode]
    decide +kernel
  let m := p.start ⟨.zero, objects⟩ (pixelInputs context handles new old)
  have hpixel : m.worker.registers.get 0 = Arithmetic.palettePixel new :=
    p.get_start_of_input _ (by decide) rfl
  have hshade : m.worker.registers.get 2 = context.shade :=
    p.get_start_of_input _ (by decide) rfl
  have hvalue : m.worker.value [.register 0, .register 2] 1 = context.shade := hshade
  have hstep := Machine.step_addShade p m new hfirst rfl hpixel
  rw [hvalue, ← Arithmetic.addShade_palettePixel] at hstep
  have hresult : (m.runFor p (left + 2) (left + 2)).result =
      .ok (Arithmetic.addShade (Arithmetic.palettePixel new) context.shade) := by
    rw [Machine.runFor, hstep]
    dsimp only
    rw [Machine.runFor, Machine.step_of_fetch hlast]
    exact congrArg Except.ok (RegisterFile.get_set _ 0 0 _)
  exact congrArg (fun result => result.toOption.getD 0) hresult

/-- Of a single pixel, the script that adds the shade makes what a blit without a script does. -/
theorem scripted_shadingCode {p : Program} (hcode : p.code = shadingCode) (objects : HostObjects)
    (context : BlitContext) (handles : List Int32) :
    scripted p Program.defaultBudget objects context handles = shaded context := by
  funext new old
  rw [scripted, shaded, freshResult_shadingCode hcode (by decide)]
  rfl

/-- A blit without a script writes the pixels of the script that adds the shade. -/
theorem scriptless_blits_run_shading {r : Registry} (standard : Registry.standard? {} = .ok r)
    {h : ScriptHook} (hnone : h.program = none) (name modName : String) (context : BlitContext)
    (handles : List Int32) (worker : Worker) (source destination : List UInt8) :
    let shading := (ScriptHook.load r (signature name) (some shadingScript) modName).1
    shading.origin = .mod ∧ shading.program.isSome ∧ shading.budget = Program.defaultBudget ∧
      (blit h context handles worker source destination).written =
        (blit shading context handles worker source destination).written := by
  obtain ⟨p, hcompile, hcode, hnatives⟩ := compile_shadingScript standard name
  have observes : p.Observes := by
    intro binding hbinding
    rw [hnatives] at hbinding
    cases Array.not_mem_empty _ hbinding
  rw [ScriptHook.load_of_compile hcompile]
  refine ⟨rfl, rfl, rfl, Array.toList_inj.mp ?_⟩
  rw [written_blit_of_none hnone, (blit_of_some (verify_of_compile hcompile) observes rfl context
    handles worker source destination).1]
  exact congrArg (composed · source destination)
    (scripted_shadingCode hcode worker.objects context handles).symm

theorem scriptless_blits_run_shading_recolor : ∃ r, Registry.standard? {} = .ok r ∧
    (ScriptHook.withoutScript "recolor").program = none ∧
    let shading := (ScriptHook.load r (signature "recolor") (some shadingScript) "mod").1
    shading.origin = .mod ∧ shading.program.isSome ∧ shading.budget = Program.defaultBudget ∧
      (blit (.withoutScript "recolor") ⟨3, 0, 0⟩ [] .fresh [0, 0x34] [0x11, 0x22, 0x33]).written =
        (blit shading ⟨3, 0, 0⟩ [] .fresh [0, 0x34] [0x11, 0x22, 0x33]).written := by
  obtain ⟨r, hr, -⟩ := Registry.exists_standard {} (fun _ => true) (by decide +kernel)
  exact ⟨r, hr, rfl, scriptless_blits_run_shading hr rfl "recolor" "mod" ⟨3, 0, 0⟩ [] .fresh
    [0, 0x34] [0x11, 0x22, 0x33]⟩

end BlitHook

end HookScript
