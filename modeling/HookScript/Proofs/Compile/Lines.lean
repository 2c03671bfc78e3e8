/-
The code of a script as lines, each of which some operation has led to.

* `Line.Written` — the line is that of an operation with permitted arguments;
* `Draft.Lined` — the code of a draft consists of such lines, which every change preserves;
* `Draft.exists_lined_of_compile` — hence so does the code of a program;
* `natives_of_compile` — whose host functions are those of the registry.
-/
import HookScript.Proofs.Compile.Conduct

namespace HookScript

/-- The line is that of an operation with permitted arguments, for a table of host functions. -/
structure Line.Written (r : Registry) (A : List Argument → Prop) (natives : Array NativeBinding)
    (l : Line) : Prop where
  fits : l.Fits
  comes : ∃ name op o arguments bound, r.operation? name = some op ∧
    op.select r arguments = .ok o ∧ List.Forall₂ Argument.Binds arguments bound ∧
    o.Yields r natives bound l ∧ A arguments

theorem Line.Written.mono {r : Registry} {A : List Argument → Prop}
    {natives natives' : Array NativeBinding} {l : Line} (h : l.Written r A natives)
    (hn : ∃ more, natives' = natives ++ more) : l.Written r A natives' := by
  obtain ⟨hfits, name, op, o, arguments, bound, hop, hsel, hb, hy, hA⟩ := h
  exact ⟨hfits, name, op, o, arguments, bound, hop, hsel, hb, hy.mono hn, hA⟩

namespace Draft

/-- The code of the draft consists of the lines, each with permitted arguments. -/
structure Lined (r : Registry) (A : List Argument → Prop) (lines : List Line) (d : Draft) :
    Prop where
  holds : d.buffer.Holds (piecesOf lines)
  written : ∀ l ∈ lines, l.Written r A d.natives

variable {r : Registry} {A : List Argument → Prop} {L : Licence} {lines : List Line}
  {d d' : Draft} {p : Program}

theorem Lined.of_start {arguments : List HookArgument} (h : start r arguments = .ok d) :
    d.Lined r A [] := by
  rw [start] at h
  split at h
  · cases h
  · cases h
    exact ⟨.empty, by simp⟩

theorem Lined.size_eq (h : d.Lined r A lines) : d.buffer.size = codeSize lines :=
  h.holds.size_eq

theorem Change.natives {deed : Deed} (h : d.Change r deed d') :
    ∃ more, d'.natives = d.natives ++ more := by
  cases h with
  | note | touch | newLabel | name | await | declare | place | write =>
    exact ⟨#[], by simp [put, Draft.touch]⟩
  | enter => exact ⟨_, Array.push_eq_append⟩

/-- A change appends a line, or none. -/
theorem Change.lined {deed : Deed} (h : d.Change r deed d')
    (hp : (Licence.emitting A).Permits d deed) (hd : d.Lined r A lines) :
    ∃ more, d'.Lined r A (lines ++ more) := by
  have old : ∀ l ∈ lines, l.Written r A d'.natives := fun l hl => (hd.written l hl).mono h.natives
  cases h with
  | note | touch | newLabel | name | await | declare | place | enter =>
    exact ⟨[], by rw [List.append_nil]; exact ⟨⟨hd.holds.code, hd.holds.placeholders⟩, old⟩⟩
  | @write name op o arguments bound l hop hsel hb hy hfits =>
    refine ⟨[l], ?_, fun l' hl' => ?_⟩
    · have hpieces : piecesOf [l] = l.pieces := by simp [piecesOf]
      rw [piecesOf_append, hpieces]
      exact hd.holds.put l.pieces
    · rcases List.mem_append.mp hl' with hl' | hl'
      · exact old l' hl'
      · rw [List.mem_singleton.mp hl']
        exact ⟨hfits, name, op, o, arguments, bound, hop, hsel, hb, hy, hp⟩

theorem Evolves.natives (h : d.Evolves r L d') : ∃ more, d'.natives = d.natives ++ more := by
  refine h.preserves (P := fun d' => ∃ more, d'.natives = d.natives ++ more)
    (fun d₁ deed d₂ _ hc hd => ?_) ⟨#[], by simp⟩
  obtain ⟨more, hmore⟩ := hd
  obtain ⟨more', hmore'⟩ := hc.natives
  exact ⟨more ++ more', by rw [hmore', hmore, Array.append_assoc]⟩

theorem Evolves.lined (h : d.Evolves r (.emitting A) d') (hd : d.Lined r A lines) :
    ∃ more, d'.Lined r A (lines ++ more) := by
  refine h.preserves (P := fun d' => ∃ more, d'.Lined r A (lines ++ more))
    (fun d₁ deed d₂ hp hc hd => ?_) ⟨[], by rwa [List.append_nil]⟩
  obtain ⟨more, hmore⟩ := hd
  obtain ⟨more', hmore'⟩ := hc.lined hp hmore
  exact ⟨more ++ more', by rwa [← List.append_assoc]⟩

/-- Whatever an empty script becomes, its code consists of lines. -/
theorem Evolves.exists_lines {arguments : List HookArgument} (hd : start r arguments = .ok d)
    (h : d.Evolves r (.emitting A) d') : ∃ lines, d'.Lined r A lines :=
  h.lined (Lined.of_start hd)

/-- Emitting an operation appends its line. -/
theorem Appends.lined {name : String} {op : Operation} {arguments : List Argument} {l : Line}
    (h : d.Appends r op arguments l d') (hop : r.operation? name = some op)
    (he : d.Evolves r L d') (hA : A arguments) (hd : d.Lined r A lines) :
    d'.Lined r A (lines ++ [l]) := by
  refine ⟨?_, fun l' hl' => ?_⟩
  · have hpieces : piecesOf [l] = l.pieces := by simp [piecesOf]
    rw [piecesOf_append, hpieces]
    exact h.holds _ hd.holds
  · rcases List.mem_append.mp hl' with hl' | hl'
    · exact (hd.written l' hl').mono he.natives
    · obtain ⟨o, bound, hsel, hb, hy⟩ := h.chosen
      rw [List.mem_singleton.mp hl']
      exact ⟨h.fits, name, op, o, arguments, bound, hop, hsel, hb, hy, hA⟩

/-! ### Programs -/

/-- The code of a program are the lines of its draft, with all labels in place. -/
theorem Lined.code (h : d.Lined r A lines) (hp : d.toProgram = .ok p) :
    p.code.toList = assemble d.buffer.target (piecesOf lines) := by
  rw [(h.holds.finish_eq_ok_iff.mp (of_toProgram hp).1).2]

/-- A program is closed by the line of a last operation without arguments. -/
theorem exists_closed_of_finish (hr : r.Sound) (hd : d.Orderly r) {source : String}
    (h : d.finish r source = .ok p) (hA : A []) :
    ∃ closed op l, d.Evolves r (.emitting A) closed ∧ closed.toProgram = .ok p ∧
      r.operation? Builtin.exit.name = some op ∧ d.Appends r op [] l closed := by
  have hexit : Drafting.Leads r (.emitting A) (Drafting.emitNamed r Builtin.exit.name []) d _ _ :=
    Drafting.emitKnown_leads hr hd (fun _ _ _ _ => by simp) hA
  rw [finish] at h
  split at h
  · cases h
  · split at h
    · cases h
    · rename_i closed hx
      split at h
      · cases h
      · rename_i hp
        cases h
        obtain ⟨hev, op, l, hop, hl⟩ := hexit.of_ok hx
        exact ⟨closed, op, l, hev, hp, hop, hl⟩

/-- Every line is fetched where it stands. -/
theorem Lined.fetch {l : Line} {more : List Line} (h : d.Lined r A (lines ++ l :: more))
    (hd : d.Orderly r) (hp : d.toProgram = .ok p) :
    Instruction.fetch p.code (codeSize lines)
      = .ok (l.instruction d.buffer.target (codeSize lines)) := by
  obtain ⟨-, tiles, ht, -⟩ := Program.verify_eq_ok_iff.mp (of_toProgram hp).2.2
  have hcode : p.code.toList = [] ++ assemble d.buffer.target (piecesOf (lines ++ l :: more)) :=
    h.code hp
  obtain rfl := Line.eq_tiles_of_tiling (fun l hl => (h.written l hl).fits)
    (fun _ _ id _ => hd.target_lt id) hcode ht
  have hm := Line.mem_tiles d.buffer.target 0 lines l more
  rw [Nat.zero_add] at hm
  exact (ht.of_mem hm).1

/-- The code of a compiled script consists of lines of operations that its statements are permitted
to emit, and the last one is that of `exit`. -/
theorem exists_lines_of_compile (hr : r.Sound) {hook : Option HookSignature} {source : String}
    (h : compile r hook source = .ok p) (hA : A [])
    (hs : ∀ first s d, start r ((hook.map (·.arguments)).getD []) = .ok first →
      first.Evolves r (.emitting fun _ => True) d → Drafting.Emits r A s d) :
    ∃ (d : Draft) (lines : List Line) (l : Line) (op : Operation) (o : Overload),
      d.Orderly r ∧ d.Lined r A (lines ++ [l]) ∧ d.toProgram = .ok p ∧
      r.operation? Builtin.exit.name = some op ∧ op.select r [] = .ok o ∧
      o.Yields r d.natives [] l := by
  obtain ⟨first, last, hfirst, hall, hfinish, -⟩ := exists_drafts_of_compile h
  have hd := orderly_of_start hfirst
  have hlast : first.Evolves r (.emitting A) last := by
    refine evolves_of_compileAll hr hd (fun done s _ d _ hdone => ?_) hall
    exact hs first s d hfirst
      (evolves_of_compileAll hr hd (fun _ s _ d _ _ => .any r s d) hdone)
  obtain ⟨closed, op, l, hclosed, hp, hop, hl⟩ :=
    exists_closed_of_finish hr (hlast.orderly hd) hfinish hA
  obtain ⟨lines, hlines⟩ := hlast.exists_lines hfirst
  obtain ⟨o, bound, hsel, hb, hy⟩ := hl.chosen
  cases hb
  exact ⟨closed, lines, l, op, o, (hlast.trans hclosed).orderly hd,
    hl.lined hop hclosed hA hlines, hp, hop, hsel, hy⟩

/-- The code of a compiled script consists of lines of operations that its statements are permitted
to emit. -/
theorem exists_lined_of_compile (hr : r.Sound) {hook : Option HookSignature} {source : String}
    (h : compile r hook source = .ok p) (hA : A [])
    (hs : ∀ first s d, start r ((hook.map (·.arguments)).getD []) = .ok first →
      first.Evolves r (.emitting fun _ => True) d → Drafting.Emits r A s d) :
    ∃ d : Draft, ∃ lines, d.Orderly r ∧ d.Lined r A lines ∧ d.toProgram = .ok p := by
  obtain ⟨d, lines, l, -, -, hd, hlines, hp, -⟩ := exists_lines_of_compile hr h hA hs
  exact ⟨d, lines ++ [l], hd, hlines, hp⟩

end Draft

/-- The host functions of a program are those of its registry. -/
theorem natives_of_compile {r : Registry} (hr : r.Sound) {hook : Option HookSignature}
    {source : String} {p : Program} (h : compile r hook source = .ok p) :
    ∀ n ∈ p.natives, r.native? n.id = some n := by
  obtain ⟨d, -, hd, -, hp⟩ := Draft.exists_lined_of_compile (A := fun _ => True) hr h trivial
    fun _ s d _ _ => .any r s d
  rw [(Draft.of_toProgram hp).2.1]
  exact hd.natives

end HookScript
