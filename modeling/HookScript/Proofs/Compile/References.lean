/-
References to labels.

Wherever an instruction refers to a label by name, its operand is the offset of the code that was
reached when the statement with that label came up.

* `Draft.Compilation` — the drafts that a program comes from;
* `Draft.Emits.refers` — what stands in the place of a name that refers to a label;
* `named_labels_resolve` — in the final code that is one offset for each name, where an instruction
  begins.
-/
import HookScript.Proofs.Compile.Labels
import HookScript.Proofs.Control.Correctness

namespace HookScript

/-- The offset of a label, by its name. -/
def SymbolTable.offset (names : SymbolTable) (target : LabelId → Nat) (name : String) : Nat :=
  match names.find? name with
  | some (.label id) => target id
  | _ => 0

theorem SymbolTable.offset_eq {names : SymbolTable} {name : String} {id : LabelId}
    (h : names.find? name = some (.label id)) (target : LabelId → Nat) :
    names.offset target name = target id := by
  rw [offset, h]

namespace Draft

variable {r : Registry} {hook : Option HookSignature} {source : String} {p : Program}
  {first last : Draft}

/-! ### Whole compilations -/

/-- The statements of a script lead from the draft `first` to the draft `last`, which is closed as
the program `p`. -/
structure Compilation (r : Registry) (hook : Option HookSignature) (source : String) (p : Program)
    (first last : Draft) : Prop where
  start : Draft.start r ((hook.map (·.arguments)).getD []) = .ok first
  all : first.compileAll r source
    (Statement.readAll r.config.maxArguments (tokenize source)) = .ok last
  finish : last.finish r source = .ok p
  small : (last.lastFrom r []).buffer.size < UInt32.size

theorem exists_compilation (h : compile r hook source = .ok p) (small : p.code.size < UInt32.size) :
    ∃ first last, Compilation r hook source p first last := by
  obtain ⟨first, last, hfirst, hall, hfinish, hlast⟩ := exists_drafts_of_compile h
  refine ⟨first, last, hfirst, hall, hfinish, ?_⟩
  rwa [← emittedSize_of_compile h, emittedSize, hlast] at small

namespace Compilation

variable (c : Compilation r hook source p first last)
include c

theorem halfway_iff {done : List (Except SyntaxError Statement)} {d : Draft} :
    HalfwayDraft r hook source done d ↔
      done <+: Statement.readAll r.config.maxArguments (tokenize source) ∧
        first.compileAll r source done = .ok d := by
  refine and_congr_right fun _ => ⟨?_, fun hd => ⟨first, c.start, hd⟩⟩
  rintro ⟨first', hfirst', hd⟩
  rw [c.start] at hfirst'
  cases hfirst'
  exact hd

/-- After each statement there is a draft, from which the others lead to the last one. -/
theorem exists_rest {done rest : List (Except SyntaxError Statement)}
    (h : Statement.readAll r.config.maxArguments (tokenize source) = done ++ rest) :
    ∃ d, HalfwayDraft r hook source done d ∧ first.compileAll r source done = .ok d ∧
      d.compileAll r source rest = .ok last := by
  have hall := c.all
  rw [h, compileAll_append] at hall
  obtain ⟨d, hd, hrest⟩ := exists_of_bind_eq_ok hall
  exact ⟨d, c.halfway_iff.mpr ⟨⟨rest, h.symm⟩, hd⟩, hd, hrest⟩

/-- The lines of a draft on the way begin those of the program. -/
theorem closes (hr : r.Built) (own : r.OwnForms) {lines : List Line} {d : Draft}
    (hready : d.Ready r lines) {rest : List (Except SyntaxError Statement)}
    (hrest : d.compileAll r source rest = .ok last) :
    d.Grows last ∧ ∃ more l, last.Closes r (lines ++ more) l (last.lastFrom r []) p := by
  obtain ⟨⟨more, hready'⟩, hg⟩ := compileAll_ready hr own hready hrest
  obtain ⟨l, hcloses⟩ := (finish_of_ready hr source hready' c.small).2 p c.finish
  exact ⟨hg, more, l, hcloses⟩

end Compilation

theorem Closes.tiling {lines : List Line} {l : Line} {d closed : Draft}
    (h : d.Closes r lines l closed p) :
    p.Tiling 0 (Line.tiles closed.buffer.target 0 (lines ++ [l])) :=
  h.carries.tiling

/-- Where the lines of a draft end there is an instruction of the program. -/
theorem Closes.mem_starts {lines more : List Line} {l : Line} {d closed : Draft}
    (h : d.Closes r (lines ++ more) l closed p) {tiles : List (Nat × Instruction)}
    (ht : p.Tiling 0 tiles) : codeSize lines ∈ tiles.map Prod.fst := by
  rw [ht.unique h.tiling, List.append_assoc]
  -- behind the lines is at least the final instruction
  obtain ⟨next, rest, heq⟩ := List.exists_cons_of_ne_nil (l := more ++ [l]) (by simp)
  rw [heq]
  have hm := Line.mem_tiles closed.buffer.target 0 lines next rest
  rw [Nat.zero_add] at hm
  exact List.mem_map_of_mem hm

/-! ### Single references -/

/-- A name that stands for nothing but a label goes on doing so. -/
theorem Declares.lookup_label {d d' : Draft} {label name : String} (h : d.Declares r label d')
    (hd : ∀ m, d.lookup r name = some m → ∃ id, m = .label id) :
    ∀ m, d'.lookup r name = some m → ∃ id, m = .label id := by
  intro m hm
  cases hfind : d.locals.find? name with
  | some old =>
    have hold := hd old (by rw [lookup, hfind]; rfl)
    rw [lookup, h.locals name old hfind] at hm
    cases hm
    exact hold
  | none =>
    cases hfind' : d'.locals.find? name with
    | none =>
      rw [lookup, hfind'] at hm
      exact hd m (by rw [lookup, hfind]; exact hm)
    | some new =>
      rw [lookup, hfind'] at hm
      cases hm
      rcases h.added name m hfind' with hold | rfl
      · rw [hfind] at hold
        cases hold
      · obtain ⟨id, hplaced, -⟩ := h.placed
        rw [hfind'] at hplaced
        cases hplaced
        exact ⟨id, rfl⟩

/-- A name that refers to a label is resolved as the label, or as unknown. -/
theorem isLabel_of_resolve {d : Draft} {t : Token} {a : Argument} (ht : t.kind = .symbol)
    (hd : ∀ m, d.lookup r t.text = some m → ∃ id, m = .label id) (h : d.resolve r t = .ok a) :
    a = .unknown t.text ∨ ∃ id, a = .label id ∧ d.lookup r t.text = some (.label id) := by
  simp only [resolve, ht] at h
  cases hl : d.lookup r t.text with
  | none =>
    rw [hl] at h
    cases h
    exact .inl rfl
  | some m =>
    rw [hl] at h
    cases h
    obtain ⟨id, rfl⟩ := hd m hl
    exact .inr ⟨id, rfl, rfl⟩

theorem locals_of_lookup_label (hr : r.Sound) {d : Draft} {name : String} {id : LabelId}
    (h : d.lookup r name = some (.label id)) : d.locals.find? name = some (.label id) := by
  rcases lookup_eq_some h with h | h
  · exact h
  · exact (hr.globals name _ h).elim

/-- In the place of a name that refers to a label, the instruction has that label. -/
theorem Emits.refers (hr : r.Sound) {b : Builtin} (hb : b ∈ [Builtin.goto, .set, .testLe, .testEq])
    {op : Operation} (hop : r.operation? b.name = some op) {tokens : List Token}
    {arguments : List Argument} {lines : List Line} {pending : List LabelId} {l : Line}
    {d d' : Draft} (harguments : d.resolveAll r tokens = .ok arguments)
    (h : Emits r op arguments lines pending l d d') {j : Nat} {t : Token}
    (hj : tokens[j]? = some t) (ht : t.kind = .symbol)
    (hd : ∀ m, d.lookup r t.text = some m → ∃ id, m = .label id) :
    ∃ id, d'.locals.find? t.text = some (.label id) ∧ l.builtin = b ∧
      l.payloads[j]? = some (.label id) := by
  obtain ⟨a, hja, hres⟩ := exists_left_of_forall₂
    (Drafting.forall₂_of_resolveAll harguments).flip hj
  obtain ⟨o, bound, hsel, hbinds, -, hyields⟩ := h.chosen
  obtain ⟨names, hnames⟩ := h.frame.names
  have hlabel := isLabel_of_resolve ht hd hres
  have ha : a.IsLabel := by
    rcases hlabel with rfl | ⟨id, rfl, -⟩ <;> trivial
  obtain ⟨b', doc, rfl, hname, -⟩ := Operation.exists_builtin_of_label hr hop hsel hja ha
  obtain ⟨version, rfl⟩ := hyields.eq_of_builtin
  have hbuiltin : b' = b := Builtin.eq_of_name b hb hname
  rcases hlabel with rfl | ⟨id, rfl, hlookup⟩
  · obtain ⟨id, hid, hpayload⟩ := h.named j t.text hja
    exact ⟨id, hid, hbuiltin, hpayload⟩
  · obtain ⟨c, hjc, hbind⟩ := exists_left_of_forall₂ hbinds.flip hja
    cases hbind
    refine ⟨id, hnames.locals _ _ (locals_of_lookup_label hr hlookup), hbuiltin, ?_⟩
    rw [List.getElem?_map, hjc]
    rfl

end Draft

/-- A statement of an operation without a form of its own emits that operation with its arguments,
behind its label. -/
theorem Drafting.statement_call_ensures {r : Registry} (hr : r.Built) {lines : List Line}
    {d : Draft} (h : d.Ready r lines) {s : Statement} {op : Operation}
    (hop : r.operation? s.name.text = some op) (hform : op.form = .call) :
    Ensures (statement r s) d
      (fun _ d' => ∃ d₁ arguments l,
        (∀ name, (∀ m, d.lookup r name = some m → ∃ id, m = .label id) →
          ∀ m, d₁.lookup r name = some m → ∃ id, m = .label id) ∧
        d₁.Ready r lines ∧ d₁.resolveAll r s.arguments = .ok arguments ∧
        Draft.Emits r op arguments lines d₁.pending l d₁ d')
      CompileError.Kind.Excused := by
  simp only [statement, ensures_modify_bind]
  refine (statementLabel_ensures hr.sound (ready_withSpan h s.span) s).bind ?_
  rintro - d₁ ⟨h₁, -, hsame, hdeclares⟩
  simp only [hop, statementOf, hform, ensures_get_bind]
  refine (emitArguments_ensures hr.sound h₁ hop [] (by simp) s.arguments).mono ?_ (fun _ _ h => h)
  rintro - d₂ ⟨arguments, l, harguments, hl⟩
  refine ⟨d₁, arguments, l, fun name hd => ?_, h₁, harguments, hl⟩
  cases hs : s.label with
  | none =>
    rw [hsame hs]
    exact hd
  | some label => exact (hdeclares label hs).lookup_label hd

namespace Draft

variable {r : Registry} {hook : Option HookSignature} {source : String} {p : Program}
  {first last : Draft}

/-! ### The final code -/

theorem Closes.target_eq {lines : List Line} {l : Line} {d closed : Draft}
    (h : d.Closes r lines l closed p) {id : LabelId} {place : Nat}
    (hp : d.buffer.position? id = some place) : closed.buffer.target id = place := by
  rw [CodeBuffer.target, h.grows.positions id place hp]
  rfl

namespace Compilation

variable (c : Compilation r hook source p first last) (hr : r.Built) (own : r.OwnForms)
  {tiles : List (Nat × Instruction)} (ht : p.Tiling 0 tiles)
include c hr own

theorem tracks : Tracks r source first
    (Statement.readAll r.config.maxArguments (tokenize source)) last :=
  (tracks_of_compileAll hr c.start (fun s _ => own.reads s) c.all).1

/-- What names stand for on the way they stand for at the end. -/
theorem keeps {done : List (Except SyntaxError Statement)} {d : Draft}
    (hd : HalfwayDraft r hook source done d) {name : String} {m : Meaning}
    (hn : d.locals.find? name = some m) : last.locals.find? name = some m := by
  obtain ⟨⟨rest, hrest⟩, hd⟩ := c.halfway_iff.mp hd
  obtain ⟨-, lines, hready⟩ := tracks_of_compileAll hr c.start (fun s _ => own.reads s) hd
  have hall := c.all
  rw [← hrest, compileAll_append, hd] at hall
  exact keeps_of_compileAll hr hready (fun s _ => own.reads s) hall hn

/-- The name of a label stands for nothing else. -/
theorem label_of_lookup {k : Nat} {s : Statement} {name : String}
    (hk : (Statement.readAll r.config.maxArguments (tokenize source))[k]? = some (Except.ok s))
    (hl : s.HasLabel name) {done : List (Except SyntaxError Statement)} {d : Draft}
    (hd : HalfwayDraft r hook source done d) {m : Meaning} (hm : d.lookup r name = some m) :
    ∃ id, m = .label id := by
  obtain ⟨id, d₀, -, hname, -⟩ := (c.tracks hr own).declared k s name hk hl
  rcases lookup_eq_some hm with hm | hm
  · have hlast := c.keeps hr own hd hm
    rw [hname] at hlast
    exact ⟨id, (Option.some.inj hlast).symm⟩
  · rw [(c.tracks hr own).own name id hname] at hm
    cases hm

include ht

/-- A label stands for the offset of the code in front of its statement, where an instruction
begins. -/
theorem offset_eq {k : Nat} {s : Statement} {name : String}
    (hk : (Statement.readAll r.config.maxArguments (tokenize source))[k]? = some (Except.ok s))
    (hl : s.HasLabel name) :
    ∃ d, HalfwayDraft r hook source
        ((Statement.readAll r.config.maxArguments (tokenize source)).take k) d ∧
      last.locals.offset (last.lastFrom r []).buffer.target name = d.buffer.size ∧
      d.buffer.size ∈ tiles.map Prod.fst := by
  obtain ⟨id, d, hd, hname, hpos⟩ := (c.tracks hr own).declared k s name hk hl
  obtain ⟨-, lines, hready⟩ := tracks_of_compileAll hr c.start (fun s _ => own.reads s) hd
  obtain ⟨d', hhalf, hd', hrest⟩ := c.exists_rest (eq_take_append_cons hk)
  rw [hd] at hd'
  cases hd'
  obtain ⟨-, more, l, hcloses⟩ := c.closes hr own hready hrest
  refine ⟨d, hhalf, ?_, ?_⟩
  · rw [SymbolTable.offset_eq hname, hcloses.target_eq hpos]
  · rw [hready.sound.size_eq]
    exact hcloses.mem_starts ht

/-- A reference to a label is the offset that its name stands for. -/
theorem refers {i j : Nat} {s : Statement} {b : Builtin} {t : Token} {d : Draft}
    (hi : (Statement.readAll r.config.maxArguments (tokenize source))[i]? = some (Except.ok s))
    (hb : b ∈ [Builtin.goto, .set, .testLe, .testEq]) (hs : s.name.text = b.name)
    (hj : s.arguments[j]? = some t) (hkind : t.kind = .symbol)
    (hd : HalfwayDraft r hook source
      ((Statement.readAll r.config.maxArguments (tokenize source)).take i) d)
    (hlookup : ∀ m, d.lookup r t.text = some m → ∃ id, m = .label id) :
    ∃ (k : Nat) (s' : Statement) (instruction : Instruction) (place : Nat),
      (Statement.readAll r.config.maxArguments (tokenize source))[k]? = some (Except.ok s') ∧
      s'.HasLabel t.text ∧ (d.buffer.size, instruction) ∈ tiles ∧
      instruction.opcode.builtin = b ∧
      instruction.operands[j]? = some
        (.label (last.locals.offset (last.lastFrom r []).buffer.target t.text)) ∧
      Codec.decodeAll? (instruction.opcode.layout.take j) p.code p.code.size (d.buffer.size + 1)
        = some (instruction.operands.take j, place) ∧
      Codec.bytesAt? p.code p.code.size place 4 = some
        (bytesOfNat 4 (last.locals.offset (last.lastFrom r []).buffer.target t.text)) := by
  obtain ⟨d', -, hd', hrest⟩ := c.exists_rest (eq_take_append_cons hi)
  have hd := (c.halfway_iff.mp hd).2
  rw [hd] at hd'
  cases hd'
  obtain ⟨-, lines, hready⟩ := tracks_of_compileAll hr c.start (fun s _ => own.reads s) hd
  obtain ⟨op, hop, hform⟩ := hr.exists_call b
  -- the statement emits the instruction, and the others follow
  obtain ⟨_, d₂, heq, hstep, hrest⟩ := exists_of_compileAll_cons hrest
  cases heq
  obtain ⟨d₁, arguments, l, hkeep, h₁, harguments, hl⟩ :=
    (Drafting.statement_call_ensures hr hready (hs ▸ hop) hform).of_ok hstep
  obtain ⟨id, hid, rfl, hpayload⟩ :=
    hl.refers hr.sound hb hop harguments hj hkind (hkeep _ hlookup)
  have hready₂ := hl.ready h₁
  have hname := keeps_of_compileAll hr hready₂ (fun s _ => own.reads s) hrest hid
  obtain ⟨-, more, exit, hcloses⟩ := c.closes hr own hready₂ hrest
  have hcarries := hcloses.carries
  -- the label has a position in the end, so some statement declares it
  have hpiece : .label id ∈ piecesOf (lines ++ [l] ++ more ++ [exit]) := by
    refine List.mem_flatMap.mpr ⟨l, by simp, List.mem_cons_of_mem _ ?_⟩
    exact List.mem_map.mpr ⟨_, List.mem_of_getElem? hpayload, rfl⟩
  have hplaced := hcloses.targets id hpiece
  rw [CodeBuffer.isDefined, CodeBuffer.position?, hcloses.labels] at hplaced
  obtain ⟨place, hplace⟩ := Option.isSome_iff_exists.mp hplaced
  obtain ⟨k, s', -, hk, hs', -⟩ := (c.tracks hr own).placed _ id place hname hplace
  have hprefix : lines ++ [l] <+: lines ++ [l] ++ more ++ [exit] := by simp
  obtain ⟨rest, hcode, hm⟩ := hcarries.split hprefix
  have hlen : (assemble (last.lastFrom r []).buffer.target (piecesOf lines)).length
      = codeSize lines := length_assemble
  have hreach := Instruction.inReach_of_fetch (hcarries.fetch hprefix)
  rw [← hlen] at hreach
  obtain ⟨q, hdecode, hbytes⟩ :=
    Line.bytesAt?_label (hcarries.sound l hm).fits hcode (hcarries.range l hm) hreach hpayload
  rw [hlen] at hdecode
  rw [SymbolTable.offset_eq hname, hready.sound.size_eq]
  refine ⟨k, s', l.instruction _ (codeSize lines), q, hk, hs', ?_, rfl, ?_, hdecode, hbytes⟩
  · have hmem := Line.mem_tiles (last.lastFrom r []).buffer.target 0 lines l (more ++ [exit])
    rw [ht.unique hcloses.tiling]
    simpa using hmem
  · rw [Line.instruction, Payload.operands_getElem?, hpayload]
    rfl

/-- The code ends with `exit`. -/
theorem ends :
    ∃ instruction, (last.buffer.size, instruction) ∈ tiles ∧ instruction.opcode.builtin = .exit ∧
      instruction.next = p.code.size := by
  obtain ⟨-, lines, hready⟩ := tracks_of_compileAll hr c.start (fun s _ => own.reads s) c.all
  obtain ⟨l, hcloses⟩ := (finish_of_ready hr source hready c.small).2 p c.finish
  obtain ⟨op, o, hop, hsel, hyields, -⟩ := hcloses.writes
  obtain rfl := Registry.select_exit hr hop hsel
  obtain ⟨version, rfl⟩ := hyields.eq_of_builtin
  refine ⟨Line.instruction (last.lastFrom r []).buffer.target (codeSize lines)
    ⟨.exit, version, [].map Argument.payload⟩, ?_, rfl, ?_⟩
  · have hmem := Line.mem_tiles (last.lastFrom r []).buffer.target 0 lines
      ⟨.exit, version, [].map Argument.payload⟩ []
    rw [ht.unique hcloses.tiling, hready.sound.size_eq]
    simpa using hmem
  · rw [Program.Carries.next_eq, ← Array.length_toList, hcloses.carries.code, length_assemble]
    rfl

end Compilation

end Draft

/-- Every name of a label in a script stands for one offset: that of the code that was reached when
the statement with that label came up, which nothing else in the script has.  An instruction begins
there, be it the final one.  What a `goto` or a test has in the place of such a name is that offset,
lowest byte first.  Different names stand for different labels. -/
theorem named_labels_resolve {r : Registry} (hr : r.Built) (own : r.OwnForms)
    {hook : Option HookSignature} {source : String} {p : Program}
    (h : compile r hook source = .ok p) (small : p.code.size < UInt32.size)
    {statements : List (Except SyntaxError Statement)}
    (hread : Statement.readAll r.config.maxArguments (tokenize source) = statements) :
    ∃ (tiles : List (Nat × Instruction)) (offset : String → Nat), p.Tiling 0 tiles ∧
      (∀ (k : Nat) (s : Statement) (name : String), statements[k]? = some (Except.ok s) →
        s.HasLabel name →
        (∃ d, HalfwayDraft r hook source (statements.take k) d ∧ offset name = d.buffer.size) ∧
          offset name ∈ tiles.map Prod.fst ∧
          (∀ (k' : Nat) (s' : Statement), statements[k']? = some (Except.ok s') →
            s'.HasLabel name → k' = k) ∧
          ∀ done d m, HalfwayDraft r hook source done d → d.lookup r name = some m →
            ∃ id, m = .label id) ∧
      (∀ (i : Nat) (s : Statement) (b : Builtin) (j : Nat) (t : Token),
        statements[i]? = some (Except.ok s) → b ∈ [Builtin.goto, .testLe, .testEq] →
        s.name.text = b.name → s.arguments[j]? = some t → t.kind = .symbol →
        ∃ d, HalfwayDraft r hook source (statements.take i) d ∧
          ((∀ m, d.lookup r t.text = some m → ∃ id, m = .label id) →
          ∃ (k : Nat) (s' : Statement) (instruction : Instruction) (place : Nat),
            statements[k]? = some (Except.ok s') ∧ s'.HasLabel t.text ∧
            (d.buffer.size, instruction) ∈ tiles ∧ instruction.opcode.builtin = b ∧
            instruction.operands[j]? = some (.label (offset t.text)) ∧
            Codec.decodeAll? (instruction.opcode.layout.take j) p.code p.code.size
              (d.buffer.size + 1) = some (instruction.operands.take j, place) ∧
            Codec.bytesAt? p.code p.code.size place 4 = some (bytesOfNat 4 (offset t.text)))) ∧
      (∃ d instruction, HalfwayDraft r hook source statements d ∧
        (d.buffer.size, instruction) ∈ tiles ∧ instruction.opcode.builtin = .exit ∧
        instruction.next = p.code.size) ∧
      ∀ done d, HalfwayDraft r hook source done d → d.locals.Distinct := by
  subst hread
  obtain ⟨first, last, c⟩ := Draft.exists_compilation h small
  obtain ⟨-, more, l, hcloses⟩ := c.closes hr own (Draft.start_ready hr.sound c.start).1 c.all
  have ht := hcloses.tiling
  refine ⟨_, last.locals.offset (last.lastFrom r []).buffer.target, ht, ?_, ?_, ?_, ?_⟩
  · intro k s name hk hl
    obtain ⟨d, hd, hoffset, hstart⟩ := c.offset_eq hr own ht hk hl
    refine ⟨⟨d, hd, hoffset⟩, hoffset ▸ hstart, fun k' s' hk' hl' => ?_, fun done d m hd hm => ?_⟩
    · exact (c.tracks hr own).unique k' k s' s name hk' hk hl' hl
    · exact c.label_of_lookup hr own hk hl hd hm
  · intro i s b j t hi hb hs hj hkind
    obtain ⟨d, hd, -⟩ := c.exists_rest (Draft.eq_take_append_cons hi)
    have hb : b ∈ [Builtin.goto, .set, .testLe, .testEq] := by
      simp only [List.mem_cons] at hb ⊢
      tauto
    exact ⟨d, hd, c.refers hr own ht hi hb hs hj hkind hd⟩
  · obtain ⟨instruction, hrest⟩ := c.ends hr own ht
    exact ⟨last, instruction, c.halfway_iff.mpr ⟨List.prefix_refl _, c.all⟩, hrest⟩
  · intro done d hd
    exact (Draft.tracks_of_compileAll hr c.start (fun s _ => own.reads s)
      (c.halfway_iff.mp hd).2).1.distinct

/-- A script that jumps back and forth, into a block and to its end. -/
def wanderingScript : String :=
  "goto entry; again: add r0 1; if le r0 4; goto back; leave: end; " ++
    "back: test_le r0 2 again leave; goto done; entry: goto again; done: var int x;"

/-- The statement has the given name, and the name of the label as its first argument. -/
def Statement.leadsTo (s : Statement) (name label : String) : Bool :=
  match s.arguments with
  | t :: _ => s.name.text == name && (t.text == label && t.kind == .symbol)
  | [] => false

theorem named_labels_resolve_wanderingScript : ∃ r p tiles, ∃ offset : String → Nat,
    ∃ instruction : Instruction, ∃ place,
      Registry.standard? {} = .ok r ∧ r.Built ∧ r.OwnForms ∧
        compile r none wanderingScript = .ok p ∧ p.code.size < UInt32.size ∧ p.Tiling 0 tiles ∧
        offset "back" ∈ tiles.map Prod.fst ∧ instruction.opcode.builtin = .goto ∧
        instruction.operands[0]? = some (.label (offset "back")) ∧
        Codec.bytesAt? p.code p.code.size place 4 = some (bytesOfNat 4 (offset "back")) := by
  obtain ⟨r, hr, h⟩ := Registry.exists_standard {} (fun r =>
    let statements := Statement.readAll r.config.maxArguments (tokenize wanderingScript)
    r.operations.toList.all (fun op => !op.2.form.isCustom) &&
      ((compile r none wanderingScript).toOption.any (fun p : Program =>
        decide (p.code.size < UInt32.size)) &&
      ((statements[3]?.bind Except.toOption).any (·.leadsTo Builtin.goto.name "back") &&
      (statements[5]?.bind Except.toOption).any fun s : Statement =>
        decide (s.label.map (·.text) = some "back")))) (by decide +kernel)
  simp only [Bool.and_eq_true] at h
  obtain ⟨hown, hp, hjump, hlabel⟩ := h
  obtain ⟨p, hp, hsmall⟩ := exists_ok hp
  have hsmall : p.code.size < UInt32.size := of_decide_eq_true hsmall
  have hbuilt := Registry.Built.of_standard hr
  have own := Registry.ownForms_of_all hown
  obtain ⟨jump, hjump, hleads⟩ := exists_read hjump
  obtain ⟨target, htarget, hlabel⟩ := exists_read hlabel
  obtain ⟨tiles, offset, ht, hlabels, hrefs, -⟩ :=
    named_labels_resolve hbuilt own hp hsmall rfl
  have hhas : target.HasLabel "back" := by
    simpa [Statement.HasLabel, Option.map_eq_some_iff] using hlabel
  obtain ⟨-, hstart, -, honly⟩ := hlabels 5 target "back" htarget hhas
  -- the first argument of the jump is the name of the label
  cases hargs : jump.arguments with
  | nil => simp [Statement.leadsTo, hargs] at hleads
  | cons t rest =>
    simp only [Statement.leadsTo, hargs, Bool.and_eq_true, beq_iff_eq] at hleads
    obtain ⟨hname, htext, hkind⟩ := hleads
    obtain ⟨d, hd, hrefs⟩ :=
      hrefs 3 jump .goto 0 t hjump (by simp) hname (by simp [hargs]) hkind
    rw [htext] at hrefs
    obtain ⟨-, -, instruction, place, -, -, -, hgoto, hoperand, -, hbytes⟩ :=
      hrefs fun m hm => honly _ d m hd hm
    exact ⟨r, p, tiles, offset, instruction, place, hr, hbuilt, own, hp, hsmall,
      ht, hstart, hgoto, hoperand, hbytes⟩

end HookScript
