/-
The compiler never trips over itself.

The draft of a script begins ready (`Draft.start_ready`) and every statement keeps it so; hence
closing the script has nothing to complain of but the script.

* `Draft.lastFrom` — the draft in which a compilation ends, by an error or not;
* `Draft.TooLong` — the code is so long that the operands of a call are out of reach;
* `Draft.toProgram_of_sound` — a closed script whose labels are all declared becomes a verified
  program, unless it is too long;
* `Overload.CanWrite` — what has been chosen for arguments can be written;
* `compile_never_internal` — no script brings out a defect of the compiler.
-/
import HookScript.Proofs.Compile.Outcome
import HookScript.Proofs.Compile.Statements

namespace HookScript

namespace Draft

variable {r : Registry}

/-! ### The empty script -/

/-- Hook arguments become registers of the script. -/
theorem bindArguments_eq_ok {capacity i : Nat} {arguments : List HookArgument}
    {names names' : SymbolTable}
    (h : bindArguments capacity i arguments names = .ok names')
    (hn : ∀ name meaning, names.find? name = some meaning →
      ∃ index type writable, meaning = .register index type writable ∧ index.toNat < capacity) :
    (arguments = [] ∨ i + arguments.length ≤ capacity) ∧
      ∀ name meaning, names'.find? name = some meaning →
        ∃ index type writable,
          meaning = .register index type writable ∧ index.toNat < capacity := by
  -- the names so far are registers, and each argument adds one
  induction arguments generalizing i names with
  | nil =>
    cases h
    exact ⟨.inl rfl, hn⟩
  | cons a arguments ih =>
    rw [bindArguments] at h
    split at h
    · cases h
    · rename_i hi
      split at h
      · rename_i inserted hins
        obtain ⟨-, rfl⟩ := SymbolTable.insert_eq_ok hins
        obtain ⟨hlen, hfound⟩ := ih h fun name meaning hf => by
          rw [SymbolTable.find?_insert] at hf
          split at hf
          · cases hf
            refine ⟨_, _, _, rfl, ?_⟩
            rw [UInt8.toNat_ofNat']
            omega
          · exact hn name meaning hf
        refine ⟨.inr ?_, hfound⟩
        rcases hlen with rfl | hlen
        · simp
          omega
        · rw [List.length_cons]
          omega
      · cases h

theorem start_ready (hr : r.Sound) {arguments : List HookArgument} {d : Draft}
    (h : start r arguments = .ok d) : d.Ready r [] ∧ d.blocks = [] := by
  rw [start] at h
  split at h
  · cases h
  · rename_i locals hb
    cases h
    obtain ⟨hlen, hfound⟩ := bindArguments_eq_ok hb (by simp [SymbolTable.find?, SymbolTable.empty])
    have hconfig := RegistryConfig.of_fault?_eq_none hr.config
    refine ⟨⟨?_, by simp⟩, rfl⟩
    exact {
      holds := .empty
      written := by simp
      used := by
        show max r.config.inputRegisters arguments.length ≤ r.config.registers
        rcases hlen with rfl | hlen
        · simpa using hconfig.2.1
        · omega
      natives := by simp
      registers := fun name index type writable hf => by
        obtain ⟨_, _, _, heq, hlt⟩ := hfound name _ hf
        cases heq
        exact hlt
      labelCount := Nat.zero_le _
      places := fun label place hp => by simp [CodeBuffer.position?, CodeBuffer.empty] at hp
      named := fun name label hf => by
        obtain ⟨_, _, _, heq, -⟩ := hfound name _ hf
        cases heq
      targets := by simp
      unplaced := by simp [pending]
      waits := by simp
      nodup := List.nodup_nil }

/-- Names that are added for hook arguments are theirs. -/
theorem argument_of_bindArguments {capacity i : Nat} {arguments : List HookArgument}
    {names names' : SymbolTable} (h : bindArguments capacity i arguments names = .ok names')
    {name : String} {meaning : Meaning} (hn : names'.find? name = some meaning) :
    names.find? name = some meaning ∨ ∃ j a, arguments[j]? = some a ∧ a.name = name ∧
      i + j < capacity ∧ meaning = .register (UInt8.ofNat (i + j)) a.type a.writable := by
  induction arguments generalizing i names with
  | nil =>
    cases h
    exact .inl hn
  | cons a arguments ih =>
    rw [bindArguments] at h
    split at h
    · cases h
    · rename_i hi
      split at h
      · rename_i inserted hins
        obtain ⟨-, rfl⟩ := SymbolTable.insert_eq_ok hins
        rcases ih h with hold | ⟨j, b, hj, hname, hlt, hmeaning⟩
        · rw [SymbolTable.find?_insert] at hold
          split at hold
          · rename_i heq
            cases hold
            exact .inr ⟨0, a, rfl, heq, by omega, rfl⟩
          · exact .inl hold
        · refine .inr ⟨j + 1, b, hj, hname, by omega, ?_⟩
          rw [hmeaning, Nat.add_right_comm, Nat.add_assoc]
      · cases h

/-- The names of the empty script are those of hook arguments. -/
theorem argument_of_start {arguments : List HookArgument} {d : Draft}
    (h : start r arguments = .ok d) {name : String} {meaning : Meaning}
    (hn : d.locals.find? name = some meaning) :
    ∃ j a, arguments[j]? = some a ∧ a.name = name ∧ j < r.config.registers ∧
      meaning = .register (UInt8.ofNat j) a.type a.writable := by
  rw [start] at h
  split at h
  · cases h
  · rename_i locals hb
    cases h
    rcases argument_of_bindArguments hb hn with hempty | ⟨j, a, hj, hname, hlt, hmeaning⟩
    · simp [SymbolTable.find?, SymbolTable.empty] at hempty
    · rw [Nat.zero_add] at hlt hmeaning
      exact ⟨j, a, hj, hname, hlt, hmeaning⟩

/-- Each hook argument gets its name. -/
theorem isSome_of_bindArguments {capacity i : Nat} {arguments : List HookArgument}
    {names names' : SymbolTable} (h : bindArguments capacity i arguments names = .ok names')
    {name : String} (hn : (names.find? name).isSome = true ∨ ∃ a ∈ arguments, a.name = name) :
    (names'.find? name).isSome = true := by
  induction arguments generalizing i names with
  | nil =>
    cases h
    simpa using hn
  | cons a arguments ih =>
    rw [bindArguments] at h
    split at h
    · cases h
    · split at h
      · rename_i inserted hins
        obtain ⟨-, rfl⟩ := SymbolTable.insert_eq_ok hins
        refine ih h ?_
        rw [SymbolTable.find?_insert]
        rcases hn with hold | ⟨b, hb, rfl⟩
        · refine .inl ?_
          split
          · rfl
          · exact hold
        · rcases List.mem_cons.mp hb with rfl | hb
          · exact .inl (by simp)
          · exact .inr ⟨b, hb, rfl⟩
      · cases h

theorem isSome_of_start {arguments : List HookArgument} {d : Draft}
    (h : start r arguments = .ok d) {a : HookArgument} (ha : a ∈ arguments) :
    (d.locals.find? a.name).isSome = true := by
  rw [start] at h
  split at h
  · cases h
  · rename_i locals hb
    cases h
    exact isSome_of_bindArguments hb (.inr ⟨a, ha, rfl⟩)

theorem register_of_start {arguments : List HookArgument} {d : Draft}
    (h : start r arguments = .ok d) {name : String} {meaning : Meaning}
    (hn : d.locals.find? name = some meaning) :
    ∃ index type writable, meaning = .register index type writable := by
  obtain ⟨j, a, -, -, -, hmeaning⟩ := argument_of_start h hn
  exact ⟨_, _, _, hmeaning⟩

/-- There is a register for each hook argument, and variables have registers behind them. -/
theorem length_of_start {arguments : List HookArgument} {d : Draft}
    (h : start r arguments = .ok d) :
    arguments.length ≤ r.config.registers ∧ arguments.length ≤ d.nextRegister := by
  rw [start] at h
  split at h
  · cases h
  · rename_i locals hb
    cases h
    obtain ⟨hlen, -⟩ := bindArguments_eq_ok hb (by simp [SymbolTable.find?, SymbolTable.empty])
    refine ⟨?_, ?_⟩
    · rcases hlen with rfl | hlen
      · exact Nat.zero_le _
      · rwa [Nat.zero_add] at hlen
    · exact Nat.le_trans (Nat.le_max_right _ _) (Nat.le_max_left _ _)

/-- The number of registers that an empty script has in use, and the first one that is free. -/
theorem counts_of_start {arguments : List HookArgument} {d : Draft}
    (h : start r arguments = .ok d) :
    d.registersUsed = max r.config.inputRegisters arguments.length ∧
      d.nextRegister = max d.registersUsed (standingCount r.globals) := by
  rw [start] at h
  split at h <;> cases h
  exact ⟨rfl, rfl⟩

theorem forward_of_start {arguments : List HookArgument} {d : Draft}
    (h : start r arguments = .ok d) : d.forward = #[] := by
  rw [start] at h
  split at h
  · cases h
  · cases h
    rfl

/-! ### Whole scripts -/

/-- The draft in which the compilation of statements ends, by an error or by the final `exit`. -/
def lastFrom (r : Registry) (d : Draft) : List (Except SyntaxError Statement) → Draft
  | [] =>
    match d.openEnd? with
    | some _ => d
    | none =>
      match Drafting.emitNamed r Builtin.exit.name [] d with
      | .ok () closed => closed
      | .error _ failed => failed
  | .error _ :: _ => d
  | .ok s :: rest =>
    match Drafting.statement r s d with
    | .ok () d => d.lastFrom r rest
    | .error _ failed => failed

/-- The first of the statements that are compiled has been read, and the others go on from the draft
that it leads to. -/
theorem exists_of_compileAll_cons {source : String} {next : Except SyntaxError Statement}
    {rest : List (Except SyntaxError Statement)} {d d' : Draft}
    (h : d.compileAll r source (next :: rest) = .ok d') :
    ∃ s d₁, next = .ok s ∧ Drafting.statement r s d = .ok () d₁ ∧
      d₁.compileAll r source rest = .ok d' := by
  cases next with
  | error e => cases h
  | ok s =>
    rw [compileAll] at h
    cases hs : Drafting.statement r s d with
    | ok u d₁ =>
      rw [hs] at h
      exact ⟨s, d₁, rfl, hs, h⟩
    | error kind failed =>
      rw [hs] at h
      cases h

theorem compileAll_append (r : Registry) (source : String)
    (done rest : List (Except SyntaxError Statement)) (d : Draft) :
    d.compileAll r source (done ++ rest)
      = (d.compileAll r source done >>= fun d' => d'.compileAll r source rest) := by
  induction done generalizing d with
  | nil => rfl
  | cons next done ih =>
    cases next with
    | error e => rfl
    | ok s =>
      rw [List.cons_append, compileAll, compileAll]
      cases Drafting.statement r s d with
      | ok u d' => exact ih d'
      | error kind failed => rfl

theorem compileAll_snoc {source : String} {done : List (Except SyntaxError Statement)}
    {s : Statement} {d d' d'' : Draft} (h : d.compileAll r source done = .ok d')
    (hs : Drafting.statement r s d' = .ok () d'') :
    d.compileAll r source (done ++ [.ok s]) = .ok d'' := by
  have hlast : d'.compileAll r source [.ok s] = .ok d'' := by
    rw [compileAll, hs]
    rfl
  rw [compileAll_append, h]
  exact hlast

/-- The last one goes on from the draft that the others lead to. -/
theorem exists_of_compileAll_snoc {source : String} {done : List (Except SyntaxError Statement)}
    {next : Except SyntaxError Statement} {d d' : Draft}
    (h : d.compileAll r source (done ++ [next]) = .ok d') :
    ∃ s d₁, next = .ok s ∧ d.compileAll r source done = .ok d₁ ∧
      Drafting.statement r s d₁ = .ok () d' := by
  rw [compileAll_append] at h
  obtain ⟨d₁, hdone, h⟩ := exists_of_bind_eq_ok h
  obtain ⟨s, d₂, rfl, hs, h⟩ := exists_of_compileAll_cons h
  cases h
  exact ⟨s, d₁, rfl, hdone, hs⟩

theorem eq_take_append_cons {statements : List (Except SyntaxError Statement)} {i : Nat}
    {s : Statement} (h : statements[i]? = some (Except.ok s)) :
    statements = statements.take i ++ .ok s :: statements.drop (i + 1) := by
  obtain ⟨hi, heq⟩ := List.getElem?_eq_some_iff.mp h
  rw [← heq, List.getElem_cons_drop, List.take_append_drop]

theorem lastFrom_append {source : String} {done : List (Except SyntaxError Statement)}
    {d d' : Draft} (h : d.compileAll r source done = .ok d')
    (rest : List (Except SyntaxError Statement)) :
    d.lastFrom r (done ++ rest) = d'.lastFrom r rest := by
  induction done generalizing d with
  | nil =>
    cases h
    rfl
  | cons next done ih =>
    obtain ⟨s, d₁, rfl, hs, h⟩ := exists_of_compileAll_cons h
    rw [List.cons_append, lastFrom, hs]
    exact ih h

/-- Statement by statement a ready draft remains ready. -/
theorem compileAll_ready (hr : r.Built) (own : r.OwnForms) {source : String}
    {statements : List (Except SyntaxError Statement)} {lines : List Line} {d d' : Draft}
    (h : d.Ready r lines) (hd : d.compileAll r source statements = .ok d') :
    (∃ more, d'.Ready r (lines ++ more)) ∧ d.Grows d' := by
  induction statements generalizing lines d with
  | nil =>
    cases hd
    exact ⟨⟨[], by rwa [List.append_nil]⟩, .refl⟩
  | cons next rest ih =>
    obtain ⟨s, d₁, rfl, hstep, hd⟩ := exists_of_compileAll_cons hd
    obtain ⟨more, h₁, hg₁, -⟩ := (Drafting.statement_ensures hr (own.reads s) h).of_ok hstep
    obtain ⟨⟨more', h'⟩, hg'⟩ := ih h₁ hd
    exact ⟨⟨more ++ more', by rwa [← List.append_assoc]⟩, hg₁.trans hg'⟩

/-- No statement fails for a defect before the code has become too large. -/
theorem compileAll_kind (hr : r.Built) (own : r.OwnForms) {source : String}
    {statements : List (Except SyntaxError Statement)} {lines : List Line} {d : Draft}
    (h : d.Ready r lines) (small : (d.lastFrom r statements).buffer.size < UInt32.size)
    {e : CompileError} (he : d.compileAll r source statements = .error e)
    (defect : CompileError.Defect) : e.kind ≠ .internal defect := by
  induction statements generalizing lines d with
  | nil => cases he
  | cons next rest ih =>
    cases next with
    | error e' =>
      cases he
      exact nofun
    | ok s =>
      have hs := Drafting.statement_ensures hr (own.reads s) h
      rw [compileAll] at he
      rw [lastFrom] at small
      cases hstep : Drafting.statement r s d with
      | error kind failed =>
        rw [hstep] at he small
        cases he
        exact fun hk => absurd (hs.of_error hstep defect hk) (Nat.not_le_of_lt small)
      | ok u d₁ =>
        rw [hstep] at he small
        obtain ⟨more, h₁, -⟩ := hs.of_ok hstep
        exact ih h₁ small he

/-! ### The final instruction -/

theorem mem_piecesOf {lines : List Line} {id : LabelId} (h : .label id ∈ piecesOf lines) :
    ∃ l ∈ lines, .label id ∈ l.payloads := by
  obtain ⟨l, hl, hm⟩ := List.mem_flatMap.mp h
  rcases List.mem_cons.mp hm with heq | hm
  · cases heq
  · obtain ⟨payload, hm, hp⟩ := List.mem_map.mp hm
    cases payload <;> cases hp
    exact ⟨l, hl, hm⟩

/-- A label that was placed before the last line leads to the front of a line. -/
theorem Sound.exists_line {lines : List Line} {l : Line} {d : Draft}
    (h : d.Sound r (lines ++ [l]) []) {label : LabelId} {place : Nat}
    (hp : d.buffer.position? label = some place) (hle : place ≤ codeSize lines) :
    d.buffer.target label < UInt32.size ∧
      ∃ done first rest, lines ++ [l] = done ++ first :: rest ∧
        d.buffer.target label = codeSize done := by
  obtain ⟨hlt, done, ⟨rest, hrest⟩, rfl⟩ := h.places label place hp
  have ht : d.buffer.target label = codeSize done := by
    rw [CodeBuffer.target, hp]
    rfl
  refine ⟨ht ▸ hlt, done, ?_⟩
  cases rest with
  | nil =>
    -- the label would lie behind the last line
    have hsize := congrArg codeSize hrest
    have hpos := l.size_pos
    simp only [List.append_nil, codeSize_append, codeSize_cons] at hsize
    omega
  | cons first rest => exact ⟨first, rest, hrest.symm, ht⟩

/-- The code has become so long that verification takes one of its calls, whose operands begin where
positions need more than 32 bits, for an instruction that is cut short. -/
structure TooLong (d : Draft) (place : Nat) : Prop where
  size : UInt32.size ≤ d.buffer.size
  refused : d.toProgram = .error (.internal (.verification (.truncated place)))

/-- A closed script whose labels all have positions becomes a program that passes verification,
unless its code is too long. -/
theorem toProgram_of_sound (hr : r.Sound) {lines : List Line} {l : Line} {d : Draft}
    (h : d.Sound r (lines ++ [l]) [])
    (hd : ∀ l' ∈ lines ++ [l], ∀ label, .label label ∈ l'.payloads →
      ∃ place, d.buffer.position? label = some place ∧ place ≤ codeSize lines) :
    (∃ p, d.toProgram = .ok p ∧
      p.code = (assemble d.buffer.target (piecesOf (lines ++ [l]))).toArray ∧
      p.registers.toNat = d.registersUsed ∧ p.natives = d.natives ∧ p.verify = .ok ()) ∨
    ∃ place, d.TooLong place := by
  have hdefined : ∀ id, .label id ∈ piecesOf (lines ++ [l]) → d.buffer.isDefined id = true := by
    intro id hm
    obtain ⟨l', hl', hm⟩ := mem_piecesOf hm
    obtain ⟨place, hp, -⟩ := hd l' hl' id hm
    exact CodeBuffer.isDefined_eq_true_iff.mpr ⟨place, hp⟩
  have hfinish := h.holds.finish_eq_ok_iff.mpr ⟨hdefined, rfl⟩
  have hused : (UInt8.ofNat d.registersUsed).toNat = d.registersUsed := hr.toNat_ofNat h.used
  let p : Program := ⟨(assemble d.buffer.target (piecesOf (lines ++ [l]))).toArray,
    UInt8.ofNat d.registersUsed, d.natives⟩
  have hwritten : ∀ l' ∈ lines ++ [l], l'.Sound p.natives p.registers.toNat := by
    intro l' hl'
    show l'.Sound d.natives (UInt8.ofNat d.registersUsed).toNat
    rw [hused]
    exact h.written l' hl'
  have hplaced : ∀ l' ∈ lines ++ [l], ∀ label, .label label ∈ l'.payloads →
      d.buffer.target label < UInt32.size ∧
        ∃ done first rest, lines ++ [l] = done ++ first :: rest ∧
          d.buffer.target label = codeSize done := by
    intro l' hl' label hm
    obtain ⟨place, hp, hle⟩ := hd l' hl' label hm
    exact h.exists_line hp hle
  by_cases hreach : ∀ tile ∈ Line.tiles d.buffer.target 0 (lines ++ [l]), tile.2.InReach
  · have hverify : p.verify = .ok () :=
      @Program.verify_of_lines p d.buffer.target _ rfl (by simp) hwritten hreach hplaced
    exact .inl ⟨p, toProgram_of_verify hfinish rfl rfl hverify, rfl, hused, rfl, hverify⟩
  · obtain ⟨hsize, place, hverify⟩ := @Program.verify_of_far p d.buffer.target _ rfl hwritten
      (fun l' hl' label hm => (hplaced l' hl' label hm).1) hreach
    have hcode : p.code.size = d.buffer.size :=
      List.size_toArray.trans (length_assemble.trans h.holds.size_eq.symm)
    exact .inr ⟨place, hcode ▸ hsize, toProgram_of_verify_error hfinish rfl rfl hverify⟩

/-- The program `p` is the script whose lines are `lines`, closed by the line `l`. -/
structure Closes (r : Registry) (lines : List Line) (l : Line) (d closed : Draft) (p : Program) :
    Prop where
  blocks : d.blocks = []
  declared : ∀ f ∈ d.forward, d.buffer.isDefined f.label = true
  writes : r.Writes closed.natives Builtin.exit.name [] l
  sound : closed.Sound r (lines ++ [l]) []
  grows : d.Grows closed
  labels : closed.buffer.labels = d.buffer.labels
  targets : ∀ label, .label label ∈ piecesOf (lines ++ [l]) →
    closed.buffer.isDefined label = true
  code : p.code = (assemble closed.buffer.target (piecesOf (lines ++ [l]))).toArray
  registers : p.registers.toNat = closed.registersUsed
  natives : p.natives = closed.natives
  verified : p.verify = .ok ()

theorem undeclared?_eq_none_iff {d : Draft} :
    d.undeclared? = none ↔ ∀ f ∈ d.forward, d.buffer.isDefined f.label = true := by
  rw [undeclared?, Array.find?_eq_none]
  simp only [Bool.not_eq_true', Bool.not_eq_false]

theorem openEnd?_eq_none_iff {d : Draft} :
    d.openEnd? = none ↔ d.blocks = [] ∧ ∀ f ∈ d.forward, d.buffer.isDefined f.label = true := by
  rw [openEnd?, ← undeclared?_eq_none_iff]
  cases d.blocks with
  | nil => simp only [Option.map_eq_none_iff, true_and]
  | cons block outer => simp only [reduceCtorEq, false_and]

theorem openEnd?_kind {d : Draft} {kind : CompileError.Kind} {span : Span}
    (h : d.openEnd? = some (kind, span)) (defect : CompileError.Defect) :
    kind ≠ .internal defect := by
  rw [openEnd?] at h
  split at h
  · cases h
    exact nofun
  · obtain ⟨f, -, heq⟩ := Option.map_eq_some_iff.mp h
    cases heq
    exact nofun

/-- Once the final instruction has been appended, the script is a program, unless it is too long. -/
theorem closes_of_emits (hr : r.Sound) {lines : List Line} {l : Line} {d closed : Draft}
    (h : d.Sound r lines []) (hblocks : d.blocks = [])
    (hdeclared : ∀ f ∈ d.forward, d.buffer.isDefined f.label = true) {op : Operation}
    (hop : r.operation? Builtin.exit.name = some op) (hl : Emits r op [] lines [] l d closed) :
    (∃ p, closed.toProgram = .ok p ∧ Closes r lines l d closed p) ∨
      ∃ place, closed.TooLong place := by
  have hforward := hl.known (by simp)
  obtain ⟨-, hlabels⟩ := hl.frame.same hforward
  have hposition : ∀ label, closed.buffer.position? label = d.buffer.position? label := by
    intro label
    rw [CodeBuffer.position?, CodeBuffer.position?, hlabels]
  -- every label in use was placed before the final line was appended
  have hplaced : ∀ l' ∈ lines ++ [l], ∀ label, .label label ∈ l'.payloads →
      ∃ place, closed.buffer.position? label = some place ∧ place ≤ codeSize lines := by
    intro l' hl' label hm
    have hd : d.buffer.isDefined label = true := by
      rcases hl.sound.targets l' hl' label hm with hd | ⟨f, hf, rfl⟩ | hd
      · rwa [CodeBuffer.isDefined, hposition] at hd
      · exact hdeclared f (hforward ▸ hf)
      · cases hd
    obtain ⟨place, hp⟩ := CodeBuffer.isDefined_eq_true_iff.mp hd
    obtain ⟨-, done, ⟨rest, rfl⟩, rfl⟩ := h.places label place hp
    refine ⟨_, (hposition label).trans hp, ?_⟩
    rw [codeSize_append]
    exact Nat.le_add_right _ _
  refine (toProgram_of_sound hr hl.sound hplaced).imp_left ?_
  rintro ⟨p, hp, hcode, hregisters, hnatives, hverify⟩
  refine ⟨p, hp, hblocks, hdeclared, hl.writes hop hforward, hl.sound, hl.grows, hlabels,
    fun label hm => ?_, hcode, hregisters, hnatives, hverify⟩
  obtain ⟨l', hl', hm⟩ := mem_piecesOf hm
  obtain ⟨place, hp, -⟩ := hplaced l' hl' label hm
  exact CodeBuffer.isDefined_eq_true_iff.mpr ⟨place, hp⟩

/-- A ready script is closed without a defect. -/
theorem finish_of_ready (hr : r.Built) (source : String) {lines : List Line} {d : Draft}
    (h : d.Ready r lines) (small : (d.lastFrom r []).buffer.size < UInt32.size) :
    (∀ e, d.finish r source = .error e → ∀ defect, e.kind ≠ .internal defect) ∧
      ∀ p, d.finish r source = .ok p → ∃ l, Closes r lines l d (d.lastFrom r []) p := by
  rw [finish]
  rw [lastFrom] at small ⊢
  cases hend : d.openEnd? with
  | some fault =>
    refine ⟨fun e he defect => ?_, fun p hp => (by cases hp)⟩
    cases he
    exact openEnd?_kind hend defect
  | none =>
    obtain ⟨hblocks, hdeclared⟩ := openEnd?_eq_none_iff.mp hend
    have hpending : d.pending = [] := by simp [pending, hblocks]
    have hsound := h.sound
    rw [hpending] at hsound
    have hemit := Drafting.emitNamed_ensures hr .exit hsound [] (by simp)
    rw [hend] at small
    cases hstep : Drafting.emitNamed r Builtin.exit.name [] d with
    | error kind failed =>
      rw [hstep] at small
      refine ⟨fun e he defect hdefect => ?_, fun p hp => (by cases hp)⟩
      cases he
      exact absurd (hemit.of_error hstep defect hdefect) (Nat.not_le_of_lt small)
    | ok u closed =>
      obtain ⟨op, l, hop, hl⟩ := hemit.of_ok hstep
      rw [hstep] at small
      rcases closes_of_emits hr.sound hsound hblocks hdeclared hop hl with
        ⟨p, hp, hcloses⟩ | ⟨place, hlong⟩
      · simp only [hp]
        refine ⟨fun e he => (by cases he), fun p' hp' => ?_⟩
        cases hp'
        exact ⟨l, hcloses⟩
      · exact absurd hlong.size (Nat.not_le_of_lt small)

end Draft

/-! ### Chosen overloads -/

/-- The overload can be written with the given choices and operands: a builtin instruction has an
opcode for the version, a host function is registered in that version, and its operands fit a
block. -/
def Overload.CanWrite (r : Registry) (o : Overload) (chosen : List (Nat × Payload)) : Prop :=
  let version := versionOf o.params (chosen.map Prod.fst)
  match o.target with
  | .builtin base => base + version < 256
  | .native first => ∃ binding block, r.native? (first + version) = some binding ∧
    Drafting.operandBlock binding.layout (chosen.map Prod.snd) = .ok block ∧ block.length < 256

/-- Whatever labels its unknown names become, an overload that has been chosen can be written. -/
theorem Operation.select_canWrite {r : Registry} (hr : r.Sound) {name : String} {op : Operation}
    (hop : r.operation? name = some op) {arguments bound : List Argument} {o : Overload}
    (hsel : op.select r arguments = .ok o) (hb : List.Forall₂ Argument.Binds arguments bound) :
    ∃ chosen, Overload.Chosen o.params bound chosen ∧ o.CanWrite r chosen := by
  obtain ⟨ho, score, hfits, -⟩ := select_eq_ok hsel
  have hs := Overload.forall_of_totalScore? hfits
  obtain ⟨chosen, hchosen⟩ := Overload.Chosen.of_score hs hb
  refine ⟨chosen, hchosen, ?_⟩
  have hversion := versionOf_lt hchosen.valid
  have henc := hchosen.encodable
  cases hr.overloads name op hop o ho with
  | builtin b doc named =>
    rw [← b.versions_eq] at hversion
    exact (b.find?_version hversion).1
  | @native params first doc routine ofHost few entered =>
    have hlabel := Drafting.not_label_of_ofHost ofHost hs hb
    have hplain : ∀ o ∈ bound.map Argument.payload, o.Plain 256 := by
      intro o ho
      obtain ⟨b, -, rfl⟩ := List.mem_map.mp ho
      cases b with
      | register index _ _ => exact index.toNat_lt
      | constant _ | label _ | typeName _ | unknown _ => trivial
    have hblock := Drafting.operandBlock_eq_ok henc hlabel
    refine ⟨_, _, entered _ hversion, hchosen.payloads ▸ hblock, ?_⟩
    rw [length_assemble, hchosen.payloads]
    exact Drafting.sizeOfPieces_lt hs hb few hplain

/-! ### Whole compilations -/

/-- The draft in which a compilation ends, if it begins. -/
def lastDraft? (r : Registry) (hook : Option HookSignature) (source : String) : Option Draft :=
  (Draft.start r ((hook.map (·.arguments)).getD [])).toOption.map fun d =>
    d.lastFrom r (Statement.readAll r.config.maxArguments (tokenize source))

/-- The number of bytes that a compilation emits. -/
def emittedSize (r : Registry) (hook : Option HookSignature) (source : String) : Nat :=
  (lastDraft? r hook source).elim 0 fun d => d.buffer.size

/-- The statements `done`, with which the script begins, lead to the draft. -/
def HalfwayDraft (r : Registry) (hook : Option HookSignature) (source : String)
    (done : List (Except SyntaxError Statement)) (d : Draft) : Prop :=
  done <+: Statement.readAll r.config.maxArguments (tokenize source) ∧
    ∃ first, Draft.start r ((hook.map (·.arguments)).getD []) = .ok first ∧
      first.compileAll r source done = .ok d

/-- Labels that have been placed after some statements stay where they are. -/
theorem HalfwayDraft.position?_eq {r : Registry} (hr : r.Built) (own : r.OwnForms)
    {hook : Option HookSignature} {source : String}
    {done more : List (Except SyntaxError Statement)} {d d' : Draft}
    (h : HalfwayDraft r hook source done d)
    (h' : HalfwayDraft r hook source (done ++ more) d') {label : LabelId} {place : Nat}
    (hp : d.buffer.position? label = some place) : d'.buffer.position? label = some place := by
  obtain ⟨-, first, hfirst, hd⟩ := h
  obtain ⟨-, first', hfirst', hd'⟩ := h'
  rw [hfirst] at hfirst'
  cases hfirst'
  rw [Draft.compileAll_append, hd] at hd'
  obtain ⟨hstart, -⟩ := Draft.start_ready hr.sound hfirst
  obtain ⟨⟨lines, hready⟩, -⟩ := Draft.compileAll_ready hr own hstart hd
  exact (Draft.compileAll_ready hr own hready hd').2.positions label place hp

/-- The arguments of a hook can only be too many, or have one name twice. -/
theorem Draft.start_kind {r : Registry} {arguments : List HookArgument}
    {kind : CompileError.Kind} (h : start r arguments = .error kind) : kind.BlamesWords := by
  have bind : ∀ {arguments : List HookArgument} {i : Nat} {names : SymbolTable},
      bindArguments r.config.registers i arguments names = .error kind → kind.BlamesWords := by
    intro arguments
    induction arguments with
    | nil => exact fun h => by cases h
    | cons a arguments ih =>
      intro i names h
      rw [bindArguments] at h
      split at h
      · cases h
        simp
      · split at h
        · exact ih h
        · cases h
          simp
  rw [start] at h
  split at h
  · rename_i hb
    cases h
    exact bind hb
  · cases h

/-- How a program comes about: its statements lead to a draft, which is closed. -/
theorem exists_drafts_of_compile {r : Registry} {hook : Option HookSignature} {source : String}
    {p : Program} (h : compile r hook source = .ok p) :
    ∃ first d, Draft.start r ((hook.map (·.arguments)).getD []) = .ok first ∧
      first.compileAll r source
        (Statement.readAll r.config.maxArguments (tokenize source)) = .ok d ∧
      d.finish r source = .ok p ∧ lastDraft? r hook source = some (d.lastFrom r []) := by
  rw [compile, compileWith] at h
  cases hfirst : Draft.start r ((hook.map (·.arguments)).getD []) with
  | error kind =>
    rw [hfirst] at h
    cases h
  | ok first =>
    rw [hfirst] at h
    simp only at h
    obtain ⟨d, hd, h⟩ := exists_of_bind_eq_ok h
    have hlast := Draft.lastFrom_append hd []
    rw [List.append_nil] at hlast
    refine ⟨first, d, rfl, hd, h, ?_⟩
    rw [lastDraft?, hfirst, ← hlast]
    rfl

/-- Of a script that is compiled, the code that is emitted is the code of the program. -/
theorem emittedSize_of_compile {r : Registry} {hook : Option HookSignature} {source : String}
    {p : Program} (h : compile r hook source = .ok p) :
    emittedSize r hook source = p.code.size := by
  obtain ⟨first, d, -, -, hfinish, hlast⟩ := exists_drafts_of_compile h
  rw [emittedSize, hlast, Option.elim_some, Draft.lastFrom]
  rw [Draft.finish] at hfinish
  cases hend : d.openEnd? with
  | some fault =>
    rw [hend] at hfinish
    cases hfinish
  | none =>
    rw [hend] at hfinish
    cases hstep : Drafting.emitNamed r Builtin.exit.name [] d with
    | error kind failed =>
      rw [hstep] at hfinish
      cases hfinish
    | ok u closed =>
      rw [hstep] at hfinish
      cases hp : closed.toProgram with
      | error kind =>
        simp only [hp] at hfinish
        cases hfinish
      | ok p' =>
        simp only [hp] at hfinish
        cases hfinish
        exact (CodeBuffer.size_of_finish (Draft.of_toProgram hp).1).symm

/-- Where the compiler gives up, it is the script that is to blame. -/
theorem compile_kind {r : Registry} (hr : r.Built) (own : r.OwnForms)
    {hook : Option HookSignature} {source : String}
    (small : emittedSize r hook source < UInt32.size) {e : CompileError}
    (he : compile r hook source = .error e) : ∀ defect, e.kind ≠ .internal defect := by
  rw [compile, compileWith] at he
  cases hfirst : Draft.start r ((hook.map (·.arguments)).getD []) with
  | error kind =>
    rw [hfirst] at he
    cases he
    exact (Draft.start_kind hfirst).1
  | ok first =>
    rw [hfirst] at he
    simp only at he
    obtain ⟨hready, -⟩ := Draft.start_ready hr.sound hfirst
    have hsmall : (first.lastFrom r
        (Statement.readAll r.config.maxArguments (tokenize source))).buffer.size
          < UInt32.size := by
      rwa [emittedSize, lastDraft?, hfirst] at small
    cases hd : first.compileAll r source
        (Statement.readAll r.config.maxArguments (tokenize source)) with
    | error e' =>
      rw [hd] at he
      cases he
      exact Draft.compileAll_kind hr own hready hsmall hd
    | ok d =>
      rw [hd] at he
      obtain ⟨⟨more, h'⟩, -⟩ := Draft.compileAll_ready hr own hready hd
      have hlast := Draft.lastFrom_append hd []
      rw [List.append_nil] at hlast
      rw [hlast] at hsmall
      exact (Draft.finish_of_ready hr source h' hsmall).1 e he

/-- On the way to a program there is a draft in front of each statement. -/
theorem exists_halfway {r : Registry} {hook : Option HookSignature} {source : String}
    {p : Program} (h : compile r hook source = .ok p)
    {done rest : List (Except SyntaxError Statement)}
    (heq : Statement.readAll r.config.maxArguments (tokenize source) = done ++ rest) :
    ∃ d, HalfwayDraft r hook source done d := by
  obtain ⟨first, last, hfirst, hall, -, -⟩ := exists_drafts_of_compile h
  rw [heq, Draft.compileAll_append] at hall
  obtain ⟨d, hd, -⟩ := exists_of_bind_eq_ok hall
  exact ⟨d, ⟨rest, heq.symm⟩, first, hfirst, hd⟩

/-- From a draft on the way to a program, the next statement and those behind it lead to the draft
that is closed. -/
theorem HalfwayDraft.exists_rest {r : Registry} {hook : Option HookSignature} {source : String}
    {p : Program} (h : compile r hook source = .ok p) {i : Nat} {s : Statement} {d : Draft}
    (hi : (Statement.readAll r.config.maxArguments (tokenize source))[i]? = some (Except.ok s))
    (hd : HalfwayDraft r hook source
      ((Statement.readAll r.config.maxArguments (tokenize source)).take i) d) :
    ∃ first d' last rest, Draft.start r ((hook.map (·.arguments)).getD []) = .ok first ∧
      first.compileAll r source
        ((Statement.readAll r.config.maxArguments (tokenize source)).take i) = .ok d ∧
      Drafting.statement r s d = .ok () d' ∧ d'.compileAll r source rest = .ok last ∧
      last.finish r source = .ok p := by
  obtain ⟨first, last, hfirst, hall, hfinish, -⟩ := exists_drafts_of_compile h
  obtain ⟨-, first', hfirst', hdone⟩ := hd
  rw [hfirst] at hfirst'
  cases hfirst'
  rw [Draft.eq_take_append_cons hi, Draft.compileAll_append, hdone] at hall
  have hrest : d.compileAll r source (.ok s ::
      (Statement.readAll r.config.maxArguments (tokenize source)).drop (i + 1)) = .ok last := hall
  obtain ⟨_, d', heq, hs, hrest⟩ := Draft.exists_of_compileAll_cons hrest
  cases heq
  exact ⟨first, d', last, _, hfirst, hdone, hs, hrest, hfinish⟩

/-- The draft of a program is ready before it is closed. -/
theorem exists_closes {r : Registry} (hr : r.Built) (own : r.OwnForms)
    {hook : Option HookSignature} {source : String} {p : Program}
    (small : emittedSize r hook source < UInt32.size) (h : compile r hook source = .ok p) :
    ∃ first d lines l, Draft.start r ((hook.map (·.arguments)).getD []) = .ok first ∧
      first.compileAll r source
        (Statement.readAll r.config.maxArguments (tokenize source)) = .ok d ∧
      d.Ready r lines ∧ d.Closes r lines l (d.lastFrom r []) p ∧
      lastDraft? r hook source = some (d.lastFrom r []) := by
  obtain ⟨first, d, hfirst, hd, hfinish, hlast⟩ := exists_drafts_of_compile h
  obtain ⟨hready, -⟩ := Draft.start_ready hr.sound hfirst
  obtain ⟨⟨more, h'⟩, -⟩ := Draft.compileAll_ready hr own hready hd
  rw [emittedSize, hlast] at small
  obtain ⟨l, hl⟩ := (Draft.finish_of_ready hr source h' small).2 p hfinish
  exact ⟨first, d, _, l, hfirst, hd, h', hl, hlast⟩

/-- No script brings out a defect of the compiler, as long as its code is shorter than 2^32 bytes.
A program that comes out has passed verification and uses no more registers than there are, and all
labels in its code have been placed.  A label that has been placed stays where it is.  Whatever
overload is chosen for arguments can be written. -/
theorem compile_never_internal {r : Registry} (hr : r.Built) (own : r.OwnForms)
    (hook : Option HookSignature) (source : String)
    (small : emittedSize r hook source < UInt32.size) :
    (∀ e, compile r hook source = .error e → ∀ defect, e.kind ≠ .internal defect) ∧
      (∀ p, compile r hook source = .ok p → p.verify = .ok () ∧
        p.registers.toNat ≤ r.config.registers ∧
        ∃ last, lastDraft? r hook source = some last ∧ last.buffer.finish = .ok p.code ∧
          (∀ waiting ∈ last.buffer.placeholders,
            ∃ place, last.buffer.position? waiting.label = some place) ∧
          ∀ done d, HalfwayDraft r hook source done d → ∀ label place,
            d.buffer.position? label = some place → last.buffer.position? label = some place) ∧
      (∀ done more d d', HalfwayDraft r hook source done d →
        HalfwayDraft r hook source (done ++ more) d' → ∀ label place,
          d.buffer.position? label = some place → d'.buffer.position? label = some place) ∧
      ∀ name op arguments bound o, r.operation? name = some op →
        op.select r arguments = .ok o → List.Forall₂ Argument.Binds arguments bound →
        ∃ chosen, Overload.Chosen o.params bound chosen ∧ o.CanWrite r chosen := by
  refine ⟨fun _ he => compile_kind hr own small he, ?_,
    fun done more d d' hd hd' label place hp => hd.position?_eq hr own hd' hp,
    fun name op arguments bound o hop hsel hb =>
      Operation.select_canWrite hr.sound hop hsel hb⟩
  · intro p hp
    obtain ⟨first, d, lines, l, hfirst, hd, hready, hcloses, hlast⟩ :=
      exists_closes hr own small hp
    have hfinish : (d.lastFrom r []).buffer.finish = .ok p.code :=
      hcloses.sound.holds.finish_eq_ok_iff.mpr ⟨hcloses.targets, hcloses.code⟩
    refine ⟨hcloses.verified, hcloses.registers ▸ hcloses.sound.used, _, hlast, hfinish,
      CodeBuffer.position?_of_finish hfinish, ?_⟩
    rintro done halfway hhalf label place hplace
    obtain ⟨rest, hall⟩ := hhalf.1
    have hend : HalfwayDraft r hook source (done ++ rest) d :=
      ⟨hall ▸ List.prefix_refl _, first, hfirst, hall ▸ hd⟩
    exact hcloses.grows.positions label place (hhalf.position?_eq hr own hend hplace)

/-- A script with a variable, a block and a jump. -/
def doublingScript : String :=
  "var int x 5; if le x r0; add r0 x; else; sub r0 x; end; exit;"

theorem compile_never_internal_doublingScript : ∃ r, Registry.standard? {} = .ok r ∧ r.Built ∧
    r.OwnForms ∧ emittedSize r none doublingScript < UInt32.size ∧
    (∃ p, compile r none doublingScript = .ok p ∧ p.registers.toNat ≤ r.config.registers) ∧
    ∀ e, compile r none doublingScript = .error e → ∀ defect, e.kind ≠ .internal defect := by
  obtain ⟨r, hr, h⟩ := Registry.exists_standard {} (fun r =>
    r.operations.toList.all (fun op => !op.2.form.isCustom) &&
      (decide (emittedSize r none doublingScript < UInt32.size) &&
        (compile r none doublingScript).isOk)) (by decide +kernel)
  rw [Bool.and_eq_true, Bool.and_eq_true, decide_eq_true_eq] at h
  obtain ⟨hown, hsmall, hok⟩ := h
  have hbuilt := Registry.Built.of_standard hr
  have own := Registry.ownForms_of_all hown
  obtain ⟨hne, hp, -⟩ := compile_never_internal hbuilt own none doublingScript hsmall
  refine ⟨r, hr, hbuilt, own, hsmall, ?_, hne⟩
  cases hc : compile r none doublingScript with
  | error e =>
    rw [hc] at hok
    cases hok
  | ok p => exact ⟨p, rfl, (hp p hc).2.1⟩

end HookScript
