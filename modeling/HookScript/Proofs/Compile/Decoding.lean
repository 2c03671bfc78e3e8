/-
Instructions are read back as they were emitted.

The code of a script is written from front to back, but the positions of its labels are filled in at
the end.  An instruction is read back where it was emitted all the same, whatever was in the code
before and whatever is written behind it:

* `CodeBuffer.Becomes` — what a writer can make of a code buffer, and `CodeBuffer.BoundAt` — where
  it has bound a label;
* `Draft.Evolves.becomes` — the compiler is such a writer;
* `Argument.ReadAs` — the operand that an argument is read back as;
* `emitted_instructions_are_read_back` — the machine, verification and the listing of the code find
  the instruction of the arguments, and go on where the next one was written.
-/
import HookScript.Program.Listing
import HookScript.Proofs.Compile.Writing
import HookScript.Proofs.Machine.Execution

namespace HookScript

/-! ### Writers of code -/

namespace CodeBuffer

/-- What a writer of code does: it appends bytes or the position of a label, makes a label, or binds
one that can be bound. -/
inductive Writes : CodeBuffer → CodeBuffer → Prop where
  | bytes (b : CodeBuffer) (bs : List UInt8) : Writes b (b.append bs)
  | label (b : CodeBuffer) (id : LabelId) : Writes b (b.pushLabel id)
  | newLabel (b : CodeBuffer) : Writes b b.newLabel
  | bindLabel {b : CodeBuffer} {id : LabelId} (free : b.labelFault? id = none) :
      Writes b (b.bindLabel id)

/-- What a writer can make of code. -/
def Becomes : CodeBuffer → CodeBuffer → Prop :=
  Relation.ReflTransGen Writes

/-- While the code was written, the label was bound to the position. -/
def BoundAt (whole : CodeBuffer) (label : LabelId) (place : Nat) : Prop :=
  ∃ b, empty.Becomes b ∧ b.labelFault? label = none ∧ b.size = place ∧
    (b.bindLabel label).Becomes whole

theorem Writes.holds {b b' : CodeBuffer} (h : b.Writes b') {pieces : List Piece}
    (hb : b.Holds pieces) : ∃ more, b'.Holds (pieces ++ more) := by
  cases h with
  | bytes bs => exact ⟨_, hb.append bs⟩
  | label id => exact ⟨_, hb.pushLabel id⟩
  | newLabel | bindLabel =>
    refine ⟨[], ?_⟩
    rw [List.append_nil]
    exact ⟨hb.code, hb.placeholders⟩

/-- A label that has a position keeps it. -/
theorem Writes.position?_eq {b b' : CodeBuffer} (h : b.Writes b') {label : LabelId} {place : Nat}
    (hp : b.position? label = some place) : b'.position? label = some place := by
  cases h with
  | bytes | label => exact hp
  | newLabel => rwa [position?_newLabel]
  | bindLabel free =>
    obtain ⟨-, hmade, hnone⟩ := labelFault?_eq_none_iff.mp free
    rw [position?_bindLabel hmade, if_neg, hp]
    rintro rfl
    rw [hnone] at hp
    cases hp

namespace Becomes

variable {b b' b'' : CodeBuffer}

theorem trans (h : b.Becomes b') (h' : b'.Becomes b'') : b.Becomes b'' :=
  Relation.ReflTransGen.trans h h'

theorem tail (h : b.Becomes b') (h' : b'.Writes b'') : b.Becomes b'' :=
  Relation.ReflTransGen.tail h h'

theorem holds (h : b.Becomes b') {pieces : List Piece} (hb : b.Holds pieces) :
    ∃ more, b'.Holds (pieces ++ more) := by
  induction h with
  | refl => exact ⟨[], by rwa [List.append_nil]⟩
  | tail _ step ih =>
    obtain ⟨more, hmore⟩ := ih
    obtain ⟨more', hmore'⟩ := step.holds hmore
    exact ⟨more ++ more', by rwa [← List.append_assoc]⟩

/-- A label has the position that it was bound to, and keeps it. -/
theorem position?_eq_some_iff (h : empty.Becomes b) {label : LabelId} {place : Nat} :
    b.position? label = some place ↔ b.BoundAt label place := by
  constructor
  · intro hp
    induction h with
    | refl => cases hp
    | @tail b b' before step ih =>
      -- either the last step binds the label, or the label had its position before
      have earlier : b.position? label = some place → b'.BoundAt label place := by
        intro hold
        obtain ⟨b₁, hb₁, hfree, hsize, hafter⟩ := ih hold
        exact ⟨b₁, hb₁, hfree, hsize, hafter.tail step⟩
      cases step with
      | bytes | label => exact earlier hp
      | newLabel => exact earlier (by rwa [position?_newLabel] at hp)
      | bindLabel free =>
        rw [position?_bindLabel (labelFault?_eq_none_iff.mp free).2.1] at hp
        split at hp
        · rename_i heq
          cases heq
          cases hp
          exact ⟨b, before, free, rfl, .refl⟩
        · exact earlier hp
  · rintro ⟨b₁, -, hfree, rfl, hafter⟩
    have hbound : (b₁.bindLabel label).position? label = some b₁.size := by
      rw [position?_bindLabel (labelFault?_eq_none_iff.mp hfree).2.1, if_pos rfl, size]
    clear h
    induction hafter with
    | refl => exact hbound
    | tail _ step ih => exact step.position?_eq ih

theorem put (b : CodeBuffer) (pieces : List Piece) : b.Becomes (b.put pieces) := by
  induction pieces generalizing b with
  | nil => exact .refl
  | cons piece pieces ih =>
    cases piece with
    | bytes bs => exact .head (.bytes b bs) (ih _)
    | label id => exact .head (.label b id) (ih _)

end Becomes

theorem BoundAt.lt {b : CodeBuffer} {label : LabelId} {place : Nat} (h : b.BoundAt label place) :
    place < UInt32.size := by
  obtain ⟨b₁, -, hfree, rfl, -⟩ := h
  exact (labelFault?_eq_none_iff.mp hfree).1

/-- No label of code under construction leads beyond the positions that fit an operand. -/
theorem Becomes.target_lt {b : CodeBuffer} (h : empty.Becomes b) (label : LabelId) :
    b.target label < UInt32.size := by
  rw [target]
  cases hp : b.position? label with
  | none => decide
  | some place => exact (h.position?_eq_some_iff.mp hp).lt

end CodeBuffer

/-- Whatever the compiler does, it writes code. -/
theorem Draft.Evolves.becomes {r : Registry} {L : Licence} {d d' : Draft} (h : d.Evolves r L d') :
    d.buffer.Becomes d'.buffer := by
  refine h.preserves (P := fun d' => d.buffer.Becomes d'.buffer) (fun d₁ deed d₂ _ hc hd => ?_)
    .refl
  cases hc with
  | note | touch | await | declare | enter => exact hd
  | newLabel | name => exact hd.tail (.newLabel _)
  | @place label made unplaced small =>
    exact hd.tail (.bindLabel (CodeBuffer.labelFault?_eq_none_iff.mpr ⟨small, made, unplaced⟩))
  | write => exact hd.trans (.put _ _)

/-! ### Names among the arguments -/

/-- The second argument is the first one after unknown names have become labels, which the names
stand for from then on. -/
inductive Argument.BindsIn (names : SymbolTable) : Argument → Argument → Prop where
  | known {a : Argument} (h : ∀ name, a ≠ unknown name) : BindsIn names a a
  | forward {name : String} {id : LabelId} (h : names.find? name = some (.label id)) :
      BindsIn names (unknown name) (label id)

theorem Argument.BindsIn.mono {names names' : SymbolTable} {a b : Argument}
    (h : a.BindsIn names b)
    (hn : ∀ name m, names.find? name = some m → names'.find? name = some m) :
    a.BindsIn names' b := by
  cases h with
  | known h => exact .known h
  | forward h => exact .forward (hn _ _ h)

theorem Argument.BindsIn.binds {names : SymbolTable} {a b : Argument} (h : a.BindsIn names b) :
    a.Binds b := by
  cases h with
  | known h => exact .known h
  | forward _ => exact .forward

namespace Drafting

variable {r : Registry} {L : Licence} {d : Draft}

/-- The labels that unknown names become are what the names stand for from then on. -/
theorem bindForward_names {arguments : List Argument}
    (hp : ∀ name, .unknown name ∈ arguments → L.names name) :
    Leads r L (bindForward arguments) d
      (fun bound d' => List.Forall₂ (Argument.BindsIn d'.locals) arguments bound)
      fun _ => True := by
  induction arguments generalizing d with
  | nil => exact leads_pure .nil
  | cons a arguments ih =>
    have hrest := fun {d : Draft} =>
      @ih d fun name hm => hp name (List.mem_cons_of_mem _ hm)
    cases a with
    | unknown name =>
      refine ((forwardLabel_leads (hp name (by simp))).mono (fun _ _ _ h => h)
        fun _ _ => trivial).bind ?_
      rintro label d₁ - ⟨-, -, hlabel, -⟩
      refine hrest.bind ?_
      rintro bound d₂ he hb
      exact leads_pure (.cons (.forward (he.find?_eq hlabel)) hb)
    | constant _ | register _ _ _ | label _ | typeName _ =>
      refine hrest.bind ?_
      rintro bound d₁ - hb
      exact leads_pure (.cons (.known (by simp)) hb)

/-- Emitting an operation by a builtin instruction appends the instruction, with the operands of the
arguments. -/
theorem emitted_of_builtin {op : Operation} {arguments : List Argument} {b : Builtin}
    {doc : String} {d' : Draft}
    (hsel : op.select r arguments = .ok ⟨b.params, .builtin b.base, doc⟩)
    (h : emit r op arguments d = .ok () d') :
    ∃ bound version d₁, List.Forall₂ (Argument.BindsIn d'.locals) arguments bound ∧
      Line.Fits ⟨b, version, bound.map Argument.payload⟩ ∧
      d.Evolves r (.emitting fun _ => True) d₁ ∧ d.SameCode d₁ ∧
      d' = d₁.put (Line.pieces ⟨b, version, bound.map Argument.payload⟩) := by
  obtain ⟨-, score, hfits, -⟩ := Operation.select_eq_ok hsel
  have hscores := Overload.forall_of_totalScore? hfits
  have hany : ∀ name, .unknown name ∈ arguments → (Licence.emitting fun _ => True).names name :=
    fun _ _ => trivial
  rw [emit, hsel] at h
  cases hbind : bindForward arguments d with
  | error kind d₁ => cases (bind_of_error hbind).symm.trans h
  | ok bound d₁ =>
    replace h := (bind_of_ok hbind).symm.trans h
    obtain ⟨he₁, hnames⟩ := (bindForward_names (r := r) hany).of_ok hbind
    obtain ⟨-, hbinds, hcode₁⟩ := (bindForward_leads (r := r) hany).of_ok hbind
    obtain ⟨chosen, hchosen⟩ := Overload.Chosen.of_score hscores hbinds
    have hpayloads := @payloads_leads r (.emitting fun _ => True) d₁ _ _ _ hchosen fun _ => False
    obtain ⟨answer, d₂, hpay, -⟩ := hpayloads.exists_ok
    obtain ⟨he₂, rfl, hcode₂⟩ := hpayloads.of_ok hpay
    replace h := (bind_of_ok hpay).symm.trans h
    -- what was chosen makes up the version, whose instruction is written
    have hfit : Line.Fits ⟨b, versionOf b.params (answer.map Prod.fst),
        bound.map Argument.payload⟩ :=
      ⟨b.versions_eq ▸ versionOf_lt hchosen.valid, hchosen.encodable⟩
    rw [hchosen.payloads] at h
    cases (emitBuiltin_eq hfit d₂).symm.trans h
    refine ⟨bound, _, d₂, ?_, hfit, he₁.trans he₂, hcode₁.trans hcode₂, rfl⟩
    exact hnames.imp fun _ _ hb => hb.mono fun name m hn => he₂.find?_eq hn

end Drafting

/-! ### Reading -/

namespace CodeBuffer

theorem size_put {b : CodeBuffer} (hb : empty.Becomes b) (pieces : List Piece) :
    (b.put pieces).size = b.size + sizeOfPieces pieces := by
  obtain ⟨front, hfront⟩ := hb.holds .empty
  rw [size, (hfront.put pieces).size_eq, sizeOfPieces_append, ← hfront.size_eq, size]

/-- An instruction that was written is fetched from the finished code, where its labels have been
bound. -/
theorem fetch_of_finish {b whole : CodeBuffer} {l : Line} {code : Array UInt8}
    (before : empty.Becomes b) (fits : l.Fits) (flat : ∀ bs, .raw bs ∉ l.payloads)
    (after : (b.put l.pieces).Becomes whole) (finished : whole.finish = .ok code) :
    Instruction.fetch code b.size = .ok (l.instruction whole.target b.size) ∧
      ∀ id, .label id ∈ l.payloads → whole.BoundAt id (whole.target id) := by
  -- the instruction stands behind the pieces in front of it, and further pieces stand behind it
  obtain ⟨front, hfront⟩ := before.holds .empty
  rw [List.nil_append] at hfront
  obtain ⟨rest, hrest⟩ := after.holds (hfront.put l.pieces)
  obtain ⟨hdefined, rfl⟩ := hrest.finish_eq_ok_iff.mp finished
  have hwhole : empty.Becomes whole := (before.trans (.put b l.pieces)).trans after
  have hcode : (assemble whole.target (front ++ l.pieces ++ rest)).toArray.toList
      = assemble whole.target front ++ assemble whole.target l.pieces
        ++ assemble whole.target rest := by
    rw [assemble_append, assemble_append]
  have hplace : (assemble whole.target front).length = b.size := by
    rw [length_assemble]
    exact hfront.size_eq.symm
  constructor
  · have hreach : (l.instruction whole.target b.size).InReach :=
      Payload.inReach_operands flat _ _
    have hfetch := @Line.fetch_iff _ fits _ _ _ _ hcode (fun id _ => hwhole.target_lt id)
    rw [hplace] at hfetch
    exact hfetch.mpr ⟨hreach, rfl⟩
  · intro id hm
    have hpiece : Piece.label id ∈ front ++ l.pieces ++ rest :=
      List.mem_append_left _ (List.mem_append_right _
        (List.mem_cons_of_mem _ (List.mem_map.mpr ⟨_, hm, rfl⟩)))
    obtain ⟨place, hp⟩ := isDefined_eq_true_iff.mp (hdefined id hpiece)
    rw [target, hp]
    exact hwhole.position?_eq_some_iff.mp hp

end CodeBuffer

/-- The operand is what the argument is read back as in finished code: a constant as an immediate, a
register as itself, a label as the position that it was bound to, and an unknown name as that of the
label that it has become. -/
inductive Argument.ReadAs (names : SymbolTable) (whole : CodeBuffer) :
    Argument → Operand → Prop where
  | constant (value : Int32) : ReadAs names whole (.constant value) (.immediate value)
  | register (index : UInt8) (type : ValueType) (writable : Bool) :
      ReadAs names whole (.register index type writable) (.register index)
  | label {id : LabelId} {place : Nat} (bound : whole.BoundAt id place) :
      ReadAs names whole (.label id) (.label place)
  | unknown {name : String} {id : LabelId} {place : Nat}
      (named : names.find? name = some (.label id)) (bound : whole.BoundAt id place) :
      ReadAs names whole (.unknown name) (.label place)

/-- The instruction stands at the position in the code: the machine fetches it there, verification
checks its operands and goes on behind it, and so does the listing. -/
structure Instruction.StandsAt (code : Array UInt8) (place : Nat) (i : Instruction) : Prop where
  fetched : fetch code place = .ok i
  checked : ∀ p : Program, p.code = code → ∀ byte, code[place]? = some byte →
    (p.checkInstruction place byte = .ok (i.targets, i.next) ↔
      ∀ o ∈ i.operands, o.InUse p.registers)
  listed : ∀ p : Program, p.code = code → ∀ found,
    p.sweepOnto found place = p.sweepOnto (found.push (place, i)) i.next

theorem Program.sweepOnto_of_fetch {p : Program} {place : Nat} {i : Instruction}
    (h : Instruction.fetch p.code place = .ok i) (found : Array (Nat × Instruction)) :
    p.sweepOnto found place = p.sweepOnto (found.push (place, i)) i.next := by
  rw [sweepOnto, if_pos (Instruction.lt_size_of_fetch h)]
  split
  · rename_i he
    rw [h] at he
    cases he
  · rename_i he
    rw [h] at he
    cases he
    rfl

/-- Where an instruction without host functions is fetched, it stands. -/
theorem Instruction.standsAt_of_fetch {code : Array UInt8} {place : Nat} {i : Instruction}
    (h : fetch code place = .ok i)
    (plain : ∀ o ∈ i.operands, o.codec ≠ .native ∧ o.codec ≠ .raw) : i.StandsAt code place := by
  refine ⟨h, fun p hp byte hbyte => ?_, fun p hp found => ?_⟩
  · subst hp
    obtain ⟨hlt, rfl⟩ := Array.getElem?_eq_some_iff.mp hbyte
    rw [Program.checkInstruction_eq_ok_iff hlt, ← Program.accepts_iff_inUse plain]
    constructor
    · rintro ⟨i', hi', haccepts, -⟩
      rw [h] at hi'
      cases hi'
      exact haccepts
    · exact fun haccepts => ⟨i, h, haccepts, rfl, rfl⟩
  · subst hp
    exact Program.sweepOnto_of_fetch h found

namespace Argument

variable {names : SymbolTable} {whole : CodeBuffer}

/-- An argument that fits its parameter is read back, if its label has been bound. -/
theorem ReadAs.of_score {p : Parameter} {a b : Argument} (hs : (a.score p).isSome = true)
    (hb : a.BindsIn names b)
    (hl : ∀ id, b.payload = .label id → whole.BoundAt id (whole.target id)) (place : Nat) :
    a.ReadAs names whole (b.payload.operand whole.target place) := by
  cases hb with
  | forward hnamed => exact .unknown hnamed (hl _ rfl)
  | known hu =>
    cases a with
    | constant value => exact .constant value
    | register index type writable => exact .register index type writable
    | label id => exact .label (hl id rfl)
    | typeName type => cases p <;> simp [score, Parameter.score, Argument.type] at hs
    | unknown name => exact absurd rfl (hu name)

/-- So are all of them, one by one. -/
theorem readAs_operands {params : List Parameter} {arguments bound : List Argument}
    (hs : List.Forall₂ (fun p a => (score a p).isSome = true) params arguments)
    (hb : List.Forall₂ (BindsIn names) arguments bound)
    (hl : ∀ id, .label id ∈ bound.map payload → whole.BoundAt id (whole.target id))
    (place : Nat) :
    List.Forall₂ (ReadAs names whole) arguments
      (Payload.operands whole.target place (bound.map payload)) := by
  induction hs generalizing bound place with
  | nil =>
    cases hb
    exact .nil
  | cons hscore _ ih =>
    cases hb with
    | cons hbind hb =>
      refine .cons (.of_score hscore hbind (fun id hid => hl id ?_) place) (ih hb ?_ _)
      · rw [List.map_cons, hid]
        exact List.mem_cons_self
      · exact fun id hm => hl id (List.mem_cons_of_mem _ hm)

theorem ReadAs.codec_ne {a : Argument} {o : Operand} (h : a.ReadAs names whole o) :
    o.codec ≠ .native ∧ o.codec ≠ .raw := by
  cases h <;> exact ⟨nofun, nofun⟩

end Argument

/-- An instruction that is emitted is read back from the finished code, whatever the writer did
before and does after: at the position where it was appended stands a version of the builtin
instruction, with an operand for each argument, and the next instruction stands where the code went
on. -/
theorem emitted_instructions_are_read_back {r : Registry} {op : Operation}
    {arguments : List Argument} {b : Builtin} {doc : String} {d d' : Draft} {whole : CodeBuffer}
    {code : Array UInt8} (before : CodeBuffer.empty.Becomes d.buffer)
    (selected : op.select r arguments = .ok ⟨b.params, .builtin b.base, doc⟩)
    (emitted : Drafting.emit r op arguments d = .ok () d') (after : d'.buffer.Becomes whole)
    (finished : whole.finish = .ok code) :
    ∃ version operands, version < b.versions ∧
      Instruction.StandsAt code d.buffer.size ⟨b.opcode version, operands, d'.buffer.size⟩ ∧
      List.Forall₂ (Argument.ReadAs d'.locals whole) arguments operands := by
  obtain ⟨bound, version, d₁, hnames, hfits, he, hcode, rfl⟩ :=
    Drafting.emitted_of_builtin selected emitted
  have hd₁ : CodeBuffer.empty.Becomes d₁.buffer := before.trans he.becomes
  -- making labels for names has not changed the size of the code
  have hplace : d₁.buffer.size = d.buffer.size := congrArg Array.size hcode.code
  obtain ⟨hfetch, hlabels⟩ := CodeBuffer.fetch_of_finish hd₁ hfits
    (Argument.raw_notMem_payloads bound) after finished
  have hnext : (d₁.put (Line.pieces ⟨b, version, bound.map Argument.payload⟩)).buffer.size
      = d.buffer.size + Line.size ⟨b, version, bound.map Argument.payload⟩ := by
    rw [← hplace]
    exact CodeBuffer.size_put hd₁ _
  obtain ⟨-, score, hscore, -⟩ := Operation.select_eq_ok selected
  have hread := Argument.readAs_operands (Overload.forall_of_totalScore? hscore) hnames hlabels
    (d.buffer.size + 1)
  rw [hplace] at hfetch
  rw [hnext]
  refine ⟨version, _, hfits.version, Instruction.standsAt_of_fetch hfetch fun o ho => ?_, hread⟩
  obtain ⟨i, hi⟩ := List.mem_iff_getElem?.mp ho
  obtain ⟨a, -, ha⟩ := exists_left_of_forall₂ hread hi
  exact ha.codec_ne

/-- A draft with a label that has no position yet. -/
def branchingDraft : Draft where
  buffer := CodeBuffer.empty.newLabel
  nextRegister := 2
  registersUsed := 2

/-- A comparison of a register with a constant, which leads to that label or to a name. -/
def branchArguments : List Argument :=
  [.register 1 .int true, .constant 7, .label ⟨0⟩, .unknown "done"]

/-- The code with the label bound behind it, and the name behind a last instruction. -/
def closeBranches (b : CodeBuffer) : CodeBuffer :=
  ((b.bindLabel ⟨0⟩).append [0]).bindLabel ⟨1⟩

theorem emitted_instructions_are_read_back_branch : ∃ (r : Registry) (op : Operation) (d' : Draft)
    (code : Array UInt8), CodeBuffer.empty.Becomes branchingDraft.buffer ∧
      op.select r branchArguments = .ok (Registry.builtinOverload .testEq) ∧
      Drafting.emit r op branchArguments branchingDraft = .ok () d' ∧
      d'.buffer.Becomes (closeBranches d'.buffer) ∧
      (closeBranches d'.buffer).finish = .ok code ∧
      ∃ version operands, version < Builtin.testEq.versions ∧
        Instruction.StandsAt code branchingDraft.buffer.size
          ⟨Builtin.testEq.opcode version, operands, d'.buffer.size⟩ ∧
        List.Forall₂ (Argument.ReadAs d'.locals (closeBranches d'.buffer)) branchArguments
          operands := by
  let r : Registry := { config := {} }
  let op : Operation := ⟨"test_eq", [Registry.builtinOverload .testEq], .call, false⟩
  have hsel : op.select r branchArguments = .ok (Registry.builtinOverload .testEq) := by
    decide +kernel
  have hemit : (match Drafting.emit r op branchArguments branchingDraft with
      | .ok _ d' => decide (d'.buffer.labelFault? ⟨0⟩ = none ∧
          ((d'.buffer.bindLabel ⟨0⟩).append [0]).labelFault? ⟨1⟩ = none) &&
          (closeBranches d'.buffer).finish.toOption.isSome
      | .error _ _ => false) = true := by
    decide +kernel
  cases hx : Drafting.emit r op branchArguments branchingDraft with
  | error kind d' =>
    rw [hx] at hemit
    cases hemit
  | ok u d' =>
    rw [hx] at hemit
    simp only [Bool.and_eq_true, decide_eq_true_eq] at hemit
    obtain ⟨⟨hfirst, hsecond⟩, hfinish⟩ := hemit
    cases hcode : (closeBranches d'.buffer).finish with
    | error fault =>
      rw [hcode] at hfinish
      cases hfinish
    | ok code =>
      have before : CodeBuffer.empty.Becomes branchingDraft.buffer := .single (.newLabel _)
      have after : d'.buffer.Becomes (closeBranches d'.buffer) :=
        .head (.bindLabel hfirst) (.head (.bytes _ [0]) (.single (.bindLabel hsecond)))
      exact ⟨r, op, d', code, before, hsel, hx, after, hcode,
        emitted_instructions_are_read_back before hsel hx after hcode⟩

end HookScript
