/-
Listings of verified code.

A listing reads the code once more, with its own reading of the operands of calls and its own set of
the positions that jumps lead to.  For verified code it agrees with the survey of verification and
with what the machine carries out:

* `ListingRow` — what is said of one instruction, and `ListingRow.text` its wording;
* `Program.Shows` — the name and the operands that belong to an instruction: those of its host
  function if it is a call;
* `Program.instructionText_eq` — the text of an instruction is worded so;
* `Program.listing_of_verified` — the listing has one row for each instruction that verification has
  found, and marks those that jumps lead to.
-/
import HookScript.Program.Listing
import HookScript.Proofs.Control.Correctness
import HookScript.Proofs.Registry.Natives

namespace HookScript

/-- What a listing says of an instruction. -/
structure ListingRow where
  place : Nat
  /-- a jump leads to the instruction -/
  marked : Bool
  name : String
  operands : List Operand

namespace ListingRow

/-- The name and the operands behind it. -/
def wording (name : String) (operands : List Operand) : String :=
  if operands = [] then name
  else Text.padRight 12 name ++ ", ".intercalate (operands.map Operand.text)

/-- The line of the instruction, below a rule if it is marked. -/
def text (row : ListingRow) : String :=
  (if row.marked then Program.targetRule else "") ++ Text.zeroPadded 4 row.place ++ " " ++
    (if row.marked then "► " else "  ") ++ wording row.name row.operands ++ "\n"

end ListingRow

/-- The operand is a register, an immediate or a label. -/
def Operand.Plain (o : Operand) : Prop :=
  o.codec ≠ .native ∧ o.codec ≠ .raw

theorem map_eq_map_of_forall₂ {α β γ : Type} {f : α → γ} {g : β → γ} {xs : List α} {ys : List β}
    (h : List.Forall₂ (fun x y => f x = g y) xs ys) : xs.map f = ys.map g := by
  rw [← List.forall₂_eq_eq_eq]
  exact List.forall₂_map_left_iff.mpr (List.forall₂_map_right_iff.mpr h)

namespace Program

variable {p : Program} {place : Nat} {i : Instruction} {tiles : List (Nat × Instruction)}

/-- The name and the operands that belong to the instruction. -/
inductive Shows (p : Program) (i : Instruction) : String → List Operand → Prop where
  /-- a call has the name of its host function, and the operands that this is given -/
  | call {binding : NativeBinding} {arguments : List Operand}
      (calls : p.Calls i binding arguments) :
      p.Shows i binding.symbol arguments
  | plain (other : i.opcode.builtin ≠ .call) : p.Shows i i.opcode.name i.operands

/-! ### Texts of instructions -/

theorem operandTexts_of_plain {native : Option NativeBinding} {operands : List Operand}
    (h : ∀ o ∈ operands, o.Plain) :
    p.operandTexts native operands = operands.map Operand.text := by
  induction operands with
  | nil => simp [operandTexts]
  | cons o operands ih =>
    obtain ⟨ho, hrest⟩ := List.forall_mem_cons.mp h
    cases o with
    | native index => exact absurd rfl ho.1
    | raw start length => exact absurd rfl ho.2
    | register _ | immediate _ | label _ =>
      rw [operandTexts, ih hrest, List.map_cons] <;> exact nofun

theorem called?_of_plain {operands : List Operand} (h : ∀ o ∈ operands, o.Plain) :
    p.called? operands = none := by
  rw [called?, List.findSome?_eq_none_iff]
  intro o ho
  cases o with
  | native index => exact absurd rfl (h _ ho).1
  | raw _ _ | register _ | immediate _ | label _ => rfl

theorem instructionText_of_texts {name : String} {operands : List Operand}
    (hname : (p.called? i.operands).elim i.opcode.name NativeBinding.symbol = name)
    (htexts : p.operandTexts none i.operands = operands.map Operand.text) :
    p.instructionText i = ListingRow.wording name operands := by
  subst hname
  rw [instructionText, htexts, ListingRow.wording]
  cases p.called? i.operands <;> cases operands <;> rfl

/-- The operands of an instruction that is no call are plain. -/
theorem plain_of_fetch (fetched : Instruction.fetch p.code place = .ok i)
    (hc : i.opcode.builtin ≠ .call) : ∀ o ∈ i.operands, o.Plain := by
  obtain ⟨byte, -, hop, hd⟩ := Instruction.fetch_eq_ok_iff.mp fetched
  intro o ho
  refine Opcode.codec_ne_of_find? hop hc o.codec ?_
  rw [← Codec.map_codec_of_decodeAll? hd]
  exact List.mem_map_of_mem ho

/-- What host functions are given are plain operands. -/
theorem plain_of_decodeAll? {binding : NativeBinding} (formed : binding.Formed)
    {stop start next : Nat} {arguments : List Operand}
    (hd : Codec.decodeAll? binding.layout p.code stop start = some (arguments, next)) :
    ∀ o ∈ arguments, o.Plain := by
  intro o ho
  have hcodec : o.codec ∈ binding.layout := by
    rw [← Codec.map_codec_of_decodeAll? hd]
    exact List.mem_map_of_mem ho
  have hhost := formed.ofHost _ hcodec
  refine ⟨fun h => ?_, fun h => ?_⟩ <;> rw [h] at hhost <;> exact hhost

/-- An instruction that verification has accepted is listed with the name and the operands that
belong to it. -/
theorem instructionText_eq (formed : ∀ n ∈ p.natives, n.Formed)
    (fetched : Instruction.fetch p.code place = .ok i) (accepted : p.Accepts none i.operands) :
    ∃ name operands, p.Shows i name operands ∧ (∀ o ∈ operands, o.Plain) ∧
      p.instructionText i = ListingRow.wording name operands := by
  by_cases hc : i.opcode.builtin = .call
  · obtain ⟨index, start, length, ho, hsize⟩ := Instruction.operands_of_call fetched hc
    rw [ho] at accepted
    obtain ⟨binding, hb, ⟨_, hbb, hfits⟩, -⟩ := accepted
    cases hbb
    have hbinding := formed binding (Array.mem_of_getElem? hb)
    obtain ⟨arguments, harguments, hd, -⟩ := hfits.exists_arguments hsize hbinding.length_le
    refine ⟨binding.symbol, arguments, .call ⟨index, start, length, ho, hb, harguments⟩,
      plain_of_decodeAll? hbinding hd, instructionText_of_texts ?_ ?_⟩
    · rw [ho, called?, List.findSome?_cons]
      dsimp only
      rw [hb]
      rfl
    · -- the listing reads the block that the machine reads, by the same layout
      rw [ho, operandTexts, operandTexts, hb, Option.bind_some, hd, operandTexts]
      exact List.append_nil _
  · have hplain := plain_of_fetch fetched hc
    refine ⟨i.opcode.name, i.operands, .plain hc, hplain, instructionText_of_texts ?_ ?_⟩
    · rw [called?_of_plain hplain]
      rfl
    · exact operandTexts_of_plain hplain

/-! ### Positions -/

/-- Instructions lie behind each other. -/
theorem Tiling.le_of_mem (h : p.Tiling place tiles) : ∀ q ∈ tiles.map Prod.fst, place ≤ q := by
  induction h with
  | stop => simp
  | next fetched _ _ ih =>
    intro q hq
    rcases List.mem_cons.mp hq with rfl | hq
    · exact Nat.le_refl _
    · exact Nat.le_trans (Nat.le_of_lt (Instruction.lt_of_fetch fetched)) (ih q hq)

theorem Tiling.pairwise_lt (h : p.Tiling place tiles) :
    (tiles.map Prod.fst).Pairwise (· < ·) := by
  induction h with
  | stop => exact .nil
  | next fetched _ tail ih =>
    refine .cons (fun q hq => ?_) ih
    exact Nat.lt_of_lt_of_le (Instruction.lt_of_fetch fetched) (tail.le_of_mem q hq)

/-- The positions that are marked are those of the jumps. -/
theorem contains_targets_foldl {marks : Std.TreeSet Nat} {q : Nat} :
    (tiles.foldl (fun set tile => set.insertMany (targetsOf tile.2)) marks).contains q = true ↔
      marks.contains q = true ∨ ∃ tile ∈ tiles, .label q ∈ tile.2.operands := by
  induction tiles generalizing marks with
  | nil => simp
  | cons tile tiles ih =>
    have htargets : q ∈ targetsOf tile.2 ↔ .label q ∈ tile.2.operands := by
      rw [targetsOf, List.mem_filterMap]
      constructor
      · rintro ⟨o, ho, heq⟩
        cases o <;> cases heq
        exact ho
      · exact fun ho => ⟨_, ho, rfl⟩
    rw [List.foldl_cons, ih]
    simp only [Std.TreeSet.contains_insertMany_list, Bool.or_eq_true, List.contains_iff_mem,
      htargets, List.exists_mem_cons_iff, or_assoc]

/-! ### Listings -/

/-- The listing of a tiling, line by line. -/
theorem Tiling.listing_eq (h : p.Tiling 0 tiles) :
    p.listing = String.join (tiles.map fun tile => p.listingLine
      (tiles.foldl (fun set tile => set.insertMany (targetsOf tile.2)) ∅) tile.1 tile.2) := by
  rw [listing, h.sweep_eq]
  simp only [List.foldl_toArray, String.join, List.foldl_map]

/-- The row belongs to the instruction and its position, when the given positions are marked. -/
structure Lists (p : Program) (marks : Std.TreeSet Nat) (tile : Nat × Instruction)
    (row : ListingRow) : Prop where
  place : row.place = tile.1
  marked : row.marked = marks.contains tile.1
  shows : p.Shows tile.2 row.name row.operands
  plain : ∀ o ∈ row.operands, o.Plain
  line : p.listingLine marks tile.1 tile.2 = row.text

/-- Each accepted instruction has its row. -/
theorem Tiling.exists_rows (formed : ∀ n ∈ p.natives, n.Formed) (marks : Std.TreeSet Nat)
    (h : p.Tiling place tiles) : ∃ rows, List.Forall₂ (p.Lists marks) tiles rows := by
  induction h with
  | stop => exact ⟨[], .nil⟩
  | @next place i rest fetched accepted _ ih =>
    obtain ⟨rows, hrows⟩ := ih
    obtain ⟨name, operands, shows, plain, htext⟩ := instructionText_eq formed fetched accepted
    refine ⟨⟨place, marks.contains place, name, operands⟩ :: rows, .cons ?_ hrows⟩
    exact ⟨rfl, rfl, shows, plain, by rw [listingLine, htext]; rfl⟩

/-- Each row belongs to an instruction. -/
theorem exists_tile_of_row {marks : Std.TreeSet Nat} {rows : List ListingRow}
    (h : List.Forall₂ (p.Lists marks) tiles rows) {row : ListingRow} (hrow : row ∈ rows) :
    ∃ tile ∈ tiles, p.Lists marks tile row := by
  obtain ⟨k, hk⟩ := List.mem_iff_getElem?.mp hrow
  obtain ⟨tile, htile, hlists⟩ := exists_left_of_forall₂ h hk
  exact ⟨tile, List.mem_of_getElem? htile, hlists⟩

/-- The listing of verified code, whose host functions are as registries have them, has one row for
each position where verification has found an instruction, in the order of the code, and nothing
else.  A row shows the name of its instruction, or of its host function if it is a call, and all
operands that these are given, of which none is an index or a block.  The positions that are marked
are those that a label among the operands leads to.  Positions have no bound, as in `Machine`. -/
theorem listing_of_verified (verified : p.verify = .ok ()) (formed : ∀ n ∈ p.natives, n.Formed) :
    ∃ (survey : Survey) (rows : List ListingRow), p.surveyFrom 0 {} = .ok survey ∧
      p.listing = String.join (rows.map ListingRow.text) ∧
      (rows.map ListingRow.place).Pairwise (· < ·) ∧
      (∀ place, place ∈ rows.map ListingRow.place ↔ survey.starts.contains place = true) ∧
      (∀ row ∈ rows, ∃ i, Instruction.fetch p.code row.place = .ok i ∧
        p.Shows i row.name row.operands ∧ ∀ o ∈ row.operands, o.Plain) ∧
      ∀ place, (∃ row ∈ rows, row.place = place ∧ row.marked = true) ↔
        ∃ jump i, survey.starts.contains jump = true ∧ Instruction.fetch p.code jump = .ok i ∧
          .label place ∈ i.operands := by
  obtain ⟨-, tiles, ht, hc⟩ := verify_eq_ok_iff.mp verified
  obtain ⟨rows, hrows⟩ := ht.exists_rows formed
    (tiles.foldl (fun set tile => set.insertMany (targetsOf tile.2)) ∅)
  have hplaces : tiles.map Prod.fst = rows.map ListingRow.place :=
    map_eq_map_of_forall₂ (hrows.imp fun _ _ hlists => hlists.place.symm)
  have hstarts : ∀ place, place ∈ rows.map ListingRow.place ↔
      (tiles.foldl Survey.add {}).starts.contains place = true := by
    intro place
    rw [contains_starts_foldl, Std.TreeSet.contains_emptyc, hplaces]
    simp
  refine ⟨_, rows, surveyFrom_of_tiling ht, ?_, hplaces ▸ ht.pairwise_lt, hstarts, ?_, ?_⟩
  · rw [ht.listing_eq]
    exact congrArg String.join (map_eq_map_of_forall₂ (hrows.imp fun _ _ hlists => hlists.line))
  · intro row hrow
    obtain ⟨⟨place, i⟩, htile, hlists⟩ := exists_tile_of_row hrows hrow
    exact ⟨i, hlists.place ▸ (ht.of_mem htile).1, hlists.shows, hlists.plain⟩
  · intro place
    constructor
    · rintro ⟨row, hrow, rfl, hmarked⟩
      obtain ⟨tile, -, hlists⟩ := exists_tile_of_row hrows hrow
      rw [hlists.marked, contains_targets_foldl, ← hlists.place] at hmarked
      obtain ⟨⟨jump, i⟩, hjump, hlabel⟩ := hmarked.resolve_left (by simp)
      refine ⟨jump, i, (hstarts jump).mp ?_, (ht.of_mem hjump).1, hlabel⟩
      exact hplaces ▸ List.mem_map_of_mem hjump
    · rintro ⟨jump, i, hjump, fetched, hlabel⟩
      have hi : (jump, i) ∈ tiles := by
        obtain ⟨⟨q, j⟩, htile, rfl⟩ := List.mem_map.mp (hplaces ▸ (hstarts jump).mpr hjump)
        cases (ht.of_mem htile).1.symm.trans fetched
        exact htile
      -- verification has found an instruction where the jump leads to
      have hplace := hc _ hi place (List.mem_filterMap.mpr ⟨_, hlabel, rfl⟩)
      obtain ⟨row, hrow, hat⟩ := List.mem_map.mp (hplaces ▸ hplace)
      obtain ⟨tile, -, hlists⟩ := exists_tile_of_row hrows hrow
      refine ⟨row, hrow, hat, ?_⟩
      rw [hlists.marked, contains_targets_foldl, ← hlists.place, hat]
      exact .inr ⟨_, hi, hlabel⟩

theorem listing_of_verified_doubling : doubling.verify = .ok () ∧
    (∀ n ∈ doubling.natives, n.Formed) ∧ ∃ rows : List ListingRow,
      doubling.listing = String.join (rows.map ListingRow.text) ∧
      (rows.map ListingRow.place).Pairwise (· < ·) := by
  have hv : doubling.verify = .ok () := by decide +kernel
  have hn : ∀ n ∈ doubling.natives, n.Formed := by
    intro n hn
    obtain rfl := Array.mem_singleton.mp hn
    exact @NativeBinding.Formed.version 0 0 "double" [.intVar] _ (by simp [Parameter.OfHost])
      (by decide)
  obtain ⟨_, rows, -, htext, horder, -⟩ := listing_of_verified hv hn
  exact ⟨hv, hn, rows, htext, horder⟩

example : doubling.listing = "0000   goto        @0005\n" ++ targetRule ++
    "0005 ► double      r1\n" ++ "0010   exit\n" := by decide +kernel

end Program

end HookScript
