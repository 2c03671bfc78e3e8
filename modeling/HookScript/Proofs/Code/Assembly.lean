/-
Code under construction as pieces.

The bytes of a code buffer are known but for the positions of labels, which are filled in at the
end.  This file keeps apart what is known (`Piece.bytes`) and what is not (`Piece.label`):

* `CodeBuffer.Holds` — the buffer holds the given pieces, with placeholders for the labels;
* `CodeBuffer.Holds.write` — every operand that is written is one more piece;
* `CodeBuffer.Holds.finish_eq_ok_iff` — the finished code are the pieces with all labels in place.
-/
import HookScript.Code.Buffer
import Mathlib.Algebra.GroupWithZero.Nat
import Mathlib.Data.List.Forall2

namespace HookScript

/-- A piece of code. -/
inductive Piece where
  | bytes (bytes : List UInt8)
  /-- the position of a label -/
  | label (id : LabelId)

namespace Piece

/-- The bytes of a piece, when the labels have the given positions. -/
def encode (target : LabelId → Nat) : Piece → List UInt8
  | bytes bs => bs
  | label id => bytesOfNat 4 (target id)

/-- The number of bytes of a piece. -/
def size : Piece → Nat
  | bytes bs => bs.length
  | label _ => 4

@[simp] theorem length_encode (target : LabelId → Nat) (piece : Piece) :
    (piece.encode target).length = piece.size := by
  cases piece <;> simp [encode, size]

end Piece

/-- The bytes of pieces, when the labels have the given positions. -/
def assemble (target : LabelId → Nat) (pieces : List Piece) : List UInt8 :=
  pieces.flatMap (Piece.encode target)

/-- The number of bytes of pieces. -/
def sizeOfPieces (pieces : List Piece) : Nat :=
  (pieces.map Piece.size).sum

/-- The placeholders of pieces that begin at `place`. -/
def placeholdersFrom (place : Nat) : List Piece → List Placeholder
  | [] => []
  | .bytes bs :: pieces => placeholdersFrom (place + bs.length) pieces
  | .label id :: pieces => ⟨place, id⟩ :: placeholdersFrom (place + 4) pieces

section

variable {target : LabelId → Nat} {pieces more : List Piece} {place : Nat}

@[simp] theorem assemble_append :
    assemble target (pieces ++ more) = assemble target pieces ++ assemble target more := by
  simp [assemble]

@[simp] theorem assemble_cons (piece : Piece) :
    assemble target (piece :: pieces) = piece.encode target ++ assemble target pieces := rfl

@[simp] theorem sizeOfPieces_append :
    sizeOfPieces (pieces ++ more) = sizeOfPieces pieces + sizeOfPieces more := by
  simp [sizeOfPieces]

@[simp] theorem sizeOfPieces_cons (piece : Piece) :
    sizeOfPieces (piece :: pieces) = piece.size + sizeOfPieces pieces := by
  simp [sizeOfPieces]

@[simp] theorem length_assemble : (assemble target pieces).length = sizeOfPieces pieces := by
  induction pieces with
  | nil => rfl
  | cons piece pieces ih => simp [ih]

theorem assemble_congr {target' : LabelId → Nat}
    (h : ∀ id, .label id ∈ pieces → target id = target' id) :
    assemble target pieces = assemble target' pieces := by
  induction pieces with
  | nil => rfl
  | cons piece pieces ih =>
    rw [assemble_cons, assemble_cons, ih fun id hm => h id (List.mem_cons_of_mem _ hm)]
    cases piece with
    | bytes bs => rfl
    | label id => rw [Piece.encode, Piece.encode, h id (by simp)]

theorem placeholdersFrom_append :
    placeholdersFrom place (pieces ++ more)
      = placeholdersFrom place pieces ++ placeholdersFrom (place + sizeOfPieces pieces) more := by
  induction pieces generalizing place with
  | nil => rfl
  | cons piece pieces ih =>
    cases piece with
    | bytes bs => simp [placeholdersFrom, ih, Piece.size, Nat.add_assoc]
    | label id => simp [placeholdersFrom, ih, Piece.size, Nat.add_assoc]

end

namespace CodeBuffer

/-- The position of a label, zero if it has none. -/
def target (b : CodeBuffer) (id : LabelId) : Nat :=
  (b.position? id).getD 0

/-- The buffer holds the pieces, with a placeholder for every label. -/
structure Holds (b : CodeBuffer) (pieces : List Piece) : Prop where
  code : b.code.toList = assemble (fun _ => 0) pieces
  placeholders : b.placeholders.toList = placeholdersFrom 0 pieces

namespace Holds

variable {b : CodeBuffer} {pieces : List Piece}

theorem empty : CodeBuffer.empty.Holds [] := ⟨rfl, rfl⟩

theorem size_eq (h : b.Holds pieces) : b.code.size = sizeOfPieces pieces := by
  rw [← Array.length_toList, h.code, length_assemble]

theorem append (h : b.Holds pieces) (bs : List UInt8) :
    (b.append bs).Holds (pieces ++ [.bytes bs]) := by
  constructor
  · simp [CodeBuffer.append, h.code, assemble, Piece.encode]
  · simp [CodeBuffer.append, h.placeholders, placeholdersFrom_append, placeholdersFrom]

theorem push (h : b.Holds pieces) (byte : UInt8) :
    (b.push byte).Holds (pieces ++ [.bytes [byte]]) := by
  constructor
  · simp [CodeBuffer.push, h.code, assemble, Piece.encode]
  · simp [CodeBuffer.push, h.placeholders, placeholdersFrom_append, placeholdersFrom]

theorem pushLabel (h : b.Holds pieces) (id : LabelId) :
    (b.pushLabel id).Holds (pieces ++ [.label id]) := by
  constructor
  · simp [CodeBuffer.pushLabel, h.code, assemble, Piece.encode]
  · simp [CodeBuffer.pushLabel, h.placeholders, placeholdersFrom_append, placeholdersFrom,
      h.size_eq]

end Holds

/-! ### Filling placeholders -/

theorem overwrite_append {done old rest bs : List UInt8} (h : old.length = bs.length) :
    overwrite (done ++ old ++ rest).toArray done.length bs = (done ++ bs ++ rest).toArray := by
  induction bs generalizing done old with
  | nil =>
    obtain rfl : old = [] := List.eq_nil_of_length_eq_zero h
    rfl
  | cons byte bs ih =>
    obtain ⟨first, old, rfl⟩ := List.exists_cons_of_length_eq_add_one h
    have hset : (done ++ (first :: old) ++ rest).toArray.setIfInBounds done.length byte
        = ((done ++ [byte]) ++ old ++ rest).toArray := by
      simp
    have hlen : done.length + 1 = (done ++ [byte]).length := by simp
    rw [overwrite, hset, hlen, ih (by simpa using h)]
    simp

/-- Filling succeeds if all labels have positions, and puts these in place of the placeholders. -/
theorem fill_eq_ok_iff {labels : Array (Option Nat)} {done : List UInt8} {pieces : List Piece}
    {code : Array UInt8} :
    fill labels (done ++ assemble (fun _ => 0) pieces).toArray (placeholdersFrom done.length pieces)
        = .ok code ↔
      (∀ id, .label id ∈ pieces → (labels[id.index.toNat]?).join.isSome) ∧
        code = (done
          ++ assemble (fun id => (labels[id.index.toNat]?).join.getD 0) pieces).toArray := by
  -- the bytes in front of the pieces grow, and say where the placeholders are
  induction pieces generalizing done with
  | nil =>
    rw [placeholdersFrom, fill, Except.ok.injEq, eq_comm]
    simp [assemble]
  | cons piece pieces ih =>
    cases piece with
    | bytes bs =>
      have hlen : done.length + bs.length = (done ++ bs).length := by simp
      rw [placeholdersFrom, hlen, assemble_cons, ← List.append_assoc]
      simp only [Piece.encode]
      rw [ih]
      simp [Piece.encode]
    | label id =>
      rw [placeholdersFrom, fill]
      cases ht : (labels[id.index.toNat]?).join with
      | none =>
        -- filling stops here, and a label is without a position
        simp only [reduceCtorEq, false_iff]
        rintro ⟨hall, -⟩
        have := hall id (by simp)
        rw [ht] at this
        cases this
      | some target =>
        -- the placeholder is overwritten, and belongs to what is in front from now on
        have hlen : done.length + 4 = (done ++ bytesOfNat 4 target).length := by simp
        have hzero : (Piece.label id).encode (fun _ => 0) = bytesOfNat 4 0 := rfl
        simp only
        rw [assemble_cons, hzero, ← List.append_assoc, overwrite_append (by simp), hlen, ih,
          assemble_cons, Piece.encode, ht, Option.getD_some, ← List.append_assoc]
        refine and_congr_left' ?_
        constructor
        · intro hall id' hm
          rcases List.mem_cons.mp hm with heq | hm
          · cases heq
            rw [ht]
            rfl
          · exact hall id' hm
        · intro hall id' hm
          exact hall id' (List.mem_cons_of_mem _ hm)

/-- The finished code are the pieces with the positions of their labels, if all of these have
one. -/
theorem Holds.finish_eq_ok_iff {b : CodeBuffer} {pieces : List Piece} (h : b.Holds pieces)
    {code : Array UInt8} :
    b.finish = .ok code ↔
      (∀ id, .label id ∈ pieces → b.isDefined id = true) ∧
        code = (assemble b.target pieces).toArray := by
  have hcode : b.code = ([] ++ assemble (fun _ => 0) pieces).toArray := by
    rw [List.nil_append, ← h.code]
  rw [finish, hcode, h.placeholders]
  exact fill_eq_ok_iff

theorem size_overwrite (code : Array UInt8) (place : Nat) (bs : List UInt8) :
    (overwrite code place bs).size = code.size := by
  induction bs generalizing code place with
  | nil => rfl
  | cons byte bs ih => rw [overwrite, ih, Array.size_setIfInBounds]

/-- Filling placeholders does not change the number of bytes. -/
theorem size_of_finish {b : CodeBuffer} {code : Array UInt8} (h : b.finish = .ok code) :
    code.size = b.size := by
  have fills : ∀ (placeholders : List Placeholder) (start : Array UInt8),
      fill b.labels start placeholders = .ok code → code.size = start.size := by
    intro placeholders
    induction placeholders with
    | nil =>
      intro start h
      cases h
      rfl
    | cons first placeholders ih =>
      intro start h
      rw [fill] at h
      split at h
      · rw [ih _ h, size_overwrite]
      · cases h
  exact fills _ _ h

/-- Code is only finished if all labels in use have positions. -/
theorem position?_of_finish {b : CodeBuffer} {code : Array UInt8} (h : b.finish = .ok code) :
    ∀ waiting ∈ b.placeholders, ∃ place, b.position? waiting.label = some place := by
  have fills : ∀ (placeholders : List Placeholder) (start : Array UInt8),
      fill b.labels start placeholders = .ok code →
        ∀ waiting ∈ placeholders, ∃ place, b.position? waiting.label = some place := by
    intro placeholders
    induction placeholders with
    | nil => simp
    | cons first placeholders ih =>
      intro start h waiting hw
      rw [fill] at h
      split at h
      · rename_i place hp
        rcases List.mem_cons.mp hw with rfl | hw
        · exact ⟨place, hp⟩
        · exact ih _ h waiting hw
      · cases h
  exact fun waiting hw => fills _ _ h waiting (Array.mem_toList_iff.mpr hw)

end CodeBuffer

end HookScript
