/-
Placeholders, and what is put in their places.

A code buffer takes requests in any order: bytes are appended, labels are made, referred to, and
bound to the code reached.  A label may be bound before or behind a reference to it, so the
positions of all references are filled in at the end.  Nothing else changes there:

* `CodeBuffer.defineLabel` — binding a label, as a step that may fail;
* `CodeBuffer.after` — the buffer after requests, of which some may have failed;
* `CodeBuffer.BoundIn` — where requests have bound a label, which is where the buffer has its
  position from (`CodeBuffer.position?_after_eq_some_iff`);
* `CodeBuffer.Backfilled` — the finished code, as the requests alone decide it;
* `CodeBuffer.finishing_fills_placeholders` — when there is a finished code, and that it is this
  one.
-/
import HookScript.Proofs.Compile.Invariant
import Mathlib.Data.List.Induction

namespace HookScript

/-! ### Requests -/

/-- A request to a code buffer. -/
inductive WriteRequest where
  | byte (byte : UInt8)
  | value (value : Int32)
  | bytes (bytes : List UInt8)
  /-- the position of a label -/
  | reference (label : LabelId)
  /-- makes the next label -/
  | make
  /-- binds a label to the code reached -/
  | bind (label : LabelId)
deriving DecidableEq, Repr

namespace CodeBuffer

/-- Binds a label to the code reached, if nothing speaks against it; the answer is its position. -/
def defineLabel (label : LabelId) : EStateM LabelFault CodeBuffer Nat := do
  let b ← get
  match b.labelFault? label with
  | some fault => throw fault
  | none =>
    set (b.bindLabel label)
    return b.size

variable {b b' : CodeBuffer} {label : LabelId} {place : Nat} {fault : LabelFault}

theorem defineLabel_eq_ok_iff :
    defineLabel label b = .ok place b' ↔
      b.labelFault? label = none ∧ place = b.size ∧ b' = b.bindLabel label := by
  rw [defineLabel, get_bind]
  cases b.labelFault? label with
  | none =>
    show EStateM.Result.ok b.size (b.bindLabel label) = _ ↔ _
    simp [eq_comm]
  | some fault => exact iff_of_false nofun nofun

theorem defineLabel_eq_error_iff :
    defineLabel label b = .error fault b' ↔ b.labelFault? label = some fault ∧ b' = b := by
  rw [defineLabel, get_bind]
  cases b.labelFault? label with
  | none => exact iff_of_false nofun nofun
  | some fault' =>
    show EStateM.Result.error fault' b = _ ↔ _
    simp [eq_comm]

end CodeBuffer

namespace WriteRequest

/-- Carries the request out. -/
def perform : WriteRequest → EStateM LabelFault CodeBuffer Unit
  | byte x => modify (·.push x)
  | value x => modify (·.pushValue x)
  | bytes xs => modify (·.append xs)
  | reference label => modify (·.pushLabel label)
  | make => modify (·.newLabel)
  | bind label => do
    let _ ← CodeBuffer.defineLabel label

/-- The buffer after the request, whether it has been carried out or not. -/
def next (q : WriteRequest) (b : CodeBuffer) : CodeBuffer :=
  match q.perform b with
  | .ok _ b | .error _ b => b

/-- The pieces of code that the request adds. -/
def pieces : WriteRequest → List Piece
  | byte x => [.bytes [x]]
  | value x => [.bytes (bytesOfNat 4 x.toUInt32.toNat)]
  | bytes xs => [.bytes xs]
  | reference label => [.label label]
  | make | bind _ => []

/-- The bytes of the request in the code, when the labels have the given positions. -/
def encode (target : LabelId → Nat) : WriteRequest → List UInt8
  | byte x => [x]
  | value x => bytesOfNat 4 x.toUInt32.toNat
  | bytes xs => xs
  | reference label => bytesOfNat 4 (target label)
  | make | bind _ => []

variable {b b' : CodeBuffer} {label : LabelId}

theorem assemble_pieces (target : LabelId → Nat) (q : WriteRequest) :
    assemble target q.pieces = q.encode target := by
  cases q <;> simp [pieces, encode, assemble, Piece.encode]

theorem label_mem_pieces {q : WriteRequest} : .label label ∈ q.pieces ↔ q = reference label := by
  cases q <;> simp [pieces, eq_comm]

theorem perform_bind :
    (bind label).perform b = match CodeBuffer.defineLabel label b with
      | .ok _ b' => .ok () b'
      | .error fault b' => .error fault b' := by
  show EStateM.bind (CodeBuffer.defineLabel label) _ b = _
  rw [EStateM.bind]
  cases CodeBuffer.defineLabel label b <;> rfl

/-- A request that fails changes nothing. -/
theorem eq_of_perform_error {q : WriteRequest} {fault : LabelFault}
    (h : q.perform b = .error fault b') : b' = b := by
  cases q with
  | bind label =>
    rw [perform_bind] at h
    split at h
    · cases h
    · rename_i hfault
      cases h
      exact (CodeBuffer.defineLabel_eq_error_iff.mp hfault).2
  | byte | value | bytes | reference | make => cases h

theorem next_bind_of_none (h : b.labelFault? label = none) :
    (bind label).next b = b.bindLabel label := by
  rw [next, perform_bind, CodeBuffer.defineLabel_eq_ok_iff.mpr ⟨h, rfl, rfl⟩]

theorem next_bind_of_some {fault : LabelFault} (h : b.labelFault? label = some fault) :
    (bind label).next b = b := by
  rw [next, perform_bind, CodeBuffer.defineLabel_eq_error_iff.mpr ⟨h, rfl⟩]

/-- Binding a label adds no code. -/
theorem next_bind_holds {pieces : List Piece} (h : b.Holds pieces) (label : LabelId) :
    ((bind label).next b).Holds pieces := by
  cases hfault : b.labelFault? label with
  | none =>
    rw [next_bind_of_none hfault]
    exact ⟨h.code, h.placeholders⟩
  | some fault => rwa [next_bind_of_some hfault]

theorem next_holds {pieces : List Piece} (h : b.Holds pieces) (q : WriteRequest) :
    (q.next b).Holds (pieces ++ q.pieces) := by
  cases q with
  | byte x => exact h.push x
  | value x => exact h.append _
  | bytes xs => exact h.append xs
  | reference label => exact h.pushLabel label
  | make => exact (List.append_nil pieces).symm ▸ ⟨h.code, h.placeholders⟩
  | bind label => exact (List.append_nil pieces).symm ▸ next_bind_holds h label

end WriteRequest

namespace CodeBuffer

/-! ### Histories -/

/-- The buffer after some requests. -/
def after (requests : List WriteRequest) : CodeBuffer :=
  requests.foldl (fun b q => q.next b) .empty

/-- Among the requests, the label has been bound, to the code that had been reached then. -/
def BoundIn (requests : List WriteRequest) (label : LabelId) (place : Nat) : Prop :=
  ∃ front back b, requests = front ++ .bind label :: back ∧
    defineLabel label (after front) = .ok place b ∧ place = (after front).size

variable {requests front back : List WriteRequest} {q : WriteRequest} {label : LabelId}
  {place place' : Nat} {code : Array UInt8}

theorem after_snoc (requests : List WriteRequest) (q : WriteRequest) :
    after (requests ++ [q]) = q.next (after requests) := by
  rw [after, List.foldl_append]
  rfl

theorem after_holds (requests : List WriteRequest) :
    (after requests).Holds (requests.flatMap WriteRequest.pieces) := by
  induction requests using List.reverseRecOn with
  | nil => exact .empty
  | append_singleton requests q ih =>
    rw [after_snoc, List.flatMap_append, List.flatMap_singleton]
    exact WriteRequest.next_holds ih q

theorem label_mem_pieces : .label label ∈ requests.flatMap WriteRequest.pieces ↔
    .reference label ∈ requests := by
  simp [List.mem_flatMap, WriteRequest.label_mem_pieces]

theorem assemble_pieces (target : LabelId → Nat) (requests : List WriteRequest) :
    assemble target (requests.flatMap WriteRequest.pieces)
      = requests.flatMap (WriteRequest.encode target) := by
  rw [assemble, List.flatMap_assoc]
  exact congrArg (requests.flatMap ·) (funext (WriteRequest.assemble_pieces target))

/-- The code has been reached as far as the requests have bytes. -/
theorem size_after (target : LabelId → Nat) (requests : List WriteRequest) :
    (after requests).size = (requests.flatMap (WriteRequest.encode target)).length := by
  rw [← assemble_pieces, length_assemble]
  exact (after_holds requests).size_eq

/-- There are as many labels as requests have made. -/
theorem labelCount_after (requests : List WriteRequest) :
    (after requests).labels.size = requests.count .make := by
  induction requests using List.reverseRecOn with
  | nil => rfl
  | append_singleton requests q ih =>
    rw [after_snoc, List.count_append, ← ih]
    cases q with
    | byte | value | bytes | reference => rfl
    | make => exact Array.size_push _
    | bind label =>
      cases hfault : (after requests).labelFault? label with
      | none =>
        rw [WriteRequest.next_bind_of_none hfault]
        exact Array.size_setIfInBounds
      | some fault =>
        rw [WriteRequest.next_bind_of_some hfault]
        rfl

/-- A label has been bound by one of the requests, or by the last one. -/
theorem boundIn_snoc_iff :
    BoundIn (requests ++ [q]) label place ↔ BoundIn requests label place ∨
      q = .bind label ∧ (after requests).labelFault? label = none ∧
        place = (after requests).size := by
  constructor
  · rintro ⟨front, back, b, hsplit, hok, hplace⟩
    obtain rfl | ⟨back, last, rfl⟩ := List.eq_nil_or_concat' back
    · obtain ⟨rfl, hq⟩ := List.append_inj' hsplit rfl
      exact .inr ⟨List.cons.inj hq |>.1, (defineLabel_eq_ok_iff.mp hok).1, hplace⟩
    · rw [← List.cons_append, ← List.append_assoc] at hsplit
      obtain ⟨rfl, -⟩ := List.append_inj' hsplit rfl
      exact .inl ⟨front, back, b, rfl, hok, hplace⟩
  · rintro (⟨front, back, b, rfl, hok, hplace⟩ | ⟨rfl, hfault, rfl⟩)
    · exact ⟨front, back ++ [q], b, by simp, hok, hplace⟩
    · exact ⟨requests, [], _, rfl, defineLabel_eq_ok_iff.mpr ⟨hfault, rfl, rfl⟩, rfl⟩

/-- The buffer knows the positions that labels have been bound to. -/
theorem position?_after_eq_some_iff :
    (after requests).position? label = some place ↔ BoundIn requests label place := by
  induction requests using List.reverseRecOn with
  | nil =>
    refine iff_of_false nofun ?_
    rintro ⟨front, back, -, hsplit, -⟩
    exact List.append_ne_nil_of_right_ne_nil front (List.cons_ne_nil _ back) hsplit.symm
  | append_singleton requests q ih =>
    rw [boundIn_snoc_iff, after_snoc]
    cases q with
    | byte | value | bytes | reference => exact ih.trans (or_iff_left fun h => nomatch h.1).symm
    | make =>
      show (after requests).newLabel.position? label = _ ↔ _
      rw [position?_newLabel]
      exact ih.trans (or_iff_left fun h => nomatch h.1).symm
    | bind other =>
      cases hfault : (after requests).labelFault? other with
      | some fault =>
        -- a label that cannot be bound stays as it is
        rw [WriteRequest.next_bind_of_some hfault, ih]
        refine (or_iff_left ?_).symm
        rintro ⟨heq, hnone, -⟩
        cases heq
        cases hfault.symm.trans hnone
      | none =>
        obtain ⟨-, hmade, hunbound⟩ := labelFault?_eq_none_iff.mp hfault
        rw [WriteRequest.next_bind_of_none hfault, position?_bindLabel hmade]
        split
        · -- a label that is bound has had no position before
          rename_i heq
          subst heq
          rw [← ih, hunbound]
          simp [hfault, size, eq_comm]
        · rename_i hne
          rw [ih]
          refine (or_iff_left ?_).symm
          rintro ⟨heq, -⟩
          exact hne (WriteRequest.bind.inj heq)

theorem BoundIn.unique (h : BoundIn requests label place) (h' : BoundIn requests label place') :
    place = place' :=
  Option.some.inj ((position?_after_eq_some_iff.mpr h).symm.trans
    (position?_after_eq_some_iff.mpr h'))

/-- Labels are bound only in code that is short enough for their positions to be written. -/
theorem BoundIn.lt_size (h : BoundIn requests label place) : place < UInt32.size := by
  obtain ⟨front, back, b, -, hok, rfl⟩ := h
  exact (labelFault?_eq_none_iff.mp (defineLabel_eq_ok_iff.mp hok).1).1

/-- A label can be bound if it has been made, has not been bound before, and the code is not too
long. -/
theorem exists_defineLabel_iff :
    (∃ place b, defineLabel label (after requests) = .ok place b) ↔
      label.index.toNat < requests.count .make ∧ (∀ place, ¬ BoundIn requests label place) ∧
        (after requests).size < UInt32.size := by
  have hok : (∃ place b, defineLabel label (after requests) = .ok place b) ↔
      (after requests).labelFault? label = none := by
    simp [defineLabel_eq_ok_iff]
  have hunbound : (after requests).position? label = none ↔
      ∀ place, ¬ BoundIn requests label place := by
    simp only [Option.eq_none_iff_forall_ne_some, ← position?_after_eq_some_iff, ne_eq]
  rw [hok, labelFault?_eq_none_iff, labelCount_after, hunbound]
  tauto

/-! ### Finished code -/

/-- The code is what the requests have written, with the position of its label in the place of every
reference. -/
structure Backfilled (requests : List WriteRequest) (code : Array UInt8) : Prop where
  size : code.size = (after requests).size
  references : ∀ front label back, requests = front ++ .reference label :: back →
    ∃ place, BoundIn requests label place ∧
      Codec.numberAt? code code.size (after front).size 4 = some place
  bytes : ∃ target, (∀ label place, BoundIn requests label place → target label = place) ∧
    code.toList = requests.flatMap (WriteRequest.encode target)

theorem target_after (h : BoundIn requests label place) :
    (after requests).target label = place := by
  rw [target, position?_after_eq_some_iff.mpr h]
  rfl

theorem finish_after_eq_ok_iff :
    (after requests).finish = .ok code ↔
      (∀ label, .reference label ∈ requests → ∃ place, BoundIn requests label place) ∧
        code.toList = requests.flatMap (WriteRequest.encode (after requests).target) := by
  rw [(after_holds requests).finish_eq_ok_iff, assemble_pieces]
  refine and_congr (forall_congr' fun label => ?_) ⟨fun h => by rw [h], fun h => by rw [← h]⟩
  rw [label_mem_pieces, isDefined_eq_true_iff]
  simp only [position?_after_eq_some_iff]

theorem backfilled_of_finish (h : (after requests).finish = .ok code) :
    Backfilled requests code := by
  obtain ⟨hbound, hcode⟩ := finish_after_eq_ok_iff.mp h
  refine ⟨size_of_finish h, ?_, (after requests).target, fun _ _ => target_after, hcode⟩
  rintro front label back rfl
  obtain ⟨place, hplace⟩ := hbound label (by simp)
  refine ⟨place, hplace, (Codec.numberAt?_eq_some_iff (by decide)).mpr ⟨hplace.lt_size, ?_⟩⟩
  -- the bytes in front of the reference are those of the requests in front of it
  rw [Codec.ahead, ← Array.length_toList, List.take_length, hcode, List.flatMap_append,
    size_after (after _).target front, List.drop_left, List.flatMap_cons, WriteRequest.encode,
    target_after hplace]
  exact List.prefix_append _ _

/-- Whatever is asked of a code buffer, its code can be finished exactly if every label that is
referred to has been bound.  Each reference then holds the position that the code had reached when
its label was bound, lowest byte first, be that before or behind the reference; all other bytes are
those that were pushed.  A label is bound once at most, and a request that fails changes nothing. -/
theorem finishing_fills_placeholders (requests : List WriteRequest) :
    ((∃ code, (after requests).finish = .ok code) ↔
      ∀ label, .reference label ∈ requests → ∃ place, BoundIn requests label place) ∧
    (∀ code, (after requests).finish = .ok code → Backfilled requests code) ∧
    (∀ front back label place b, requests = front ++ .bind label :: back →
      defineLabel label (after front) = .ok place b →
      place = (after front).size ∧ b = after (front ++ [.bind label]) ∧
        ∀ between rest place' b', back = between ++ .bind label :: rest →
          defineLabel label (after (front ++ .bind label :: between)) ≠ .ok place' b') ∧
    ∀ (q : WriteRequest) fault b', q.perform (after requests) = .error fault b' →
      b' = after requests := by
  refine ⟨⟨fun ⟨code, hcode⟩ => (finish_after_eq_ok_iff.mp hcode).1, fun hbound => ?_⟩,
    fun _ => backfilled_of_finish, ?_, fun _ _ _ => WriteRequest.eq_of_perform_error⟩
  · exact ⟨_, finish_after_eq_ok_iff.mpr ⟨hbound, rfl⟩⟩
  · intro front back label place b _ hok
    obtain ⟨hfault, hplace, hb⟩ := defineLabel_eq_ok_iff.mp hok
    refine ⟨hplace, ?_, fun between rest place' b' _ hok' => ?_⟩
    · rw [after_snoc, WriteRequest.next_bind_of_none hfault, hb]
    · have hbound : BoundIn (front ++ .bind label :: between) label place :=
        ⟨front, between, b, rfl, hok, hplace⟩
      exact (exists_defineLabel_iff.mp ⟨place', b', hok'⟩).2.1 place hbound

example : (after [.make, .byte 0xAA, .reference ⟨0⟩, .bind ⟨0⟩, .byte 0xBB, .reference ⟨0⟩]).finish
    = .ok #[0xAA, 5, 0, 0, 0, 0xBB, 5, 0, 0, 0] := by decide

end CodeBuffer

end HookScript
