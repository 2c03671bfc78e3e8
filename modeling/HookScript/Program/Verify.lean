/-
Verification: is the code of a program a sequence of instructions that a run can trust?

The code is read once from front to back.  Each operand is checked as soon as it is read: registers
against the number in use, host functions against the program's table, and the operands of a host
function against its layout, which they must fill exactly.  The targets of jumps are checked last,
against the positions where instructions begin.

* `Program.verify` is the verdict, `VerifyError.message` its wording.
-/
import HookScript.Code.Opcode
import HookScript.Program
import Std.Data.TreeSet

namespace HookScript

/-- Why code is refused.  The positions that are named have no bound, as in `Machine`. -/
inductive VerifyError where
  | empty
  | unknownOpcode (byte : UInt8) (position : Nat)
  | truncated (position : Nat)
  | badRegister (register registers : UInt8) (position : Nat)
  | badLabel (target position : Nat)
  | badNative (index position : Nat)
  | badOperandBlock (position : Nat)
deriving DecidableEq, Repr

/-- The wording of the error. -/
def VerifyError.message : VerifyError → String
  | empty => "program is empty"
  | unknownOpcode byte position =>
    "unknown opcode " ++ Text.hexByte byte ++ " at " ++ positionText position
  | truncated position => "instruction at " ++ positionText position ++ " is truncated"
  | badRegister register registers position =>
    "register r" ++ toString register ++ " at " ++ positionText position ++ " exceeds the " ++
      toString registers ++ " registers in use"
  | badLabel target position =>
    "jump at " ++ positionText position ++ " targets " ++ positionText target ++
      ", which is not an instruction"
  | badNative index position =>
    "native index " ++ toString index ++ " at " ++ positionText position ++ " is out of range"
  | badOperandBlock position =>
    "operand block at " ++ positionText position ++ " does not match its native function"

namespace Program

/-- Checks that an operand of the instruction at `position` names a register in use. -/
def checkOperand (p : Program) (position : Nat) : Operand → Except VerifyError Unit
  | .register r =>
    if p.registers ≤ r then .error (.badRegister r p.registers position) else .ok ()
  | _ => .ok ()

/-- Checks that the operands of a host function run from `place` to `stop` by its layout. -/
def checkBlock (p : Program) (position stop : Nat) : List Codec → Nat → Except VerifyError Unit
  | [], place => if place = stop then .ok () else .error (.badOperandBlock position)
  | codec :: layout, place =>
    match codec.decode? p.code stop place with
    | none => .error (.badOperandBlock position)
    | some (operand, next) =>
      match p.checkOperand position operand with
      | .error e => .error e
      | .ok () => p.checkBlock position stop layout next

/-- Checks the operands of the instruction at `position` from `place` on, when the operands before
them named the host function `native`.  The answer is the targets of its jumps and the position
after it. -/
def checkOperands (p : Program) (position : Nat) :
    List Codec → Option NativeBinding → Nat → Except VerifyError (List Nat × Nat)
  | [], _, place => .ok ([], place)
  | codec :: layout, native, place =>
    match codec.decode? p.code p.code.size place with
    | none => .error (.truncated position)
    | some (.native index, next) =>
      match p.native? index with
      | none => .error (.badNative index position)
      | some binding => p.checkOperands position layout (some binding) next
    | some (.raw start length, next) =>
      match native with
      | none => .error (.badOperandBlock position)
      | some binding =>
        match p.checkBlock position (start + length) binding.layout start with
        | .error e => .error e
        | .ok () => p.checkOperands position layout native next
    | some (.label target, next) =>
      match p.checkOperands position layout native next with
      | .error e => .error e
      | .ok (targets, last) => .ok (target :: targets, last)
    | some (operand, next) =>
      match p.checkOperand position operand with
      | .error e => .error e
      | .ok () => p.checkOperands position layout native next

/-- Checks the instruction at `position`. -/
def checkInstruction (p : Program) (position : Nat) (byte : UInt8) :
    Except VerifyError (List Nat × Nat) :=
  match Opcode.find? byte with
  | none => .error (.unknownOpcode byte position)
  | some opcode => p.checkOperands position opcode.layout none (position + 1)

theorem le_of_checkOperands {p : Program} {position : Nat} {layout : List Codec}
    {native : Option NativeBinding} {place next : Nat} {targets : List Nat}
    (h : p.checkOperands position layout native place = .ok (targets, next)) : place ≤ next := by
  fun_induction checkOperands p position layout native place generalizing targets
  case case1 => simp_all
  all_goals (try simp at h)
  case case4 hd _ _ ih => exact Nat.le_trans (Nat.le_of_lt (Codec.lt_of_decode? hd)) (ih h)
  case case7 hd _ _ ih => exact Nat.le_trans (Nat.le_of_lt (Codec.lt_of_decode? hd)) (ih h)
  case case9 hd _ _ hr ih =>
    obtain ⟨-, rfl⟩ := h
    exact Nat.le_trans (Nat.le_of_lt (Codec.lt_of_decode? hd)) (ih hr)
  case case11 hd _ ih => exact Nat.le_trans (Nat.le_of_lt (Codec.lt_of_decode? hd)) (ih h)

theorem lt_of_checkInstruction {p : Program} {position next : Nat} {byte : UInt8}
    {targets : List Nat} (h : p.checkInstruction position byte = .ok (targets, next)) :
    position < next := by
  unfold checkInstruction at h
  split at h
  · simp at h
  · exact le_of_checkOperands h

/-- Where instructions begin, and the jumps among them as positions and targets. -/
structure Survey where
  starts : Std.TreeSet Nat := ∅
  jumps : Array (Nat × Nat) := #[]

/-- Checks the instructions from `position` on and adds them to a survey. -/
def surveyFrom (p : Program) (position : Nat) (survey : Survey) : Except VerifyError Survey :=
  if h : position < p.code.size then
    match hc : p.checkInstruction position p.code[position] with
    | .error e => .error e
    | .ok (targets, next) =>
      have := lt_of_checkInstruction hc
      p.surveyFrom next
        { starts := survey.starts.insert position
          jumps := targets.foldl (fun jumps target => jumps.push (position, target)) survey.jumps }
  else
    .ok survey
termination_by p.code.size - position

/-- The first jump that does not lead to the beginning of an instruction. -/
def Survey.badJump? (survey : Survey) : Option (Nat × Nat) :=
  survey.jumps.find? fun jump => !survey.starts.contains jump.2

/-- Checks the code of a program. -/
def verify (p : Program) : Except VerifyError Unit :=
  if p.code.isEmpty then .error .empty
  else
    match p.surveyFrom 0 {} with
    | .error e => .error e
    | .ok survey =>
      match survey.badJump? with
      | some (position, target) => .error (.badLabel target position)
      | none => .ok ()

end Program

end HookScript
