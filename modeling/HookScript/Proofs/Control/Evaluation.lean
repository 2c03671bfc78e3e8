/-
Scripts as nested blocks, and what they mean.

A script is read as statements and chains `if c; S (else c; S)* [else; S] end;`, and evaluated on a
worker without code, labels or positions: one statement after the other, and of every chain the
first branch whose condition holds.

* `Body` and `Others` — the statements of a script or a branch, and what follows the first branch of
  a chain; `Body.statements` flattens them, and `Body.ReadBy` says that each statement is where the
  form of its operation belongs;
* `Operation.evaluate`, `Scope.declare` and `Scope.condition` — what single statements do;
* `Body.eval` — what a script does, and `Ending.result` its final result.
-/
import HookScript.Machine.Run
import HookScript.Proofs.Compile.Statements
import Mathlib.Data.Option.Basic

namespace HookScript

/-! ### Scripts as trees -/

mutual

/-- The statements of a script or of a branch. -/
inductive Body where
  | done
  /-- a statement that is no part of a chain -/
  | plain (s : Statement) (rest : Body)
  /-- a chain with its first branch -/
  | chain (opening : Statement) (branch : Body) (others : Others) (rest : Body)

/-- What follows the first branch of a chain. -/
inductive Others where
  | close (closing : Statement)
  /-- the branch without a condition -/
  | last (s : Statement) (branch : Body) (closing : Statement)
  /-- a branch with a condition -/
  | next (s : Statement) (branch : Body) (others : Others)

end

mutual

/-- The statements in a row. -/
def Body.statements : Body → List Statement
  | .done => []
  | .plain s rest => s :: rest.statements
  | .chain opening branch others rest =>
    opening :: (branch.statements ++ (others.statements ++ rest.statements))

/-- The statements in a row. -/
def Others.statements : Others → List Statement
  | .close closing => [closing]
  | .last s branch closing => s :: (branch.statements ++ [closing])
  | .next s branch others => s :: (branch.statements ++ others.statements)

end

/-- How the statement is read: a name that is no operation is that of a member. -/
def Registry.formOf (r : Registry) (s : Statement) : StatementForm :=
  match r.operation? s.name.text with
  | some op => op.form
  | none => .call

theorem Registry.formOf_of_operation {r : Registry} {s : Statement} {op : Operation}
    (h : r.operation? s.name.text = some op) : r.formOf s = op.form := by
  rw [formOf, h]

/-- The statement is no part of a chain. -/
def StatementForm.IsPlain : StatementForm → Prop
  | .call | .declaration => True
  | .ifBlock | .elseBranch | .endBlock | .custom _ => False

mutual

/-- Every statement of the tree is where its form belongs. -/
def Body.ReadBy (r : Registry) : Body → Prop
  | .done => True
  | .plain s rest => (r.formOf s).IsPlain ∧ rest.ReadBy r
  | .chain opening branch others rest =>
    r.formOf opening = .ifBlock ∧ branch.ReadBy r ∧ others.ReadBy r ∧ rest.ReadBy r

/-- Every statement of the tree is where its form belongs. -/
def Others.ReadBy (r : Registry) : Others → Prop
  | .close closing => r.formOf closing = .endBlock
  | .last s branch closing =>
    r.formOf s = .elseBranch ∧ s.arguments = [] ∧ branch.ReadBy r ∧ r.formOf closing = .endBlock
  | .next s branch others =>
    r.formOf s = .elseBranch ∧ s.arguments ≠ [] ∧ branch.ReadBy r ∧ others.ReadBy r

end

/-! ### Single statements -/

/-- What a script works on, without a position in code. -/
structure World where
  worker : Worker
  log : Array Event

/-- What a statement leads to. -/
inductive Ending where
  | next (world : World)
  | ended (result : Except Fault Int32) (world : World)

namespace Ending

/-- The result of a script that leads to this: at its end, the value of register 0. -/
def result : Ending → Except Fault Int32
  | next world => .ok (world.worker.registers.get 0)
  | ended result _ => result

/-- What the script leaves behind. -/
def world : Ending → World
  | next world => world
  | ended _ world => world

/-- Goes on with the next statements, unless the script has ended. -/
def andThen (ending : Ending) (rest : World → Option Ending) : Option Ending :=
  match ending with
  | next world => rest world
  | ended result world => some (ended result world)

end Ending

/-- What an outcome means for the script. -/
def Outcome.ending (outcome : Outcome) (world : World) : Ending :=
  match outcome with
  | .proceed => .next world
  | .stop => .ended (.ok (world.worker.registers.get 0)) world
  | .fail fault => .ended (.error fault) world

namespace Argument

/-- The argument has a value of its own: it is a constant or a register. -/
def isValue : Argument → Bool
  | constant _ | register _ _ _ => true
  | label _ | typeName _ | unknown _ => false

/-- The operand that a constant or a register is. -/
def operand : Argument → Operand
  | constant value => .immediate value
  | register index _ _ => .register index
  | label _ | typeName _ | unknown _ => .immediate 0

/-- The value of a constant or a register. -/
def value? (w : Worker) : Argument → Option Int32
  | constant value => some value
  | register index _ _ => some (w.registers.get index)
  | label _ | typeName _ | unknown _ => none

end Argument

/-- Carries an effect out that neither jumps nor calls a host function. -/
def Effect.apply (effect : Effect) (operands : List Operand) (world : World) :
    Option (Outcome × World) :=
  let values := world.worker.value operands
  match effect with
  | .assign compute =>
    match compute values with
    | .ok value => some (.proceed, { world with worker := world.worker.store operands 0 value })
    | .error fault => some (.fail fault, world)
  | .exchange =>
    let worker := (world.worker.store operands 0 (values 1)).store operands 1 (values 0)
    some (.proceed, { world with worker })
  | .stop => some (.stop, world)
  | .yield =>
    let registers := world.worker.registers.set 0 (values 0)
    some (.stop, { world with worker := { world.worker with registers } })
  | .log count => some (.proceed, { world with log := world.log.push (loggedEvent count values) })
  | .jump _ | .call => none

/-- What an operation does with arguments that have values: the overload that fits them best is an
instruction or a host function. -/
def Operation.evaluate (r : Registry) (op : Operation) (arguments : List Argument) (world : World) :
    Option Ending := do
  -- the overload is chosen by the arguments, not by their values
  let o ← (op.select r arguments).toOption
  guard (arguments.all Argument.isValue)
  let operands := arguments.map Argument.operand
  match o.target with
  | .builtin base => do
    let opcode ← Opcode.find? (UInt8.ofNat base)
    let (outcome, world) ← opcode.builtin.effect.apply operands world
    return outcome.ending world
  | .native first => do
    let binding ← r.native? first
    let (outcome, worker) := binding.routine.run operands world.worker
    return outcome.ending { world with worker }

/-- The names of a script at one of its statements, and the register that its next variable gets. -/
structure Scope where
  locals : SymbolTable
  nextRegister : Nat

/-- The names of the script so far. -/
def Draft.scope (d : Draft) : Scope :=
  ⟨d.locals, d.nextRegister⟩

namespace Scope

/-- A draft with the same names, which is all that looking up names depends on. -/
def draft (scope : Scope) : Draft where
  locals := scope.locals
  nextRegister := scope.nextRegister
  registersUsed := 0

/-- The scope behind the declaration of a variable. -/
def withVariable (scope : Scope) (name : String) (type : ValueType) : Scope where
  locals :=
    ⟨scope.locals.entries.insert name (.register (UInt8.ofNat scope.nextRegister) type true)⟩
  nextRegister := scope.nextRegister + 1

/-- Declares a variable, and sets it if it has a first value. -/
def declare (r : Registry) (scope : Scope) (tokens : List Token) (world : World) :
    Option (Scope × Ending) := do
  let (type, name, value) ← (scope.draft.declared r tokens).toOption
  let inner := scope.withVariable name type
  match value with
  | none => return (inner, .next world)
  | some value => do
    -- the first value is stored by the instruction that sets a register
    let set ← r.operation? Builtin.set.name
    let register := Argument.register (UInt8.ofNat scope.nextRegister) type true
    return (inner, ← set.evaluate r [register, value] world)

/-- Whether a condition holds. -/
def condition (r : Registry) (scope : Scope) (tokens : List Token) (world : World) :
    Option Bool := do
  let (c, first, second) ← (splitCondition tokens).toOption
  let a ← (scope.draft.resolve r first).toOption
  let b ← (scope.draft.resolve r second).toOption
  return c.holds (← a.value? world.worker) (← b.value? world.worker)

end Scope

/-- What a statement does that is no part of a chain, and the scope behind it. -/
def Statement.evaluate (r : Registry) (s : Statement) (scope : Scope) (world : World) :
    Option (Scope × Ending) :=
  match r.operation? s.name.text with
  | some op =>
    match op.form with
    | .declaration => scope.declare r s.arguments world
    | _ => do
      let arguments ← (scope.draft.resolveAll r s.arguments).toOption
      return (scope, ← op.evaluate r arguments world)
  | none => do
    let (op, object) ← Drafting.memberOperation? r scope.draft s.name.text
    let arguments ← (scope.draft.resolveAll r s.arguments).toOption
    return (scope, ← op.evaluate r (object :: arguments) world)

/-! ### Scripts -/

mutual

/-- What the statements of a script or of a branch do. -/
def Body.eval (r : Registry) : Body → Scope → World → Option Ending
  | .done, _, world => some (.next world)
  | .plain s rest, scope, world => do
    let (inner, ending) ← s.evaluate r scope world
    ending.andThen (rest.eval r inner)
  | .chain opening branch others rest, scope, world => do
    let ending ←
      if ← scope.condition r opening.arguments world then branch.eval r scope world
      else others.eval r scope world
    ending.andThen (rest.eval r scope)

/-- What a chain does whose conditions up to here do not hold. -/
def Others.eval (r : Registry) : Others → Scope → World → Option Ending
  | .close _, _, world => some (.next world)
  | .last _ branch _, scope, world => branch.eval r scope world
  | .next s branch others, scope, world => do
    if ← scope.condition r s.arguments world then branch.eval r scope world
    else others.eval r scope world

end

end HookScript
