/-
Scripts under compilation.

A `Draft` is what the statements so far have led to: code, names of the script's own, open blocks,
host functions in use, registers in use.  A step of the compiler changes the draft and may fail;
what it did before it failed stays.

* `Draft.lookup` and `Draft.resolve` say what a name or a token stands for.
* `Drafting.newLabel`, `placeLabel`, `defineLabel` and `forwardLabel` manage labels.
* `Drafting.declareVariable` gives a variable the next free register.
-/
import HookScript.Registry
import HookScript.Token.Literal

namespace HookScript

/-- Which branch of a block is open. -/
inductive Branch where
  /-- one with a condition, so that others may follow -/
  | conditional
  /-- the one without a condition, which is the last -/
  | last
deriving DecidableEq, Repr

/-- An open block. -/
structure Block where
  branch : Branch
  /-- where to go on if the latest condition does not hold -/
  elseLabel : LabelId
  endLabel : LabelId
  /-- the statement that opened the block -/
  span : Span
deriving DecidableEq, Repr

/-- A label that was used before its declaration, and the statement that used it first. -/
structure ForwardLabel where
  label : LabelId
  name : String
  span : Span
deriving DecidableEq, Repr

/-- A script under compilation. -/
structure Draft where
  locals : SymbolTable := .empty
  buffer : CodeBuffer := .empty
  /-- the open blocks, the innermost first -/
  blocks : List Block := []
  forward : Array ForwardLabel := #[]
  natives : Array NativeBinding := #[]
  nextRegister : Nat
  registersUsed : Nat
  /-- the statement that is being compiled -/
  span : Span := .nowhere

/-- A step of the compiler. -/
abbrev Drafting := EStateM CompileError.Kind Draft

namespace Draft

/-- The names of hook arguments from argument `i` on, which are registers of the same numbers. -/
def bindArguments (capacity : Nat) :
    Nat → List HookArgument → SymbolTable → Except CompileError.Kind SymbolTable
  | _, [], names => .ok names
  | i, a :: arguments, names =>
    if capacity ≤ i then .error (.tooManyRegisters a.name)
    else
      match names.insert a.name (.register (UInt8.ofNat i) a.type a.writable) with
      | .ok names => bindArguments capacity (i + 1) arguments names
      | .error _ => .error (.variableRedefined a.name)

/-- The number of registers up to the last standing one. -/
def standingCount (globals : SymbolTable) : Nat :=
  globals.toList.foldl (fun count (_, meaning) =>
    match meaning with
    | .register index _ _ => max count (index.toNat + 1)
    | _ => count) 0

/-- The draft of an empty script with the given hook arguments. -/
def start (r : Registry) (arguments : List HookArgument) : Except CompileError.Kind Draft :=
  match bindArguments r.config.registers 0 arguments .empty with
  | .error kind => .error kind
  | .ok locals =>
    let used := max r.config.inputRegisters arguments.length
    .ok { locals, nextRegister := max used (standingCount r.globals), registersUsed := used }

/-- What a name stands for; names of the script come before global ones. -/
def lookup (r : Registry) (d : Draft) (name : String) : Option Meaning :=
  d.locals.find? name <|> r.globals.find? name

/-- The argument that a token stands for. -/
def resolve (r : Registry) (d : Draft) (t : Token) : Except CompileError.Kind Argument :=
  match t.kind with
  | .number =>
    match t.number? with
    | some value => .ok (.constant value)
    | none => .error (.invalidNumber t.text)
  | .symbol =>
    match d.lookup r t.text with
    | some meaning => .ok (.ofMeaning meaning)
    | none => .ok (.unknown t.text)
  | kind => .error (.malformed (.unexpectedToken kind))

/-- The arguments that tokens stand for, or the first error among them. -/
def resolveAll (r : Registry) (d : Draft) (tokens : List Token) :
    Except CompileError.Kind (List Argument) :=
  tokens.mapM (d.resolve r)

/-- Whether a block is open. -/
def inBlock (d : Draft) : Bool := !d.blocks.isEmpty

/-- The draft with the register counted as in use. -/
def touch (d : Draft) (register : UInt8) : Draft :=
  { d with registersUsed := max d.registersUsed (min (register.toNat + 1) 255) }

end Draft

namespace Drafting

/-- A step that only answers, from what has been worked out already. -/
def ofExcept {α : Type} : Except CompileError.Kind α → Drafting α
  | .ok a => pure a
  | .error kind => throw kind

/-- A step whose failure is its answer. -/
def attempt {α : Type} (step : Drafting α) : Drafting (Except CompileError.Kind α) := fun d =>
  match step d with
  | .ok a d => .ok (.ok a) d
  | .error kind d => .ok (.error kind) d

/-- The most labels of a script. -/
def maxLabels : Nat := 65535

/-- Makes a label. -/
def newLabel : Drafting LabelId := do
  if maxLabels ≤ (← get).buffer.labelCount then
    throw .codeTooLarge
  modifyGet fun d => (d.buffer.nextLabel, { d with buffer := d.buffer.newLabel })

/-- Binds a label to the code reached. -/
def placeLabel (label : LabelId) : Drafting Unit := do
  match (← get).buffer.labelFault? label with
  | some fault => throw (.internal (.label fault))
  | none => modify fun d => { d with buffer := d.buffer.bindLabel label }

/-- Makes a label for a name that stands for nothing yet in the script. -/
def nameLabel (name : String) : Drafting LabelId := do
  let label ← newLabel
  match (← get).locals.insert name (.label label) with
  | .error _ => throw (.labelRedefined name)
  | .ok locals =>
    modify fun d => { d with locals }
    return label

/-- Declares the label of a statement. -/
def defineLabel (r : Registry) (name : String) : Drafting Unit := do
  let label ←
    match (← get).lookup r name with
    | some (.label label) => pure label
    | some _ => throw (.labelRedefined name)
    | none => nameLabel name
  if (← get).buffer.isDefined label then
    throw (.labelRedefined name)
  placeLabel label

/-- Makes a label for a name that is declared later. -/
def forwardLabel (name : String) : Drafting LabelId := do
  let label ← nameLabel name
  modify fun d => { d with forward := d.forward.push ⟨label, name, d.span⟩ }
  return label

/-- Gives a new variable the next free register. -/
def declareVariable (r : Registry) (name : String) (type : ValueType) : Drafting UInt8 := do
  let d ← get
  if (d.lookup r name).isSome then
    throw (.variableRedefined name)
  if r.config.registers ≤ d.nextRegister then
    throw (.tooManyRegisters name)
  let index := UInt8.ofNat d.nextRegister
  match d.locals.insert name (.register index type true) with
  | .error _ => throw (.variableRedefined name)
  | .ok locals =>
    modify fun d => { d with locals, nextRegister := d.nextRegister + 1 }
    modify fun d => d.touch index
    return index

end Drafting

end HookScript
