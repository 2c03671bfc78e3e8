/-
From scripts to programs.

A script is compiled statement by statement, and closed with a final `exit`.  The first error ends
the compilation.

* `Drafting.statement` compiles one statement.
* `Draft.finish` closes the script: no block may be open, every label that is used must have been
  declared, and the code must pass verification.
* `compile` compiles a whole script, with the arguments of a hook as names if it is for one.
-/
import HookScript.Compile.Block
import HookScript.Compile.Variable
import HookScript.Event

namespace HookScript

namespace Drafting

/-- Answers the requests of a keyword of the host. -/
def expand (r : Registry) : Expansion → Drafting Unit
  | .done => return ()
  | .reject kind => throw kind
  | .lookup name next => do expand r (next ((← get).lookup r name))
  | .resolve token next => do expand r (next ((← get).resolve r token))
  | .emit operation arguments next => do
    expand r (next (← attempt (emitNamed r operation arguments)))
  | .newLabel next => do expand r (next (← attempt newLabel))
  | .placeLabel label next => do expand r (next (← attempt (placeLabel label)))
  | .isPlaced label next => do expand r (next ((← get).buffer.isDefined label))
  | .declareVariable name type next => do
    expand r (next (← attempt (declareVariable r name type)))
  | .inBlock next => do expand r (next (← get).inBlock)

/-- Compiles a statement of an operation by the form of its statements. -/
def statementOf (r : Registry) (op : Operation) (s : Statement) : Drafting Unit :=
  match op.form with
  | .call => do
    let arguments ← ofExcept ((← get).resolveAll r s.arguments)
    emit r op arguments
  | .ifBlock => ifBlock r s
  | .elseBranch => elseBranch r s
  | .endBlock => endBlock s
  | .declaration => declaration r s
  | .custom form => expand r (form s)

/-- An operation's name cut in front of its first dot: an object and a member of it. -/
def splitMember? (name : String) : Option (String × String) :=
  match name.toList.span (· ≠ '.') with
  | (_, []) => none
  | (object, member) => some (String.ofList object, String.ofList member)

/-- The operation that `object.member` means, and the object as its first argument. -/
def memberOperation? (r : Registry) (d : Draft) (name : String) :
    Option (Operation × Argument) := do
  let (object, member) ← splitMember? name
  let meaning ← d.lookup r object
  match meaning with
  | .register _ (.ptr tag) _ | .register _ (.ptre tag) _ =>
    let type := ((r.type? tag).map (·.name)).getD ""
    return (← r.operationJoined? type member, .ofMeaning meaning)
  | _ => none

/-- Declares the label of a statement, if it has one. -/
def statementLabel (r : Registry) (s : Statement) : Drafting Unit :=
  match s.label with
  | some label => defineLabel r label.text
  | none => return ()

/-- Compiles a statement. -/
def statement (r : Registry) (s : Statement) : Drafting Unit := do
  modify fun d => { d with span := s.span }
  statementLabel r s
  let name := s.name.text
  match r.operation? name with
  | some op => statementOf r op s
  | none =>
    match memberOperation? r (← get) name with
    | some (op, object) =>
      let arguments ← ofExcept ((← get).resolveAll r s.arguments)
      emit r op (object :: arguments)
    | none => throw (.unknownOperation name)

end Drafting

namespace Draft

/-- The first label that was used but never declared. -/
def undeclared? (d : Draft) : Option ForwardLabel :=
  d.forward.find? fun f => !d.buffer.isDefined f.label

/-- What speaks against closing the script, and the statement at fault. -/
def openEnd? (d : Draft) : Option (CompileError.Kind × Span) :=
  match d.blocks with
  | block :: _ => some (.unterminatedBlock, block.span)
  | [] => d.undeclared?.map fun f => (.labelNotDeclared f.name, f.span)

/-- The program of a script whose last instruction has been appended. -/
def toProgram (d : Draft) : Except CompileError.Kind Program :=
  match d.buffer.finish with
  | .error fault => .error (.internal (.label fault))
  | .ok code =>
    let p : Program := ⟨code, UInt8.ofNat d.registersUsed, d.natives⟩
    match p.verify with
    | .error e => .error (.internal (.verification e))
    | .ok () => .ok p

/-- Closes the script `source`. -/
def finish (r : Registry) (source : String) (d : Draft) : Except CompileError Program :=
  match d.openEnd? with
  | some (kind, span) => .error (.inStatement source span kind)
  | none =>
    match Drafting.emitNamed r Builtin.exit.name [] d with
    | .error kind _ => .error (.inStatement source d.span kind)
    | .ok () closed =>
      match closed.toProgram with
      | .error kind => .error (.inStatement source d.span kind)
      | .ok p => .ok p

/-- Compiles statements one after the other, up to the first error. -/
def compileAll (r : Registry) (source : String) (d : Draft) :
    List (Except SyntaxError Statement) → Except CompileError Draft
  | [] => .ok d
  | .error e :: _ => .error (.ofSyntaxError e)
  | .ok s :: rest =>
    match Drafting.statement r s d with
    | .ok () d => d.compileAll r source rest
    | .error kind _ => .error (.inStatement source s.span kind)

end Draft

/-- Compiles a script with the given hook arguments. -/
def compileWith (r : Registry) (arguments : List HookArgument) (source : String) :
    Except CompileError Program :=
  match Draft.start r arguments with
  | .error kind => .error (.ofScript kind)
  | .ok d => do
    let d ← d.compileAll r source (Statement.readAll r.config.maxArguments (tokenize source))
    d.finish r source

/-- Compiles a script, for a hook if one is given. -/
def compile (r : Registry) (hook : Option HookSignature) (source : String) :
    Except CompileError Program :=
  compileWith r ((hook.map (·.arguments)).getD []) source

/-- The log's name for events of the compiler. -/
def compileTarget : String := "modscript::bytecode::compile"

/-- The event of a script that has been compiled. -/
def Program.compiledEvent (p : Program) : Event :=
  ⟨.debug, compileTarget, "script compiled",
    [("bytes", .number p.code.size), ("registers", .number p.registers.toNat),
      ("natives", .number p.natives.size)]⟩

end HookScript
