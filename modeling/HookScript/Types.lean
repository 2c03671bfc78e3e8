/-
Types of values, of arguments and of parameters.

A register holds an integer or a handle to a host object, which is read-only (`ptr`) or editable
(`ptre`).  A parameter of an operation accepts arguments by their type; `Parameter.score` says
how well, and the overload with the best sum of scores wins.

An integer parameter has two encodings, as an immediate and as a register.  A version of an
overload fixes one encoding for each parameter; versions are numbered in mixed radix, the first
parameter most significant.

* `Parameter.score` rates an argument type.
* `versionOf` and `choicesOf` go from the choices to the number of the version and back.
-/
namespace HookScript

/-- The number of a value type in a registry; 0 is the type of integers. -/
structure TypeTag where
  index : Nat
deriving DecidableEq, Repr

/-- The tag of integers. -/
def TypeTag.int : TypeTag := ⟨0⟩

/-- The type of a register or a variable. -/
inductive ValueType where
  | int
  /-- a read-only handle to a host object -/
  | ptr (tag : TypeTag)
  /-- a handle to a host object that host functions may modify -/
  | ptre (tag : TypeTag)
deriving DecidableEq, Repr

namespace ValueType

/-- The tag of the type, or of what it points to. -/
def tag : ValueType → TypeTag
  | int => .int
  | ptr t | ptre t => t

/-- Whether values of the type are integers. -/
def isInt : ValueType → Bool
  | int => true
  | _ => false

end ValueType

/-- The type of an argument of a statement. -/
inductive ArgumentType where
  /-- a name that stands for nothing yet -/
  | unknown
  /-- the running program -/
  | program
  /-- the worker that runs it -/
  | worker
  | constant
  | register (type : ValueType)
  | label
  /-- the operands of a host function -/
  | raw
  /-- a host function of the program -/
  | native
  /-- the name of a type -/
  | typeName (type : ValueType)
deriving DecidableEq, Repr

/-- What a parameter of an overload accepts. -/
inductive Parameter where
  /-- an integer, constant or in a register -/
  | int
  /-- a writable integer register -/
  | intVar
  | label
  /-- any handle to an object of the type -/
  | ptr (tag : TypeTag)
  /-- an editable handle to an object of the type -/
  | ptre (tag : TypeTag)
  | native
  | raw
deriving DecidableEq, Repr

/-- The score of an argument that is just what the parameter asks for. -/
def exactScore : Nat := 2

/-- The score of an argument that will do. -/
def compatibleScore : Nat := 1

namespace Parameter

/-- The number of encodings of an argument. -/
def choices : Parameter → Nat
  | int => 2
  | _ => 1

/-- How well an argument fits, if it does.  Only registers can be writable. -/
def score (p : Parameter) (argument : ArgumentType) (writable : Bool) : Option Nat :=
  match p, argument with
  | int, .constant | int, .register .int => some exactScore
  | intVar, .register .int => if writable then some exactScore else none
  | label, .label => some exactScore
  | ptr want, .register (.ptr held) => if want = held then some exactScore else none
  | ptr want, .register (.ptre held) => if want = held then some compatibleScore else none
  | ptre want, .register (.ptre held) => if want = held then some exactScore else none
  | native, .native | raw, .raw => some exactScore
  | _, _ => none

/-- Whether an unknown name will do, as a label that is declared later. -/
def acceptsForwardLabel : Parameter → Bool
  | label => true
  | _ => false

theorem choices_pos (p : Parameter) : 0 < p.choices := by
  cases p <;> simp [choices]

end Parameter

/-! ### Versions -/

/-- The greatest number of versions of an overload. -/
def maxVersions : Nat := 65535

/-- The number of versions of an overload, if they can be numbered. -/
def versionCount? (params : List Parameter) : Option Nat :=
  params.foldlM (fun count p =>
    if count * p.choices ≤ maxVersions then some (count * p.choices) else none) 1

/-- The number of the version that makes the given choices. -/
def versionOf (params : List Parameter) (choices : List Nat) : Nat :=
  (params.zip choices).foldl (fun version (p, choice) => version * p.choices + choice) 0

/-- The choices that a version makes, and what is left of its number in front of them. -/
def splitVersion : List Parameter → Nat → List Nat × Nat
  | [], version => ([], version)
  | p :: params, version =>
    let (choices, version) := splitVersion params version
    (version % p.choices :: choices, version / p.choices)

/-- The choices that a version makes. -/
def choicesOf (params : List Parameter) (version : Nat) : List Nat :=
  (splitVersion params version).1

@[simp] theorem length_choicesOf (params : List Parameter) (version : Nat) :
    (choicesOf params version).length = params.length := by
  have : ∀ ps v, (splitVersion ps v).1.length = ps.length := by
    intro ps v
    induction ps with
    | nil => rfl
    | cons p ps ih => simp [splitVersion, ih]
  exact this params version

end HookScript
