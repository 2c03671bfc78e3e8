/-
Host objects: the values of the host that scripts see through handles.

A handle is a register value: 0 is the null handle, and `n + 1` designates the object at place `n`.
A handle of the wrong type behaves like the null handle.  An object is shared, then nobody can
change it, or lent, then host functions may.

* `HostObjects.find?` reads the object behind a handle.
* `HostObjects.update?` changes it, if it is lent.
-/
namespace HookScript

/-- A type of the host, known by its name there. -/
structure HostType where
  name : String
deriving DecidableEq, Repr

/-- The fields of a host object. -/
abbrev Fields := Array Int32

/-- Whether host functions may modify an object. -/
inductive Access where
  | shared
  | lent
deriving DecidableEq, Repr

/-- A host object with its type and access. -/
structure HostObject where
  type : HostType
  access : Access
  fields : Fields
deriving DecidableEq, Repr

/-- The host objects of a worker, in the order of their handles. -/
structure HostObjects where
  objects : Array HostObject := #[]
deriving DecidableEq, Repr

namespace HostObjects

/-- No objects. -/
def empty : HostObjects := {}

/-- The number of objects. -/
def size (h : HostObjects) : Nat := h.objects.size

/-- The handle of the object that is entered next. -/
def nextHandle (h : HostObjects) : Int32 := Int32.ofNat (h.size + 1)

/-- Enters an object behind the next handle. -/
def push (h : HostObjects) (object : HostObject) : HostObjects :=
  ⟨h.objects.push object⟩

/-- The place that a handle designates; none for null and negative handles. -/
def place? (handle : Int32) : Option Nat :=
  if 0 < handle then some (handle.toInt.toNat - 1) else none

/-- The object behind a handle, if it has the given type. -/
def object? (h : HostObjects) (type : HostType) (handle : Int32) : Option HostObject := do
  let object ← h.objects[← place? handle]?
  if object.type = type then some object else none

/-- The fields of the object behind a handle, if it has the given type. -/
def find? (h : HostObjects) (type : HostType) (handle : Int32) : Option Fields :=
  (h.object? type handle).map (·.fields)

/-- The objects after a change to the one behind a handle, if it is lent and has the given
type. -/
def update? (h : HostObjects) (type : HostType) (handle : Int32) (change : Fields → Fields) :
    Option HostObjects := do
  let place ← place? handle
  let object ← h.object? type handle
  match object.access with
  | .shared => none
  | .lent =>
    some ⟨h.objects.setIfInBounds place { object with fields := change object.fields }⟩

end HostObjects

end HookScript
