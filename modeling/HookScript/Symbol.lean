/-
Names and what they stand for.

A registry holds the table of global names; every script under compilation has one of its own,
whose names come first.

* `SymbolTable.find?` and `SymbolTable.findJoined?` look a name up, whole or in two pieces.
* `SymbolTable.insert` adds a name, or says what it stands for already.
-/
import HookScript.NameTable
import HookScript.Types

namespace HookScript

/-- The number of a label of a script. -/
structure LabelId where
  index : UInt16
deriving DecidableEq, Repr

/-- What a name stands for. -/
inductive Meaning where
  | constant (value : Int32)
  | register (index : UInt8) (type : ValueType) (writable : Bool)
  | label (id : LabelId)
  | typeName (type : ValueType)
deriving DecidableEq, Repr

/-- Names with their meanings, in the order of the names. -/
structure SymbolTable where
  entries : NameTable Meaning := ∅

namespace SymbolTable

/-- The table without names. -/
def empty : SymbolTable := {}

/-- The number of names. -/
def size (t : SymbolTable) : Nat := t.entries.size

/-- Whether the table has no name. -/
def isEmpty (t : SymbolTable) : Bool := t.entries.isEmpty

/-- The names with their meanings, in order. -/
def toList (t : SymbolTable) : List (String × Meaning) := t.entries.toList

/-- What `name` stands for. -/
def find? (t : SymbolTable) (name : String) : Option Meaning := t.entries.find? name

/-- What the name `front ++ back` stands for. -/
def findJoined? (t : SymbolTable) (front back : String) : Option Meaning :=
  t.entries.findJoined? front back

/-- The table with a new name.  A name that is there already keeps its meaning, which is the
error. -/
def insert (t : SymbolTable) (name : String) (meaning : Meaning) : Except Meaning SymbolTable :=
  match t.find? name with
  | some existing => .error existing
  | none => .ok ⟨t.entries.insert name meaning⟩

/-- The table in which `name`, if it is there, stands for something else. -/
def replace? (t : SymbolTable) (name : String) (meaning : Meaning) : Option SymbolTable :=
  if t.entries.contains name then some ⟨t.entries.insert name meaning⟩ else none

end SymbolTable

end HookScript
