/-
Events: what the library reports to the log of its host.
-/
namespace HookScript

/-- How serious an event is. -/
inductive Event.Level where
  | debug
  | warning
  | error
deriving DecidableEq, Repr

/-- The value of a field of an event. -/
inductive Event.Value where
  | text (value : String)
  | number (value : Int)
deriving DecidableEq, Repr

/-- An event: where it comes from, its message, and its fields in order. -/
structure Event where
  level : Event.Level
  target : String
  message : String
  fields : List (String × Event.Value)
deriving DecidableEq, Repr

end HookScript
