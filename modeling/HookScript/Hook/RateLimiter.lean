/-
Reports at a limited rate: the first few occurrences, then one in every 1024.
-/
namespace HookScript

/-- The number of occurrences so far. -/
structure RateLimiter where
  seen : Nat := 0
deriving DecidableEq, Repr

namespace RateLimiter

/-- Nothing has occurred. -/
def fresh : RateLimiter := {}

/-- The number of first occurrences that are all reported. -/
def firstReports : Nat := 8

/-- The distance of the reports after them. -/
def reportEvery : Nat := 1024

/-- Whether occurrence number `n` is reported. -/
def reports (n : Nat) : Bool :=
  n ≤ firstReports || n % reportEvery = 0

/-- Counts an occurrence; the answer is its number if it is to be reported. -/
def count (l : RateLimiter) : Option Nat × RateLimiter :=
  let n := l.seen + 1
  (if reports n then some n else none, ⟨n⟩)

end RateLimiter

end HookScript
