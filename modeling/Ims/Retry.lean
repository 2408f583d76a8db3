import Ims.Models

namespace Ims.Retry

open Models

def stopAfterAttempt : Nat := 5

def retries : Nat := 3

/-- Where a call stands in its two loops: the calls that retry_async has seen
fail, and within the present call the attempts that the tenacity loop has. -/
structure Budget where
  attempt : Nat := 0
  inner : Nat := 0
  deriving DecidableEq, Repr

/-- The tenacity loop after a failed attempt: go on with the count, or re-raise. -/
def retryPolicy (e : Exc) (inner : Nat) : Option Nat :=
  if e = .operationalError ∧ inner + 1 < stopAfterAttempt then some (inner + 1) else none

/-- The loop of retry_async after a failed call: go on with the count, or raise. -/
def retryAsync (retries attempt : Nat) : Option Nat :=
  if retries ≤ attempt + 1 then none else some (attempt + 1)

def Budget.plain (b : Budget) : Option Budget :=
  (retryAsync retries b.attempt).map fun attempt => { attempt }

def Budget.nested (e : Exc) (b : Budget) : Option Budget :=
  match retryPolicy e b.inner with
  | some inner => some { b with inner }
  | none => b.plain

end Ims.Retry
