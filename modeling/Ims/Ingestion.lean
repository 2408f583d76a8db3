import Ims.Models
import Ims.Library.Rounding
import Mathlib.Data.Rat.Defs
import Mathlib.Algebra.Order.Field.Rat

namespace Ims.Ingestion

open Library.Rounding Models

structure Settings where
  queueMaxsize : Nat := 50000
  queueBackpressureThreshold : Rat := 4 / 5

/-- The queue with its counters; unfinished is the count of asyncio.Queue that
put raises and task_done lowers. -/
structure IngestQueueState where
  queue : List SignalIn := []
  unfinished : Nat := 0
  accepted : Nat := 0
  dropped : Nat := 0
  processed : Nat := 0
  deriving DecidableEq, Repr

def queuePctFull (cfg : Settings) (s : IngestQueueState) : Rat :=
  if cfg.queueMaxsize = 0 then 0 else (s.queue.length : Rat) / cfg.queueMaxsize

def isBackpressured (cfg : Settings) (s : IngestQueueState) : Bool :=
  decide (cfg.queueBackpressureThreshold ≤ queuePctFull cfg s)

/-- The method put_nowait, absent on QueueFull; a maxsize of 0 is no bound. -/
def putNowait (cfg : Settings) (s : IngestQueueState) (signal : SignalIn) : Option IngestQueueState :=
  if 0 < cfg.queueMaxsize ∧ cfg.queueMaxsize ≤ s.queue.length then none
  else some { s with queue := s.queue ++ [signal], unfinished := s.unfinished + 1 }

def offer (cfg : Settings) (s : IngestQueueState) (signal : SignalIn) : IngestQueueState × Bool :=
  if isBackpressured cfg s then ({ s with dropped := s.dropped + 1 }, false)
  else match putNowait cfg s signal with
    | none => ({ s with dropped := s.dropped + 1 }, false)
    | some s => ({ s with accepted := s.accepted + 1 }, true)

/-- The method task_done, absent where it raises ValueError. -/
def taskDone (s : IngestQueueState) : Option IngestQueueState :=
  if s.unfinished = 0 then none else some { s with unfinished := s.unfinished - 1 }

structure QueueSnapshot where
  queueDepth : Nat
  queuePctFull : Rat
  acceptedTotal : Nat
  droppedTotal : Nat
  processedTotal : Nat
  deriving DecidableEq, Repr

/-- The quotient is exact where Python rounds a float: the two may part at a decimal
tie, of which there is none with the maxsize of 50000. -/
def snapshot (cfg : Settings) (s : IngestQueueState) : QueueSnapshot where
  queueDepth := s.queue.length
  queuePctFull := roundDigits 4 (queuePctFull cfg s)
  acceptedTotal := s.accepted
  droppedTotal := s.dropped
  processedTotal := s.processed

end Ims.Ingestion
