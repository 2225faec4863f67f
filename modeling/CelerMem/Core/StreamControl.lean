import CelerMem.Core.Chunk

/-! Execution results of a pollable stream, and the counters that its consumer and the
scheduler share. Each function on the counters is one atomic step here. -/
namespace CelerMem.Async

inductive PollKind where
  | emit
  | pending
  | yield
  | done
  | error
  deriving DecidableEq

/-- `PollResult<T>`, with a chunk and an error only where they are valid. -/
inductive PollResult (α : Type) where
  | emit (chunk : Chunk α)
  | pending
  | yield
  | done
  | error (e : Error)
  deriving DecidableEq

/-- How far one poll may advance a stream. -/
structure StreamBudget where
  maxChunks : UInt32 := 1
  maxBytes : UInt32 := 64 * 1024
  maxNs : UInt64 := 50000
  deriving DecidableEq

def StreamBudget.unbounded : StreamBudget := ⟨UInt32.ofNat (2 ^ 32 - 1), UInt32.ofNat (2 ^ 32 - 1),
  UInt64.ofNat (2 ^ 64 - 1)⟩

/-- What a poll is told of its worker; every poll is under the same scheduler. -/
structure TaskContext where
  workerId : UInt32
  deriving DecidableEq

structure StreamControl where
  requested : UInt32 := 0
  buffered : UInt32 := 0
  cancelled : Bool := false

namespace StreamControl

def defaultHighWatermark : UInt32 := 16

/-- Should the scheduler let a worker advance this stream? -/
def shouldAdvance (c : StreamControl) : Bool :=
  decide (c.requested > 0) && decide (c.buffered < defaultHighWatermark) && !c.cancelled

/-- Grants demand; the counter wraps around. -/
def request (c : StreamControl) (n : UInt32) : StreamControl :=
  { c with requested := c.requested + n }

/-- Consumes one demand credit after a chunk was emitted. -/
def onEmit (c : StreamControl) : StreamControl :=
  { c with requested := c.requested - 1, buffered := c.buffered + 1 }

def cancel (c : StreamControl) : StreamControl := { c with cancelled := true }

theorem shouldAdvance_cancel (c : StreamControl) : c.cancel.shouldAdvance = false := by
  simp [shouldAdvance, cancel]

end StreamControl
end CelerMem.Async
