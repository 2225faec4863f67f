import CelerMem.Core.Chunk

/-! The bounded channel between the senders of an actor and its inbox. Both ends
share one `ChannelBuf`, which `make_channel` allocates, so neither end is ever
without a buffer. -/
namespace CelerMem.Necto

variable {α : Type}

/-- `push` is the only function that grows the queue, and it respects the capacity. -/
structure ChannelBuf (α : Type) where
  queue : List α
  capacity : Nat
  bounded : queue.length ≤ capacity

namespace ChannelBuf

/-- `make_channel`: an empty buffer. -/
def make (capacity : Nat) : ChannelBuf α := ⟨[], capacity, Nat.zero_le capacity⟩

/-- Returns false on full. -/
def push (b : ChannelBuf α) (item : α) : Bool × ChannelBuf α :=
  if h : b.queue.length ≥ b.capacity then (false, b)
  else
    (true, ⟨b.queue ++ [item], b.capacity, by
      rw [List.length_append, List.length_singleton]
      omega⟩)

/-- Removes all pending items. -/
def clear (b : ChannelBuf α) : ChannelBuf α := ⟨[], b.capacity, Nat.zero_le b.capacity⟩

/-- Moves all pending items to the end of `out` and returns their number. -/
def drainTo (b : ChannelBuf α) (out : List α) : Nat × List α × ChannelBuf α :=
  let n := b.queue.length
  if n = 0 then (0, out, b) else (n, out ++ b.queue, b.clear)

/-- `ChannelPullImpl::pull`: all pending items as one chunk, or nothing. -/
def pull (b : ChannelBuf α) : Option (Chunk α) × ChannelBuf α :=
  let drained := b.drainTo []
  if drained.1 = 0 then (none, drained.2.2)
  else (some (Chunk.from drained.2.1), drained.2.2)

@[simp] theorem make_queue (capacity : Nat) : (make capacity : ChannelBuf α).queue = [] := rfl

@[simp] theorem make_capacity (capacity : Nat) :
    (make capacity : ChannelBuf α).capacity = capacity := rfl

@[simp] theorem clear_queue (b : ChannelBuf α) : b.clear.queue = [] := rfl

@[simp] theorem clear_capacity (b : ChannelBuf α) : b.clear.capacity = b.capacity := rfl

theorem push_of_full {b : ChannelBuf α} {item : α} (h : b.capacity ≤ b.queue.length) :
    b.push item = (false, b) := by
  simp [push, h]

/-- A push that has room appends its item and nothing else. -/
theorem push_of_room {b : ChannelBuf α} (item : α) (h : b.queue.length < b.capacity) :
    (b.push item).1 = true ∧ (b.push item).2.queue = b.queue ++ [item] ∧
      (b.push item).2.capacity = b.capacity := by
  simp [push, Nat.not_le.mpr h]

theorem pull_of_empty {b : ChannelBuf α} (h : b.queue = []) : b.pull = (none, b) := by
  simp [pull, drainTo, h]

theorem pull_of_pending {b : ChannelBuf α} (h : b.queue ≠ []) :
    b.pull = (some (Chunk.from b.queue), b.clear) := by
  simp [pull, drainTo, h]

end ChannelBuf
end CelerMem.Necto
