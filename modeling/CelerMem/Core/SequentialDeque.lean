import CelerMem.Core.ChaseLevDeque
import CelerMem.Library.Objects

/-! The calls of the deque one at a time. -/
namespace CelerMem.Async

namespace Buffer
variable {buf : Buffer} {lo hi : Int} {lease : StreamLease}

/-- Wherever the indices wrap around, the buffer of twice the size holds the same. -/
theorem slots_grow (hFits : hi - lo ≤ buf.capacity) :
    (buf.grow lo hi).slots lo hi = buf.slots lo hi := by
  apply slots_congr
  intro i hLow hHigh
  exact get_grow (by omega) hLow hHigh

/-- Writing behind the last slot overwrites none of them while there is room. -/
theorem slots_put (hOrdered : lo ≤ hi) (hRoom : hi - lo < buf.capacity) :
    (buf.put hi lease).slots lo (hi + 1) = buf.slots lo hi ++ [lease] := by
  have hKept : (buf.put hi lease).slots lo hi = buf.slots lo hi := by
    apply slots_congr
    intro i hLow hHigh
    exact get_put_of_near hHigh (by omega)
  rw [slots_snoc hOrdered, hKept, get_put_self]

end Buffer

namespace ChaseLevDeque

def push (d : ChaseLevDeque) (lease : StreamLease) : ChaseLevDeque :=
  let b := d.bottom
  let t := d.top
  let (d, buf) :=
    if b - t > d.buffer.capacity - 1 then
      ({ d.setBuffer d.allocated (d.buffer.grow t b) with
          current := d.allocated
          allocated := d.allocated + 1 }, d.allocated)
    else (d, d.current)
  let d := d.setBuffer buf ((d.buffers buf).put b lease)
  { d with bottom := b + 1, pushed := lease :: d.pushed }

def pop (d : ChaseLevDeque) : Option StreamLease × ChaseLevDeque :=
  let b := d.bottom - 1
  let d := { d with bottom := b }
  let t := d.top
  let size := b - t
  if size < 0 then (none, { d with bottom := t })
  else
    let lease := d.buffer.get b
    if size > 0 then (some lease, { d with returned := lease :: d.returned })
    else if d.top = t then
      (some lease, { d with top := t + 1, bottom := t + 1, returned := lease :: d.returned })
    else (none, { d with bottom := d.top + 1 })

def steal (d : ChaseLevDeque) : Option StreamLease × ChaseLevDeque :=
  let t := d.top
  let b := d.bottom
  if t ≥ b then (none, d)
  else
    let lease := d.buffer.get t
    if d.top = t then (some lease, { d with top := t + 1, returned := lease :: d.returned })
    else (none, d)

inductive Call where
  | push (lease : StreamLease)
  | pop
  | steal

/-- `push` returns nothing. -/
inductive Reply where
  | pushed
  | taken (lease : Option StreamLease)
  deriving DecidableEq

def call : Call → ChaseLevDeque → Reply × ChaseLevDeque
  | .push lease, d => (.pushed, d.push lease)
  | .pop, d => (.taken d.pop.1, d.pop.2)
  | .steal, d => (.taken d.steal.1, d.steal.2)

/-- The double-ended list: new leases come to its end, `pop` takes the last and `steal`
the first. -/
def listCall : Call → List StreamLease → Reply × List StreamLease
  | .push lease, leases => (.pushed, leases ++ [lease])
  | .pop, leases => (.taken leases.getLast?, leases.dropLast)
  | .steal, leases => (.taken leases.head?, leases.tail)

/-- What the deque holds, the oldest first. -/
def contents (d : ChaseLevDeque) : List StreamLease := d.buffer.slots d.top d.bottom

/-- The deque between two calls, and the list it stands for. -/
structure Represents (d : ChaseLevDeque) (leases : List StreamLease) : Prop where
  nonneg : 0 ≤ d.top
  ordered : d.top ≤ d.bottom
  counted : d.bottom ≤ d.pushed.length
  fits : d.bottom - d.top ≤ d.buffer.capacity
  contents : d.contents = leases

variable {d : ChaseLevDeque} {leases : List StreamLease} {lease : StreamLease}

theorem represents_start : start.Represents [] where
  nonneg := le_rfl
  ordered := le_rfl
  counted := le_rfl
  fits := Int.natCast_nonneg _
  contents := rfl

/-! ## Push -/

/-- The buffer that `push` writes to. -/
def withRoom (d : ChaseLevDeque) : Buffer :=
  if d.bottom - d.top > d.buffer.capacity - 1 then d.buffer.grow d.top d.bottom else d.buffer

theorem push_fields (d : ChaseLevDeque) (lease : StreamLease) :
    (d.push lease).top = d.top ∧ (d.push lease).bottom = d.bottom + 1 ∧
      (d.push lease).pushed = lease :: d.pushed ∧
      (d.push lease).buffer = d.withRoom.put d.bottom lease := by
  unfold push withRoom
  by_cases hFull : d.bottom - d.top > d.buffer.capacity - 1
  · simp only [if_pos hFull]
    simp [setBuffer, buffer]
  · simp only [if_neg hFull]
    simp [setBuffer, buffer]

/-- The buffer that is written to holds the same leases and has room for one more. -/
theorem Represents.withRoom (h : d.Represents leases) :
    d.withRoom.slots d.top d.bottom = leases ∧ d.bottom - d.top < d.withRoom.capacity := by
  have hFits := h.fits
  have hPos := d.buffer.capacity_pos
  unfold ChaseLevDeque.withRoom
  split
  next hFull =>
    constructor
    · exact (Buffer.slots_grow hFits).trans h.contents
    · have hTwice : (d.buffer.grow d.top d.bottom).capacity = d.buffer.capacity * 2 :=
        Buffer.capacity_copied _
      rw [hTwice]
      push_cast
      omega
  next hRoom => exact ⟨h.contents, by omega⟩

theorem Represents.push (h : d.Represents leases) (lease : StreamLease) :
    (d.push lease).Represents (leases ++ [lease]) := by
  obtain ⟨hTop, hBottom, hPushed, hBuffer⟩ := d.push_fields lease
  obtain ⟨hSlots, hRoom⟩ := h.withRoom
  have hNonneg := h.nonneg
  have hOrdered := h.ordered
  have hCounted := h.counted
  refine ⟨?_, ?_, ?_, ?_, ?_⟩
  · rw [hTop]
    exact hNonneg
  · rw [hTop, hBottom]
    omega
  · rw [hBottom, hPushed, List.length_cons]
    push_cast
    omega
  · rw [hTop, hBottom, hBuffer, Buffer.capacity_put]
    omega
  · unfold ChaseLevDeque.contents
    rw [hTop, hBottom, hBuffer, Buffer.slots_put hOrdered hRoom, hSlots]

/-! ## Pop and steal -/

theorem Represents.empty_iff (h : d.Represents leases) : d.bottom ≤ d.top ↔ leases = [] := by
  have hContents := h.contents
  unfold ChaseLevDeque.contents at hContents
  constructor
  · intro hEmpty
    rw [← hContents, Buffer.slots_nil hEmpty]
  · intro hNil
    by_contra hMore
    rw [Buffer.slots_cons (by omega), hNil] at hContents
    cases hContents

/-- The newest lease lies below `bottom`. -/
theorem Represents.last (h : d.Represents leases) (hMore : d.top < d.bottom) :
    leases = d.buffer.slots d.top (d.bottom - 1) ++ [d.buffer.get (d.bottom - 1)] := by
  have hContents := h.contents
  unfold ChaseLevDeque.contents at hContents
  have hSnoc : d.buffer.slots d.top (d.bottom - 1 + 1) = _ := Buffer.slots_snoc (by omega)
  rw [sub_add_cancel] at hSnoc
  rw [← hContents, hSnoc]

/-- The oldest lies at `top`. -/
theorem Represents.first (h : d.Represents leases) (hMore : d.top < d.bottom) :
    leases = d.buffer.get d.top :: d.buffer.slots (d.top + 1) d.bottom := by
  have hContents := h.contents
  unfold ChaseLevDeque.contents at hContents
  rw [← hContents, Buffer.slots_cons hMore]

theorem Represents.pop (h : d.Represents leases) :
    d.pop.1 = leases.getLast? ∧ d.pop.2.Represents leases.dropLast := by
  have hNonneg := h.nonneg
  have hOrdered := h.ordered
  have hCounted := h.counted
  have hFits := h.fits
  unfold ChaseLevDeque.pop
  dsimp only
  split
  next hNegative =>
    have hEqual : d.top = d.bottom := by omega
    obtain rfl := h.empty_iff.mp hEqual.ge
    refine ⟨rfl, hNonneg, le_rfl, by dsimp only; omega, by simp, ?_⟩
    exact Buffer.slots_nil le_rfl
  next hSome =>
    have hLast := h.last (by omega)
    rw [hLast, List.getLast?_concat, List.dropLast_concat]
    split
    next hMany =>
      exact ⟨rfl, hNonneg, by dsimp only; omega, by dsimp only; omega,
        by dsimp only [buffer] at hFits ⊢; omega, rfl⟩
    next hOne =>
      -- the last lease: nobody else takes it, and `bottom` ends where it was
      rw [if_pos rfl]
      refine ⟨rfl, by dsimp only; omega, le_rfl, by dsimp only; omega, by simp, ?_⟩
      unfold ChaseLevDeque.contents
      rw [Buffer.slots_nil le_rfl, Buffer.slots_nil (by omega)]

theorem Represents.steal (h : d.Represents leases) :
    d.steal.1 = leases.head? ∧ d.steal.2.Represents leases.tail := by
  have hNonneg := h.nonneg
  have hCounted := h.counted
  have hFits := h.fits
  unfold ChaseLevDeque.steal
  dsimp only
  split
  next hNone =>
    obtain rfl := h.empty_iff.mp hNone
    exact ⟨rfl, h⟩
  next hSome =>
    have hFirst := h.first (by omega)
    rw [if_pos rfl, hFirst, List.head?_cons, List.tail_cons]
    exact ⟨rfl, by dsimp only; omega, by dsimp only; omega, hCounted,
      by dsimp only [buffer] at hFits ⊢; omega, rfl⟩

/-! ## Any calls -/

theorem call_simulates : SequentialObject.Simulates Represents call listCall := by
  intro c d leases h
  cases c with
  | push lease => exact ⟨rfl, h.push lease⟩
  | pop =>
      obtain ⟨hTaken, hLeft⟩ := h.pop
      exact ⟨congrArg Reply.taken hTaken, hLeft⟩
  | steal =>
      obtain ⟨hTaken, hLeft⟩ := h.steal
      exact ⟨congrArg Reply.taken hTaken, hLeft⟩

/-- One call after the other, the deque returns what the list does and holds what the
list holds; `pop` and `steal` return nothing only when the list is empty. -/
theorem deque_refines_list (calls : List Call) :
    let deque := SequentialObject.run call calls start
    let list := SequentialObject.run listCall calls []
    deque.1 = list.1 ∧ deque.2.contents = list.2 ∧
      (deque.2.pop.1 = none ↔ list.2 = []) ∧ (deque.2.steal.1 = none ↔ list.2 = []) := by
  obtain ⟨hReplies, hLast⟩ := call_simulates.run calls start [] represents_start
  refine ⟨hReplies, hLast.contents, ?_, ?_⟩
  · rw [hLast.pop.1, List.getLast?_eq_none_iff]
  · rw [hLast.steal.1, List.head?_eq_none_iff]

example :
    (SequentialObject.run call
      [.push ⟨1, 0⟩, .push ⟨2, 0⟩, .steal, .push ⟨3, 0⟩, .pop, .pop, .pop] start).1 =
    [.pushed, .pushed, .taken (some ⟨1, 0⟩), .pushed, .taken (some ⟨3, 0⟩),
      .taken (some ⟨2, 0⟩), .taken none] := by
  decide

/-- The indices never pass the number of pushes. -/
theorem bottom_le_pushed (calls : List Call) :
    let d := (SequentialObject.run call calls start).2
    0 ≤ d.top ∧ d.top ≤ d.bottom ∧ d.bottom ≤ d.pushed.length := by
  obtain ⟨-, hLast⟩ := call_simulates.run calls start [] represents_start
  exact ⟨hLast.nonneg, hLast.ordered, hLast.counted⟩

end ChaseLevDeque

/-! ## Calls that are not interrupted -/

namespace SharedDeque
open ChaseLevDeque (Call)
variable {s : SharedDeque} {d d' : ChaseLevDeque} {op op' : BottomOp} {thief thief' : ThiefOp}

/-- The steps of one call of `push` or `pop`. -/
abbrev Advances : ChaseLevDeque × BottomOp → ChaseLevDeque × BottomOp → Prop :=
  Transition.Runs fun (d, op) (_ : Unit) => d.advance op

/-- The steps of one call of `steal`. -/
abbrev Thieves : ChaseLevDeque × ThiefOp → ChaseLevDeque × ThiefOp → Prop :=
  Transition.Runs fun (d, op) (_ : Unit) => d.thieve op

theorem Advances.next {last : ChaseLevDeque × BottomOp} (h : d.advance op = some (d', op'))
    (rest : Advances (d', op') last) : Advances (d, op) last :=
  Relation.ReflTransGen.head ⟨(), trivial, h⟩ rest

theorem Thieves.next {last : ChaseLevDeque × ThiefOp} (h : d.thieve thief = some (d', thief'))
    (rest : Thieves (d', thief') last) : Thieves (d, thief) last :=
  Relation.ReflTransGen.head ⟨(), trivial, h⟩ rest

theorem push_advances (d : ChaseLevDeque) (lease : StreamLease) :
    Advances (d, .pushLoadTop lease d.bottom) (d.push lease, .idle) := by
  apply Advances.next (by rfl)
  apply Advances.next (by rfl)
  by_cases hFull : d.bottom - d.top > d.buffer.capacity - 1
  · have hGrown : d.advance (.pushGrow lease d.bottom d.top d.current) = some _ :=
      congrArg some (if_pos hFull)
    apply Advances.next hGrown
    apply Advances.next (by rfl)
    apply Advances.next (by rfl)
    simp only [ChaseLevDeque.push, if_pos hFull]
    exact .refl
  · have hSame : d.advance (.pushGrow lease d.bottom d.top d.current) = some _ :=
      congrArg some (if_neg hFull)
    apply Advances.next hSame
    apply Advances.next (by rfl)
    apply Advances.next (by rfl)
    simp only [ChaseLevDeque.push, if_neg hFull]
    exact .refl

theorem pop_advances (d : ChaseLevDeque) :
    Advances (d, .popLoadBuffer (d.bottom - 1)) (d.pop.2, .idle) := by
  let lowered := { d with bottom := d.bottom - 1 }
  apply Advances.next (by rfl)
  apply Advances.next (by rfl)
  by_cases hEmpty : d.bottom - 1 - d.top < 0
  · have hLoad : lowered.advance (.popLoadTop (d.bottom - 1) d.current) =
        some (lowered, .popRestore d.top) := by
      simp only [ChaseLevDeque.advance, lowered, if_pos hEmpty]
    apply Advances.next hLoad
    apply Advances.next (by rfl)
    simp only [ChaseLevDeque.pop, if_pos hEmpty]
    exact .refl
  · have hLoad : lowered.advance (.popLoadTop (d.bottom - 1) d.current) =
        some (lowered, .popRead (d.bottom - 1) d.current d.top) := by
      simp only [ChaseLevDeque.advance, lowered, if_neg hEmpty]
    apply Advances.next hLoad
    by_cases hMany : d.bottom - 1 - d.top > 0
    · have hRead : lowered.advance (.popRead (d.bottom - 1) d.current d.top) = some (_, .idle) :=
        if_pos hMany
      apply Advances.next hRead
      simp only [ChaseLevDeque.pop, if_neg hEmpty, if_pos hMany]
      exact .refl
    · have hRead : lowered.advance (.popRead (d.bottom - 1) d.current d.top) =
          some (_, .popRace d.top _) := if_neg hMany
      have hRace : lowered.advance (.popRace d.top (d.buffer.get (d.bottom - 1))) =
          some (_, .popFinish d.top _) := if_pos rfl
      apply Advances.next hRead
      apply Advances.next hRace
      apply Advances.next (by rfl)
      simp only [ChaseLevDeque.pop, if_neg hEmpty, if_neg hMany, if_true]
      exact .refl

theorem steal_thieves (d : ChaseLevDeque) : Thieves (d, .loadBottom d.top) (d.steal.2, .idle) := by
  by_cases hNone : d.top ≥ d.bottom
  · have hLoad : d.thieve (.loadBottom d.top) = some (d, .idle) := by
      simp only [ChaseLevDeque.thieve, if_pos hNone]
    apply Thieves.next hLoad
    simp only [ChaseLevDeque.steal, if_pos hNone]
    exact .refl
  · have hLoad : d.thieve (.loadBottom d.top) = some (d, .loadBuffer d.top) := by
      simp only [ChaseLevDeque.thieve, if_neg hNone]
    have hRace : d.thieve (.race d.top (d.buffer.get d.top)) = some (_, .idle) := if_pos rfl
    apply Thieves.next hLoad
    apply Thieves.next (by rfl)
    apply Thieves.next (by rfl)
    apply Thieves.next hRace
    simp only [ChaseLevDeque.steal, if_neg hNone, if_true]
    exact .refl

/-- The steps of a thread are steps of the deque that it shares. -/
theorem runs_of_advances (i : Nat) (run : Advances (d, op) (d', op')) :
    Transition.Runs step ({ s with deque := d }.setThread i op)
      ({ s with deque := d' }.setThread i op') := by
  let shared (t : ChaseLevDeque × BottomOp) := { s with deque := t.1 }.setThread i t.2
  refine Relation.ReflTransGen.lift shared ?_ _ _ run
  rintro ⟨d, op⟩ ⟨d', op'⟩ ⟨_, _, hStep⟩
  refine ⟨.advance i, trivial, ?_⟩
  simp only [step, setThread, shared, Function.update_self, hStep, Option.map_some,
    Function.update_idem]

theorem runs_of_thieves (i : Nat) (run : Thieves (d, thief) (d', thief')) :
    Transition.Runs step ({ s with deque := d }.setThief i thief)
      ({ s with deque := d' }.setThief i thief') := by
  let shared (t : ChaseLevDeque × ThiefOp) := { s with deque := t.1 }.setThief i t.2
  refine Relation.ReflTransGen.lift shared ?_ _ _ run
  rintro ⟨d, op⟩ ⟨d', op'⟩ ⟨_, _, hStep⟩
  refine ⟨.thieve i, trivial, ?_⟩
  simp only [step, setThief, shared, Function.update_self, hStep, Option.map_some,
    Function.update_idem]

/-- A call that is made while no thread is in one, and that nobody interrupts, does to the
deque what `call` does. -/
theorem runs_call (hThreads : ∀ i, s.threads i = .idle) (hThieves : ∀ i, s.thieves i = .idle)
    (c : Call) : Transition.Runs step s { s with deque := (ChaseLevDeque.call c s.deque).2 } := by
  have hThread (d) : { s with deque := d }.setThread 0 .idle = { s with deque := d } := by
    simp only [setThread, ← hThreads 0, Function.update_eq_self]
  have hThief (d) : { s with deque := d }.setThief 0 .idle = { s with deque := d } := by
    simp only [setThief, ← hThieves 0, Function.update_eq_self]
  cases c with
  | push lease =>
      have hBegin : step s (.push 0 lease) =
          some (s.setThread 0 (.pushLoadTop lease s.deque.bottom)) := by
        simp only [step, hThreads]
      have hRest := runs_of_advances (s := s) 0 (push_advances s.deque lease)
      rw [hThread] at hRest
      exact (Transition.RunsWhere.refl.tail _ trivial hBegin).trans hRest
  | pop =>
      have hBegin : step s .pop = some (s.setThread 0 (.popLoadBuffer (s.deque.bottom - 1))) := by
        simp only [step, hThreads]
      have hRest := runs_of_advances (s := s) 0 (pop_advances s.deque)
      rw [hThread] at hRest
      exact (Transition.RunsWhere.refl.tail _ trivial hBegin).trans hRest
  | steal =>
      have hBegin : step s (.steal 0) = some (s.setThief 0 (.loadBottom s.deque.top)) := by
        simp only [step, hThieves]
      have hRest := runs_of_thieves (s := s) 0 (steal_thieves s.deque)
      rw [hThief] at hRest
      exact (Transition.RunsWhere.refl.tail _ trivial hBegin).trans hRest

/-- The calls one at a time are one of the interleavings of the shared deque. -/
theorem runs_calls (calls : List Call) : Transition.Runs step start
    { start with deque := (SequentialObject.run ChaseLevDeque.call calls .start).2 } := by
  let reaches (d d' : ChaseLevDeque) : Prop :=
    Transition.Runs step { start with deque := d } { start with deque := d' }
  refine @SequentialObject.run_reaches _ _ _ _ reaches ?_ ?_ ?_ calls .start
  · exact fun d => .refl
  · exact fun hFirst hRest => hFirst.trans hRest
  · exact fun c d => runs_call (fun _ => rfl) (fun _ => rfl) c

end SharedDeque
end CelerMem.Async
