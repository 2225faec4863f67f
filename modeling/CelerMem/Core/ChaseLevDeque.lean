import CelerMem.Core.Scheduler
import CelerMem.Library.Transition

/-! The work-stealing deque. Every atomic access of `push`, `pop` and `steal` is one step,
and so is every access to a slot. -/
namespace CelerMem.Async

/-- A circular buffer; its slots start with a lease of no stream. -/
structure Buffer where
  capacity : Nat
  storage : Nat → StreamLease
  powerOfTwo : ∃ k, capacity = 2 ^ k

namespace Buffer

def allocate (k : Nat) : Buffer where
  capacity := 2 ^ k
  storage _ := { streamCtx := 0 }
  powerOfTwo := ⟨k, rfl⟩

/-- `idx & mask`, a remainder since the capacity is a power of two. -/
def index (buf : Buffer) (idx : Int) : Nat := (idx % buf.capacity).toNat

def get (buf : Buffer) (idx : Int) : StreamLease := buf.storage (buf.index idx)

def put (buf : Buffer) (idx : Int) (lease : StreamLease) : Buffer :=
  { buf with storage := Function.update buf.storage (buf.index idx) lease }

def double (buf : Buffer) : Buffer where
  capacity := (buf.capacity) * 2
  storage _ := { streamCtx := 0 }
  powerOfTwo := by
    obtain ⟨k, hk⟩ := buf.powerOfTwo
    exact ⟨k + 1, by rw [hk, pow_succ]⟩

/-- The loop of `grow`, after so many slots. -/
def copied (buf : Buffer) (top : Int) : Nat → Buffer
  | 0 => buf.double
  | n + 1 => (buf.copied top n).put (top + n) (buf.get (top + n))

/-- A buffer of twice the size with the slots from `top` to `bottom`. -/
def grow (buf : Buffer) (top bottom : Int) : Buffer := buf.copied top (bottom - top).toNat

/-- The slots from one index up to another. -/
def slots (buf : Buffer) (lo hi : Int) : List StreamLease :=
  (List.range (hi - lo).toNat).map fun (i : Nat) => buf.get (lo + i)

variable {buf buf' : Buffer} {lo hi i j : Int} {lease : StreamLease}

theorem capacity_pos (buf : Buffer) : 0 < buf.capacity := by
  obtain ⟨k, hk⟩ := buf.powerOfTwo
  rw [hk]
  exact Nat.two_pow_pos k

/-- For the indices of a deque that are not negative, the remainder is the bitwise and. -/
theorem index_eq_and (buf : Buffer) (idx : Nat) : buf.index idx = idx &&& (buf.capacity - 1) := by
  obtain ⟨k, hk⟩ := buf.powerOfTwo
  rw [hk, Nat.and_two_pow_sub_one_eq_mod, index, hk]
  exact Int.toNat_natCast _

/-- Indices less than a capacity apart have slots of their own. -/
theorem index_inj (hSame : buf.index i = buf.index j) (hLess : i ≤ j)
    (hNear : j - i < buf.capacity) : i = j := by
  have hPos : (0 : Int) < buf.capacity := by exact_mod_cast buf.capacity_pos
  have hi := Int.emod_nonneg i hPos.ne'
  have hj := Int.emod_nonneg j hPos.ne'
  have hMod : i % buf.capacity = j % buf.capacity := by
    unfold index at hSame
    omega
  have hDvd : (buf.capacity : Int) ∣ j - i := Int.dvd_of_emod_eq_zero (Int.emod_eq_emod_iff_emod_sub_eq_zero.mp hMod.symm)
  have hZero : j - i = 0 := Int.eq_zero_of_dvd_of_nonneg_of_lt (by omega) hNear hDvd
  omega

@[simp] theorem get_put_self : (buf.put i lease).get i = lease := Function.update_self _ _ _

theorem get_put_of_near (hLess : j < i) (hNear : i - j < buf.capacity) :
    (buf.put i lease).get j = buf.get j := by
  have hOther : buf.index j ≠ buf.index i := by
    intro hSame
    have hEq := index_inj hSame (by omega) hNear
    omega
  exact Function.update_of_ne hOther _ _

theorem slots_nil (h : hi ≤ lo) : buf.slots lo hi = [] := by
  simp [slots, Int.toNat_eq_zero.mpr (by omega : hi - lo ≤ 0)]

theorem slots_snoc (h : lo ≤ hi) : buf.slots lo (hi + 1) = buf.slots lo hi ++ [buf.get hi] := by
  have hLength : (hi + 1 - lo).toNat = (hi - lo).toNat + 1 := by omega
  have hLast : lo + ((hi - lo).toNat : Int) = hi := by omega
  simp only [slots, hLength, List.range_succ, List.map_append, List.map_singleton, hLast]

theorem slots_cons (h : lo < hi) : buf.slots lo hi = buf.get lo :: buf.slots (lo + 1) hi := by
  have hLength : (hi - lo).toNat = (hi - (lo + 1)).toNat + 1 := by omega
  simp only [slots, hLength, List.range_succ_eq_map, List.map_cons, List.map_map]
  congr 1
  · simp
  · apply List.map_congr_left
    intro k _
    simp only [Function.comp, Nat.succ_eq_add_one]
    congr 1
    push_cast
    omega

theorem slots_congr (h : ∀ i, lo ≤ i → i < hi → buf'.get i = buf.get i) :
    buf'.slots lo hi = buf.slots lo hi := by
  apply List.map_congr_left
  intro k hk
  rw [List.mem_range] at hk
  exact h _ (by omega) (by omega)

@[simp] theorem capacity_put : (buf.put i lease).capacity = buf.capacity := rfl

theorem capacity_copied (n : Nat) : (buf.copied lo n).capacity = buf.capacity * 2 := by
  induction n with
  | zero => rfl
  | succ n ih => exact ih

theorem get_copied {n : Nat} (hFits : n ≤ buf.capacity * 2) (hLow : lo ≤ i) (hHigh : i < lo + n) :
    (buf.copied lo n).get i = buf.get i := by
  induction n with
  | zero => omega
  | succ n ih =>
      rw [copied]
      by_cases hLast : i = lo + n
      · rw [← hLast, get_put_self]
      · have hEarlier : i < lo + n := by push_cast at hHigh; omega
        rw [get_put_of_near hEarlier (by rw [capacity_copied]; push_cast; omega)]
        exact ih (by omega) hEarlier

/-- Growing keeps every slot that is copied. -/
theorem get_grow (hFits : hi - lo ≤ buf.capacity * 2) (hLow : lo ≤ i) (hHigh : i < hi) :
    (buf.grow lo hi).get i = buf.get i :=
  get_copied (by omega) hLow (by omega)

end Buffer

/-- How far a call of `push` or `pop` is: what was loaded, and what comes next. -/
inductive BottomOp where
  | idle
  /-- `push` loads `top`. -/
  | pushLoadTop (lease : StreamLease) (b : Int)
  /-- `push` loads the buffer. -/
  | pushLoadBuffer (lease : StreamLease) (b t : Int)
  /-- `push` grows the buffer if it is full. -/
  | pushGrow (lease : StreamLease) (b t : Int) (buf : Nat)
  /-- `push` writes the slot. -/
  | pushWrite (lease : StreamLease) (b : Int) (buf : Nat)
  /-- `push` stores `bottom`. -/
  | pushStore (lease : StreamLease) (b : Int)
  /-- `pop` loads the buffer. -/
  | popLoadBuffer (b : Int)
  /-- `pop` stores the lower `bottom`. -/
  | popStore (b : Int) (buf : Nat)
  /-- `pop` loads `top`. -/
  | popLoadTop (b : Int) (buf : Nat)
  /-- The deque was empty; `pop` restores `bottom`. -/
  | popRestore (t : Int)
  /-- `pop` reads the slot. -/
  | popRead (b : Int) (buf : Nat) (t : Int)
  /-- `pop` races for the last lease. -/
  | popRace (t : Int) (lease : StreamLease)
  /-- The race is over, `t` is what was expected or found; `pop` stores `bottom`. -/
  | popFinish (t : Int) (lease : Option StreamLease)

/-- How far a call of `steal` is. -/
inductive ThiefOp where
  | idle
  | loadBottom (t : Int)
  | loadBuffer (t : Int)
  | read (t : Int) (buf : Nat)
  | race (t : Int) (lease : StreamLease)

/-- Every buffer that was allocated stays; `current` is the one that `buffer_` points to.
`pushed` and `returned` are bookkeeping: the leases whose push has stored `bottom`, and
those that a pop or a steal has returned. -/
structure ChaseLevDeque where
  top : Int
  bottom : Int
  buffers : Nat → Buffer
  current : Nat
  allocated : Nat
  pushed : List StreamLease
  returned : List StreamLease

namespace ChaseLevDeque

def start : ChaseLevDeque where
  top := 0
  bottom := 0
  buffers _ := Buffer.allocate 6
  current := 0
  allocated := 1
  pushed := []
  returned := []

def buffer (d : ChaseLevDeque) : Buffer := d.buffers d.current

def setBuffer (d : ChaseLevDeque) (id : Nat) (buf : Buffer) : ChaseLevDeque :=
  { d with buffers := Function.update d.buffers id buf }

/-- `b - t > mask`. -/
def growIfFull (d : ChaseLevDeque) (lease : StreamLease) (b t : Int) (buf : Nat) :
    ChaseLevDeque × BottomOp :=
  if b - t > (d.buffers buf).capacity - 1 then
    ({ d.setBuffer d.allocated ((d.buffers buf).grow t b) with
        current := d.allocated
        allocated := d.allocated + 1 }, .pushWrite lease b d.allocated)
  else (d, .pushWrite lease b buf)

/-- A thread that is in a call of `push` or `pop` takes its next step. -/
def advance (d : ChaseLevDeque) : BottomOp → Option (ChaseLevDeque × BottomOp)
  | .idle => none
  | .pushLoadTop lease b => some (d, .pushLoadBuffer lease b d.top)
  | .pushLoadBuffer lease b t => some (d, .pushGrow lease b t d.current)
  | .pushGrow lease b t buf => some (d.growIfFull lease b t buf)
  | .pushWrite lease b buf =>
      some (d.setBuffer buf ((d.buffers buf).put b lease), .pushStore lease b)
  | .pushStore lease b => some ({ d with bottom := b + 1, pushed := lease :: d.pushed }, .idle)
  | .popLoadBuffer b => some (d, .popStore b d.current)
  | .popStore b buf => some ({ d with bottom := b }, .popLoadTop b buf)
  | .popLoadTop b buf => some (d, if b - d.top < 0 then .popRestore d.top else .popRead b buf d.top)
  | .popRestore t => some ({ d with bottom := t }, .idle)
  | .popRead b buf t =>
      let lease := (d.buffers buf).get b
      if b - t > 0 then some ({ d with returned := lease :: d.returned }, .idle)
      else some (d, .popRace t lease)
  | .popRace t lease =>
      if d.top = t then some ({ d with top := t + 1 }, .popFinish t (some lease))
      else some (d, .popFinish d.top none)
  | .popFinish t lease =>
      some ({ d with bottom := t + 1, returned := lease.toList ++ d.returned }, .idle)

/-- A thief takes its next step. -/
def thieve (d : ChaseLevDeque) : ThiefOp → Option (ChaseLevDeque × ThiefOp)
  | .idle => none
  | .loadBottom t => some (d, if t ≥ d.bottom then .idle else .loadBuffer t)
  | .loadBuffer t => some (d, .read t d.current)
  | .read t buf => some (d, .race t ((d.buffers buf).get t))
  | .race t lease =>
      if d.top = t then some ({ d with top := t + 1, returned := lease :: d.returned }, .idle)
      else some (d, .idle)

end ChaseLevDeque

/-- A deque and the calls on it. Thread 0 is its worker; the others run `schedule_affine`
and `wake`. -/
structure SharedDeque where
  deque : ChaseLevDeque
  threads : Nat → BottomOp
  thieves : Nat → ThiefOp

/-- A call begins with its first load. -/
inductive DequeAct where
  | push (thread : Nat) (lease : StreamLease)
  | pop
  | advance (thread : Nat)
  | steal (thief : Nat)
  | thieve (thief : Nat)

namespace SharedDeque

def start : SharedDeque where
  deque := .start
  threads _ := .idle
  thieves _ := .idle

def setThread (s : SharedDeque) (i : Nat) (op : BottomOp) : SharedDeque :=
  { s with threads := Function.update s.threads i op }

def setThief (s : SharedDeque) (i : Nat) (op : ThiefOp) : SharedDeque :=
  { s with thieves := Function.update s.thieves i op }

def step (s : SharedDeque) : DequeAct → Option SharedDeque
  | .push thread lease =>
      match s.threads thread with
      | .idle => some (s.setThread thread (.pushLoadTop lease s.deque.bottom))
      | _ => none
  | .pop =>
      match s.threads 0 with
      | .idle => some (s.setThread 0 (.popLoadBuffer (s.deque.bottom - 1)))
      | _ => none
  | .advance thread =>
      (s.deque.advance (s.threads thread)).map fun (deque, op) =>
        { s with deque }.setThread thread op
  | .steal thief =>
      match s.thieves thief with
      | .idle => some (s.setThief thief (.loadBottom s.deque.top))
      | _ => none
  | .thieve thief =>
      (s.deque.thieve (s.thieves thief)).map fun (deque, op) => { s with deque }.setThief thief op

end SharedDeque
end CelerMem.Async
