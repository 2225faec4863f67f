import CelerMem.Core.ChaseLevDeque

/-! The deque under one caller at its bottom end. No lease is lost or returned twice as
long as calls of `push` and `pop` do not overlap and no `pop` loses its race with a thief. -/
namespace CelerMem.Async

/-- Only these calls may be under way in a thread that is not the worker. -/
def BottomOp.IsPush : BottomOp → Prop
  | .idle | .pushLoadTop .. | .pushLoadBuffer .. | .pushGrow .. | .pushWrite .. | .pushStore .. => True
  | _ => False

/-- How many leases at the bottom are still in the deque although `bottom` is below them. -/
def BottomOp.slack : BottomOp → Int
  | .popLoadTop .. | .popRestore _ | .popRace .. | .popFinish .. => 1
  | .popRead b _ t => if b > t then 0 else 1
  | _ => 0

namespace ChaseLevDeque

/-- The first index that is not in the deque. -/
def limit (d : ChaseLevDeque) (op : BottomOp) : Int := d.bottom + op.slack

/-- The leases that are in the deque. -/
def items (d : ChaseLevDeque) (op : BottomOp) : List StreamLease :=
  d.buffer.slots d.top (d.limit op)

/-- The lease that a `pop` has taken out and not returned yet. -/
def inHand (d : ChaseLevDeque) : BottomOp → List StreamLease
  | .popRead b buf t => if b > t then [(d.buffers buf).get b] else []
  | .popFinish _ lease => lease.toList
  | _ => []

/-- What the call at the bottom end knows. -/
def Knows (d : ChaseLevDeque) : BottomOp → Prop
  | .idle => True
  | .pushLoadTop _ b => b = d.bottom
  | .pushLoadBuffer _ b t => b = d.bottom ∧ t ≤ d.top ∧ b - t ≤ d.buffer.capacity
  | .pushGrow _ b t buf =>
      b = d.bottom ∧ t ≤ d.top ∧ b - t ≤ d.buffer.capacity ∧ buf = d.current
  | .pushWrite _ b buf => b = d.bottom ∧ buf = d.current ∧ b - d.top < d.buffer.capacity
  | .pushStore lease b =>
      b = d.bottom ∧ b - d.top < d.buffer.capacity ∧ d.buffer.get b = lease
  | .popLoadBuffer b => b = d.bottom - 1
  | .popStore b buf => b = d.bottom - 1 ∧ buf = d.current
  | .popLoadTop b buf => b = d.bottom ∧ buf = d.current
  | .popRestore t => d.top = t ∧ d.bottom = t - 1
  | .popRead b buf t => b = d.bottom ∧ buf = d.current ∧ t ≤ d.top ∧ t ≤ b
  | .popRace t lease => d.bottom = t ∧ t ≤ d.top ∧ (d.top = t → lease = d.buffer.get t)
  | .popFinish t lease => d.top = t + 1 ∧ d.bottom = t ∧ lease ≠ none

/-- What a thief knows, as long as nobody else has taken the lease it is after. -/
def ThiefKnows (d : ChaseLevDeque) (limit : Int) : ThiefOp → Prop
  | .idle => True
  | .loadBottom t => t ≤ d.top
  | .loadBuffer t => t ≤ d.top ∧ (d.top = t → t < limit)
  | .read t buf =>
      t ≤ d.top ∧ buf < d.allocated ∧
        (d.top = t → t < limit ∧ (d.buffers buf).get t = d.buffer.get t)
  | .race t lease => t ≤ d.top ∧ (d.top = t → t < limit ∧ lease = d.buffer.get t)

/-- The deque with one call under way at its bottom end. -/
structure Sound (d : ChaseLevDeque) (op : BottomOp) (thieves : Nat → ThiefOp) : Prop where
  top_le : d.top ≤ d.limit op
  fits : d.limit op - d.top ≤ d.buffer.capacity
  current : d.current < d.allocated
  knows : d.Knows op
  thieves : ∀ i, d.ThiefKnows (d.limit op) (thieves i)
  conserved : d.pushed.Perm (d.returned ++ (d.inHand op ++ d.items op))

variable {d d' : ChaseLevDeque} {op op' : BottomOp} {thieves : Nat → ThiefOp} {lease : StreamLease}

theorem slack_nonneg : 0 ≤ op.slack := by
  cases op <;> simp only [BottomOp.slack] <;> grind

theorem sound_start : start.Sound .idle fun _ => .idle where
  top_le := le_rfl
  fits := by simp [limit, start, BottomOp.slack]
  current := Nat.zero_lt_one
  knows := trivial
  thieves _ := trivial
  conserved := by simp [start, inHand, items, limit, BottomOp.slack, Buffer.slots]

/-- A thief's lease is still there while nobody moves `top`. -/
theorem ThiefKnows.keep {limit limit' : Int} {thief : ThiefOp} (hKnows : d.ThiefKnows limit thief)
    (hTop : d'.top = d.top) (hAllocated : d.allocated ≤ d'.allocated)
    (hLimit : d.top < limit → d.top < limit')
    (hCurrent : d.top < limit → d'.buffer.get d.top = d.buffer.get d.top)
    (hBuffers : ∀ buf < d.allocated, d.top < limit →
      (d.buffers buf).get d.top = d.buffer.get d.top →
      (d'.buffers buf).get d.top = d.buffer.get d.top) :
    d'.ThiefKnows limit' thief := by
  cases thief with
  | idle => trivial
  | loadBottom t => exact hKnows.trans hTop.ge
  | loadBuffer t =>
      obtain ⟨hPassed, hThere⟩ := hKnows
      refine ⟨hPassed.trans hTop.ge, fun hEq => ?_⟩
      obtain rfl := hTop.symm.trans hEq
      exact hLimit (hThere rfl)
  | read t buf =>
      obtain ⟨hPassed, hKnown, hThere⟩ := hKnows
      refine ⟨hPassed.trans hTop.ge, hKnown.trans_le hAllocated, fun hEq => ?_⟩
      obtain rfl := hTop.symm.trans hEq
      obtain ⟨hLess, hSame⟩ := hThere rfl
      exact ⟨hLimit hLess, (hBuffers buf hKnown hLess hSame).trans (hCurrent hLess).symm⟩
  | race t lease =>
      obtain ⟨hPassed, hThere⟩ := hKnows
      refine ⟨hPassed.trans hTop.ge, fun hEq => ?_⟩
      obtain rfl := hTop.symm.trans hEq
      obtain ⟨hLess, hLease⟩ := hThere rfl
      exact ⟨hLimit hLess, hLease.trans (hCurrent hLess).symm⟩

/-- Once `top` has moved, a thief has lost its race. -/
theorem ThiefKnows.lose {limit limit' : Int} {thief : ThiefOp} (hKnows : d.ThiefKnows limit thief)
    (hTop : d.top < d'.top) (hAllocated : d.allocated ≤ d'.allocated) :
    d'.ThiefKnows limit' thief := by
  cases thief with
  | idle => trivial
  | loadBottom t => exact hKnows.trans hTop.le
  | loadBuffer t => exact ⟨hKnows.1.trans hTop.le, fun hEq => absurd (hEq ▸ hKnows.1) hTop.not_ge⟩
  | read t buf =>
      exact ⟨hKnows.1.trans hTop.le, hKnows.2.1.trans_le hAllocated,
        fun hEq => absurd (hEq ▸ hKnows.1) hTop.not_ge⟩
  | race t lease => exact ⟨hKnows.1.trans hTop.le, fun hEq => absurd (hEq ▸ hKnows.1) hTop.not_ge⟩

namespace Sound

/-- `bottom` or the books change, the buffers do not. -/
theorem thieves_keep (hSound : d.Sound op thieves) (hTop : d'.top = d.top)
    (hBuffers : d'.buffers = d.buffers) (hCurrent : d'.current = d.current)
    (hAllocated : d'.allocated = d.allocated) {limit' : Int}
    (hLimit : d.top < d.limit op → d.top < limit') (i : Nat) :
    d'.ThiefKnows limit' (thieves i) := by
  have hBuffer : d'.buffer = d.buffer := by rw [buffer, buffer, hBuffers, hCurrent]
  refine (hSound.thieves i).keep hTop hAllocated.ge hLimit (fun _ => by rw [hBuffer]) ?_
  intro buf _ _ hSame
  rwa [hBuffers]

/-- The call goes on, and the deque holds the same leases. -/
theorem goOn {bottom : Int} {returned : List StreamLease} (hSound : d.Sound op thieves)
    (hLimit : bottom + op'.slack = d.limit op)
    (hKnows : Knows { d with bottom := bottom, returned := returned } op')
    (hHand : (returned ++ d.inHand op').Perm (d.returned ++ d.inHand op)) :
    Sound { d with bottom := bottom, returned := returned } op' thieves := by
  have hSame : limit { d with bottom := bottom, returned := returned } op' = d.limit op := hLimit
  have hInHand : inHand { d with bottom := bottom, returned := returned } op' = d.inHand op' := by
    cases op' <;> rfl
  constructor
  · rw [hSame]
    exact hSound.top_le
  · rw [hSame]
    exact hSound.fits
  · exact hSound.current
  · exact hKnows
  · rw [hSame]
    exact hSound.thieves_keep rfl rfl rfl rfl id
  · rw [hInHand, items, hSame, ← List.append_assoc]
    refine hSound.conserved.trans ?_
    rw [← List.append_assoc]
    exact hHand.symm.append_right _

/-- The call goes on with what it has loaded. -/
theorem turn (hSound : d.Sound op thieves) (hSlack : op'.slack = op.slack)
    (hHand : d.inHand op' = d.inHand op) (hKnows : d.Knows op') : d.Sound op' thieves :=
  hSound.goOn (congrArg (d.bottom + ·) hSlack) hKnows (by rw [hHand])

/-- A push changes the buffers, but no slot of a lease in the deque. -/
theorem rebuffer {buffers : Nat → Buffer} {current allocated : Nat} (hSound : d.Sound op thieves)
    (hOp : d.inHand op = []) (hSlack : op'.slack = op.slack)
    (hHand : inHand { d with buffers, current, allocated } op' = [])
    (hCapacity : d.buffer.capacity ≤ (buffers current).capacity) (hCurrent : current < allocated)
    (hAllocated : d.allocated ≤ allocated)
    (hSlots : ∀ i, d.top ≤ i → i < d.limit op → (buffers current).get i = d.buffer.get i)
    (hBuffers : ∀ buf < d.allocated, buffers buf = d.buffers buf ∨ buffers buf = buffers current)
    (hKnows : Knows { d with buffers, current, allocated } op') :
    Sound { d with buffers, current, allocated } op' thieves := by
  have hSame : limit { d with buffers, current, allocated } op' = d.limit op :=
    congrArg (d.bottom + ·) hSlack
  have hFits := hSound.fits
  constructor
  · rw [hSame]
    exact hSound.top_le
  · rw [hSame]
    show d.limit op - d.top ≤ (buffers current).capacity
    omega
  · exact hCurrent
  · exact hKnows
  · rw [hSame]
    intro i
    refine (hSound.thieves i).keep rfl hAllocated id (hSlots d.top le_rfl) ?_
    intro buf hKnown hThere hBefore
    rcases hBuffers buf hKnown with hOld | hNew
    · exact (congrArg (Buffer.get · d.top) hOld).trans hBefore
    · exact (congrArg (Buffer.get · d.top) hNew).trans (hSlots d.top le_rfl hThere)
  · have hItems : items { d with buffers, current, allocated } op' = d.items op := by
      rw [items, hSame]
      exact Buffer.slots_congr hSlots
    rw [hItems, hHand, ← hOp]
    exact hSound.conserved

/-- The buffer is full: its leases are copied, and thieves may go on with the old one. -/
theorem growIfFull {b t : Int} {buf : Nat} (hSound : d.Sound (.pushGrow lease b t buf) thieves) :
    (d.growIfFull lease b t buf).1.Sound (d.growIfFull lease b t buf).2 thieves := by
  obtain ⟨rfl, hTop, hFits, rfl⟩ := hSound.knows
  have hPos := d.buffer.capacity_pos
  have hRange := hSound.fits
  simp only [limit, BottomOp.slack, add_zero] at hRange
  unfold ChaseLevDeque.growIfFull
  split
  next hFull =>
    have hCapacity : (d.buffer.grow t d.bottom).capacity = d.buffer.capacity * 2 :=
      Buffer.capacity_copied _
    have hNew : (d.setBuffer d.allocated ((d.buffers d.current).grow t d.bottom)).buffers
        d.allocated = d.buffer.grow t d.bottom := Function.update_self _ _ _
    refine hSound.rebuffer rfl rfl rfl ?_ (Nat.lt_succ_self _) (Nat.le_succ _) ?_ ?_ ⟨rfl, rfl, ?_⟩
    · rw [hNew, hCapacity]
      omega
    · intro i hLow hHigh
      rw [hNew]
      simp only [limit, BottomOp.slack, add_zero] at hHigh
      exact Buffer.get_grow (by omega) (hTop.trans hLow) hHigh
    · exact fun buf hKnown => .inl (Function.update_of_ne hKnown.ne _ _)
    · have hRoom : d.bottom - d.top < (d.buffer.grow t d.bottom).capacity := by
        rw [hCapacity]
        omega
      rwa [← hNew] at hRoom
  next hRoom =>
    have hRoom' : d.bottom - d.top < d.buffer.capacity := by
      unfold buffer
      omega
    exact hSound.turn rfl rfl ⟨rfl, rfl, hRoom'⟩

/-- The slot of the bottom is none of those in the deque. -/
theorem pushWrite {b : Int} {buf : Nat} (hSound : d.Sound (.pushWrite lease b buf) thieves) :
    (d.setBuffer buf ((d.buffers buf).put b lease)).Sound (.pushStore lease b) thieves := by
  obtain ⟨rfl, rfl, hRoom⟩ := hSound.knows
  have hNew : (d.setBuffer d.current ((d.buffers d.current).put d.bottom lease)).buffers d.current =
      d.buffer.put d.bottom lease := Function.update_self _ _ _
  have hWritten : Knows (d.setBuffer d.current ((d.buffers d.current).put d.bottom lease))
      (.pushStore lease d.bottom) := by
    refine ⟨rfl, ?_, ?_⟩
    · have hCapacity := congrArg Buffer.capacity hNew
      rw [Buffer.capacity_put] at hCapacity
      rwa [← hCapacity] at hRoom
    · exact (congrArg (Buffer.get · d.bottom) hNew).trans Buffer.get_put_self
  refine hSound.rebuffer rfl rfl rfl ?_ hSound.current le_rfl ?_ ?_ hWritten
  · exact (congrArg Buffer.capacity hNew).ge
  · intro i hLow hHigh
    simp only [limit, BottomOp.slack, add_zero] at hHigh
    exact (congrArg (Buffer.get · i) hNew).trans (Buffer.get_put_of_near hHigh (by omega))
  · intro buf _
    by_cases hEq : buf = d.current
    · exact .inr (by rw [hEq])
    · exact .inl (Function.update_of_ne hEq _ _)

/-- The lease that was written comes into the deque. -/
theorem pushStore {b : Int} (hSound : d.Sound (.pushStore lease b) thieves) :
    Sound { d with bottom := b + 1, pushed := lease :: d.pushed } .idle thieves := by
  obtain ⟨rfl, hRoom, hWritten⟩ := hSound.knows
  have hTop := hSound.top_le
  have hConserved := hSound.conserved
  simp only [limit, BottomOp.slack, add_zero, items, inHand, List.nil_append] at hTop hConserved
  constructor
  · show d.top ≤ d.bottom + 1 + 0
    omega
  · show d.bottom + 1 + 0 - d.top ≤ d.buffer.capacity
    omega
  · exact hSound.current
  · trivial
  · refine hSound.thieves_keep rfl rfl rfl rfl fun hLess => ?_
    show d.top < d.bottom + 1 + 0
    omega
  · show (lease :: d.pushed).Perm (d.returned ++ ([] ++ d.buffer.slots d.top (d.bottom + 1 + 0)))
    rw [add_zero, Buffer.slots_snoc hTop, hWritten, List.nil_append, ← List.append_assoc]
    exact (hConserved.cons lease).trans (List.perm_append_singleton lease _).symm

/-- `bottom` is lowered before `top` is loaded; the lease stays in the deque meanwhile. -/
theorem popStore {b : Int} {buf : Nat} (hSound : d.Sound (.popStore b buf) thieves) :
    Sound { d with bottom := b } (.popLoadTop b buf) thieves := by
  obtain ⟨rfl, rfl⟩ := hSound.knows
  have hLimit : d.bottom - 1 + 1 = d.bottom + 0 := by omega
  exact hSound.goOn hLimit ⟨rfl, rfl⟩ (List.Perm.refl _)

/-- The last lease but one, or more, cannot be stolen any more: no thief gets beyond `top`
without loading `bottom` again. -/
theorem popLoadTop {b : Int} {buf : Nat} (hSound : d.Sound (.popLoadTop b buf) thieves) :
    d.Sound (if b - d.top < 0 then .popRestore d.top else .popRead b buf d.top) thieves := by
  obtain ⟨rfl, rfl⟩ := hSound.knows
  have hTop := hSound.top_le
  have hFits := hSound.fits
  have hConserved := hSound.conserved
  simp only [limit, BottomOp.slack] at hTop hFits
  split
  next hEmpty => exact hSound.turn rfl rfl ⟨rfl, by omega⟩
  next hSome =>
    by_cases hMore : d.bottom > d.top
    · have hSlack : (BottomOp.popRead d.bottom d.current d.top).slack = 0 := if_pos hMore
      have hLimit : d.limit (.popRead d.bottom d.current d.top) = d.bottom := by
        rw [limit, hSlack, add_zero]
      have hHand : d.inHand (.popRead d.bottom d.current d.top) = [d.buffer.get d.bottom] :=
        if_pos hMore
      refine ⟨by omega, by omega, hSound.current, ⟨rfl, rfl, le_rfl, by omega⟩, ?_, ?_⟩
      · rw [hLimit]
        exact hSound.thieves_keep rfl rfl rfl rfl fun _ => hMore
      · rw [hHand, items, hLimit]
        refine hConserved.trans (List.Perm.append_left _ ?_)
        show ([] ++ d.buffer.slots d.top (d.bottom + 1)).Perm _
        rw [Buffer.slots_snoc hMore.le]
        exact List.perm_append_singleton _ _
    · have hSlack : (BottomOp.popRead d.bottom d.current d.top).slack = 1 := if_neg hMore
      have hHand : d.inHand (.popRead d.bottom d.current d.top) = [] := if_neg hMore
      exact hSound.turn hSlack hHand ⟨rfl, rfl, le_rfl, by omega⟩

theorem popRestore {t : Int} (hSound : d.Sound (.popRestore t) thieves) :
    Sound { d with bottom := t } .idle thieves := by
  obtain ⟨rfl, hBottom⟩ := hSound.knows
  have hLimit : d.top + 0 = d.bottom + 1 := by omega
  exact hSound.goOn hLimit trivial (List.Perm.refl _)

/-- The lease is the owner's own, or the last one. -/
theorem popRead {b t : Int} {buf : Nat} (hSound : d.Sound (.popRead b buf t) thieves)
    (hStep : d.advance (.popRead b buf t) = some (d', op')) : d'.Sound op' thieves := by
  obtain ⟨rfl, rfl, hTop, hLe⟩ := hSound.knows
  simp only [ChaseLevDeque.advance] at hStep
  split at hStep
  next hMore =>
    obtain ⟨rfl, rfl⟩ := Prod.mk.inj (Option.some.inj hStep)
    have hMore' : d.bottom > t := by omega
    have hSlack : (BottomOp.popRead d.bottom d.current t).slack = 0 := if_pos hMore'
    have hHand : d.inHand (.popRead d.bottom d.current t) = [d.buffer.get d.bottom] :=
      if_pos hMore'
    refine hSound.goOn (by rw [limit, hSlack]; rfl) trivial ?_
    rw [hHand, show d.inHand .idle = [] from rfl, List.append_nil]
    exact (List.perm_append_singleton _ _).symm
  next hLast =>
    obtain ⟨rfl, rfl⟩ := Prod.mk.inj (Option.some.inj hStep)
    obtain rfl : t = d.bottom := by omega
    refine hSound.turn (if_neg (lt_irrefl _)).symm (if_neg (lt_irrefl _)).symm ?_
    exact ⟨rfl, hTop, fun _ => rfl⟩

/-- The owner has won the race for the last lease. -/
theorem popRace {t : Int} (hSound : d.Sound (.popRace t lease) thieves) (hTop : d.top = t) :
    Sound { d with top := t + 1 } (.popFinish t (some lease)) thieves := by
  obtain ⟨hBottom, -, hLease⟩ := hSound.knows
  obtain rfl := hTop
  have hConserved := hSound.conserved
  have hItems : d.buffer.slots d.top (d.bottom + 1) = [d.buffer.get d.top] := by
    rw [hBottom, Buffer.slots_cons (by omega), Buffer.slots_nil le_rfl]
  constructor
  · show d.top + 1 ≤ d.bottom + 1
    omega
  · show d.bottom + 1 - (d.top + 1) ≤ d.buffer.capacity
    omega
  · exact hSound.current
  · exact ⟨rfl, hBottom, Option.some_ne_none _⟩
  · intro i
    exact (hSound.thieves i).lose (by show d.top < d.top + 1; omega) le_rfl
  · refine hConserved.trans (List.Perm.append_left _ ?_)
    show ([] ++ d.buffer.slots d.top (d.bottom + 1)).Perm
      ([lease] ++ d.buffer.slots (d.top + 1) (d.bottom + 1))
    rw [hItems, Buffer.slots_nil (by omega), hLease rfl]
    exact List.Perm.refl _

theorem popFinish {t : Int} {lease : Option StreamLease}
    (hSound : d.Sound (.popFinish t lease) thieves) :
    Sound { d with bottom := t + 1, returned := lease.toList ++ d.returned } .idle thieves := by
  obtain ⟨hTop, rfl, -⟩ := hSound.knows
  refine hSound.goOn (add_zero _) trivial ?_
  rw [show d.inHand .idle = [] from rfl, List.append_nil]
  exact List.perm_append_comm

/-- The thread at the bottom end takes its next step. -/
theorem advance (hSound : d.Sound op thieves)
    (hRace : ∀ t lease, op = .popRace t lease → d.top = t)
    (hStep : d.advance op = some (d', op')) : d'.Sound op' thieves := by
  cases op with
  | idle => cases hStep
  | pushLoadTop lease b =>
      obtain ⟨⟩ := hStep
      obtain rfl := hSound.knows
      have hFits := hSound.fits
      exact hSound.turn rfl rfl ⟨rfl, le_rfl, by simpa [limit, BottomOp.slack] using hFits⟩
  | pushLoadBuffer lease b t =>
      obtain ⟨⟩ := hStep
      obtain ⟨hBottom, hTop, hFits⟩ := hSound.knows
      exact hSound.turn rfl rfl ⟨hBottom, hTop, hFits, rfl⟩
  | pushGrow lease b t buf =>
      have hGrown := hSound.growIfFull
      rwa [Option.some.inj hStep] at hGrown
  | pushWrite lease b buf =>
      obtain ⟨⟩ := hStep
      exact hSound.pushWrite
  | pushStore lease b =>
      obtain ⟨⟩ := hStep
      exact hSound.pushStore
  | popLoadBuffer b =>
      obtain ⟨⟩ := hStep
      exact hSound.turn rfl rfl ⟨hSound.knows, rfl⟩
  | popStore b buf =>
      obtain ⟨⟩ := hStep
      exact hSound.popStore
  | popLoadTop b buf =>
      obtain ⟨rfl, rfl⟩ := Prod.mk.inj (Option.some.inj hStep)
      exact hSound.popLoadTop
  | popRestore t =>
      obtain ⟨⟩ := hStep
      exact hSound.popRestore
  | popRead b buf t => exact hSound.popRead hStep
  | popRace t lease =>
      have hTop := hRace t lease rfl
      simp only [ChaseLevDeque.advance, if_pos hTop] at hStep
      obtain ⟨⟩ := hStep
      exact hSound.popRace hTop
  | popFinish t lease =>
      obtain ⟨⟩ := hStep
      exact hSound.popFinish

/-- One thief goes on, the deque is as it was. -/
theorem setThief (hSound : d.Sound op thieves) {i : Nat} {thief : ThiefOp}
    (hKnows : d.ThiefKnows (d.limit op) thief) :
    d.Sound op (Function.update thieves i thief) where
  top_le := hSound.top_le
  fits := hSound.fits
  current := hSound.current
  knows := hSound.knows
  thieves j := by
    by_cases hEq : j = i
    · rwa [hEq, Function.update_self]
    · rw [Function.update_of_ne hEq]
      exact hSound.thieves j
  conserved := hSound.conserved

/-- A thief moves `top` only when a lease is there, and the call at the bottom end can do
with that. -/
theorem knows_of_stolen (hSound : d.Sound op thieves) (hThere : d.top < d.limit op)
    {returned : List StreamLease} :
    Knows { d with top := d.top + 1, returned := returned } op := by
  have hKnows := hSound.knows
  cases op with
  | idle => trivial
  | pushLoadTop lease b => exact hKnows
  | pushLoadBuffer lease b t =>
      obtain ⟨hBottom, hTop, hFits⟩ := hKnows
      exact ⟨hBottom, by show t ≤ d.top + 1; omega, hFits⟩
  | pushGrow lease b t buf =>
      obtain ⟨hBottom, hTop, hFits⟩ := hKnows
      exact ⟨hBottom, by show t ≤ d.top + 1; omega, hFits⟩
  | pushWrite lease b buf =>
      obtain ⟨hBottom, hBuf, hRoom⟩ := hKnows
      exact ⟨hBottom, hBuf, by show b - (d.top + 1) < d.buffer.capacity; omega⟩
  | pushStore lease b =>
      obtain ⟨hBottom, hRoom, hWritten⟩ := hKnows
      exact ⟨hBottom, by show b - (d.top + 1) < d.buffer.capacity; omega, hWritten⟩
  | popLoadBuffer b => exact hKnows
  | popStore b buf => exact hKnows
  | popLoadTop b buf => exact hKnows
  | popRestore t =>
      obtain ⟨hTop, hBottom⟩ := hKnows
      simp only [limit, BottomOp.slack] at hThere
      omega
  | popRead b buf t =>
      obtain ⟨hBottom, hBuf, hTop, hLe⟩ := hKnows
      exact ⟨hBottom, hBuf, by show t ≤ d.top + 1; omega, hLe⟩
  | popRace t lease =>
      obtain ⟨hBottom, hTop, -⟩ := hKnows
      refine ⟨hBottom, by show t ≤ d.top + 1; omega, fun hEq => ?_⟩
      have hMoved : d.top + 1 = t := hEq
      omega
  | popFinish t lease =>
      obtain ⟨hTop, hBottom, -⟩ := hKnows
      simp only [limit, BottomOp.slack] at hThere
      omega

/-- A thief that wins its race takes the lease at the top. -/
theorem stolen (hSound : d.Sound op thieves) {i : Nat} (hThere : d.top < d.limit op)
    (hLease : lease = d.buffer.get d.top) :
    Sound { d with top := d.top + 1, returned := lease :: d.returned } op
      (Function.update thieves i .idle) := by
  have hFits := hSound.fits
  have hItems : d.items op = lease ::
      items { d with top := d.top + 1, returned := lease :: d.returned } op := by
    rw [hLease]
    exact Buffer.slots_cons hThere
  have hHand : inHand { d with top := d.top + 1, returned := lease :: d.returned } op =
      d.inHand op := by
    cases op <;> rfl
  constructor
  · show d.top + 1 ≤ d.limit op
    omega
  · show d.limit op - (d.top + 1) ≤ d.buffer.capacity
    omega
  · exact hSound.current
  · exact hSound.knows_of_stolen hThere
  · intro j
    by_cases hEq : j = i
    · rw [hEq, Function.update_self]
      trivial
    · rw [Function.update_of_ne hEq]
      exact (hSound.thieves j).lose (by show d.top < d.top + 1; omega) le_rfl
  · have hConserved := hSound.conserved
    rw [hItems] at hConserved
    rw [hHand]
    refine hConserved.trans ?_
    rw [← List.append_assoc, ← List.append_assoc, List.cons_append, List.cons_append]
    exact List.perm_middle

/-- A thief takes its next step. -/
theorem thieve (hSound : d.Sound op thieves) {i : Nat} {thief' : ThiefOp}
    (hStep : d.thieve (thieves i) = some (d', thief')) :
    d'.Sound op (Function.update thieves i thief') := by
  have hKnows := hSound.thieves i
  cases hThief : thieves i with
  | idle =>
      rw [hThief] at hStep
      cases hStep
  | loadBottom t =>
      rw [hThief] at hStep hKnows
      obtain ⟨rfl, rfl⟩ := Prod.mk.inj (Option.some.inj hStep)
      refine hSound.setThief ?_
      split
      next => trivial
      next hSome =>
        have hSlack := @slack_nonneg op
        exact ⟨hKnows, fun _ => by rw [limit]; omega⟩
  | loadBuffer t =>
      rw [hThief] at hStep hKnows
      obtain ⟨rfl, rfl⟩ := Prod.mk.inj (Option.some.inj hStep)
      exact hSound.setThief ⟨hKnows.1, hSound.current, fun hEq => ⟨hKnows.2 hEq, rfl⟩⟩
  | read t buf =>
      rw [hThief] at hStep hKnows
      obtain ⟨rfl, rfl⟩ := Prod.mk.inj (Option.some.inj hStep)
      exact hSound.setThief ⟨hKnows.1, hKnows.2.2⟩
  | race t lease =>
      rw [hThief] at hStep hKnows
      simp only [ChaseLevDeque.thieve] at hStep
      split at hStep
      next hTop =>
        obtain ⟨rfl, rfl⟩ := Prod.mk.inj (Option.some.inj hStep)
        obtain rfl := hTop
        obtain ⟨hThere, hLease⟩ := hKnows.2 rfl
        exact hSound.stolen hThere hLease
      next =>
        obtain ⟨rfl, rfl⟩ := Prod.mk.inj (Option.some.inj hStep)
        exact hSound.setThief trivial

end Sound
/-- A push stays a push. -/
theorem isPush_advance (hPush : op.IsPush) (hStep : d.advance op = some (d', op')) :
    op'.IsPush := by
  cases op with
  | idle => cases hStep
  | pushGrow lease b t buf =>
      have hGrown : (d.growIfFull lease b t buf).2.IsPush := by
        unfold growIfFull
        split <;> trivial
      rwa [Option.some.inj hStep] at hGrown
  | pushLoadTop lease b => obtain ⟨⟩ := hStep; trivial
  | pushLoadBuffer lease b t => obtain ⟨⟩ := hStep; trivial
  | pushWrite lease b buf => obtain ⟨⟩ := hStep; trivial
  | pushStore lease b => obtain ⟨⟩ := hStep; trivial
  | popLoadBuffer b => exact hPush.elim
  | popStore b buf => exact hPush.elim
  | popLoadTop b buf => exact hPush.elim
  | popRestore t => exact hPush.elim
  | popRead b buf t => exact hPush.elim
  | popRace t lease => exact hPush.elim
  | popFinish t lease => exact hPush.elim

theorem slack_of_isPush (hPush : op.IsPush) : op.slack = 0 := by
  cases op <;> first | rfl | exact hPush.elim

theorem inHand_of_isPush (hPush : op.IsPush) : d.inHand op = [] := by
  cases op <;> first | rfl | exact hPush.elim

end ChaseLevDeque

namespace SharedDeque

/-- A push or a pop begins only when no other one is under way, and a pop that comes down
to the last lease wins it. -/
def Orderly (s : SharedDeque) : DequeAct → Prop
  | .push _ _ | .pop => ∀ i, s.threads i = .idle
  | .advance i => ∀ t lease, s.threads i = .popRace t lease → s.deque.top = t
  | _ => True

/-- At most one thread is in a call at the bottom end; only the worker pops. -/
structure Alone (s : SharedDeque) (i : Nat) : Prop where
  others : ∀ j, j ≠ i → s.threads j = .idle
  push : i ≠ 0 → (s.threads i).IsPush
  sound : s.deque.Sound (s.threads i) s.thieves

/-- The lease that the worker has taken out and is about to return. -/
def inHand (s : SharedDeque) : List StreamLease := s.deque.inHand (s.threads 0)

/-- The leases in the deque. The last one stays in it while a pop has lowered `bottom` and
does not know yet whether the lease is its own. -/
def remaining (s : SharedDeque) : List StreamLease := s.deque.items (s.threads 0)

variable {s s' : SharedDeque} {i : Nat}

theorem Alone.setThread {deque : ChaseLevDeque} {op : BottomOp}
    (hOthers : ∀ j, j ≠ i → s.threads j = .idle) (hPush : i ≠ 0 → op.IsPush)
    (hSound : deque.Sound op s.thieves) : Alone ({ s with deque }.setThread i op) i := by
  have hSelf : ({ s with deque }.setThread i op).threads i = op := Function.update_self _ _ _
  constructor
  · exact fun j hj => (Function.update_of_ne hj _ _).trans (hOthers j hj)
  · rwa [hSelf]
  · rwa [hSelf]

/-- When all threads are idle, any of them may be the one at the bottom end. -/
theorem Alone.of_idle (hAlone : s.Alone i) (hIdle : ∀ j, s.threads j = .idle) (j : Nat) :
    s.Alone j where
  others k _ := hIdle k
  push _ := by rw [hIdle j]; trivial
  sound := by
    have hSound := hAlone.sound
    rwa [hIdle i, ← hIdle j] at hSound

theorem Alone.step (hAlone : s.Alone i) {act : DequeAct} (hOrderly : s.Orderly act)
    (hStep : s.step act = some s') : ∃ j, s'.Alone j := by
  have hSound := hAlone.sound
  cases act with
  | push thread lease =>
      have hThread := hAlone.of_idle hOrderly thread
      simp only [SharedDeque.step, hOrderly thread] at hStep
      obtain rfl := Option.some.inj hStep
      have hIdle := hThread.sound
      rw [hOrderly thread] at hIdle
      exact ⟨thread, .setThread hThread.others (fun _ => trivial) (hIdle.turn rfl rfl rfl)⟩
  | pop =>
      have hWorker := hAlone.of_idle hOrderly 0
      simp only [SharedDeque.step, hOrderly 0] at hStep
      obtain rfl := Option.some.inj hStep
      have hIdle := hWorker.sound
      rw [hOrderly 0] at hIdle
      exact ⟨0, .setThread hWorker.others (absurd rfl) (hIdle.turn rfl rfl rfl)⟩
  | advance thread =>
      obtain ⟨⟨deque, op⟩, hAdvance, rfl⟩ := Option.map_eq_some_iff.mp hStep
      by_cases hEq : thread = i
      · subst hEq
        have hPush : thread ≠ 0 → op.IsPush := fun hExternal =>
          ChaseLevDeque.isPush_advance (hAlone.push hExternal) hAdvance
        exact ⟨thread, .setThread hAlone.others hPush (hSound.advance hOrderly hAdvance)⟩
      · rw [hAlone.others thread hEq] at hAdvance
        cases hAdvance
  | steal thief =>
      simp only [SharedDeque.step] at hStep
      split at hStep
      next =>
        obtain rfl := Option.some.inj hStep
        exact ⟨i, hAlone.others, hAlone.push, hSound.setThief le_rfl⟩
      next => cases hStep
  | thieve thief =>
      obtain ⟨⟨deque, op⟩, hThieve, rfl⟩ := Option.map_eq_some_iff.mp hStep
      exact ⟨i, hAlone.others, hAlone.push, hSound.thieve hThieve⟩

theorem alone_start : start.Alone 0 where
  others _ _ := rfl
  push hExternal := absurd rfl hExternal
  sound := ChaseLevDeque.sound_start

/-- Nobody disturbs the call at the bottom end. -/
def Guarded (s : SharedDeque) : Prop := ∃ i, s.Alone i

theorem Guarded.step (hGuarded : s.Guarded) {act : DequeAct} (hOrderly : s.Orderly act)
    (hStep : s.step act = some s') : s'.Guarded := by
  obtain ⟨i, hAlone⟩ := hGuarded
  exact hAlone.step hOrderly hStep

theorem Alone.conserved (hAlone : s.Alone i) :
    s.deque.pushed.Perm (s.deque.returned ++ (s.inHand ++ s.remaining)) := by
  have hConserved := hAlone.sound.conserved
  by_cases hWorker : i = 0
  · rwa [hWorker] at hConserved
  · have hPush := hAlone.push hWorker
    have hIdle : s.threads 0 = .idle := hAlone.others 0 (Ne.symm hWorker)
    rw [ChaseLevDeque.inHand_of_isPush hPush, ChaseLevDeque.items, ChaseLevDeque.limit,
      ChaseLevDeque.slack_of_isPush hPush] at hConserved
    rwa [inHand, remaining, hIdle]

end SharedDeque

open SharedDeque in
/-- Every lease that was pushed has been returned once, or is in the hand of the worker or
in the deque; and when the worker is in no call, the deque reaches from `top` to `bottom`. -/
theorem deque_loses_no_lease {s : SharedDeque}
    (hRun : Transition.RunsWhere SharedDeque.Orderly SharedDeque.step SharedDeque.start s) :
    s.deque.pushed.Perm (s.deque.returned ++ (s.inHand ++ s.remaining)) ∧
      (s.threads 0 = .idle →
        s.inHand = [] ∧ s.remaining = s.deque.buffer.slots s.deque.top s.deque.bottom) := by
  obtain ⟨i, hAlone⟩ : s.Guarded := hRun.preserves
    (fun _ _ _ hGuarded hOrderly hStep => hGuarded.step hOrderly hStep) ⟨0, alone_start⟩
  refine ⟨hAlone.conserved, fun hIdle => ?_⟩
  simp only [SharedDeque.inHand, SharedDeque.remaining, hIdle, ChaseLevDeque.items,
    ChaseLevDeque.limit, BottomOp.slack, add_zero]
  exact ⟨rfl, trivial⟩

namespace SharedDeque

def leaseA : StreamLease := { streamCtx := 1 }
def leaseB : StreamLease := { streamCtx := 2 }

def fullPush (thread : Nat) (lease : StreamLease) : List DequeAct :=
  .push thread lease :: List.replicate 5 (.advance thread)

def after (acts : List DequeAct) : SharedDeque := (acts.foldlM step start).getD start

/-- A waking thread pushes a lease, and a thief steals it. -/
def pushThenSteal : List DequeAct :=
  fullPush 1 leaseA ++ DequeAct.steal 0 :: List.replicate 4 (DequeAct.thieve 0)

/-- The worker and a waking thread load the same `bottom`. -/
def twoPushes : List DequeAct :=
  [DequeAct.push 0 leaseA, DequeAct.push 1 leaseB] ++ List.replicate 5 (DequeAct.advance 0) ++
    List.replicate 5 (DequeAct.advance 1)

/-- A thief wins the last lease, and the pop that lost it sets `bottom` one too far. -/
def lostRace : List DequeAct :=
  fullPush 0 leaseA ++ fullPush 0 leaseB ++
    DequeAct.pop :: List.replicate 4 (DequeAct.advance 0) ++
    DequeAct.steal 0 :: List.replicate 3 (DequeAct.thieve 0) ++
    DequeAct.pop :: List.replicate 4 (DequeAct.advance 0) ++
    DequeAct.thieve 0 :: List.replicate 2 (DequeAct.advance 0) ++
    DequeAct.pop :: List.replicate 6 (DequeAct.advance 0)

end SharedDeque

open SharedDeque in
theorem stolen_lease_is_returned : (after pushThenSteal).deque.pushed.Perm [leaseA] := by
  have hPlain : ∀ {s : SharedDeque}, (∀ t lease, s.threads 1 ≠ .popRace t lease) →
      s.Orderly (.advance 1) := fun h t lease hRace => absurd hRace (h t lease)
  have hPushed : Transition.RunsWhere Orderly SharedDeque.step start (after (fullPush 1 leaseA)) :=
    (((((Transition.RunsWhere.refl.tail (.push 1 leaseA) (fun _ => rfl) rfl).tail
      (.advance 1) (hPlain fun _ _ => BottomOp.noConfusion) rfl).tail
      (.advance 1) (hPlain fun _ _ => BottomOp.noConfusion) rfl).tail
      (.advance 1) (hPlain fun _ _ => BottomOp.noConfusion) rfl).tail
      (.advance 1) (hPlain fun _ _ => BottomOp.noConfusion) rfl).tail
      (.advance 1) (hPlain fun _ _ => BottomOp.noConfusion) rfl
  have hStolen : Transition.RunsWhere Orderly SharedDeque.step start (after pushThenSteal) :=
    ((((hPushed.tail (.steal 0) trivial rfl).tail (.thieve 0) trivial rfl).tail
      (.thieve 0) trivial rfl).tail (.thieve 0) trivial rfl).tail (.thieve 0) trivial rfl
  exact (deque_loses_no_lease hStolen).1

open SharedDeque in
/-- A lease is lost when two threads push at once; and after a lost race a lease is
returned twice, by the worker alone at the bottom end. -/
theorem deque_loses_a_lease :
    (∃ s, Transition.Runs SharedDeque.step start s ∧ s.threads 0 = .idle ∧ s.threads 1 = .idle ∧
      leaseA ∈ s.deque.pushed ∧ leaseA ∉ s.deque.returned ∧
      leaseA ∉ s.deque.buffer.slots s.deque.top s.deque.bottom) ∧
    ∃ s, Transition.Runs SharedDeque.step start s ∧ s.deque.pushed.count leaseB = 1 ∧
      s.deque.returned.count leaseB = 2 := by
  have hLost : Transition.Runs SharedDeque.step start (SharedDeque.after twoPushes) :=
    Transition.RunsWhere.of_foldlM twoPushes (fun _ _ _ => trivial) rfl
  have hTwice : Transition.Runs SharedDeque.step start (SharedDeque.after lostRace) :=
    Transition.RunsWhere.of_foldlM lostRace (fun _ _ _ => trivial) rfl
  refine ⟨⟨_, hLost, rfl, rfl, by decide, by decide, by decide⟩, _, hTwice, by decide, by decide⟩

end CelerMem.Async
