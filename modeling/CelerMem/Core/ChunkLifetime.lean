import CelerMem.Core.ChunkSharing
import CelerMem.Library.References

/-! The life of a shared buffer: its count is the number of references to it, nobody
touches it after the last of them, and the last of them frees it. -/
namespace CelerMem.Sharing
open References

variable {α Var Thread : Type}

theorem Slot.buf_slice {slot : Slot} {off len : Nat} {b : Address}
    (h : (slot.slice off len).buf = some b) : slot.buf = some b := by
  simp only [slice] at h
  split at h
  · cases h
  · split at h
    · cases h
    · exact h

theorem Op.target_mem_writes {op : Op α Var} {x : Var} (h : op.target = some x) :
    x ∈ op.writes := by
  cases op <;> simp_all [Op.target, Op.writes]

theorem Op.ne_of_not_mem_writes {op : Op α Var} {x dst : Var} (h : op.target = some dst)
    (hx : x ∉ op.writes) : x ≠ dst := by
  rintro rfl
  exact hx (target_mem_writes h)

theorem Op.Independent.symm {op other : Op α Var} (h : op.Independent other) :
    other.Independent op :=
  ⟨fun x hx => ⟨fun hIn => (h.1 x hIn).1 hx, fun hIn => h.2 x hIn hx⟩,
    fun x hx hIn => (h.1 x hIn).2 hx⟩

namespace Memory

/-- The reference that a thread has taken out of an object and not given back yet. -/
def heldBy : Option (Op α Var × Stage Var) → Option Address
  | some (_, .release b) => some b
  | _ => none

/-- The references: one for each object with a pointer, and those in the threads' hands. -/
def held (s : Memory α Var Thread) : Var ⊕ Thread → Option Address
  | .inl x => (s.vars x).bind Slot.buf
  | .inr t => heldBy (s.running t)

/-- The thread is about to delete the allocation. -/
def Freeing (s : Memory α Var Thread) (t : Thread) (b : Address) : Prop :=
  ∃ op, s.running t = some (op, .free b)

/-- An allocation counts its references. When there are none left it is being freed. -/
def Owned (s : Memory α Var Thread) (b : Address) : Prop :=
  ∃ n, Counted s.held b n ∧ n < uint32Size ∧ (s.heap b = none → n = 0) ∧
    ∀ block, s.heap b = some block →
      block.refs = BitVec.ofNat 32 n ∧ (n = 0 → ∃ t, s.Freeing t b)

/-- What holds between any two steps. -/
structure Sound (s : Memory α Var Thread) : Prop where
  unharmed : s.fault = false
  owned : ∀ b, s.Owned b
  freeing : ∀ t b, s.Freeing t b →
    (s.heap b).isSome ∧ Counted s.held b 0 ∧ ∀ u, s.Freeing u b → u = t
  opened : ∀ t op stage, s.running t = some (op, stage) →
    ∀ x, op.target = some x → s.held (.inl x) = none
  acquiring : ∀ t op b dst slot, s.running t = some (op, .acquire b dst slot) →
    op.target = some dst ∧ slot.buf = some b ∧ ∃ src ∈ op.reads, s.held (.inl src) = some b
  apart : ∀ t u op other stage stage', t ≠ u → s.running t = some (op, stage) →
    s.running u = some (other, stage') → op.Independent other

/-- What a step of one thread in one call leaves alone. -/
structure Local (s s' : Memory α Var Thread) (t : Thread) (op : Op α Var) : Prop where
  vars : ∀ x, x ∉ op.writes → s'.vars x = s.vars x
  running : ∀ u, u ≠ t → s'.running u = s.running u

/-- The other calls in progress do not get in the way of this one. -/
def Apart (s : Memory α Var Thread) (t : Thread) (op : Op α Var) : Prop :=
  ∀ u other stage, u ≠ t → s.running u = some (other, stage) → op.Independent other

variable {s s' : Memory α Var Thread} {t u : Thread} {op other : Op α Var} {b : Address}
  {x dst src : Var} {slot : Slot}

/-- A step keeps the invariant when it accounts for the allocations and for its own call. -/
theorem Sound.next (hSound : s.Sound) (hApart : s.Apart t op) (hLocal : Local s s' t op)
    (hFault : s'.fault = false) (hOwned : ∀ b, s'.Owned b)
    (hFreeing : ∀ t b, s'.Freeing t b →
      (s'.heap b).isSome ∧ Counted s'.held b 0 ∧ ∀ u, s'.Freeing u b → u = t)
    (hOwn : ∀ op' stage, s'.running t = some (op', stage) → op' = op ∧
      (∀ x, op.target = some x → s'.held (.inl x) = none) ∧
      ∀ b dst slot, stage = .acquire b dst slot →
        op.target = some dst ∧ slot.buf = some b ∧ ∃ src ∈ op.reads, s'.held (.inl src) = some b) :
    s'.Sound where
  unharmed := hFault
  owned := hOwned
  freeing := hFreeing
  opened u other stage hAt x hTarget := by
    by_cases hu : u = t
    · subst hu
      obtain ⟨rfl, hOpened, -⟩ := hOwn other stage hAt
      exact hOpened x hTarget
    · rw [hLocal.running u hu] at hAt
      have hFree : x ∉ op.writes := fun hIn =>
        ((hApart u other stage hu hAt).1 x hIn).1 (Op.target_mem_writes hTarget)
      have hSame : s'.held (.inl x) = s.held (.inl x) := by simp only [held, hLocal.vars x hFree]
      exact hSame.trans (hSound.opened u other stage hAt x hTarget)
  acquiring u other b dst slot hAt := by
    by_cases hu : u = t
    · subst hu
      obtain ⟨rfl, -, hAcquire⟩ := hOwn other _ hAt
      exact hAcquire b dst slot rfl
    · rw [hLocal.running u hu] at hAt
      obtain ⟨hTarget, hBuf, src, hReads, hHeld⟩ := hSound.acquiring u other b dst slot hAt
      have hFree : src ∉ op.writes := fun hIn => ((hApart u other _ hu hAt).1 src hIn).2 hReads
      have hSame : s'.held (.inl src) = s.held (.inl src) := by
        simp only [held, hLocal.vars src hFree]
      exact ⟨hTarget, hBuf, src, hReads, hSame.trans hHeld⟩
  apart u v other other' stage stage' hNe hAt hAt' := by
    by_cases hu : u = t
    · subst hu
      obtain ⟨rfl, -⟩ := hOwn other stage hAt
      rw [hLocal.running v (Ne.symm hNe)] at hAt'
      exact hApart v other' stage' (Ne.symm hNe) hAt'
    · rw [hLocal.running u hu] at hAt
      by_cases hv : v = t
      · subst hv
        obtain ⟨rfl, -⟩ := hOwn other' stage' hAt'
        exact Op.Independent.symm (hApart u other stage hNe hAt)
      · rw [hLocal.running v hv] at hAt'
        exact hSound.apart u v other other' stage stage' hNe hAt hAt'

/-- A step that deals with one allocation only. -/
theorem Sound.recounted (hSound : s.Sound) (hApart : s.Apart t op) (hLocal : Local s s' t op)
    (hFault : s'.fault = s.fault) (hHeap : ∀ c, c ≠ b → s'.heap c = s.heap c)
    (hCounts : ∀ c n, c ≠ b → Counted s.held c n → Counted s'.held c n)
    (hFreeing : ∀ u c, c ≠ b → (s'.Freeing u c ↔ s.Freeing u c)) (hOwned : s'.Owned b)
    (hHere : ∀ u, s'.Freeing u b →
      (s'.heap b).isSome ∧ Counted s'.held b 0 ∧ ∀ v, s'.Freeing v b → v = u)
    (hOwn : ∀ op' stage, s'.running t = some (op', stage) → op' = op ∧
      (∀ x, op.target = some x → s'.held (.inl x) = none) ∧
      ∀ b dst slot, stage = .acquire b dst slot →
        op.target = some dst ∧ slot.buf = some b ∧ ∃ src ∈ op.reads, s'.held (.inl src) = some b) :
    s'.Sound := by
  refine hSound.next hApart hLocal (hFault.trans hSound.unharmed) (fun c => ?_) (fun u c hu => ?_)
    hOwn
  · by_cases hc : c = b
    · exact hc ▸ hOwned
    · obtain ⟨n, hCounted, hLt, hAbsent, hPresent⟩ := hSound.owned c
      refine ⟨n, hCounts c n hc hCounted, hLt, fun h => hAbsent (hHeap c hc ▸ h),
        fun block hBlock => ?_⟩
      obtain ⟨hRefs, hLast⟩ := hPresent block (hHeap c hc ▸ hBlock)
      exact ⟨hRefs, fun hZero => (hLast hZero).imp fun u hu => (hFreeing u c hc).mpr hu⟩
  · by_cases hc : c = b
    · subst hc
      exact hHere u hu
    · obtain ⟨hSome, hZero, hOnly⟩ := hSound.freeing u c ((hFreeing u c hc).mp hu)
      exact ⟨hHeap c hc ▸ hSome, hCounts c 0 hc hZero,
        fun v hv => hOnly v ((hFreeing v c hc).mp hv)⟩

/-- A step that leaves the allocations and all numbers of references as they are. -/
theorem Sound.quiet (hSound : s.Sound) (hApart : s.Apart t op) (hLocal : Local s s' t op)
    (hFault : s'.fault = s.fault) (hHeap : s'.heap = s.heap)
    (hCounts : ∀ b n, Counted s.held b n → Counted s'.held b n)
    (hFreeing : ∀ u b, s'.Freeing u b ↔ s.Freeing u b)
    (hOwn : ∀ op' stage, s'.running t = some (op', stage) → op' = op ∧
      (∀ x, op.target = some x → s'.held (.inl x) = none) ∧
      ∀ b dst slot, stage = .acquire b dst slot →
        op.target = some dst ∧ slot.buf = some b ∧ ∃ src ∈ op.reads, s'.held (.inl src) = some b) :
    s'.Sound := by
  refine hSound.next hApart hLocal (hFault.trans hSound.unharmed) ?_ ?_ hOwn
  · intro b
    obtain ⟨n, hCounted, hLt, hAbsent, hPresent⟩ := hSound.owned b
    refine ⟨n, hCounts b n hCounted, hLt, fun h => hAbsent (hHeap ▸ h), fun block hBlock => ?_⟩
    obtain ⟨hRefs, hLast⟩ := hPresent block (hHeap ▸ hBlock)
    exact ⟨hRefs, fun hZero => (hLast hZero).imp fun u hu => (hFreeing u b).mpr hu⟩
  · intro u b hu
    obtain ⟨hSome, hZero, hOnly⟩ := hSound.freeing u b ((hFreeing u b).mp hu)
    exact ⟨hHeap ▸ hSome, hCounts b 0 hZero, fun v hv => hOnly v ((hFreeing v b).mp hv)⟩

theorem Sound.apart_of_running {stage : Stage Var} (hSound : s.Sound)
    (hAt : s.running t = some (op, stage)) : s.Apart t op :=
  fun u other stage' hu hOther => hSound.apart t u op other stage stage' (Ne.symm hu) hAt hOther

/-- An allocation with a reference to it is there, and not about to be freed. -/
theorem Sound.live (hSound : s.Sound) {h : Var ⊕ Thread} (hHeld : s.held h = some b) :
    (∃ block, s.heap b = some block) ∧ ∀ t, ¬ s.Freeing t b := by
  obtain ⟨n, hCounted, -, hAbsent, -⟩ := hSound.owned b
  have hPos := hCounted.pos hHeld
  constructor
  · cases hHeap : s.heap b with
    | none => exact absurd (hAbsent hHeap) (by omega)
    | some block => exact ⟨block, rfl⟩
  · intro t hFreeing
    have hZero := (hSound.freeing t b hFreeing).2.1.unique hCounted
    omega

/-- Only this thread's stage changes, and it neither comes to delete nor stops to. -/
theorem freeing_iff (hRunning : ∀ u, u ≠ t → s'.running u = s.running u)
    (hBefore : ∀ op b, s.running t ≠ some (op, .free b))
    (hAfter : ∀ op b, s'.running t ≠ some (op, .free b)) (u : Thread) (b : Address) :
    s'.Freeing u b ↔ s.Freeing u b := by
  by_cases hu : u = t
  · subst hu
    exact ⟨fun ⟨op, h⟩ => absurd h (hAfter op b), fun ⟨op, h⟩ => absurd h (hBefore op b)⟩
  · simp only [Freeing, hRunning u hu]

@[simp] theorem held_setBlock (s : Memory α Var Thread) (b : Address) (block : Option (ArcBuf α)) :
    (s.setBlock b block).held = s.held := rfl

/-- What a call constructs has no pointer before. -/
theorem held_of_constructs {values : Op α Var} (hReady : values.Ready s.vars)
    (hx : x ∈ values.constructs) : s.held (.inl x) = none := by
  simp [held, hReady.1 x hx]

section Steps
variable [DecidableEq Thread]

theorem running_setThread (s : Memory α Var Thread) (t : Thread)
    (now : Option (Op α Var × Stage Var)) : (s.setThread t now).running t = now := by
  simp [setThread]

/-- The call is over, and no number of references has changed. -/
theorem Sound.returns (hSound : s.Sound) (hApart : s.Apart t op)
    (hHere : ∀ op b, s.running t ≠ some (op, .free b)) (hFault : s'.fault = s.fault)
    (hHeap : s'.heap = s.heap) (hVars : ∀ x, x ∉ op.writes → s'.vars x = s.vars x)
    (hRunning : s'.running = Function.update s.running t none)
    (hCounts : ∀ b n, Counted s.held b n → Counted s'.held b n) : s'.Sound := by
  have hOther : ∀ u, u ≠ t → s'.running u = s.running u := fun u hu => by
    rw [hRunning, Function.update_of_ne hu]
  refine hSound.quiet hApart ⟨hVars, hOther⟩ hFault hHeap hCounts ?_ ?_
  · exact freeing_iff hOther hHere (by simp [hRunning])
  · intro op' stage hAt
    simp [hRunning] at hAt

/-- The call comes to its next stage, and no number of references has changed. -/
theorem Sound.enters {stage : Stage Var} (hSound : s.Sound) (hApart : s.Apart t op)
    (hHere : ∀ op b, s.running t ≠ some (op, .free b)) (hNot : ∀ b, stage ≠ .free b)
    (hFault : s'.fault = s.fault) (hHeap : s'.heap = s.heap)
    (hVars : ∀ x, x ∉ op.writes → s'.vars x = s.vars x)
    (hRunning : s'.running = Function.update s.running t (some (op, stage)))
    (hCounts : ∀ b n, Counted s.held b n → Counted s'.held b n)
    (hOpened : ∀ x, op.target = some x → s'.held (.inl x) = none)
    (hAcquire : ∀ b dst slot, stage = .acquire b dst slot →
      op.target = some dst ∧ slot.buf = some b ∧ ∃ src ∈ op.reads, s'.held (.inl src) = some b) :
    s'.Sound := by
  have hOther : ∀ u, u ≠ t → s'.running u = s.running u := fun u hu => by
    rw [hRunning, Function.update_of_ne hu]
  refine hSound.quiet hApart ⟨hVars, hOther⟩ hFault hHeap hCounts ?_ ?_
  · refine freeing_iff hOther hHere fun op' b hAt => ?_
    rw [hRunning, Function.update_self] at hAt
    exact hNot b (Prod.mk.inj (Option.some.inj hAt)).2
  · intro op' stage' hAt
    rw [hRunning, Function.update_self] at hAt
    obtain ⟨rfl, rfl⟩ := Prod.mk.inj (Option.some.inj hAt)
    exact ⟨rfl, hOpened, hAcquire⟩

variable [DecidableEq Var]

@[simp] theorem held_setVar (s : Memory α Var Thread) (x : Var) (slot : Option Slot) :
    (s.setVar x slot).held = Function.update s.held (.inl x) (slot.bind Slot.buf) := by
  funext h
  rcases h with y | u
  · by_cases hy : y = x
    · subst hy
      simp [held, setVar]
    · simp [held, setVar, hy]
  · simp [held, setVar]

@[simp] theorem held_setThread (s : Memory α Var Thread) (t : Thread)
    (now : Option (Op α Var × Stage Var)) :
    (s.setThread t now).held = Function.update s.held (.inr t) (heldBy now) := by
  funext h
  rcases h with y | u
  · simp [held, setThread]
  · by_cases hu : u = t
    · subst hu
      simp [held, setThread]
    · simp [held, setThread, hu]

@[simp] theorem held_ret (s : Memory α Var Thread) (t : Thread) (op : Op α Var) (seen : List α) :
    (s.ret t op seen).held = Function.update s.held (.inr t) none :=
  held_setThread s t none

theorem update_held {h : Var ⊕ Thread} {b : Option Address} (hHeld : s.held h = b) :
    Function.update s.held h b = s.held := by
  rw [← hHeld, Function.update_eq_self]

/-- The fields are copied into an object without a pointer, or are about to be. -/
theorem Sound.take (hSound : s.Sound) (hIdle : s.running t = none) (hApart : s.Apart t op)
    (hTarget : op.target = some dst) (hOpened : s.held (.inl dst) = none) (src : Var)
    (hReads : src ∈ op.reads)
    (hSlot : ∀ b, slot.buf = some b → s.held (.inl src) = some b) :
    (s.take t op dst slot).Sound := by
  have hHands : s.held (.inr t) = none := by simp [held, heldBy, hIdle]
  unfold Memory.take
  split
  next hBuf =>
    have hHeld : ((s.setVar dst (some slot)).ret t op []).held = s.held := by
      rw [held_ret, held_setVar, Option.bind_some, hBuf, update_held hOpened, update_held hHands]
    exact hSound.returns hApart (by simp [hIdle]) rfl rfl
      (fun x hx => Function.update_of_ne (Op.ne_of_not_mem_writes hTarget hx) _ _) rfl
      (fun b n hCounted => hHeld ▸ hCounted)
  next b hBuf =>
    have hHeld : (s.setThread t (some (op, .acquire b dst slot))).held = s.held := by
      rw [held_setThread]
      exact update_held hHands
    refine hSound.enters hApart (by simp [hIdle]) (by simp) rfl rfl (fun x _ => rfl) rfl
      (fun b n hCounted => hHeld ▸ hCounted) ?_ ?_
    · intro x hx
      obtain rfl := Option.some.inj (hTarget.symm.trans hx)
      rw [hHeld, hOpened]
    · rintro b' dst' slot' ⟨⟩
      exact ⟨hTarget, hBuf, src, hReads, hHeld ▸ hSlot b hBuf⟩

/-- The target gets fields without a pointer, or none. -/
theorem Sound.clear (hSound : s.Sound) (hIdle : s.running t = none) (hApart : s.Apart t op)
    (hTarget : op.target = some dst) (hOpened : s.held (.inl dst) = none) {next : Option Slot}
    (hNext : next.bind Slot.buf = none) : ((s.setVar dst next).ret t op []).Sound := by
  have hHands : s.held (.inr t) = none := by simp [held, heldBy, hIdle]
  have hHeld : ((s.setVar dst next).ret t op []).held = s.held := by
    rw [held_ret, held_setVar, hNext, update_held hOpened, update_held hHands]
  exact hSound.returns hApart (by simp [hIdle]) rfl rfl
    (fun x hx => Function.update_of_ne (Op.ne_of_not_mem_writes hTarget hx) _ _) rfl
    (fun b n hCounted => hHeld ▸ hCounted)

/-- A call that has left every object and allocation as it was. -/
theorem Sound.unchanged {seen : List α} (hSound : s.Sound) (hHands : s.held (.inr t) = none)
    (hHere : ∀ op b, s.running t ≠ some (op, .free b)) (hApart : s.Apart t op) :
    (s.ret t op seen).Sound := by
  have hHeld : (s.ret t op seen).held = s.held := by rw [held_ret, update_held hHands]
  exact hSound.returns hApart hHere rfl rfl (fun x _ => rfl) rfl
    (fun b n hCounted => hHeld ▸ hCounted)

/-- `std::exchange(o.buf_, nullptr)`: the reference passes from one object to the other. -/
theorem Sound.exchange (hSound : s.Sound) (hIdle : s.running t = none) (hApart : s.Apart t op)
    (hDst : dst ∈ op.writes) (hSrc : src ∈ op.writes) (hOpened : s.held (.inl dst) = none)
    (hAt : s.vars src = some slot) :
    (((s.setVar dst (some slot)).setVar src (some Slot.default)).ret t op []).Sound := by
  have hHands : s.held (.inr t) = none := by simp [held, heldBy, hIdle]
  have hFrom : s.held (.inl src) = slot.buf := by simp [held, hAt]
  refine hSound.returns hApart (by simp [hIdle]) rfl rfl ?_ rfl ?_
  · intro x hx
    have hNeSrc : x ≠ src := fun h => hx (h ▸ hSrc)
    have hNeDst : x ≠ dst := fun h => hx (h ▸ hDst)
    exact (Function.update_of_ne hNeSrc _ _).trans (Function.update_of_ne hNeDst _ _)
  · intro b n hCounted
    rw [held_ret, held_setVar, held_setVar]
    obtain ⟨m, hGiven, hGain⟩ := hCounted.update (.inl dst) slot.buf
    have hNow : Function.update s.held (.inl dst) slot.buf (.inl src) = slot.buf := by
      by_cases hEq : src = dst
      · rw [hEq, Function.update_self]
      · rw [Function.update_of_ne (by simpa using hEq), hFrom]
    have hTaken : Counted (Function.update (Function.update s.held (.inl dst) slot.buf)
        (.inl src) none) b n := hGiven.update_eq (by
      rw [hNow]
      simp only [hOpened, reduceCtorEq, if_false] at hGain ⊢
      omega)
    refine hTaken.update_eq (by simp [hHands])

/-- Whatever a call does after its target has let go keeps the invariant. -/
theorem Sound.proceed (hSound : s.Sound) (hIdle : s.running t = none) (hApart : s.Apart t op)
    (hOpened : ∀ x, op.target = some x → s.held (.inl x) = none) (h : s.proceed t op = some s') :
    s'.Sound := by
  cases op with
  | «from» dst data => cases h
  | singleton dst value => cases h
  | default dst =>
      obtain rfl := Option.some.inj h
      exact hSound.clear hIdle hApart rfl (hOpened dst rfl) rfl
  | build dst capacity filled hFilled hCapacity =>
      obtain rfl := Option.some.inj h
      exact hSound.clear hIdle hApart rfl (hOpened dst rfl) rfl
  | destroy x =>
      obtain rfl := Option.some.inj h
      exact hSound.clear hIdle hApart rfl (hOpened x rfl) rfl
  | copy dst src =>
      obtain ⟨slot, hAt, rfl⟩ := Option.map_eq_some_iff.mp h
      exact hSound.take hIdle hApart rfl (hOpened dst rfl) src (by simp [Op.reads])
        (fun b hb => by simp [held, hAt, hb])
  | assign dst src =>
      obtain ⟨slot, hAt, rfl⟩ := Option.map_eq_some_iff.mp h
      exact hSound.take hIdle hApart rfl (hOpened dst rfl) src (by simp [Op.reads])
        (fun b hb => by simp [held, hAt, hb])
  | slice dst src off len =>
      obtain ⟨slot, hAt, rfl⟩ := Option.map_eq_some_iff.mp h
      exact hSound.take hIdle hApart rfl (hOpened dst rfl) src (by simp [Op.reads])
        (fun b hb => by simp [held, hAt, Slot.buf_slice hb])
  | move dst src =>
      obtain ⟨slot, hAt, rfl⟩ := Option.map_eq_some_iff.mp h
      exact hSound.exchange hIdle hApart (by simp [Op.writes]) (by simp [Op.writes])
        (hOpened dst rfl) hAt
  | moveAssign dst src =>
      obtain ⟨slot, hAt, rfl⟩ := Option.map_eq_some_iff.mp h
      exact hSound.exchange hIdle hApart (by simp [Op.writes]) (by simp [Op.writes])
        (hOpened dst rfl) hAt
  | visit x =>
      obtain rfl := Option.some.inj h
      have hHands : s.held (.inr t) = none := by simp [held, heldBy, hIdle]
      have hHeld : (s.setThread t (some (Op.visit x, Stage.visit x))).held = s.held := by
        rw [held_setThread]
        exact update_held hHands
      exact hSound.enters hApart (by simp [hIdle]) (by simp) rfl rfl (fun y _ => rfl) rfl
        (fun b n hCounted => hHeld ▸ hCounted) (by simp [Op.target]) (by simp)

/-- The reference of the target passes into the hands of the thread. -/
theorem Sound.drop (hSound : s.Sound) (hIdle : s.running t = none) (hApart : s.Apart t op)
    (hTarget : op.target = some x) (h : s.drop t op x = some s') : s'.Sound := by
  have hHands : s.held (.inr t) = none := by simp [held, heldBy, hIdle]
  unfold Memory.drop at h
  split at h
  next => cases h
  next slot hAt =>
    have hFrom : s.held (.inl x) = slot.buf := by simp [held, hAt]
    split at h
    next hBuf =>
      refine hSound.proceed hIdle hApart (fun y hy => ?_) h
      obtain rfl := Option.some.inj (hTarget.symm.trans hy)
      rw [hFrom, hBuf]
    next b hBuf =>
      obtain rfl := Option.some.inj h
      refine hSound.enters hApart (by simp [hIdle]) (by simp) rfl rfl
        (fun y hy => Function.update_of_ne (Op.ne_of_not_mem_writes hTarget hy) _ _) rfl ?_ ?_
        (by simp)
      · intro c n hCounted
        obtain ⟨m, hTaken, hLoss⟩ := hCounted.update (.inl x) none
        rw [held_setThread, held_setVar]
        refine hTaken.update_eq ?_
        rw [Function.update_of_ne (by simp), hHands]
        by_cases hEq : b = c
        all_goals
          simp [hFrom, hBuf, heldBy, hEq] at hLoss ⊢
          omega
      · intro y hy
        obtain rfl := Option.some.inj (hTarget.symm.trans hy)
        simp [Slot.default]

/-- A fresh allocation whose one reference is at `h`. -/
theorem Sound.allocated {h : Var ⊕ Thread} {elements : List α} (hSound : s.Sound)
    (hApart : s.Apart t op) (hIdle : s.running t = none) (hFresh : s.heap b = none)
    (hLocal : Local s s' t op) (hFault : s'.fault = s.fault)
    (hHeap : s'.heap = Function.update s.heap b (some ⟨1, elements⟩))
    (hHeld : s'.held = Function.update s.held h (some b)) (hFree : s.held h = none)
    (hNot : ∀ op b, s'.running t ≠ some (op, .free b))
    (hOwn : ∀ op' stage, s'.running t = some (op', stage) → op' = op ∧
      (∀ x, op.target = some x → s'.held (.inl x) = none) ∧
      ∀ b dst slot, stage ≠ .acquire b dst slot) : s'.Sound := by
  have hFreeing := freeing_iff hLocal.running (by simp [hIdle]) hNot
  obtain ⟨n, hCounted, -, hAbsent, -⟩ := hSound.owned b
  obtain rfl := hAbsent hFresh
  refine hSound.recounted (b := b) hApart hLocal hFault (fun c hc => ?_) (fun c n hc hCounted => ?_)
    (fun u c _ => hFreeing u c) ?_ (fun u hu => ?_) (fun op' stage hAt => ?_)
  · rw [hHeap, Function.update_of_ne hc]
  · exact hHeld ▸ hCounted.update_eq (by simp [hFree, Ne.symm hc])
  · refine ⟨1, hHeld ▸ hCounted.update_eq (by simp [hFree]), by simp, by simp [hHeap], ?_⟩
    intro block hBlock
    simp only [hHeap, Function.update_self, Option.some.injEq] at hBlock
    subst hBlock
    exact ⟨rfl, by simp⟩
  · have hSome := (hSound.freeing u b ((hFreeing u b).mp hu)).1
    simp [hFresh] at hSome
  · obtain ⟨hEq, hOpened, hStage⟩ := hOwn op' stage hAt
    exact ⟨hEq, hOpened, fun b dst slot hEq => absurd hEq (hStage b dst slot)⟩

theorem Sound.alloc {elements : List α} (hSound : s.Sound) (hIdle : s.running t = none)
    (hApart : s.Apart t op) (hTarget : op.target = some dst) (hOpened : s.held (.inl dst) = none)
    (h : s.alloc t op dst b elements = some s') : s'.Sound := by
  unfold Memory.alloc at h
  split at h
  next => cases h
  next hFresh =>
    obtain rfl := Option.some.inj h
    have hHands : s.held (.inr t) = none := by simp [held, heldBy, hIdle]
    refine hSound.allocated (b := b) (h := .inl dst) hApart hIdle (by simpa using hFresh)
      ⟨fun x hx => ?_, fun u hu => ?_⟩ rfl rfl ?_ hOpened ?_ ?_
    · exact Function.update_of_ne (Op.ne_of_not_mem_writes hTarget hx) _ _
    · exact Function.update_of_ne hu _ _
    · rw [held_ret, held_setVar, held_setBlock, Function.update_comm (by simp), update_held hHands]
      rfl
    · simp [ret, setThread]
    · simp [ret, setThread]

/-- The first step of a call that is no data race keeps the invariant. -/
theorem Sound.start (hSound : s.Sound) {fresh : Address} (hAllowed : s.Allowed (.start t op fresh))
    (h : s.start t op fresh = some s') : s'.Sound := by
  unfold Memory.start at h
  split at h
  next => cases h
  next hMay =>
    obtain ⟨hIdle, hReady⟩ : s.running t = none ∧ op.Ready s.vars := by
      simpa only [not_or, Bool.not_eq_true, Option.isSome_eq_false_iff, Option.isNone_iff_eq_none,
        not_not] using hMay
    have hApart : s.Apart t op := fun u other stage _ hAt => hAllowed u other stage hAt
    have hNew : ∀ x ∈ op.constructs, s.held (.inl x) = none := fun x => held_of_constructs hReady
    cases op with
    | «from» dst data =>
        dsimp only at h
        split at h
        · obtain rfl := Option.some.inj h
          exact hSound.clear hIdle hApart rfl (hNew dst (by simp [Op.constructs])) rfl
        · exact hSound.alloc hIdle hApart rfl (hNew dst (by simp [Op.constructs])) h
    | singleton dst value =>
        exact hSound.alloc hIdle hApart rfl (hNew dst (by simp [Op.constructs])) h
    | build dst capacity filled hFilled hCapacity =>
        dsimp only at h
        have hDst := hNew dst (by simp [Op.constructs])
        split at h
        · exact hSound.proceed hIdle hApart (by simp [Op.target, hDst]) h
        · split at h
          · split at h
            next => cases h
            next hFresh =>
              obtain rfl := Option.some.inj h
              refine hSound.allocated (b := fresh) (h := .inr t) hApart hIdle
                (by simpa using hFresh)
                ⟨fun x hx => rfl, fun u hu => Function.update_of_ne hu _ _⟩ rfl rfl
                (by rw [held_setThread, held_setBlock]; rfl) (by simp [held, heldBy, hIdle])
                (by simp [setThread]) ?_
              intro op' stage hAt
              obtain ⟨rfl, rfl⟩ : _ = op' ∧ Stage.release fresh = stage := by
                simpa [setThread] using hAt
              refine ⟨rfl, fun x hx => ?_, by simp⟩
              obtain rfl := Option.some.inj hx
              simpa using hDst
          · exact hSound.alloc hIdle hApart rfl hDst h
    | default dst =>
        exact hSound.proceed hIdle hApart (by simpa [Op.target, Op.constructs] using hNew) h
    | copy dst src =>
        exact hSound.proceed hIdle hApart (by simpa [Op.target, Op.constructs] using hNew) h
    | move dst src =>
        exact hSound.proceed hIdle hApart (by simpa [Op.target, Op.constructs] using hNew) h
    | slice dst src off len =>
        exact hSound.proceed hIdle hApart (by simpa [Op.target, Op.constructs] using hNew) h
    | assign dst src =>
        dsimp only at h
        split at h
        · obtain rfl := Option.some.inj h
          exact hSound.unchanged (by simp [held, heldBy, hIdle]) (by simp [hIdle]) hApart
        · exact hSound.drop hIdle hApart rfl h
    | moveAssign dst src =>
        dsimp only at h
        split at h
        · obtain rfl := Option.some.inj h
          exact hSound.unchanged (by simp [held, heldBy, hIdle]) (by simp [hIdle]) hApart
        · exact hSound.drop hIdle hApart rfl h
    | destroy x => exact hSound.drop hIdle hApart rfl h
    | visit x => exact hSound.proceed hIdle hApart (by simp [Op.target]) h

/-- The count of a copied pointer goes up while the object it was copied from holds it. -/
theorem Sound.acquire (hSound : s.Sound) {block : ArcBuf α}
    (hAt : s.running t = some (op, .acquire b dst slot)) (hBlock : s.heap b = some block)
    (hAllowed : block.refs ≠ -1) :
    (((s.setBlock b (some { block with refs := block.refs + 1 })).setVar dst (some slot)).ret
      t op []).Sound := by
  obtain ⟨hTarget, hBuf, src, -, hHeld⟩ := hSound.acquiring t op b dst slot hAt
  obtain ⟨-, hNobody⟩ := hSound.live hHeld
  obtain ⟨n, hCounted, hLt, -, hPresent⟩ := hSound.owned b
  obtain ⟨hRefs, -⟩ := hPresent block hBlock
  have hOpened := hSound.opened t op _ hAt dst hTarget
  have hHands : s.held (.inr t) = none := by simp [held, heldBy, hAt]
  have hNow : (((s.setBlock b (some { block with refs := block.refs + 1 })).setVar dst
      (some slot)).ret t op []).held = Function.update s.held (.inl dst) (some b) := by
    rw [held_ret, held_setVar, held_setBlock, Function.update_comm (by simp), update_held hHands,
      Option.bind_some, hBuf]
  have hBelow : n + 1 < uint32Size := by
    rcases Nat.lt_or_ge (n + 1) uint32Size with hBelow | hAbove
    · exact hBelow
    · refine absurd (hRefs.trans ?_) hAllowed
      have hLast : n = uint32Size - 1 := by omega
      rw [hLast]
      rfl
  have hFreeing : ∀ u c, (((s.setBlock b (some { block with refs := block.refs + 1 })).setVar dst
      (some slot)).ret t op []).Freeing u c ↔ s.Freeing u c :=
    freeing_iff (t := t) (fun u hu => Function.update_of_ne hu _ _) (by simp [hAt])
      (by simp [ret, setThread])
  refine hSound.recounted (b := b) (hSound.apart_of_running hAt)
    ⟨fun x hx => ?_, fun u hu => ?_⟩ rfl (fun c hc => ?_)
    (fun c m hc hOther => ?_) (fun u c _ => hFreeing u c) ?_ (fun u hu => ?_) ?_
  · exact Function.update_of_ne (Op.ne_of_not_mem_writes hTarget hx) _ _
  · exact Function.update_of_ne hu _ _
  · exact Function.update_of_ne hc _ _
  · exact hNow ▸ hOther.update_eq (by simp [hOpened, Ne.symm hc])
  · refine ⟨n + 1, hNow ▸ hCounted.update_eq (by simp [hOpened]), hBelow, ?_, ?_⟩
    · simp [ret, setThread, setVar, setBlock]
    · intro block' hBlock'
      obtain rfl : { block with refs := block.refs + 1 } = block' := by
        simpa [ret, setThread, setVar, setBlock] using hBlock'
      exact ⟨by simp [hRefs, BitVec.ofNat_add], by simp⟩
  · exact absurd ((hFreeing u b).mp hu) (hNobody u)
  · intro op' stage hNone
    simp [ret, setThread] at hNone

/-- The count goes down with the reference in the thread's hands; at one it is the last. -/
theorem Sound.release (hSound : s.Sound) {block : ArcBuf α} (next : Option (Op α Var × Stage Var))
    (hAt : s.running t = some (op, .release b)) (hBlock : s.heap b = some block)
    (hNext : next = if block.refs = 1 then some (op, .free b) else none) :
    ((s.setBlock b (some { block with refs := block.refs - 1 })).setThread t next).Sound := by
  have hHeld : s.held (.inr t) = some b := by simp [held, heldBy, hAt]
  obtain ⟨-, hNobody⟩ := hSound.live hHeld
  obtain ⟨n, hCounted, hLt, -, hPresent⟩ := hSound.owned b
  obtain ⟨hRefs, -⟩ := hPresent block hBlock
  have hPos := hCounted.pos hHeld
  have hLast : block.refs = 1 ↔ n = 1 := by
    rw [hRefs, ← BitVec.toNat_inj, BitVec.toNat_ofNat, Nat.mod_eq_of_lt hLt]
    rfl
  have hDown : block.refs - 1 = BitVec.ofNat 32 (n - 1) := by
    obtain ⟨m, rfl⟩ : ∃ m, n = m + 1 := ⟨n - 1, by omega⟩
    rw [hRefs, BitVec.ofNat_add]
    simp
  have hNone : heldBy next = none := by
    subst hNext
    split <;> rfl
  have hNow : ((s.setBlock b (some { block with refs := block.refs - 1 })).setThread t next).held =
      Function.update s.held (.inr t) none := by
    rw [held_setThread, held_setBlock, hNone]
  have hOther : ∀ u, u ≠ t →
      ((s.setBlock b (some { block with refs := block.refs - 1 })).setThread t next).running u =
        s.running u := fun u hu => Function.update_of_ne hu _ _
  have hMine : ((s.setBlock b (some { block with refs := block.refs - 1 })).setThread t
      next).running t = next := running_setThread _ t next
  have hCount : Counted ((s.setBlock b (some { block with refs := block.refs - 1 })).setThread t
      next).held b (n - 1) := hNow ▸ hCounted.update_eq (by
    rw [hHeld, if_pos rfl, if_neg (by simp)]
    omega)
  refine hSound.recounted (b := b) (hSound.apart_of_running hAt) ⟨fun x _ => rfl, hOther⟩ rfl
    (fun c hc => Function.update_of_ne hc _ _)
    (fun c m hc hOld => hNow ▸ hOld.update_eq (by simp [hHeld, Ne.symm hc]))
    (fun u c hc => ?_) ⟨n - 1, hCount, by omega, by simp [setThread, setBlock], ?_⟩
    (fun u hu => ?_) (fun op' stage hStage => ?_)
  · by_cases hu : u = t
    · subst hu
      have hNot : ¬ s.Freeing u c := by simp [Freeing, hAt]
      refine iff_of_false (fun ⟨op', h⟩ => ?_) hNot
      rw [hMine, hNext] at h
      split at h
      · cases h
        exact hc rfl
      · cases h
    · simp only [Freeing, hOther u hu]
  · intro block' hBlock'
    obtain rfl : { block with refs := block.refs - 1 } = block' := by
      simpa [setThread, setBlock] using hBlock'
    refine ⟨hDown, fun hZero => ⟨t, op, ?_⟩⟩
    rw [hMine, hNext, if_pos (hLast.mpr (by omega))]
  · have hMe : ∀ v, ((s.setBlock b (some { block with refs := block.refs - 1 })).setThread t
        next).Freeing v b → v = t := by
      rintro v ⟨op', hv⟩
      by_cases hEq : v = t
      · exact hEq
      · exact absurd ⟨op', (hOther v hEq).symm.trans hv⟩ (hNobody v)
    obtain rfl := hMe u hu
    obtain ⟨op', hFree⟩ := hu
    rw [hMine, hNext] at hFree
    split at hFree
    next hOne =>
      refine ⟨by simp [setThread, setBlock], ?_, hMe⟩
      have hZero : n - 1 = 0 := by
        have := hLast.mp hOne
        omega
      exact hZero ▸ hCount
    next => cases hFree
  · rw [hMine, hNext] at hStage
    split at hStage
    · obtain ⟨rfl, rfl⟩ := Prod.mk.inj (Option.some.inj hStage)
      refine ⟨rfl, fun x hx => ?_, by simp⟩
      rw [hNow, Function.update_of_ne (by simp)]
      exact hSound.opened t op _ hAt x hx
    · cases hStage

/-- The thread that took the last reference deletes the allocation. -/
theorem Sound.free (hSound : s.Sound) (hAt : s.running t = some (op, .free b)) :
    ((s.setBlock b none).setThread t none).Sound := by
  obtain ⟨-, hZero, hOnly⟩ := hSound.freeing t b ⟨op, hAt⟩
  have hHands : s.held (.inr t) = none := by simp [held, heldBy, hAt]
  have hNow : ((s.setBlock b none).setThread t none).held = s.held := by
    rw [held_setThread, held_setBlock]
    exact update_held hHands
  have hOther : ∀ u, u ≠ t → ((s.setBlock b none).setThread t none).running u = s.running u :=
    fun u hu => Function.update_of_ne hu _ _
  have hMine : ((s.setBlock b none).setThread t none).running t = none :=
    running_setThread _ t none
  refine hSound.recounted (b := b) (hSound.apart_of_running hAt) ⟨fun x _ => rfl, hOther⟩ rfl
    (fun c hc => Function.update_of_ne hc _ _) (fun c m _ hOld => hNow ▸ hOld) (fun u c hc => ?_)
    ⟨0, hNow ▸ hZero, by simp, fun _ => rfl, by simp [setThread, setBlock]⟩ (fun u hu => ?_)
    (fun op' stage hStage => ?_)
  · by_cases hu : u = t
    · subst hu
      refine iff_of_false (by simp [Freeing, hMine]) (fun ⟨op', h⟩ => ?_)
      rw [hAt] at h
      cases h
      exact hc rfl
    · simp only [Freeing, hOther u hu]
  · obtain ⟨op', hFree⟩ := hu
    by_cases hEq : u = t
    · subst hEq
      simp [hMine] at hFree
    · exact absurd (hOnly u ⟨op', (hOther u hEq).symm.trans hFree⟩) hEq
  · simp [hMine] at hStage

/-- Every later step of a call keeps the invariant. -/
theorem Sound.advance (hSound : s.Sound) (hAllowed : s.Allowed (.advance t))
    (h : s.advance t = some s') : s'.Sound := by
  unfold Memory.advance at h
  split at h
  next => cases h
  next op b dst slot hAt =>
    obtain ⟨-, -, src, -, hHeld⟩ := hSound.acquiring t op b dst slot hAt
    obtain ⟨⟨block, hBlock⟩, -⟩ := hSound.live hHeld
    simp only [hBlock] at h
    obtain rfl := Option.some.inj h
    exact hSound.acquire hAt hBlock (hAllowed op b dst slot block hAt hBlock)
  next op b hAt =>
    have hApart := hSound.apart_of_running hAt
    obtain ⟨⟨block, hBlock⟩, -⟩ := hSound.live (show s.held (.inr t) = some b by
      simp [held, heldBy, hAt])
    simp only [hBlock] at h
    split at h
    next hOne =>
      obtain rfl := Option.some.inj h
      exact hSound.release _ hAt hBlock (if_pos hOne).symm
    next hMore =>
      have hAfter := hSound.release none hAt hBlock (if_neg hMore).symm
      refine hAfter.proceed (running_setThread _ t none) (fun u other stage hu hRunning => ?_)
        (fun x hx => ?_) h
      · exact hApart u other stage hu ((Function.update_of_ne hu _ _).symm.trans hRunning)
      · simpa using hSound.opened t op _ hAt x hx
  next op b hAt =>
    have hSome := (hSound.freeing t b ⟨op, hAt⟩).1
    split at h
    next hNone => simp [hNone] at hSome
    next =>
      refine (hSound.free hAt).proceed (running_setThread _ t none)
        (fun u other stage hu hRunning => ?_) (fun x hx => ?_) h
      · exact hSound.apart_of_running hAt u other stage hu
          ((Function.update_of_ne hu _ _).symm.trans hRunning)
      · simpa using hSound.opened t op _ hAt x hx
  next op x hAt =>
    have hApart := hSound.apart_of_running hAt
    have hReturns : ∀ seen, (s.ret t op seen).Sound := fun seen =>
      hSound.unchanged (by simp [held, heldBy, hAt]) (by simp [hAt]) hApart
    split at h
    next => cases h
    next slot hSlot =>
      split at h
      next =>
        obtain rfl := Option.some.inj h
        exact hReturns []
      next b hBuf =>
        obtain ⟨⟨block, hBlock⟩, -⟩ := hSound.live (show s.held (.inl x) = some b by
          simp [held, hSlot, hBuf])
        simp only [hBlock] at h
        obtain rfl := Option.some.inj h
        exact hReturns _

theorem Sound.step {label : Label α Var Thread} (hSound : s.Sound) (hAllowed : s.Allowed label)
    (h : s.step label = some s') : s'.Sound := by
  cases label with
  | start t op fresh => exact hSound.start hAllowed h
  | advance t => exact hSound.advance hAllowed h

end Steps

theorem sound_initial : (initial : Memory α Var Thread).Sound where
  unharmed := rfl
  owned b := ⟨0, Counted.of_nobody (by rintro (x | t) <;> simp [held, initial, heldBy]), by simp,
    fun _ => rfl, by simp [initial]⟩
  freeing t b h := by simp [Freeing, initial] at h
  opened t op stage h := by simp [initial] at h
  acquiring t op b dst slot h := by simp [initial] at h
  apart t u op other stage stage' _ h := by simp [initial] at h

variable [DecidableEq Var] [DecidableEq Thread]

theorem sound_of_run (run : Transition.RunsWhere Allowed step initial s) : s.Sound :=
  run.preserves (fun _ _ _ hSound hAllowed h => hSound.step hAllowed h) sound_initial

/-- Between calls an allocation is there exactly as long as an object refers to it, and its
count is the number of these objects: nothing leaks and nothing is freed too early. -/
theorem buffers_live_while_referenced (run : Transition.RunsWhere Allowed step initial s)
    (hIdle : ∀ t, s.running t = none) (b : Address) :
    (s.heap b = none → ∀ x, (s.vars x).bind Slot.buf ≠ some b) ∧
      ∀ block, s.heap b = some block → 0 < block.refs.toNat ∧
        Counted (fun x => (s.vars x).bind Slot.buf) b block.refs.toNat := by
  have hSound := sound_of_run run
  obtain ⟨n, hCounted, hLt, hAbsent, hPresent⟩ := hSound.owned b
  have hObjects : Counted (fun x => (s.vars x).bind Slot.buf) b n := by
    refine hCounted.comap Sum.inl_injective fun h hHeld => ?_
    rcases h with x | t
    · exact ⟨x, rfl⟩
    · simp [held, heldBy, hIdle] at hHeld
  refine ⟨fun hHeap x => hObjects.zero_iff.mp (hAbsent hHeap) x, fun block hHeap => ?_⟩
  obtain ⟨hRefs, hLast⟩ := hPresent block hHeap
  have hNat : block.refs.toNat = n := by
    rw [hRefs, BitVec.toNat_ofNat, Nat.mod_eq_of_lt hLt]
  refine ⟨?_, hNat ▸ hObjects⟩
  rcases Nat.eq_zero_or_pos n with hZero | hPos
  · obtain ⟨t, op, hFree⟩ := hLast hZero
    simp [hIdle] at hFree
  · omega

/-- Two threads share the buffer of object 0: one copies it while the other takes a slice. -/
theorem shared_run : ∃ s : Memory Nat Nat Bool, Transition.RunsWhere Allowed step initial s ∧
    (∀ t, s.running t = none) ∧ (s.heap 5).map ArcBuf.refs = some 3 ∧
    s.vars 2 = some ⟨some 5, 1, 1⟩ := by
  have hStart : Transition.RunsWhere Allowed step (initial : Memory Nat Nat Bool) initial := .refl
  have hFrom := hStart.tail (.start false (.from 0 [8, 9]) 5) (by
    intro u other stage hAt
    cases hAt) rfl
  have hCopy := hFrom.tail (.start false (.copy 1 0) 0) (by
    intro u other stage hAt
    cases u <;> cases hAt) rfl
  have hSlice := hCopy.tail (.start true (.slice 2 0 1 1) 0) (by
    intro u other stage hAt
    cases u <;> cases hAt
    simp [Op.Independent, Op.writes, Op.reads]) rfl
  have hAcquire := hSlice.tail (.advance true) (by
    intro op b dst slot block hAt hBlock
    cases hAt
    cases hBlock
    decide) rfl
  have hCopied := hAcquire.tail (.advance false) (by
    intro op b dst slot block hAt hBlock
    cases hAt
    cases hBlock
    decide) rfl
  exact ⟨_, hCopied, by decide, by decide, by decide⟩

/-- Three objects share the buffer at 5. -/
theorem buffers_live_while_referenced_shared : ∃ s : Memory Nat Nat Bool,
    (s.heap 5).map ArcBuf.refs = some 3 ∧
    (s.heap 5 = none → ∀ x, (s.vars x).bind Slot.buf ≠ some 5) ∧
      ∀ block, s.heap 5 = some block → 0 < block.refs.toNat ∧
        Counted (fun x => (s.vars x).bind Slot.buf) 5 block.refs.toNat := by
  obtain ⟨s, run, hIdle, hRefs, -⟩ := shared_run
  exact ⟨s, hRefs, buffers_live_while_referenced run hIdle 5⟩

end Memory
end CelerMem.Sharing
