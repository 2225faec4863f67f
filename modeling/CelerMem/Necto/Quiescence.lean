import CelerMem.Necto.SendLog
import Mathlib

/-! When `drain` stops of itself. A round without work leaves no active actor with anything
in its channel, and the total is the number of calls of `on_receive`. -/
namespace CelerMem.Necto
variable {σ : Type}

namespace ActorSystem

/-- The calls of `on_receive` in the history. -/
def receives (s : ActorSystem σ) : Nat := (s.actors.map fun h => h.processed.length).sum

/-- A round of `drain` does nothing, before the bound on the rounds ends it. -/
inductive GoesQuiet : ActorSystem σ → Nat → ActorSystem σ → Prop where
  | here {s t : ActorSystem σ} {rounds : Nat} (hRound : s.tickAll = some (0, t)) :
      GoesQuiet s (rounds + 1) t
  | later {s t u : ActorSystem σ} {n rounds : Nat} (hRound : s.tickAll = some (n, t))
      (hWork : n ≠ 0) (rest : GoesQuiet t rounds u) : GoesQuiet s (rounds + 1) u

variable {s t : ActorSystem σ} {ref : ActorRef} {h : ActorHandle σ}

/-! ## Counting the calls -/

theorem sum_map_modify {α : Type} (g : α → ℕ) (f : α → α) {l : List α} {i : ℕ} {a : α}
    (hAt : l[i]? = some a) : ((l.modify i f).map g).sum + g a = (l.map g).sum + g (f a) := by
  induction l generalizing i with
  | nil => cases hAt
  | cons b l ih =>
      cases i with
      | zero =>
          obtain rfl := Option.some.inj hAt
          rw [List.modify_zero_cons, List.map_cons, List.map_cons, List.sum_cons, List.sum_cons]
          omega
      | succ i =>
          have hRest := ih hAt
          rw [List.modify_succ_cons, List.map_cons, List.map_cons, List.sum_cons, List.sum_cons]
          omega

theorem receives_update (f : ActorHandle σ → ActorHandle σ) (hRef : s.handle? ref = some h) :
    (s.update ref f).receives + h.processed.length = s.receives + (f h).processed.length :=
  sum_map_modify (fun h => h.processed.length) f hRef

theorem receives_of_unprocessing (hEvolves : Evolves Unprocessing s t) : t.receives = s.receives := by
  have hSame : t.actors.map (fun h => h.processed.length) =
      s.actors.map fun h => h.processed.length := by
    apply List.ext_getElem?
    intro i
    rw [List.getElem?_map, List.getElem?_map]
    cases ht : t.actors[i]? with
    | none =>
        have hOutside : s.actors[i]? = none := by
          rw [List.getElem?_eq_none_iff] at ht ⊢
          rwa [← hEvolves.length]
        rw [hOutside]
    | some h' =>
        obtain ⟨h, hs, hProcessed⟩ := hEvolves.earlier ht
        rw [hs, Option.map_some, Option.map_some, hProcessed]
  rw [receives, receives, hSame]

/-- Assignments that leave the history alone. -/
theorem receives_update_same {f : ActorHandle σ → ActorHandle σ}
    (hSame : ∀ h, (f h).processed = h.processed) : (s.update ref f).receives = s.receives :=
  receives_of_unprocessing (Evolves.update Unprocessing.refl fun h _ => hSame h)

theorem receive_receives (hRef : s.handle? ref = some h) (ctx : ActorContext) (msg : Envelope) :
    (s.receive ref ctx msg).2.receives = s.receives + 1 := by
  simp only [receive, hRef]
  set entered := s.update ref fun h => { h with processed := h.processed ++ [(msg, h.lifecycle)] }
  set script := h.vt.onReceive h.impl msg ctx.self ctx.cluster
  have hEntered : entered.receives = s.receives + 1 := by
    have hOne : entered.receives + h.processed.length =
        s.receives + (h.processed ++ [(msg, h.lifecycle)]).length := receives_update _ hRef
    rw [List.length_append, List.length_singleton] at hOne
    omega
  have hRan : (entered.runScript ctx script).2.2.receives = entered.receives :=
    receives_of_unprocessing (Evolves.runScript Unprocessing.refl Unprocessing.trans
      Unprocessing.accept script entered ctx)
  rw [← hEntered, ← hRan]
  exact receives_update_same fun h => rfl

theorem receiveAll_receives (msgs : List Envelope) (hRef : s.handle? ref = some h)
    (ctx : ActorContext) : (s.receiveAll ref ctx msgs).2.receives = s.receives + msgs.length := by
  induction msgs generalizing s h ctx with
  | nil => rfl
  | cons msg rest ih =>
      obtain ⟨h', hNext, -⟩ := receive_processed hRef ctx msg
      rw [receiveAll, ih hNext, receive_receives hRef, List.length_cons]
      omega

/-- A tick returns how often it has called `on_receive`. -/
theorem tick_receives (s : ActorSystem σ) (ref : ActorRef) :
    (s.tick ref).2.receives = s.receives + (s.tick ref).1 := by
  unfold tick
  cases hRef : s.handle? ref with
  | none => rfl
  | some h =>
      dsimp only
      split
      next => rfl
      next =>
        set pulled := s.update ref fun h' => { h' with channel := h.channel.pull.2 }
        have hPulled : pulled.receives = s.receives := receives_update_same fun h => rfl
        have hHandle : pulled.handle? ref = some { h with channel := h.channel.pull.2 } := by
          rw [handle?_update_self, hRef]
          rfl
        split
        next => exact hPulled
        next chunk _ =>
          split
          next => exact hPulled
          next =>
            have hDone := receiveAll_receives chunk.toList hHandle ⟨h.self, h.cluster, h.nextSeq⟩
            rw [hPulled, Chunk.length_toList] at hDone
            rw [← hDone]
            exact receives_update_same fun h => rfl

/-! ## A round without work -/

end ActorSystem

/-- Nothing is left for a tick to do. -/
def ActorHandle.Idle (h : ActorHandle σ) : Prop := h.lifecycle = .dormant ∨ h.channel.queue = []

/-- At most the channel has been emptied. -/
def Emptied (h h' : ActorHandle σ) : Prop :=
  h'.lifecycle = h.lifecycle ∧ (h'.channel.queue = h.channel.queue ∨ h'.channel.queue = [])

theorem Emptied.idle {h h' : ActorHandle σ} (hEmptied : Emptied h h') (hIdle : h.Idle) : h'.Idle := by
  obtain ⟨hLifecycle, hQueue | hQueue⟩ := hEmptied
  · rw [ActorHandle.Idle, hLifecycle, hQueue]
    exact hIdle
  · exact Or.inr hQueue

namespace ActorSystem
variable {s t : ActorSystem σ} {ref : ActorRef} {h : ActorHandle σ}

/-- The number of envelopes that are pulled, in the 32 bits of a chunk. -/
theorem tick_work (hRef : s.handle? ref = some h) (hActive : h.lifecycle = .active)
    (hPending : h.channel.queue ≠ []) :
    (s.tick ref).1 = h.channel.queue.length % uint32Size := by
  have hSize : (Chunk.from h.channel.queue).size = h.channel.queue.length % uint32Size := by
    rw [← Chunk.length_toList, Chunk.toList_from, List.length_take]
    exact Nat.min_eq_left (Nat.mod_le _ _)
  by_cases hEmpty : (Chunk.from h.channel.queue).empty = true
  · have hZero : (Chunk.from h.channel.queue).size = 0 := by
      rw [← Chunk.length_toList, (Chunk.empty_iff _).mp hEmpty, List.length_nil]
    simp [tick, hRef, hActive, ChannelBuf.pull_of_pending hPending, hEmpty, ← hSize, hZero]
  · simp [tick, hRef, hActive, ChannelBuf.pull_of_pending hPending, hEmpty, hSize]

/-- A tick that does nothing sends nothing, and its actor is idle then. -/
theorem tick_of_no_work (hNone : (s.tick ref).1 = 0) : Evolves Emptied s (s.tick ref).2 ∧
    ∀ h, (s.tick ref).2.handle? ref = some h → h.Idle := by
  have hRefl : ∀ h : ActorHandle σ, Emptied h h := fun h => ⟨rfl, Or.inl rfl⟩
  cases hRef : s.handle? ref with
  | none =>
      have hSame : (s.tick ref).2 = s := by rw [tick, hRef]
      rw [hSame]
      exact ⟨Evolves.refl hRefl s, fun h hSome => by rw [hRef] at hSome; cases hSome⟩
  | some h =>
      by_cases hIdle : h.Idle
      · have hSame : (s.tick ref).2 = s := by
          apply tick_of_idle
          intro h' hRef'
          obtain rfl := Option.some.inj (hRef.symm.trans hRef')
          exact hIdle
        rw [hSame]
        refine ⟨Evolves.refl hRefl s, ?_⟩
        intro h' hRef'
        obtain rfl := Option.some.inj (hRef.symm.trans hRef')
        exact hIdle
      · -- What was pending has been pulled, and its length has wrapped around to zero.
        obtain ⟨hAwake, hPending⟩ := not_or.mp hIdle
        have hActive : h.lifecycle = .active := by
          cases hLifecycle : h.lifecycle with
          | active => rfl
          | dormant => exact absurd hLifecycle hAwake
        have hWraps : h.channel.queue.length % uint32Size = 0 := by
          have hWork := tick_work hRef hActive hPending
          rwa [hNone, eq_comm] at hWork
        rw [tick_of_overflow hRef hActive hPending hWraps]
        refine ⟨Evolves.update hRefl fun h' _ => ⟨rfl, Or.inr rfl⟩, ?_⟩
        intro h' hAfter
        rw [handle?_update_self, hRef] at hAfter
        obtain rfl := Option.some.inj hAfter
        exact Or.inr rfl

/-- The loop of `tick_all` has counted the calls, and as long as there are none it leaves
idle actors behind. -/
structure Counted (s : ActorSystem σ) (state : UInt32 × Nat × ActorSystem σ) : Prop where
  calls : state.2.2.receives = s.receives + state.2.1
  idle : state.2.1 = 0 → ∀ j < state.1.toNat, ∀ h, state.2.2.actors[j]? = some h → h.Idle

theorem Counted.again {state next : UInt32 × Nat × ActorSystem σ} (hCounted : Counted s state)
    (hPass : tickNext state = some (.again next)) : Counted s next := by
  obtain ⟨i, total, t⟩ := state
  obtain ⟨hCalls, hIdle⟩ := hCounted
  obtain ⟨-, rfl⟩ := tickNext_again hPass
  simp only at hCalls hIdle
  constructor
  · rw [tick_receives, hCalls, Nat.add_assoc]
  · intro hNone j hj h hAfter
    obtain ⟨hTotal, hTick⟩ := Nat.add_eq_zero_iff.mp hNone
    obtain ⟨hEmptied, hHere⟩ := tick_of_no_work hTick
    by_cases hLast : j = i.toNat
    · subst hLast
      exact hHere h hAfter
    · obtain ⟨h₀, hBefore, hSame⟩ := hEmptied.earlier hAfter
      refine hSame.idle (hIdle hTotal j ?_ h₀ hBefore)
      have hNext : (i + 1).toNat ≤ i.toNat + 1 := by
        rw [UInt32.toNat_add, UInt32.toNat_one]
        exact Nat.mod_le _ _
      have hBelow : j < (i + 1).toNat := hj
      omega

theorem Counted.leave {state : UInt32 × Nat × ActorSystem σ} {result : Nat × ActorSystem σ}
    (hCounted : Counted s state) (hPass : tickNext state = some (.leave result)) :
    result.2.receives = s.receives + result.1 ∧ (result.1 = 0 → ∀ h ∈ result.2.actors, h.Idle) := by
  obtain ⟨hOutside, rfl⟩ := tickNext_leave hPass
  refine ⟨hCounted.calls, ?_⟩
  intro hNone h hMem
  obtain ⟨j, hj, rfl⟩ := List.getElem_of_mem hMem
  exact hCounted.idle hNone j (hj.trans_le hOutside) _ (List.getElem?_eq_getElem hj)

/-- A round returns how often it has called `on_receive`, and if never, all is quiet. -/
theorem tickAll_counted {result : Nat × ActorSystem σ} (hRound : s.tickAll = some result) :
    result.2.receives = s.receives + result.1 ∧ (result.1 = 0 → ∀ h ∈ result.2.actors, h.Idle) := by
  have hStart : Counted s (0, 0, s) := ⟨rfl, fun _ j hj => absurd hj (Nat.not_lt_zero j)⟩
  exact @Loop.run_invariant _ _ tickNext (0, 0, s) result (Counted s) _
    (fun _ _ hCounted => hCounted.again) (fun _ _ hCounted => hCounted.leave) hStart hRound

/-! ## Rounds that come back -/

/-- Below 2^32 actors, the 32-bit counter reaches their number. -/
theorem run_tickNext_returns (left : Nat) {i : UInt32} {total : Nat}
    (hLeft : i.toNat + left = s.actors.length) (hFew : s.actors.length < uint32Size) :
    (Loop.run tickNext (i, total, s)).isSome := by
  induction left generalizing i total s with
  | zero =>
      have hOutside : ¬ i.toNat < s.actors.length := by omega
      have hPass : tickNext (i, total, s) = some (.leave (total, s)) := if_neg hOutside
      rw [Loop.run_leave hPass]
      rfl
  | succ left ih =>
      have hInside : i.toNat < s.actors.length := by omega
      have hPass : tickNext (i, total, s) = some (.again (i + 1, total + (s.tick ⟨i⟩).1,
        (s.tick ⟨i⟩).2)) := if_pos hInside
      have hNext : (i + 1).toNat = i.toNat + 1 := by
        simp only [uint32Size] at hFew
        rw [UInt32.toNat_add, UInt32.toNat_one, Nat.mod_eq_of_lt (by omega)]
      have hLength := tick_length s ⟨i⟩
      rw [Loop.run_again hPass]
      exact ih (by rw [hNext, hLength]; omega) (by rwa [hLength])

theorem tickAll_returns_iff (s : ActorSystem σ) :
    s.tickAll.isSome ↔ s.actors.length < uint32Size := by
  constructor
  · intro hSome
    by_contra hMany
    obtain ⟨result, hRound⟩ := Option.isSome_iff_exists.mp hSome
    -- There are always more actors than the counter can count.
    have hAgain : ∀ state next : UInt32 × Nat × ActorSystem σ,
        uint32Size ≤ state.2.2.actors.length → tickNext state = some (.again next) →
          uint32Size ≤ next.2.2.actors.length := by
      intro state next hMany hPass
      obtain ⟨-, rfl⟩ := tickNext_again hPass
      exact hMany.trans (tick_length state.2.2 ⟨state.1⟩).ge
    have hLeave : ∀ (state : UInt32 × Nat × ActorSystem σ) (r : Nat × ActorSystem σ),
        uint32Size ≤ state.2.2.actors.length → tickNext state = some (.leave r) → False := by
      intro state r hMany hPass
      obtain ⟨hOutside, -⟩ := tickNext_leave hPass
      exact absurd (state.1.toNat_lt.trans_le hMany) (Nat.not_lt.mpr hOutside)
    exact @Loop.run_invariant _ _ tickNext (0, 0, s) result
      (fun state => uint32Size ≤ state.2.2.actors.length) (fun _ => False) hAgain hLeave
      (Nat.not_lt.mp hMany) hRound
  · exact run_tickNext_returns s.actors.length (Nat.zero_add _)

theorem drain_returns_iff (s : ActorSystem σ) (maxRounds : Nat) :
    (s.drain maxRounds).isSome ↔ maxRounds = 0 ∨ s.actors.length < uint32Size := by
  induction maxRounds generalizing s with
  | zero => exact iff_of_true rfl (Or.inl rfl)
  | succ rounds ih =>
      rw [or_iff_right (Nat.succ_ne_zero rounds), ← tickAll_returns_iff, drain]
      cases hRound : s.tickAll with
      | none => rfl
      | some result =>
          refine iff_of_true ?_ rfl
          have hFew : result.2.actors.length < uint32Size := by
            rw [tickAll_eq_ticks hRound, ticks_length, ← tickAll_returns_iff, hRound]
            rfl
          obtain ⟨last, hLast⟩ := Option.isSome_iff_exists.mp ((ih result.2).mpr (Or.inr hFew))
          simp only [Option.bind_eq_bind, Option.bind_some]
          split
          · rfl
          · rw [hLast]
            rfl

/-! ## All rounds -/

theorem drain_receives (maxRounds : Nat) {result : Nat × ActorSystem σ}
    (hDrain : s.drain maxRounds = some result) : result.2.receives = s.receives + result.1 := by
  induction maxRounds generalizing s result with
  | zero =>
      obtain rfl := Option.some.inj hDrain
      rfl
  | succ rounds ih =>
      simp only [drain, Option.bind_eq_bind, Option.bind_eq_some_iff] at hDrain
      obtain ⟨⟨n, t⟩, hRound, hRest⟩ := hDrain
      obtain ⟨hCalls, -⟩ := tickAll_counted hRound
      split at hRest
      next hNone =>
        obtain rfl := Option.some.inj hRest
        rw [hCalls, hNone]
      next =>
        obtain ⟨⟨total, u⟩, hLater, hSame⟩ := Option.bind_eq_some_iff.mp hRest
        obtain rfl := Option.some.inj hSame
        have hOthers := ih hLater
        simp only at hCalls hOthers ⊢
        omega

theorem GoesQuiet.drain {maxRounds : Nat} (hQuiet : GoesQuiet s maxRounds t) :
    ∃ total, s.drain maxRounds = some (total, t) := by
  induction hQuiet with
  | here hRound => exact ⟨0, by simp [ActorSystem.drain, hRound]⟩
  | @later s t u n rounds hRound hWork rest ih =>
      obtain ⟨total, hDrain⟩ := ih
      exact ⟨n + total, by simp [ActorSystem.drain, hRound, hWork, hDrain]⟩

theorem GoesQuiet.idle {maxRounds : Nat} (hQuiet : GoesQuiet s maxRounds t) :
    ∀ h ∈ t.actors, h.Idle := by
  induction hQuiet with
  | here hRound => exact (tickAll_counted hRound).2 rfl
  | later hRound hWork rest ih => exact ih

/-- `drain` comes back unless the actors outnumber the counter over them; its total is the
number of calls of `on_receive`; and if a round without work ended it, no active actor has
anything in its channel. -/
theorem drain_reaches_quiescence (s : ActorSystem σ) (maxRounds : Nat) :
    ((s.drain maxRounds).isSome ↔ maxRounds = 0 ∨ s.actors.length < uint32Size) ∧
    (∀ total t, s.drain maxRounds = some (total, t) → t.receives = s.receives + total) ∧
    ∀ t, s.GoesQuiet maxRounds t → (∃ total, s.drain maxRounds = some (total, t)) ∧
      ∀ h ∈ t.actors, h.lifecycle = .active → h.channel.queue = [] := by
  refine ⟨drain_returns_iff s maxRounds, fun total t => drain_receives maxRounds, ?_⟩
  intro t hQuiet
  refine ⟨hQuiet.drain, ?_⟩
  intro h hMem hActive
  apply (hQuiet.idle h hMem).resolve_left
  rw [hActive]
  decide

end ActorSystem
end CelerMem.Necto
