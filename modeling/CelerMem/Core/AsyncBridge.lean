import CelerMem.Core.AsyncMeaning
import CelerMem.Core.Combinators

/-! The bridges between the two kinds of stream, and `par_map` between them: a bridged
stream is polled as the stream itself is pulled, so the two collectors agree. -/
namespace CelerMem.Async

variable {α β : Type} {budget : StreamBudget} {cx : TaskContext}

/-! ## to_async -/

/-- The chunks with something in them. -/
def fullChunks (cs : List (Chunk α)) : List (List α) :=
  (cs.map Chunk.toList).filter fun l => !l.isEmpty

theorem fullChunks_cons (c : Chunk α) (cs : List (Chunk α)) :
    fullChunks (c :: cs) = (PollResult.emit c).groups ++ fullChunks cs := by
  cases h : c.toList with
  | nil => simp [fullChunks, PollResult.groups, h]
  | cons a l => simp [fullChunks, PollResult.groups, h]

theorem flatten_fullChunks (cs : List (Chunk α)) : (fullChunks cs).flatten = chunkElems cs := by
  induction cs with
  | nil => rfl
  | cons c cs ih =>
      rw [fullChunks_cons, List.flatten_append, ih, PollResult.flatten_groups_emit, chunkElems_cons]

theorem toAsync_emits {h : StreamHandle α} {cs : List (Chunk α)} {e : Ending}
    (hc : CelerMem.Emits h cs e) : Emits budget cx (toAsync h) (fullChunks cs) e := by
  induction hc with
  | @done h next hPull =>
      have hPoll : AsyncImpl.poll budget cx (⟨h, false⟩ : SyncBridgeImpl α) =
          some (.done, ⟨next, true⟩) := by
        simp [AsyncImpl.poll, SyncBridgeImpl.poll, hPull]
      exact Emits.make_final hPoll rfl
  | @error h next err hPull =>
      have hPoll : AsyncImpl.poll budget cx (⟨h, false⟩ : SyncBridgeImpl α) =
          some (.error err, ⟨next, false⟩) := by
        simp [AsyncImpl.poll, SyncBridgeImpl.poll, hPull]
      exact Emits.make_final hPoll rfl
  | @chunk h next c cs e hPull _ ih =>
      have hPoll : AsyncImpl.poll budget cx (⟨h, false⟩ : SyncBridgeImpl α) =
          some (.emit c, ⟨next, false⟩) := by
        simp [AsyncImpl.poll, SyncBridgeImpl.poll, hPull]
      rw [fullChunks_cons]
      exact Emits.make_more hPoll rfl ih

theorem toAsync_denotes {h : StreamHandle α} {l : List α} {e : Ending}
    (hd : CelerMem.Denotes h l e) : Denotes budget cx (toAsync h) l e := by
  obtain ⟨cs, hEmits, rfl⟩ := hd.emits
  exact ⟨fullChunks cs, toAsync_emits hEmits, flatten_fullChunks cs⟩

/-! ## par_map -/

theorem parMap_emits {n : ℕ} {source : AsyncStreamHandle α} {gs : List (List α)} {e : Ending}
    (h : EmitsIn budget cx n source gs e) (fn : α → β) :
    Emits budget cx (parMap source fn) (gs.map (List.map fn)) e := by
  induction h with
  | @final source next r e hPoll hEnd =>
      cases r with
      | emit chunk => cases hEnd
      | pending => cases hEnd
      | yield => cases hEnd
      | done =>
          have hMapped : AsyncImpl.poll budget cx (⟨source, fn, false⟩ : ParMapImpl α β) =
              some (.done, ⟨next, fn, true⟩) := by
            simp [AsyncImpl.poll, ParMapImpl.poll, hPoll]
          exact Emits.make_final hMapped hEnd
      | error err =>
          have hMapped : AsyncImpl.poll budget cx (⟨source, fn, false⟩ : ParMapImpl α β) =
              some (.error err, ⟨next, fn, false⟩) := by
            simp [AsyncImpl.poll, ParMapImpl.poll, hPoll]
          exact Emits.make_final hMapped hEnd
  | @more n source next r gs e hPoll hMore _ ih =>
      cases r with
      | emit chunk =>
          have hMapped : AsyncImpl.poll budget cx (⟨source, fn, false⟩ : ParMapImpl α β) =
              some (.emit (Chunk.build chunk.size (chunk.toList.map fn) (by simp) chunk.size_lt),
                ⟨next, fn, false⟩) := by
            simp [AsyncImpl.poll, ParMapImpl.poll, hPoll]
          have hChunk := Emits.make_more hMapped rfl ih
          cases hList : chunk.toList with
          | nil => simpa [parMap, PollResult.groups, hList] using hChunk
          | cons a l => simpa [parMap, PollResult.groups, hList] using hChunk
      | pending =>
          have hMapped : AsyncImpl.poll budget cx (⟨source, fn, false⟩ : ParMapImpl α β) =
              some (.pending, ⟨next, fn, false⟩) := by
            simp [AsyncImpl.poll, ParMapImpl.poll, hPoll]
          exact Emits.make_more hMapped rfl ih
      | yield =>
          have hMapped : AsyncImpl.poll budget cx (⟨source, fn, false⟩ : ParMapImpl α β) =
              some (.yield, ⟨next, fn, false⟩) := by
            simp [AsyncImpl.poll, ParMapImpl.poll, hPoll]
          exact Emits.make_more hMapped rfl ih
      | done => cases hMore
      | error err => cases hMore

theorem parMap_denotes {source : AsyncStreamHandle α} {l : List α} {e : Ending}
    (hd : Denotes budget cx source l e) (fn : α → β) :
    Denotes budget cx (parMap source fn) (l.map fn) e := by
  obtain ⟨gs, ⟨n, hEmits⟩, rfl⟩ := hd
  exact ⟨gs.map (List.map fn), parMap_emits hEmits fn, List.map_flatten.symm⟩

/-! ## collect_blocking -/

theorem collectBlockingTurn_run {cx : TaskContext} {n : ℕ} {h : AsyncStreamHandle α}
    {gs : List (List α)} {e : Ending} (hRun : EmitsIn .unbounded cx n h gs e) (result : List α) :
    Loop.run (collectBlockingTurn cx) (h, result) = some (e.result (result ++ gs.flatten)) := by
  induction hRun generalizing result with
  | @final h next r e hPoll hEnd =>
      cases r with
      | emit chunk => cases hEnd
      | pending => cases hEnd
      | yield => cases hEnd
      | done =>
          obtain rfl : Ending.done = e := Option.some.inj hEnd
          apply Loop.run_leave
          simp [collectBlockingTurn, hPoll, Ending.result]
      | error err =>
          obtain rfl : Ending.error err = e := Option.some.inj hEnd
          apply Loop.run_leave
          simp [collectBlockingTurn, hPoll, Ending.result]
  | @more n h next r gs e hPoll hMore _ ih =>
      cases r with
      | emit chunk =>
          have hTurn : collectBlockingTurn cx (h, result) =
              some (.again (next, result ++ chunk.toList)) := by
            simp [collectBlockingTurn, hPoll]
          rw [Loop.run_again hTurn, ih, List.flatten_append, PollResult.flatten_groups_emit,
            List.append_assoc]
      | pending =>
          have hTurn : collectBlockingTurn cx (h, result) = some (.again (next, result)) := by
            simp [collectBlockingTurn, hPoll]
          rw [Loop.run_again hTurn, ih]
          rfl
      | yield =>
          have hTurn : collectBlockingTurn cx (h, result) = some (.again (next, result)) := by
            simp [collectBlockingTurn, hPoll]
          rw [Loop.run_again hTurn, ih]
          rfl
      | done => cases hMore
      | error err => cases hMore

/-- The items when the stream ends in Done, else its error. -/
theorem Denotes.collectBlocking {h : AsyncStreamHandle α} {l : List α} {e : Ending}
    (hd : Denotes .unbounded ⟨0⟩ h l e) : collectBlocking h = some (e.result l) := by
  obtain ⟨gs, ⟨n, hRun⟩, rfl⟩ := hd
  exact collectBlockingTurn_run hRun []

/-- The two collectors over a mapped stream and over its bridged form, which have
gathered the same so far. -/
def SameLoop (fn : α → β) (a : StreamHandle β × List β) (b : AsyncStreamHandle β × List β) : Prop :=
  ∃ source, a.1 = Stream.map source fn ∧ b.1 = parMap (toAsync source) fn ∧ a.2 = b.2

theorem sameLoop_turn {fn : α → β} {a : StreamHandle β × List β} {b : AsyncStreamHandle β × List β}
    (h : SameLoop fn a b) : Option.Rel (Loop.Turn.Rel (SameLoop fn) Eq)
      (Stream.collectTurn a) (collectBlockingTurn ⟨0⟩ b) := by
  obtain ⟨mapped, out⟩ := a
  obtain ⟨polled, result⟩ := b
  obtain ⟨source, rfl, rfl, rfl⟩ := h
  cases hPull : source.pull with
  | none =>
      have hStuck : Stream.collectTurn (Stream.map source fn, out) = none := by
        simp [Stream.collectTurn, Stream.map, StreamImpl.pull, Stream.MapImpl.pull, hPull]
      have hStuck' : collectBlockingTurn ⟨0⟩ (parMap (toAsync source) fn, out) = none := by
        simp [collectBlockingTurn, parMap, toAsync, AsyncImpl.poll, ParMapImpl.poll,
          SyncBridgeImpl.poll, hPull]
      rw [hStuck, hStuck']
      exact .none
  | some p =>
      obtain ⟨r, next⟩ := p
      cases r with
      | error e =>
          have hLeave : Stream.collectTurn (Stream.map source fn, out) =
              some (.leave (.error e)) := by
            simp [Stream.collectTurn, Stream.map, StreamImpl.pull, Stream.MapImpl.pull, hPull]
          have hLeave' : collectBlockingTurn ⟨0⟩ (parMap (toAsync source) fn, out) =
              some (.leave (.error e)) := by
            simp [collectBlockingTurn, parMap, toAsync, AsyncImpl.poll, ParMapImpl.poll,
              SyncBridgeImpl.poll, hPull]
          rw [hLeave, hLeave']
          exact .some (.leave rfl)
      | ok chunk =>
          cases chunk with
          | none =>
              have hLeave : Stream.collectTurn (Stream.map source fn, out) =
                  some (.leave (.ok out)) := by
                simp [Stream.collectTurn, Stream.map, StreamImpl.pull, Stream.MapImpl.pull, hPull]
              have hLeave' : collectBlockingTurn ⟨0⟩ (parMap (toAsync source) fn, out) =
                  some (.leave (.ok out)) := by
                simp [collectBlockingTurn, parMap, toAsync, AsyncImpl.poll, ParMapImpl.poll,
                  SyncBridgeImpl.poll, hPull]
              rw [hLeave, hLeave']
              exact .some (.leave rfl)
          | some chunk =>
              have hAgain : Stream.collectTurn (Stream.map source fn, out) =
                  some (.again (Stream.map next fn, out ++ chunk.toList.map fn)) := by
                simp [Stream.collectTurn, Stream.map, StreamImpl.pull, Stream.MapImpl.pull, hPull]
              have hAgain' : collectBlockingTurn ⟨0⟩ (parMap (toAsync source) fn, out) =
                  some (.again (parMap (toAsync next) fn, out ++ chunk.toList.map fn)) := by
                simp [collectBlockingTurn, parMap, toAsync, AsyncImpl.poll, ParMapImpl.poll,
                  SyncBridgeImpl.poll, hPull]
              rw [hAgain, hAgain']
              exact .some (.again ⟨next, rfl, rfl, rfl⟩)

/-- Mapping a bridged stream collects what mapping the stream does, an error and even a
stream that never ends included; and pending and yield results leave no trace. -/
theorem collectBlocking_parMap (fn : α → β) :
    (∀ s : StreamHandle α, collectBlocking (parMap (toAsync s) fn) =
      Stream.collect (Stream.map s fn)) ∧
    ∀ (source : AsyncStreamHandle α) (l : List α) (e : Ending),
      Denotes .unbounded ⟨0⟩ source l e →
        collectBlocking (parMap source fn) = some (e.result (l.map fn)) := by
  constructor
  · intro s
    have hStart : SameLoop fn (Stream.map s fn, []) (parMap (toAsync s) fn, []) :=
      ⟨s, rfl, rfl, rfl⟩
    exact (Loop.run_eq_of_rel (fun a b h => sameLoop_turn h) hStart).symm
  · intro source l e hSource
    exact (parMap_denotes hSource fn).collectBlocking

end CelerMem.Async
