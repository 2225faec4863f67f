import CelerMem.Core.DoneFinal
import CelerMem.Materialization.Join
import CelerMem.Materialization.RecordStream
import Mathlib

/-! Done is final for the combinators of records and for the join executors too, and so
for every stream that is built from any of them. -/
namespace CelerMem.Materialization

variable {T U L R Side : Type}

/-! ## RecordStream -/

namespace RecordStream

variable {source : StreamHandle (Record T)}

theorem inspect_doneFinal {Captured : Type} (hSource : DoneFinal source)
    (fn : Captured → Record T → Captured) (captured : Captured) :
    DoneFinal (inspect source fn captured) := by
  apply DoneFinal.make (fun s : InspectImpl T Captured => DoneFinal s.source)
    (fun s => Over s.source) _ _ hSource
  · intro s r t hs hPull
    obtain ⟨q, hNext, hDone⟩ := InspectImpl.pull_source hPull
    obtain ⟨hFinal, hOver⟩ := hs.pulled hNext
    exact ⟨hFinal, fun hNone => hOver (hDone hNone)⟩
  · intro s hOver
    obtain ⟨next, hNext, hStill⟩ := hOver.pull
    exact ⟨{ s with source := next }, by simp [StreamImpl.pull, InspectImpl.pull, hNext], hStill⟩

/-- The loop that fills the buffer is left by an error, or with as many records as a batch
needs, or at the end of the source. -/
theorem BatchImpl.fillTurn_leaves {s : BatchImpl T}
    {turn : Loop.Turn (BatchImpl T) (VoidResult × BatchImpl T)} (hTurn : s.fillTurn = some turn) :
    turn.Holds (fun _ => True)
      fun p => p.1 = .ok () → p.2.batchSize ≤ p.2.buffer.length ∨ p.2.upstreamDone = true := by
  rw [fillTurn] at hTurn
  split at hTurn
  · obtain ⟨⟨q, source⟩, -, hRest⟩ := Option.bind_eq_some_iff.mp hTurn
    rcases q with e | _ | chunk
    · obtain rfl := Option.some.inj hRest
      intro hFine
      cases hFine
    · obtain rfl := Option.some.inj hRest
      exact fun _ => Or.inr rfl
    · obtain rfl := Option.some.inj hRest
      trivial
  · rename_i hStop
    obtain rfl := Option.some.inj hTurn
    intro _
    rw [Bool.and_eq_true, not_and_or, decide_eq_true_eq, Nat.not_lt, Bool.not_eq_true',
      Bool.not_eq_false] at hStop
    exact hStop

/-- Nothing is buffered, and nothing more is asked of the source. -/
def BatchImpl.Ended (s : BatchImpl T) : Prop :=
  s.buffer = [] ∧ (s.batchSize = 0 ∨ s.upstreamDone = true)

/-- The source is not pulled again after its Done, so nothing is asked of it. -/
theorem batch_doneFinal (source : StreamHandle (Record T)) (n : ℕ) :
    DoneFinal (batch source n) := by
  apply DoneFinal.make (fun _ : BatchImpl T => True) BatchImpl.Ended _ _ trivial
  · intro s r t _ hPull
    refine ⟨trivial, ?_⟩
    rintro rfl
    obtain ⟨⟨q, filled⟩, hRun, hRest⟩ := Option.bind_eq_some_iff.mp hPull
    have hLeft := Loop.run_holds (fun _ : BatchImpl T => True)
      (fun p => p.1 = .ok () → p.2.batchSize ≤ p.2.buffer.length ∨ p.2.upstreamDone = true)
      (fun s turn _ hTurn => BatchImpl.fillTurn_leaves hTurn) trivial hRun
    cases q with
    | error e => cases hRest
    | ok u =>
        simp only at hRest
        split at hRest
        · rename_i hNone
          obtain ⟨-, rfl⟩ := Prod.mk.inj (Option.some.inj hRest)
          have hNil := List.isEmpty_iff.mp hNone
          refine ⟨hNil, ?_⟩
          have hStop := hLeft rfl
          rw [hNil] at hStop
          exact hStop.imp_left Nat.le_zero.mp
        · cases hRest
  · rintro s ⟨hNil, hStop⟩
    have hTurn : s.fillTurn = some (.leave (.ok (), s)) := by
      rcases hStop with hStop | hStop
      · simp [BatchImpl.fillTurn, hStop]
      · simp [BatchImpl.fillTurn, hStop]
    refine ⟨s, ?_, hNil, hStop⟩
    simp [StreamImpl.pull, BatchImpl.pull, Loop.run_leave hTurn, hNil]

end RecordStream

/-! ## Joins -/

/-- An empty queue that no refill follows. -/
def JoinImpl.Ended (s : JoinImpl Side L R) : Prop :=
  s.out.upstreamDone = true ∧ s.out.pendingOut = []

theorem JoinImpl.turn_ended
    {refill : JoinImpl Side L R → Option (VoidResult × JoinImpl Side L R)} {s : JoinImpl Side L R}
    {turn : Loop.Turn (JoinImpl Side L R) (Pulled (Joined L R) × JoinImpl Side L R)}
    (hTurn : JoinImpl.turn refill s = some turn) :
    turn.Holds (fun _ => True) fun p => p.1 = .ok none → p.2.Ended := by
  rw [JoinImpl.turn] at hTurn
  split at hTurn
  · split at hTurn
    · rename_i hOver
      obtain rfl := Option.some.inj hTurn
      rw [Bool.and_eq_true, List.isEmpty_iff] at hOver
      exact fun _ => hOver
    · obtain ⟨⟨q, t⟩, -, hRest⟩ := Option.bind_eq_some_iff.mp hTurn
      cases q with
      | error e =>
          obtain rfl := Option.some.inj hRest
          intro hDone
          cases hDone
      | ok u =>
          simp only at hRest
          split at hRest
          · rename_i hOver
            obtain rfl := Option.some.inj hRest
            rw [Bool.and_eq_true, List.isEmpty_iff] at hOver
            exact fun _ => ⟨hOver.2, hOver.1⟩
          · obtain rfl := Option.some.inj hRest
            trivial
  · obtain rfl := Option.some.inj hTurn
    intro hDone
    rw [JoinImpl.drain] at hDone
    dsimp only at hDone
    split at hDone
    · cases hDone
    · cases hDone

/-- Done is only answered with an empty queue and `upstream_done` set, whatever the refill
of the executor does, and in such a state it is answered again. -/
theorem join_doneFinal [StreamImpl (JoinImpl Side L R) (Joined L R)]
    {refill : JoinImpl Side L R → Option (VoidResult × JoinImpl Side L R)}
    (hPull : ∀ s, StreamImpl.pull s = JoinImpl.pullWith refill s) (s : JoinImpl Side L R) :
    DoneFinal (makeStreamHandle s) := by
  apply DoneFinal.make (fun _ : JoinImpl Side L R => True) JoinImpl.Ended _ _ trivial
  · intro s r t _ hNext
    rw [hPull] at hNext
    exact ⟨trivial, Loop.run_holds (fun _ => True) (fun p => p.1 = .ok none → p.2.Ended)
      (fun s turn _ hTurn => JoinImpl.turn_ended hTurn) trivial hNext⟩
  · rintro s ⟨hOver, hNil⟩
    have hTurn : JoinImpl.turn refill s = some (.leave (.ok none, s)) := by
      simp [JoinImpl.turn, hOver, hNil]
    exact ⟨s, (hPull s).trans (Loop.run_leave hTurn), hOver, hNil⟩

theorem wrapAsRecord_doneFinal {src : StreamHandle (Joined L R)} (hSrc : DoneFinal src) :
    DoneFinal (wrapAsRecord src) := by
  apply DoneFinal.make (fun s : WrapAsRecordImpl L R => DoneFinal s.src)
    (fun s => Over s.src) _ _ hSrc
  · intro s r t hs hPull
    obtain ⟨q, hNext, hDone⟩ := WrapAsRecordImpl.pull_source hPull
    obtain ⟨hFinal, hOver⟩ := hs.pulled hNext
    exact ⟨hFinal, fun hNone => hOver (hDone hNone)⟩
  · intro s hOver
    obtain ⟨next, hNext, hStill⟩ := hOver.pull
    exact ⟨⟨next⟩, by simp [StreamImpl.pull, WrapAsRecordImpl.pull, hNext], hStill⟩

/-! ## Streams over such sources -/

/-- The streams that the combinators and the join executors make, over sources that keep
answering Done after their first one. -/
inductive OverFinalSources : {α : Type} → StreamHandle α → Prop where
  | source {α : Type} {h : StreamHandle α} (hSource : DoneFinal h) : OverFinalSources h
  | map {α β : Type} {source : StreamHandle α} (hSource : OverFinalSources source) (fn : α → β) :
      OverFinalSources (Stream.map source fn)
  | filter {α : Type} {source : StreamHandle α} (hSource : OverFinalSources source)
      (pred : α → Bool) : OverFinalSources (Stream.filter source pred)
  | take {α : Type} {source : StreamHandle α} (hSource : OverFinalSources source) (n : Nat) :
      OverFinalSources (Stream.take source n)
  | flatMap {α β : Type} {source : StreamHandle α} {fn : α → StreamHandle β}
      (hSource : OverFinalSources source) (hFn : ∀ x, OverFinalSources (fn x)) :
      OverFinalSources (Stream.flatMap source fn)
  | recordWhere {T : Type} {source : StreamHandle (Record T)} (hSource : OverFinalSources source)
      (pred : Record T → Bool) : OverFinalSources (RecordStream.where source pred)
  | recordMap {T U : Type} {source : StreamHandle (Record T)} (hSource : OverFinalSources source)
      (fn : T → U) : OverFinalSources (RecordStream.map source fn)
  | recordTake {T : Type} {source : StreamHandle (Record T)} (hSource : OverFinalSources source)
      (n : Nat) : OverFinalSources (RecordStream.take source n)
  | recordInspect {T Captured : Type} {source : StreamHandle (Record T)}
      (hSource : OverFinalSources source) (fn : Captured → Record T → Captured)
      (captured : Captured) : OverFinalSources (RecordStream.inspect source fn captured)
  | recordBatch {T : Type} {source : StreamHandle (Record T)} (hSource : OverFinalSources source)
      (n : Nat) : OverFinalSources (RecordStream.batch source n)
  | batchIndexNL {L R : Type} [Allocation] [Codec R] {left : StreamHandle (Record L)}
      (hLeft : OverFinalSources left) (right : BackendReads) (extract : Record L → Result Bytes)
      (kind : JoinKind) (batchSize limit : Nat) :
      OverFinalSources (makeStreamHandle (⟨⟨left, right, extract, batchSize, Chunk.none, 0⟩,
        JoinOutput.initial kind limit⟩ : BatchIndexNLImpl L R))
  | hashJoin {L R : Type} {left : StreamHandle (Record L)} (hLeft : OverFinalSources left)
      (rightIndex : DenseMap R) (extract : Record L → Result Bytes) (kind : JoinKind)
      (limit : Nat) :
      OverFinalSources (makeStreamHandle (⟨⟨left, rightIndex, extract⟩,
        JoinOutput.initial kind limit⟩ : HashJoinImpl L R))
  | nestedLoop {L R : Type} {left : StreamHandle (Record L)} (hLeft : OverFinalSources left)
      (rightAll : List (Record R)) (extract : Record L → Result Bytes) (kind : JoinKind)
      (limit : Nat) :
      OverFinalSources (makeStreamHandle (⟨⟨left, rightAll, extract⟩,
        JoinOutput.initial kind limit⟩ : NestedLoopImpl L R))
  | wrapAsRecord {L R : Type} {src : StreamHandle (Joined L R)} (hSrc : OverFinalSources src) :
      OverFinalSources (wrapAsRecord src)

theorem OverFinalSources.doneFinal {α : Type} {h : StreamHandle α}
    (hBuilt : OverFinalSources h) : DoneFinal h := by
  induction hBuilt with
  | source hSource => exact hSource
  | map _ fn ih => exact Stream.map_doneFinal ih fn
  | filter _ pred ih => exact Stream.filter_doneFinal ih pred
  | take _ n ih => exact Stream.take_doneFinal ih n
  | flatMap _ _ ih _ => exact Stream.flatMap_doneFinal ih _
  | recordWhere _ pred ih => exact Stream.filter_doneFinal ih pred
  | recordMap _ fn ih => exact Stream.map_doneFinal ih _
  | recordTake _ n ih => exact Stream.take_doneFinal ih n
  | recordInspect _ fn captured ih => exact RecordStream.inspect_doneFinal ih fn captured
  | recordBatch _ n _ => exact RecordStream.batch_doneFinal _ n
  | batchIndexNL _ right extract kind batchSize limit _ => exact join_doneFinal (fun _ => rfl) _
  | hashJoin _ rightIndex extract kind limit _ => exact join_doneFinal (fun _ => rfl) _
  | nestedLoop _ rightAll extract kind limit _ => exact join_doneFinal (fun _ => rfl) _
  | wrapAsRecord _ ih => exact wrapAsRecord_doneFinal ih

/-- Once a pull of such a stream has returned Done, every later pull returns Done. -/
theorem done_final {α : Type} {h : StreamHandle α} (hBuilt : OverFinalSources h) (n m : ℕ)
    (hDone : h.observe (List.replicate n .pull) = some (.ok none)) :
    h.observe (List.replicate (n + m) .pull) = some (.ok none) := hBuilt.doneFinal n m hDone

/-- Two elements are taken, and the next three pulls say that there are no more. -/
theorem done_final_take :
    (Stream.take (Stream.map (Stream.fromVector [1, 2, 3]) fun x => x + 1) 2).observe
      (List.replicate (1 + 2) .pull) = some (.ok none) :=
  done_final (.take (.map (.source (Stream.fromVector_doneFinal [1, 2, 3])) fun x => x + 1) 2) 1 2 rfl

end CelerMem.Materialization
