import CelerMem.Materialization.JoinSteps
import CelerMem.Materialization.RecordStream

/-! Clones of the library's synchronous streams: whichever of the original and a clone is
pulled next, each of them goes on as the original alone would. -/
namespace CelerMem.Materialization

variable {L R Side : Type}

/-! ## The join executors -/

namespace JoinImpl

variable {refill : JoinImpl Side L R → Option (VoidResult × JoinImpl Side L R)}
  {motive : Side → Prop}

/-- What a refill keeps of the source side, a pull keeps. -/
theorem side_of_pullWith
    (hRefill : ∀ s r t, motive s.side → refill s = some (r, t) → motive t.side)
    {s t : JoinImpl Side L R} {r : Pulled (Joined L R)} (hs : motive s.side)
    (hPull : pullWith refill s = some (r, t)) : motive t.side := by
  apply Loop.run_holds (fun s : JoinImpl Side L R => motive s.side)
    (fun p : Pulled (Joined L R) × JoinImpl Side L R => motive p.2.side) _ hs hPull
  intro s next hs hTurn
  rcases turn_cases hTurn with ⟨-, rfl⟩ | ⟨-, q, t, hNext, hCase⟩ | ⟨-, rfl⟩
  · exact hs
  · have hKept : motive t.side := hRefill s.emptied q t hs hNext
    rcases hCase with rfl | rfl | ⟨e, rfl⟩
    · exact hKept
    · exact hKept
    · exact hKept
  · show motive s.drain.2.side
    rw [s.drain_side]
    exact hs

/-- An executor may be cloned when its source may and its refills keep that. -/
theorem cloneSafe_of_refill [StreamImpl (JoinImpl Side L R) (Joined L R)]
    (leftSrc : Side → StreamHandle (Record L))
    (hCopy : ∀ s : JoinImpl Side L R, CloneSafe (leftSrc s.side) → StreamImpl.copy s = s)
    (hPull : ∀ s, StreamImpl.pull s = pullWith refill s)
    (hRefill : ∀ s r t, CloneSafe (leftSrc s.side) → refill s = some (r, t) →
      CloneSafe (leftSrc t.side))
    {s : JoinImpl Side L R} (hLeft : CloneSafe (leftSrc s.side)) :
    CloneSafe (makeStreamHandle s) := by
  apply CloneSafe.make (motive := fun s : JoinImpl Side L R => CloneSafe (leftSrc s.side)) hCopy _ hLeft
  intro s r t hs hNext
  rw [hPull] at hNext
  exact side_of_pullWith (motive := fun side => CloneSafe (leftSrc side)) hRefill hs hNext

end JoinImpl

theorem BatchIndexNLImpl.refill_cloneSafe [Allocation] [Codec R] {s t : BatchIndexNLImpl L R}
    {r : VoidResult} (hs : CloneSafe s.side.leftSrc) (hRefill : refill s = some (r, t)) :
    CloneSafe t.side.leftSrc := by
  rcases refill_cases hRefill with ⟨-, rfl⟩ | ⟨-, hFill⟩
  · exact hs
  obtain ⟨q, filled, hRun, hSide, -⟩ := fillBatch_cases hFill
  rw [hSide]
  apply batch_holds (P := fun u : BatchIndexNLImpl L R => CloneSafe u.side.leftSrc) _ hs hRun
  intro u v hReads hu
  rcases hReads.leftSrc with hSame | ⟨r, hPulled⟩
  · exact hSame ▸ hu
  · exact hu.pull hPulled

theorem batchIndexNL_cloneSafe [Allocation] [Codec R] {side : BatchIndexNLSide L R}
    (hLeft : CloneSafe side.leftSrc) (out : JoinOutput L R) :
    CloneSafe (makeStreamHandle (⟨side, out⟩ : BatchIndexNLImpl L R)) := by
  refine JoinImpl.cloneSafe_of_refill BatchIndexNLSide.leftSrc ?_ (fun _ => rfl) ?_ hLeft
  · intro s hs
    show JoinImpl.mk { s.side with leftSrc := s.side.leftSrc.clone } s.out = s
    rw [hs.clone_eq]
  · intro s r t hs hRefill
    exact BatchIndexNLImpl.refill_cloneSafe hs hRefill

/-- One refill of the other two pulls the left source once. -/
theorem refillFromChunk_cloneSafe {leftSrc : Side → StreamHandle (Record L)}
    {withSrc : Side → StreamHandle (Record L) → Side} {extract : Side → Record L → Result Bytes}
    {find : Side → Bytes → Option R} (hWith : ∀ side src, leftSrc (withSrc side src) = src)
    {s t : JoinImpl Side L R} {r : VoidResult} (hs : CloneSafe (leftSrc s.side))
    (hRefill : refillFromChunk leftSrc withSrc extract find s = some (r, t)) :
    CloneSafe (leftSrc t.side) := by
  obtain ⟨q, source, hNext, hSide, -⟩ := refillFromChunk_cases hRefill
  rw [hSide, hWith]
  exact hs.pull hNext

theorem hashJoin_cloneSafe {side : HashJoinSide L R} (hLeft : CloneSafe side.leftSrc)
    (out : JoinOutput L R) : CloneSafe (makeStreamHandle (⟨side, out⟩ : HashJoinImpl L R)) := by
  refine JoinImpl.cloneSafe_of_refill HashJoinSide.leftSrc ?_ (fun _ => rfl) ?_ hLeft
  · intro s hs
    show JoinImpl.mk { s.side with leftSrc := s.side.leftSrc.clone } s.out = s
    rw [hs.clone_eq]
  · intro s r t hs hRefill
    exact refillFromChunk_cloneSafe (fun side src => rfl) hs hRefill

theorem nestedLoop_cloneSafe {side : NestedLoopSide L R} (hLeft : CloneSafe side.leftSrc)
    (out : JoinOutput L R) : CloneSafe (makeStreamHandle (⟨side, out⟩ : NestedLoopImpl L R)) := by
  refine JoinImpl.cloneSafe_of_refill NestedLoopSide.leftSrc ?_ (fun _ => rfl) ?_ hLeft
  · intro s hs
    show JoinImpl.mk { s.side with leftSrc := s.side.leftSrc.clone } s.out = s
    rw [hs.clone_eq]
  · intro s r t hs hRefill
    exact refillFromChunk_cloneSafe (fun side src => rfl) hs hRefill

theorem wrapAsRecord_cloneSafe {src : StreamHandle (Joined L R)} (hSrc : CloneSafe src) :
    CloneSafe (wrapAsRecord src) := by
  apply CloneSafe.make (motive := fun s : WrapAsRecordImpl L R => CloneSafe s.src) _ _ hSrc
  · intro s hs
    show WrapAsRecordImpl.mk s.src.clone = s
    rw [hs.clone_eq]
  · intro s r t hs hPull
    obtain ⟨q, hNext, -⟩ := WrapAsRecordImpl.pull_source hPull
    exact hs.pull hNext

/-! ## Streams built from the library -/

/-- The streams made by the sources, the combinators and the join executors. -/
inductive Built : {α : Type} → StreamHandle α → Prop where
  | empty {α : Type} : Built (Stream.empty : StreamHandle α)
  | singleton {α : Type} (value : α) : Built (Stream.singleton value)
  | fromVector {α : Type} (data : List α) : Built (Stream.fromVector data)
  | fromString (s : Bytes) : Built (Stream.fromString s)
  | map {α β : Type} {source : StreamHandle α} (hSource : Built source) (fn : α → β) :
      Built (Stream.map source fn)
  | filter {α : Type} {source : StreamHandle α} (hSource : Built source) (pred : α → Bool) :
      Built (Stream.filter source pred)
  | take {α : Type} {source : StreamHandle α} (hSource : Built source) (n : Nat) :
      Built (Stream.take source n)
  | flatMap {α β : Type} {source : StreamHandle α} {fn : α → StreamHandle β}
      (hSource : Built source) (hFn : ∀ x, Built (fn x)) : Built (Stream.flatMap source fn)
  | recordWhere {T : Type} {source : StreamHandle (Record T)} (hSource : Built source)
      (pred : Record T → Bool) : Built (RecordStream.where source pred)
  | recordMap {T U : Type} {source : StreamHandle (Record T)} (hSource : Built source)
      (fn : T → U) : Built (RecordStream.map source fn)
  | recordTake {T : Type} {source : StreamHandle (Record T)} (hSource : Built source) (n : Nat) :
      Built (RecordStream.take source n)
  | recordBatch {T : Type} {source : StreamHandle (Record T)} (hSource : Built source) (n : Nat) :
      Built (RecordStream.batch source n)
  | batchIndexNL {L R : Type} [Allocation] [Codec R] {left : StreamHandle (Record L)} (hLeft : Built left)
      (right : BackendReads) (extract : Record L → Result Bytes) (kind : JoinKind)
      (batchSize limit : Nat) :
      Built (makeStreamHandle (⟨⟨left, right, extract, batchSize, Chunk.none, 0⟩,
        JoinOutput.initial kind limit⟩ : BatchIndexNLImpl L R))
  | hashJoin {L R : Type} {left : StreamHandle (Record L)} (hLeft : Built left)
      (rightIndex : DenseMap R) (extract : Record L → Result Bytes) (kind : JoinKind)
      (limit : Nat) :
      Built (makeStreamHandle (⟨⟨left, rightIndex, extract⟩,
        JoinOutput.initial kind limit⟩ : HashJoinImpl L R))
  | nestedLoop {L R : Type} {left : StreamHandle (Record L)} (hLeft : Built left)
      (rightAll : List (Record R)) (extract : Record L → Result Bytes) (kind : JoinKind)
      (limit : Nat) :
      Built (makeStreamHandle (⟨⟨left, rightAll, extract⟩,
        JoinOutput.initial kind limit⟩ : NestedLoopImpl L R))
  | wrapAsRecord {L R : Type} {src : StreamHandle (Joined L R)} (hSrc : Built src) :
      Built (wrapAsRecord src)

theorem Built.cloneSafe {α : Type} {h : StreamHandle α} (hBuilt : Built h) : CloneSafe h := by
  induction hBuilt with
  | empty => exact Stream.empty_cloneSafe
  | singleton value => exact Stream.singleton_cloneSafe value
  | fromVector data => exact Stream.fromVector_cloneSafe data
  | fromString s => exact Stream.fromVector_cloneSafe s
  | map _ fn ih => exact Stream.map_cloneSafe ih fn
  | filter _ pred ih => exact Stream.filter_cloneSafe ih pred
  | take _ n ih => exact Stream.take_cloneSafe ih n
  | flatMap _ _ ih ihFn => exact Stream.flatMap_cloneSafe ih ihFn
  | recordWhere _ pred ih => exact RecordStream.where_cloneSafe ih pred
  | recordMap _ fn ih => exact RecordStream.map_cloneSafe ih fn
  | recordTake _ n ih => exact RecordStream.take_cloneSafe ih n
  | recordBatch _ n ih => exact RecordStream.batch_cloneSafe ih n
  | batchIndexNL _ right extract kind batchSize limit ih => exact batchIndexNL_cloneSafe ih _
  | hashJoin _ rightIndex extract kind limit ih => exact hashJoin_cloneSafe ih _
  | nestedLoop _ rightAll extract kind limit ih => exact nestedLoop_cloneSafe ih _
  | wrapAsRecord _ ih => exact wrapAsRecord_cloneSafe ih

/-! ## Two owners -/

/-- Which of two streams is pulled. -/
inductive Owner where
  | original
  | clone
  deriving DecidableEq

/-- The answers to `n` pulls, if all of them return. -/
def pullMany {α : Type} : Nat → StreamHandle α → Option (List (Pulled α))
  | 0, _ => some []
  | n + 1, h => do
      let (r, h) ← h.pull
      let rs ← pullMany n h
      some (r :: rs)

/-- The answers that the two get when they pull in turns. -/
def pullBoth {α : Type} : List Owner → StreamHandle α → StreamHandle α →
    Option (List (Pulled α) × List (Pulled α))
  | [], _, _ => some ([], [])
  | .original :: schedule, h, k => do
      let (r, h) ← h.pull
      let (rs, qs) ← pullBoth schedule h k
      some (r :: rs, qs)
  | .clone :: schedule, h, k => do
      let (q, k) ← k.pull
      let (rs, qs) ← pullBoth schedule h k
      some (rs, q :: qs)

/-- Neither owner sees the pulls of the other. -/
theorem pullBoth_eq {α : Type} (schedule : List Owner) (h k : StreamHandle α) :
    pullBoth schedule h k = (pullMany (schedule.count .original) h).bind fun rs =>
      (pullMany (schedule.count .clone) k).map fun qs => (rs, qs) := by
  induction schedule generalizing h k with
  | nil => rfl
  | cons owner schedule ih =>
      cases owner with
      | original =>
          rw [List.count_cons_self, List.count_cons_of_ne (by decide), pullMany, pullBoth]
          cases hPull : h.pull with
          | none => rfl
          | some p =>
              simp only [Option.bind_eq_bind, Option.bind_some, ih]
              cases pullMany (schedule.count .original) p.2 with
              | none => rfl
              | some rs =>
                  cases pullMany (schedule.count .clone) k with
                  | none => rfl
                  | some qs => rfl
      | clone =>
          rw [List.count_cons_self, List.count_cons_of_ne (by decide), pullMany, pullBoth]
          cases hPull : k.pull with
          | none =>
              cases pullMany (schedule.count .original) h with
              | none => rfl
              | some rs => rfl
          | some p =>
              simp only [Option.bind_eq_bind, Option.bind_some, ih]
              cases pullMany (schedule.count .original) h with
              | none => rfl
              | some rs =>
                  cases pullMany (schedule.count .clone) p.2 with
                  | none => rfl
                  | some qs => rfl

/-- After any number of pulls, the original and a clone may be pulled in any order: each
gets the answers that the original alone gets from there. -/
theorem clone_independent {α : Type} {h : StreamHandle α} (hBuilt : Built h) (n : ℕ)
    (schedule : List Owner) :
    pullBoth schedule (h.after (List.replicate n .pull)) (h.after (List.replicate n .pull)).clone =
      (pullMany (schedule.count .original) (h.after (List.replicate n .pull))).bind fun rs =>
        (pullMany (schedule.count .clone) (h.after (List.replicate n .pull))).map fun qs =>
          (rs, qs) := by
  have hSafe : CloneSafe (h.after (List.replicate n .pull)) :=
    hBuilt.cloneSafe.after (List.replicate n .pull)
  rw [hSafe.clone_eq]
  exact pullBoth_eq schedule _ _

/-- A flattened stream, cloned in the middle of its second sub-stream. -/
theorem clone_independent_flatMap :
    let h := (Stream.flatMap (Stream.fromVector [1, 2, 3]) fun x => Stream.singleton x).after
      [.pull, .pull]
    pullBoth [.clone, .original, .clone] h h.clone =
      (pullMany 1 h).bind fun rs => (pullMany 2 h).map fun qs => (rs, qs) :=
  clone_independent (.flatMap (.fromVector [1, 2, 3]) fun x => .singleton x) 2
    [.clone, .original, .clone]

end CelerMem.Materialization
