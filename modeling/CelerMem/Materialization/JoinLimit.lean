import CelerMem.Materialization.JoinFeeds
import CelerMem.Materialization.JoinSteps

/-! The limit of a join after it has been reached. The rows of the last refill are still in
the queue then, so the next pull refills once more instead of answering at once. -/
namespace CelerMem.Materialization

variable {L R Side : Type}

/-! ## The three executors side by side -/

inductive JoinExecutor (L R : Type) where
  | batchIndexNL (s : BatchIndexNLImpl L R)
  | hashJoin (s : HashJoinImpl L R)
  | nestedLoop (s : NestedLoopImpl L R)

namespace JoinExecutor

def pull [Allocation] [Codec R] : JoinExecutor L R → Option (Pulled (Joined L R) × JoinExecutor L R)
  | .batchIndexNL s => (BatchIndexNLImpl.pull s).map fun p => (p.1, .batchIndexNL p.2)
  | .hashJoin s => (HashJoinImpl.pull s).map fun p => (p.1, .hashJoin p.2)
  | .nestedLoop s => (NestedLoopImpl.pull s).map fun p => (p.1, .nestedLoop p.2)

def out : JoinExecutor L R → JoinOutput L R
  | .batchIndexNL s => s.out
  | .hashJoin s => s.out
  | .nestedLoop s => s.out

def leftSrc : JoinExecutor L R → StreamHandle (Record L)
  | .batchIndexNL s => s.side.leftSrc
  | .hashJoin s => s.side.leftSrc
  | .nestedLoop s => s.side.leftSrc

/-- Other things to read and to call. Only BatchIndexNL reads the right store. -/
def replace (leftSrc : StreamHandle (Record L)) (right : BackendReads)
    (extract : Record L → Result Bytes) : JoinExecutor L R → JoinExecutor L R
  | .batchIndexNL s => .batchIndexNL { s with side := { s.side with leftSrc, right, extract } }
  | .hashJoin s => .hashJoin { s with side := { s.side with leftSrc, extract } }
  | .nestedLoop s => .nestedLoop { s with side := { s.side with leftSrc, extract } }

/-- As the constructors leave an executor. -/
def Fresh (limit : Nat) : JoinExecutor L R → Prop
  | .batchIndexNL s =>
      (∃ kind, s.out = JoinOutput.initial kind limit) ∧ s.side.leftover = Chunk.none ∧
        s.side.leftoverIdx = 0
  | .hashJoin s => ∃ kind, s.out = JoinOutput.initial kind limit
  | .nestedLoop s => ∃ kind, s.out = JoinOutput.initial kind limit

/-- No record of the last left chunk waits for a batch. Only BatchIndexNL keeps any, and
the other two executors do not look whether the left source is still wanted. -/
def Exhausted : JoinExecutor L R → Prop
  | .batchIndexNL s => BatchIndexNLImpl.held s.side = []
  | .hashJoin _ => False
  | .nestedLoop _ => False

end JoinExecutor

def rowsOf : Pulled (Joined L R) → Nat
  | .ok (some chunk) => chunk.size
  | _ => 0

/-- Some pulls, whatever they answer, and the rows that they emit in total. -/
inductive Handed [Allocation] [Codec R] : JoinExecutor L R → Nat → JoinExecutor L R → Prop where
  | refl (e : JoinExecutor L R) : Handed e 0 e
  | pull {e f g : JoinExecutor L R} {k : Nat} {r : Pulled (Joined L R)} (run : Handed e k f)
      (hPull : f.pull = some (r, g)) : Handed e (k + rowsOf r) g

/-- The state right after the pull that emits the `n`-th row. -/
def ReachesLimit [Allocation] [Codec R] (n : Nat) (e g : JoinExecutor L R) : Prop :=
  ∃ k f r, Handed e k f ∧ f.pull = some (r, g) ∧ k < n ∧ k + rowsOf r = n

/-- Every later pull answers Done, whatever is there to read and to call, and leaves the
left source as it is. -/
def Quiet [Allocation] [Codec R] (e : JoinExecutor L R) : Prop :=
  ∀ left right extract k f, Handed (e.replace left right extract) k f →
    ∃ g, f.pull = some (.ok none, g) ∧ g.leftSrc = left

/-! ## How much of the limit is left -/

/-- A refill does not count. -/
def SameLimit (out out' : JoinOutput L R) : Prop :=
  out'.hasLimit = out.hasLimit ∧ out'.limitRemaining = out.limitRemaining

theorem emitRow_limit (out : JoinOutput L R) (key : Bytes) (left : L) (found : Option R) :
    SameLimit out (out.emitRow key left found).1 := by
  unfold JoinOutput.emitRow
  split
  · dsimp only
    split
    · exact ⟨rfl, rfl⟩
    · exact ⟨rfl, rfl⟩
  · exact ⟨rfl, rfl⟩

theorem emitRows_limit (extract : Record L → Result Bytes) (find : Bytes → Option R)
    (recs : List (Record L)) (out : JoinOutput L R) :
    SameLimit out (emitRows extract find recs out).2 := by
  induction recs generalizing out with
  | nil => exact ⟨rfl, rfl⟩
  | cons rec recs ih =>
      cases hKey : extract rec with
      | error e =>
          rw [emitRows, hKey]
          exact ⟨rfl, rfl⟩
      | ok key =>
          have hRow := emitRow_limit out key rec.value (find key)
          rw [emitRows, hKey]
          cases hEmit : out.emitRow key rec.value (find key) with
          | mk next stop =>
              rw [hEmit] at hRow
              cases stop with
              | true =>
                  simp only [hEmit]
                  exact hRow
              | false =>
                  have hRest := ih next
                  simp only [hEmit]
                  exact ⟨hRest.1.trans hRow.1, hRest.2.trans hRow.2⟩

theorem probe_limit (fetched : List (Bytes × Option R)) (recs : List (Record L))
    (keys : List Bytes) (slots : List ℕ) (out : JoinOutput L R) :
    SameLimit out (BatchIndexNLImpl.probe fetched recs keys slots out) := by
  induction recs generalizing keys slots out with
  | nil => exact ⟨rfl, rfl⟩
  | cons rec recs ih =>
      cases keys with
      | nil => exact ⟨rfl, rfl⟩
      | cons key keys =>
          cases slots with
          | nil => exact ⟨rfl, rfl⟩
          | cons slot slots =>
              have hRow := emitRow_limit out key rec.value (fetched[slot]?.bind Prod.snd)
              rw [BatchIndexNLImpl.probe]
              cases hEmit : out.emitRow key rec.value (fetched[slot]?.bind Prod.snd) with
              | mk next stop =>
                  rw [hEmit] at hRow
                  cases stop with
                  | true => exact hRow
                  | false =>
                      have hRest := ih keys slots next
                      exact ⟨hRest.1.trans hRow.1, hRest.2.trans hRow.2⟩

theorem refillFromChunk_limit {leftSrc : Side → StreamHandle (Record L)}
    {withSrc : Side → StreamHandle (Record L) → Side} {extract : Side → Record L → Result Bytes}
    {find : Side → Bytes → Option R} {s t : JoinImpl Side L R} {r : VoidResult}
    (hRefill : refillFromChunk leftSrc withSrc extract find s = some (r, t)) :
    SameLimit s.out t.out := by
  obtain ⟨q, source, -, -, hOut | hOut | ⟨chunk, -, hOut⟩⟩ := refillFromChunk_cases hRefill
  · rw [hOut]
    exact ⟨rfl, rfl⟩
  · rw [hOut]
    exact ⟨rfl, rfl⟩
  · rw [hOut]
    exact emitRows_limit _ _ chunk.toList s.out

theorem BatchIndexNLImpl.refill_limit [Allocation] [Codec R] {s t : BatchIndexNLImpl L R}
    {r : VoidResult} (hRefill : refill s = some (r, t)) : SameLimit s.out t.out := by
  rcases refill_cases hRefill with ⟨-, rfl⟩ | ⟨-, hFill⟩
  · exact ⟨rfl, rfl⟩
  obtain ⟨q, filled, hRun, -, hOut⟩ := fillBatch_cases hFill
  have hFilled : SameLimit s.out filled.out := by
    apply batch_holds (P := fun u : BatchIndexNLImpl L R => SameLimit s.out u.out) _ ⟨rfl, rfl⟩ hRun
    intro u v hReads hu
    rcases hReads.out with hSame | hSame
    · exact hSame ▸ hu
    · exact hSame ▸ hu
  rcases hOut with hOut | ⟨leftBatch, d, fetched, -, -, hOut⟩
  · exact hOut ▸ hFilled
  · have hProbe := probe_limit fetched leftBatch d.rowKeys d.uniqueIdx filled.out
    rw [hOut]
    exact ⟨hProbe.1.trans hFilled.1, hProbe.2.trans hFilled.2⟩

/-- What a pull does to the limit. The rows that it emitted are still in the queue. -/
structure Counted (m : ℕ) (r : Pulled (Joined L R)) (out : JoinOutput L R) : Prop where
  hasLimit : out.hasLimit = true
  counted : rowsOf r + out.limitRemaining ≤ m
  queued : 0 < rowsOf r → out.pendingOut ≠ [] ∧ out.pendingOut.length ≤ out.outCursor
  reached : 0 < rowsOf r → out.limitRemaining = 0 → out.upstreamDone = true

theorem counted_drain {s : JoinImpl Side L R} (hLimit : s.out.hasLimit = true)
    (hRows : s.out.outCursor < s.out.pendingOut.length) :
    Counted s.out.limitRemaining s.drain.1 s.drain.2.out := by
  have hSize : ∀ rows : List (Joined L R), (Chunk.from rows).size ≤ rows.length := by
    intro rows
    rw [← Chunk.length_toList, Chunk.toList_from, List.length_take]
    exact Nat.min_le_right _ _
  have hSome : s.out.pendingOut ≠ [] := List.ne_nil_of_length_pos (by omega)
  rw [JoinImpl.drain, hLimit, if_pos rfl]
  generalize hDrained : (if s.out.limitRemaining < (s.out.pendingOut.drop s.out.outCursor).length
    then (s.out.pendingOut.drop s.out.outCursor).take s.out.limitRemaining
    else s.out.pendingOut.drop s.out.outCursor) = drained
  have hMost : drained.length ≤ s.out.limitRemaining := by
    rw [← hDrained]
    split
    · exact List.length_take_le _ _
    · omega
  constructor
  · rfl
  · have hHere := hSize drained
    show (Chunk.from drained).size + (s.out.limitRemaining - drained.length) ≤ s.out.limitRemaining
    omega
  · intro _
    exact ⟨hSome, Nat.le_refl _⟩
  · intro _ hZero
    have hNone : s.out.limitRemaining - drained.length = 0 := hZero
    show (s.out.upstreamDone || s.out.limitRemaining - drained.length == 0) = true
    rw [hNone]
    exact Bool.or_true _

theorem counted_pullWith {refill : JoinImpl Side L R → Option (VoidResult × JoinImpl Side L R)}
    (hRefill : ∀ s r t, refill s = some (r, t) → SameLimit s.out t.out) {s t : JoinImpl Side L R}
    {r : Pulled (Joined L R)} (hLimit : s.out.hasLimit = true)
    (hPull : JoinImpl.pullWith refill s = some (r, t)) : Counted s.out.limitRemaining r t.out := by
  apply Loop.run_holds (fun u : JoinImpl Side L R => SameLimit s.out u.out)
    (fun p : Pulled (Joined L R) × JoinImpl Side L R => Counted s.out.limitRemaining p.1 p.2.out)
    _ ⟨rfl, rfl⟩ hPull
  intro u next hu hTurn
  have hSilent : ∀ (r : Pulled (Joined L R)) (out : JoinOutput L R), rowsOf r = 0 →
      SameLimit s.out out → Counted s.out.limitRemaining r out := by
    intro r out hNone hSame
    exact ⟨hSame.1.trans hLimit, by rw [hNone, hSame.2]; omega, by simp [hNone], by simp [hNone]⟩
  rcases JoinImpl.turn_cases hTurn with ⟨-, rfl⟩ | ⟨-, q, v, hNext, hCase⟩ | ⟨hRows, rfl⟩
  · exact hSilent _ _ rfl hu
  · have hSame := hRefill u.emptied q v hNext
    have hKept : SameLimit s.out v.out := ⟨hSame.1.trans hu.1, hSame.2.trans hu.2⟩
    rcases hCase with rfl | rfl | ⟨e, rfl⟩
    · exact hKept
    · exact hSilent _ _ rfl hKept
    · exact hSilent _ _ rfl hKept
  · have hDrain := counted_drain (hu.1.trans hLimit) hRows
    rw [hu.2] at hDrain
    exact hDrain

theorem counted_pull [Allocation] [Codec R] {e f : JoinExecutor L R} {r : Pulled (Joined L R)}
    (hLimit : e.out.hasLimit = true) (hPull : e.pull = some (r, f)) :
    Counted e.out.limitRemaining r f.out := by
  cases e with
  | batchIndexNL s =>
      obtain ⟨⟨q, t⟩, hInner, hSame⟩ := Option.map_eq_some_iff.mp hPull
      obtain ⟨rfl, rfl⟩ := Prod.mk.inj hSame
      exact counted_pullWith (fun s r t h => BatchIndexNLImpl.refill_limit h) hLimit hInner
  | hashJoin s =>
      obtain ⟨⟨q, t⟩, hInner, hSame⟩ := Option.map_eq_some_iff.mp hPull
      obtain ⟨rfl, rfl⟩ := Prod.mk.inj hSame
      exact counted_pullWith (fun s r t h => refillFromChunk_limit h) hLimit hInner
  | nestedLoop s =>
      obtain ⟨⟨q, t⟩, hInner, hSame⟩ := Option.map_eq_some_iff.mp hPull
      obtain ⟨rfl, rfl⟩ := Prod.mk.inj hSame
      exact counted_pullWith (fun s r t h => refillFromChunk_limit h) hLimit hInner

/-- The rows emitted so far and those that may still come make up the limit at most. -/
theorem handed_limit [Allocation] [Codec R] {n k : ℕ} {e f : JoinExecutor L R}
    (hLimit : e.out.hasLimit = true) (hLeft : e.out.limitRemaining = n) (run : Handed e k f) :
    f.out.hasLimit = true ∧ k + f.out.limitRemaining ≤ n := by
  induction run with
  | refl => exact ⟨hLimit, by omega⟩
  | @pull f g k r _ hPull ih =>
      obtain ⟨hHere, hSum⟩ := ih
      have hNext := counted_pull hHere hPull
      have hCounted := hNext.counted
      exact ⟨hNext.hasLimit, by omega⟩

/-! ## Batches come from somewhere -/

/-- Only a batch of at least one record, and with room for it, brings rows. -/
def Fed [Allocation] : JoinExecutor L R → Prop
  | .batchIndexNL s => s.out.pendingOut ≠ [] →
      0 < s.side.batchSize ∧ s.side.batchSize ≤ Allocation.room (Record L)
  | .hashJoin _ => True
  | .nestedLoop _ => True

theorem BatchIndexNLImpl.refill_fed [Allocation] [Codec R] {s t : BatchIndexNLImpl L R}
    {r : VoidResult} (hEmpty : s.out.pendingOut = []) (hRefill : refill s = some (r, t))
    (hRows : t.out.pendingOut ≠ []) :
    0 < t.side.batchSize ∧ t.side.batchSize ≤ Allocation.room (Record L) := by
  rcases refill_cases hRefill with ⟨-, rfl⟩ | ⟨hRoom, hFill⟩
  · exact absurd hEmpty hRows
  obtain ⟨q, filled, hRun, hSide, hOut⟩ := fillBatch_cases hFill
  have hFilled : filled.out.pendingOut = [] ∧ filled.side.batchSize = s.side.batchSize := by
    apply batch_holds (P := fun u : BatchIndexNLImpl L R =>
      u.out.pendingOut = [] ∧ u.side.batchSize = s.side.batchSize) _ ⟨hEmpty, rfl⟩ hRun
    rintro u v hReads ⟨hNone, hSize⟩
    refine ⟨?_, hReads.batchSize.trans hSize⟩
    rcases hReads.out with hSame | hSame
    · rw [hSame, hNone]
    · rw [hSame, hNone]
  rw [hSide, hFilled.2]
  refine ⟨?_, hRoom⟩
  rcases hOut with hOut | ⟨leftBatch, d, fetched, rfl, hSome, -⟩
  · exact absurd (hOut ▸ hFilled.1) hRows
  · exact batchSize_pos hRun hSome

theorem fed_pull [Allocation] [Codec R] {e f : JoinExecutor L R} {r : Pulled (Joined L R)} (hFed : Fed e)
    (hPull : e.pull = some (r, f)) : Fed f := by
  cases e with
  | batchIndexNL s =>
      obtain ⟨⟨q, t⟩, hInner, hSame⟩ := Option.map_eq_some_iff.mp hPull
      obtain ⟨rfl, rfl⟩ := Prod.mk.inj hSame
      apply Loop.run_holds (fun s : BatchIndexNLImpl L R => Fed (.batchIndexNL s))
        (fun p : Pulled (Joined L R) × BatchIndexNLImpl L R => Fed (.batchIndexNL p.2)) _ hFed hInner
      intro s next hs hTurn
      rcases JoinImpl.turn_cases hTurn with ⟨-, rfl⟩ | ⟨-, q, t, hNext, hCase⟩ | ⟨-, rfl⟩
      · exact hs
      · have hKept : Fed (.batchIndexNL t) := BatchIndexNLImpl.refill_fed rfl hNext
        rcases hCase with rfl | rfl | ⟨e, rfl⟩
        · exact hKept
        · exact hKept
        · exact hKept
      · intro hRows
        rw [s.drain_pendingOut] at hRows
        rw [s.drain_side]
        exact hs hRows
  | hashJoin s =>
      obtain ⟨⟨q, t⟩, -, hSame⟩ := Option.map_eq_some_iff.mp hPull
      obtain ⟨-, rfl⟩ := Prod.mk.inj hSame
      trivial
  | nestedLoop s =>
      obtain ⟨⟨q, t⟩, -, hSame⟩ := Option.map_eq_some_iff.mp hPull
      obtain ⟨-, rfl⟩ := Prod.mk.inj hSame
      trivial

theorem handed_fed [Allocation] [Codec R] {k : ℕ} {e f : JoinExecutor L R} (hFed : Fed e)
    (run : Handed e k f) : Fed f := by
  induction run with
  | refl => exact hFed
  | pull _ hPull ih => exact fed_pull ih hPull

/-! ## After the limit -/

/-- The queue right after the last row has been handed out. -/
structure Spent (out : JoinOutput L R) : Prop where
  drained : out.pendingOut.length ≤ out.outCursor
  queued : out.pendingOut ≠ []
  upstreamDone : out.upstreamDone = true

theorem spent_of_reachesLimit [Allocation] [Codec R] {n : ℕ} {e g : JoinExecutor L R} (hn : 0 < n)
    (hFresh : e.Fresh n) (h : ReachesLimit n e g) : Spent g.out ∧ Fed g := by
  obtain ⟨k, f, r, hRun, hPull, hBefore, hNow⟩ := h
  obtain ⟨kind, hOut⟩ : ∃ kind, e.out = JoinOutput.initial kind n := by
    cases e with
    | batchIndexNL s => exact hFresh.1
    | hashJoin s => exact hFresh
    | nestedLoop s => exact hFresh
  have hLimit : e.out.hasLimit = true := by
    rw [hOut]
    exact decide_eq_true hn
  have hLeft : e.out.limitRemaining = n := by rw [hOut]; rfl
  have hFed : Fed e := by
    cases e with
    | batchIndexNL s =>
        intro hRows
        have hNone : s.out = JoinOutput.initial kind n := hOut
        rw [hNone] at hRows
        exact absurd rfl hRows
    | hashJoin s => trivial
    | nestedLoop s => trivial
  obtain ⟨hHere, hSum⟩ := handed_limit hLimit hLeft hRun
  have hCounted := counted_pull hHere hPull
  have hMost := hCounted.counted
  have hRows : 0 < rowsOf r := by omega
  have hZero : g.out.limitRemaining = 0 := by omega
  obtain ⟨hQueued, hDrained⟩ := hCounted.queued hRows
  exact ⟨⟨hDrained, hQueued, hCounted.reached hRows hZero⟩, fed_pull (handed_fed hFed hRun) hPull⟩

/-- BatchIndexNL with nothing left to read answers Done and stays so. -/
theorem idle_pull [Allocation] [Codec R] {s : BatchIndexNLImpl L R}
    (hRoom : s.side.batchSize ≤ Allocation.room (Record L)) (hDone : s.out.upstreamDone = true)
    (hDrained : s.out.pendingOut.length ≤ s.out.outCursor)
    (hHeld : BatchIndexNLImpl.held s.side = []) :
    ∃ t, BatchIndexNLImpl.pull s = some (.ok none, t) ∧ t.side = s.side ∧
      t.out.upstreamDone = true ∧ t.out.pendingOut.length ≤ t.out.outCursor := by
  by_cases hNone : s.out.pendingOut = []
  · exact ⟨s, JoinImpl.pullWith_over hNone hDone, rfl, hDone, hDrained⟩
  · have hBatch : BatchIndexNLImpl.batchTurn (s.emptied, []) =
        some (.leave (.ok [], s.emptied)) := by
      have hGet := BatchIndexNLImpl.held_nil hHeld
      by_cases hSome : 0 < s.side.batchSize
      · simp [BatchIndexNLImpl.batchTurn, JoinImpl.emptied, hSome, hGet, hDone]
      · simp [BatchIndexNLImpl.batchTurn, JoinImpl.emptied, hSome]
    have hRefill : BatchIndexNLImpl.refill s.emptied = some (.ok (), s.emptied) := by
      have hFits : s.emptied.side.batchSize ≤ Allocation.room (Record L) := hRoom
      rw [BatchIndexNLImpl.refill_eq hFits, BatchIndexNLImpl.fillBatch, Loop.run_leave hBatch]
      rfl
    have hSame : s.emptied = ⟨s.side, JoinImpl.cleared s.out s.out.upstreamDone⟩ := rfl
    rw [hSame] at hRefill
    refine ⟨s.emptied, ?_, rfl, hDone, Nat.le_refl 0⟩
    exact JoinImpl.pullWith_end hDrained (Or.inr hNone) hRefill rfl hDone

theorem quiet_of_exhausted [Allocation] [Codec R] {e : JoinExecutor L R} (hSpent : Spent e.out)
    (hFed : Fed e) (hExhausted : e.Exhausted) : Quiet e := by
  cases e with
  | batchIndexNL s =>
      intro left right extract k f run
      have hRoom : s.side.batchSize ≤ Allocation.room (Record L) := (hFed hSpent.queued).2
      have hIdle : ∃ t : BatchIndexNLImpl L R, f = .batchIndexNL t ∧ t.side.leftSrc = left ∧
          t.side.batchSize = s.side.batchSize ∧ BatchIndexNLImpl.held t.side = [] ∧
          t.out.upstreamDone = true ∧ t.out.pendingOut.length ≤ t.out.outCursor := by
        induction run with
        | refl => exact ⟨_, rfl, rfl, rfl, hExhausted, hSpent.upstreamDone, hSpent.drained⟩
        | pull _ hPull ih =>
            obtain ⟨t, rfl, hLeft, hSize, hHeld, hDone, hDrained⟩ := ih
            obtain ⟨u, hNext, hSide, hDone', hDrained'⟩ :=
              idle_pull (hSize ▸ hRoom) hDone hDrained hHeld
            rw [JoinExecutor.pull, hNext, Option.map_some, Option.some.injEq, Prod.mk.injEq] at hPull
            exact ⟨u, hPull.2.symm, hSide ▸ hLeft, hSide ▸ hSize, hSide ▸ hHeld, hDone', hDrained'⟩
      obtain ⟨t, rfl, hLeft, hSize, hHeld, hDone, hDrained⟩ := hIdle
      obtain ⟨u, hNext, hSide, -, -⟩ := idle_pull (hSize ▸ hRoom) hDone hDrained hHeld
      refine ⟨.batchIndexNL u, ?_, ?_⟩
      · rw [JoinExecutor.pull, hNext, Option.map_some]
      · show u.side.leftSrc = left
        rw [hSide, hLeft]
  | hashJoin s => exact hExhausted.elim
  | nestedLoop s => exact hExhausted.elim

/-- A spent queue is refilled, and without a successful refill there is no Done. -/
theorem pullWith_spent {refill : JoinImpl Side L R → Option (VoidResult × JoinImpl Side L R)}
    {s : JoinImpl Side L R} (hSpent : Spent s.out)
    (hRefill : ∀ t, refill s.emptied ≠ some (.ok (), t)) (t : JoinImpl Side L R) :
    JoinImpl.pullWith refill s ≠ some (.ok none, t) := by
  have hGuard : (s.out.upstreamDone && s.out.pendingOut.isEmpty) = false := by
    simp [hSpent.queued]
  cases hNext : refill s.emptied with
  | none =>
      have hTurn : JoinImpl.turn refill s = none := by
        rw [JoinImpl.turn, if_pos hSpent.drained, hGuard, if_neg Bool.false_ne_true]
        show (refill s.emptied).bind _ = none
        rw [hNext, Option.bind_none]
      rw [JoinImpl.pullWith, Loop.run_stuck hTurn]
      intro hSame
      cases hSame
  | some p =>
      obtain ⟨q, u⟩ := p
      cases q with
      | error e =>
          have hTurn : JoinImpl.turn refill s = some (.leave (.error e, u)) := by
            rw [JoinImpl.turn, if_pos hSpent.drained, hGuard, if_neg Bool.false_ne_true]
            show (refill s.emptied).bind _ = _
            rw [hNext, Option.bind_some]
          rw [JoinImpl.pullWith, Loop.run_leave hTurn]
          intro hSame
          cases hSame
      | ok v => exact absurd hNext (hRefill u)

/-- A left source that never answers. -/
def stuck (α : Type) : StreamHandle α := ⟨fun _ => none⟩

/-- A record that waits is taken into the next batch, and its key derived. -/
theorem refill_fails [Allocation] [Codec R] {s t : BatchIndexNLImpl L R} {err : Error}
    (hRoom : s.side.batchSize ≤ Allocation.room (Record L))
    (hDone : s.out.upstreamDone = true) (hSize : 0 < s.side.batchSize)
    (hHeld : BatchIndexNLImpl.held s.side ≠ []) (hExtract : s.side.extract = fun _ => .error err) :
    BatchIndexNLImpl.refill s ≠ some (.ok (), t) := by
  have hHolds : BatchIndexNLImpl.Holds s.side s.out.upstreamDone (BatchIndexNLImpl.held s.side) := by
    rw [hDone]
    exact BatchIndexNLImpl.Holds.held_only s.side
  obtain ⟨side, done, hRun, ⟨-, hSame, -⟩, -⟩ := BatchIndexNLImpl.gathers [] hHolds
  obtain ⟨rec, recs, hRecs⟩ := List.exists_cons_of_ne_nil hHeld
  obtain ⟨size, hSize⟩ := Nat.exists_eq_succ_of_ne_zero hSize.ne'
  rw [hRecs, hSize] at hRun
  rw [BatchIndexNLImpl.refill_eq hRoom]
  simp [BatchIndexNLImpl.fillBatch, hRun, BatchIndexNLImpl.deriveKeys, hSame, hExtract]

theorem exhausted_of_quiet [Allocation] [Codec R] {e : JoinExecutor L R} (hSpent : Spent e.out) (hFed : Fed e)
    (hQuiet : Quiet e) : e.Exhausted := by
  have hNow : ∀ left right extract, ∃ g, (e.replace left right extract).pull = some (.ok none, g) := by
    intro left right extract
    obtain ⟨g, hPull, -⟩ := hQuiet left right extract 0 _ (.refl _)
    exact ⟨g, hPull⟩
  obtain ⟨g, hPull⟩ := hNow (stuck _) ⟨fun _ => .ok [], fun _ => .error ⟨"", ""⟩, false⟩
    fun _ => .error ⟨"", ""⟩
  cases e with
  | batchIndexNL s =>
      obtain ⟨⟨q, t⟩, hInner, hSame⟩ := Option.map_eq_some_iff.mp hPull
      obtain ⟨rfl, -⟩ := Prod.mk.inj hSame
      by_contra hHeld
      apply pullWith_spent _ _ t hInner
      · exact ⟨hSpent.drained, hSpent.queued, hSpent.upstreamDone⟩
      · intro u hRefill
        obtain ⟨hSome, hRoom⟩ := hFed hSpent.queued
        refine refill_fails ?_ ?_ ?_ ?_ rfl hRefill
        · exact hRoom
        · exact hSpent.upstreamDone
        · exact hSome
        · exact hHeld
  | hashJoin s =>
      obtain ⟨⟨q, t⟩, hInner, hSame⟩ := Option.map_eq_some_iff.mp hPull
      obtain ⟨rfl, -⟩ := Prod.mk.inj hSame
      apply pullWith_spent _ _ t hInner
      · exact ⟨hSpent.drained, hSpent.queued, hSpent.upstreamDone⟩
      · intro u hRefill
        obtain ⟨r, source, hLeft, -⟩ := refillFromChunk_cases hRefill
        cases hLeft
  | nestedLoop s =>
      obtain ⟨⟨q, t⟩, hInner, hSame⟩ := Option.map_eq_some_iff.mp hPull
      obtain ⟨rfl, -⟩ := Prod.mk.inj hSame
      apply pullWith_spent _ _ t hInner
      · exact ⟨hSpent.drained, hSpent.queued, hSpent.upstreamDone⟩
      · intro u hRefill
        obtain ⟨r, source, hLeft, -⟩ := refillFromChunk_cases hRefill
        cases hLeft

/-- Once the limit is reached, a join is quiet exactly if it is BatchIndexNL and no record
of its last left chunk is waiting. -/
theorem limit_quiet_iff [Allocation] [Codec R] {n : ℕ} (hn : 0 < n) {e g : JoinExecutor L R}
    (hFresh : e.Fresh n) (hReaches : ReachesLimit n e g) : Quiet g ↔ g.Exhausted := by
  obtain ⟨hSpent, hFed⟩ := spent_of_reachesLimit hn hFresh hReaches
  constructor
  · intro hQuiet
    exact exhausted_of_quiet hSpent hFed hQuiet
  · intro hExhausted
    exact quiet_of_exhausted hSpent hFed hExhausted

/-- A hash join with limit 1 whose left source fails after a chunk of one record. -/
def lateFailure : HashJoinImpl Bytes Bytes :=
  ⟨⟨Stream.ofChunks [Chunk.singleton ⟨[1], [1]⟩] (.error ⟨"late", ""⟩), [([1], [2])],
    fun rec => .ok rec.value⟩, JoinOutput.initial .inner 1⟩

theorem lateFailure_fresh : (JoinExecutor.hashJoin lateFailure).Fresh 1 := ⟨.inner, rfl⟩

/-- Its first pull emits the row, its second one answers the error. -/
theorem lateFailure_reaches : ∃ s g, ReachesLimit 1 (.hashJoin lateFailure) (.hashJoin s) ∧
    (JoinExecutor.hashJoin s).pull = some (.error ⟨"late", ""⟩, g) := by
  obtain ⟨side, out, hRefill, hRows, hCursor, hSize, next, hNext⟩ : ∃ side out,
      HashJoinImpl.refill ⟨lateFailure.side, JoinImpl.cleared lateFailure.out false⟩ =
        some (.ok (), ⟨side, out⟩) ∧ out.pendingOut ≠ [] ∧ out.outCursor = 0 ∧
      (Chunk.from (JoinOutput.allowed out.hasLimit out.limitRemaining out.pendingOut)).size = 1 ∧
      ∃ next, JoinImpl.turn HashJoinImpl.refill ⟨side, JoinImpl.handedOut out⟩ =
        some (.leave (.error ⟨"late", ""⟩, next)) :=
    ⟨_, _, rfl, List.cons_ne_nil _ _, rfl, rfl, _, rfl⟩
  have hDrained : lateFailure.out.pendingOut.length ≤ lateFailure.out.outCursor := Nat.le_refl 0
  have hFirst := JoinImpl.pullWith_rows hDrained (Or.inl rfl) hRefill hCursor hRows
  have hPull : (JoinExecutor.hashJoin lateFailure).pull = some (.ok (some (Chunk.from
      (JoinOutput.allowed out.hasLimit out.limitRemaining out.pendingOut))),
      .hashJoin ⟨side, JoinImpl.handedOut out⟩) := Option.map_eq_some_iff.mpr ⟨_, hFirst, rfl⟩
  refine ⟨⟨side, JoinImpl.handedOut out⟩, .hashJoin next, ?_, ?_⟩
  · exact ⟨0, _, _, .refl _, hPull, Nat.one_pos, (Nat.zero_add _).trans hSize⟩
  · exact Option.map_eq_some_iff.mpr ⟨_, Loop.run_leave hNext, rfl⟩

/-- The hash join has reached its limit, and its next pull answers an error. -/
theorem limit_not_quiet : (JoinExecutor.hashJoin lateFailure).Fresh 1 ∧
    ∃ g, ReachesLimit 1 (.hashJoin lateFailure) g ∧ ¬ Quiet g ∧
      ∃ h, g.pull = some (.error ⟨"late", ""⟩, h) := by
  obtain ⟨s, h, hReaches, hPull⟩ := lateFailure_reaches
  obtain ⟨hSpent, hFed⟩ := spent_of_reachesLimit Nat.one_pos lateFailure_fresh hReaches
  refine ⟨lateFailure_fresh, .hashJoin s, hReaches, ?_, h, hPull⟩
  intro hQuiet
  exact exhausted_of_quiet hSpent hFed hQuiet

theorem limit_quiet_iff_lateFailure : ∃ g, ReachesLimit 1 (.hashJoin lateFailure) g ∧
    (Quiet g ↔ g.Exhausted) := by
  obtain ⟨s, -, hReaches, -⟩ := lateFailure_reaches
  exact ⟨.hashJoin s, hReaches, limit_quiet_iff Nat.one_pos lateFailure_fresh hReaches⟩

end CelerMem.Materialization
