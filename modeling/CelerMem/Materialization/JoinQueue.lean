import CelerMem.Materialization.Join
import CelerMem.Library.Batches

/-! What the common `pull` of the join executors makes of a refill that feeds it
the left rows in groups: the rows of each group in order, cut at the limit, and
each group's output as one chunk. -/
namespace CelerMem.Materialization

variable {L R : Type}

/-! ## Rows -/

/-- The row that a left record contributes, if any. -/
def joinRow (kind : JoinKind) (find : Bytes → Option R) (key : Record L → Bytes)
    (rec : Record L) : Option (Joined L R) :=
  if shouldEmit kind (find (key rec)).isSome then some ⟨key rec, rec.value, find (key rec)⟩ else none

namespace JoinOutput

/-- What the limit lets through. -/
def allowed (hasLimit : Bool) (limitRemaining : Nat) (rows : List (Joined L R)) :
    List (Joined L R) :=
  if hasLimit then rows.take limitRemaining else rows

/-- The queue after a group of rows: the loop breaks as soon as the limit is
reached, but only after pushing, so a limit of zero still lets one row in. -/
def filled (out : JoinOutput L R) (rows : List (Joined L R)) : JoinOutput L R :=
  let all := out.pendingOut ++ rows
  { out with
    pendingOut := allowed out.hasLimit (max out.limitRemaining 1) all
    upstreamDone := out.upstreamDone || (out.hasLimit && max out.limitRemaining 1 ≤ all.length) }

@[simp] theorem filled_kind (out : JoinOutput L R) (rows : List (Joined L R)) :
    (out.filled rows).kind = out.kind := rfl

@[simp] theorem filled_hasLimit (out : JoinOutput L R) (rows : List (Joined L R)) :
    (out.filled rows).hasLimit = out.hasLimit := rfl

@[simp] theorem filled_limitRemaining (out : JoinOutput L R) (rows : List (Joined L R)) :
    (out.filled rows).limitRemaining = out.limitRemaining := rfl

@[simp] theorem filled_outCursor (out : JoinOutput L R) (rows : List (Joined L R)) :
    (out.filled rows).outCursor = out.outCursor := rfl

/-- The limit has not been reached yet. -/
def Open (out : JoinOutput L R) : Prop :=
  out.hasLimit = true → out.pendingOut.length < max out.limitRemaining 1

theorem filled_nil {out : JoinOutput L R} (hOpen : out.Open) : out.filled [] = out := by
  obtain ⟨kind, limitRemaining, hasLimit, pendingOut, outCursor, upstreamDone⟩ := out
  cases hasLimit with
  | false => simp [filled, allowed]
  | true =>
      have hLess : pendingOut.length < max limitRemaining 1 := hOpen rfl
      simp only [filled, allowed, List.append_nil, if_true, List.take_of_length_le hLess.le,
        Bool.true_and, decide_eq_false (Nat.not_le.mpr hLess), Bool.or_false]

/-- Whether the next row pushed breaks the loop. -/
def stops (out : JoinOutput L R) : Bool :=
  out.hasLimit && decide (max out.limitRemaining 1 ≤ out.pendingOut.length + 1)

theorem emitRow_filled {out : JoinOutput L R} (hOpen : out.Open) (key : Bytes) (left : L)
    {found : Option R} (hEmit : shouldEmit out.kind found.isSome = true) :
    out.emitRow key left found = (out.filled [⟨key, left, found⟩], out.stops) := by
  obtain ⟨kind, limitRemaining, hasLimit, pendingOut, outCursor, upstreamDone⟩ := out
  cases hasLimit with
  | false => simp_all [emitRow, filled, allowed, stops]
  | true =>
      have hLess : pendingOut.length < max limitRemaining 1 := hOpen rfl
      have hLength : (pendingOut ++ [(⟨key, left, found⟩ : Joined L R)]).length =
          pendingOut.length + 1 := by simp
      have hAll : (pendingOut ++ [(⟨key, left, found⟩ : Joined L R)]).take (max limitRemaining 1) =
          pendingOut ++ [⟨key, left, found⟩] := List.take_of_length_le (by rw [hLength]; omega)
      have hReached : limitRemaining ≤ pendingOut.length + 1 ↔
          max limitRemaining 1 ≤ pendingOut.length + 1 := by omega
      by_cases hStop : max limitRemaining 1 ≤ pendingOut.length + 1
      · simp only [emitRow, hEmit, if_true, filled, allowed, stops, hLength, hAll, Bool.true_and,
          decide_eq_true hStop, decide_eq_true (hReached.mpr hStop), Bool.or_true]
      · simp only [emitRow, hEmit, if_true, filled, allowed, stops, hLength, hAll, Bool.true_and,
          decide_eq_false hStop, decide_eq_false (mt hReached.mp hStop), Bool.or_false,
          Bool.false_eq_true, if_false]

/-- A row that reaches the limit is the last one taken from its group. -/
theorem filled_cons_of_stops {out : JoinOutput L R} (hStop : out.stops = true) (row : Joined L R)
    (rows : List (Joined L R)) : out.filled (row :: rows) = out.filled [row] := by
  obtain ⟨kind, limitRemaining, hasLimit, pendingOut, outCursor, upstreamDone⟩ := out
  simp only [stops, Bool.and_eq_true, decide_eq_true_eq] at hStop
  obtain ⟨rfl, hReached⟩ := hStop
  have hSplit : pendingOut ++ row :: rows = (pendingOut ++ [row]) ++ rows := by simp
  have hOne : max limitRemaining 1 ≤ (pendingOut ++ [row]).length := by simpa using hReached
  have hMany : max limitRemaining 1 ≤ ((pendingOut ++ [row]) ++ rows).length := by
    rw [List.length_append]
    omega
  simp only [filled, allowed, if_true, Bool.true_and, hSplit, decide_eq_true hOne,
    decide_eq_true hMany, List.take_append_of_le_length hOne]

theorem filled_cons_of_not_stops {out : JoinOutput L R} (hStop : out.stops = false)
    (row : Joined L R) (rows : List (Joined L R)) :
    (out.filled [row]).filled rows = out.filled (row :: rows) ∧ (out.filled [row]).Open := by
  obtain ⟨kind, limitRemaining, hasLimit, pendingOut, outCursor, upstreamDone⟩ := out
  cases hasLimit with
  | false => simp [filled, allowed, Open]
  | true =>
      simp only [stops, Bool.true_and, decide_eq_false_iff_not] at hStop
      have hLength : (pendingOut ++ [row]).length = pendingOut.length + 1 := by simp
      have hAll : (pendingOut ++ [row]).take (max limitRemaining 1) = pendingOut ++ [row] :=
        List.take_of_length_le (by rw [hLength]; omega)
      have hOne : ¬ max limitRemaining 1 ≤ (pendingOut ++ [row]).length := by
        rw [hLength]
        exact hStop
      constructor
      · simp only [filled, allowed, if_true, hAll, Bool.true_and, decide_eq_false hOne,
          Bool.or_false, List.append_assoc, List.singleton_append]
      · intro _
        simp only [filled, allowed, if_true, hAll, hLength]
        omega

end JoinOutput

/-- The row loop of HashJoin and NestedLoop under a total extractor. -/
theorem emitRows_total (find : Bytes → Option R) (key : Record L → Bytes)
    (recs : List (Record L)) {out : JoinOutput L R} (hOpen : out.Open) :
    emitRows (fun rec => .ok (key rec)) find recs out =
      (.ok (), out.filled (recs.filterMap (joinRow out.kind find key))) := by
  induction recs generalizing out with
  | nil => rw [List.filterMap_nil, JoinOutput.filled_nil hOpen, emitRows]
  | cons rec recs ih =>
      by_cases hEmit : shouldEmit out.kind (find (key rec)).isSome = true
      · have hRow : joinRow out.kind find key rec = some ⟨key rec, rec.value, find (key rec)⟩ := by
          simp [joinRow, hEmit]
        have hEmitRow := JoinOutput.emitRow_filled hOpen (key rec) rec.value hEmit
        rw [List.filterMap_cons_some hRow]
        cases hStop : out.stops with
        | true =>
            rw [JoinOutput.filled_cons_of_stops hStop]
            simp [emitRows, hEmitRow, hStop]
        | false =>
            obtain ⟨hFilled, hOpen'⟩ := JoinOutput.filled_cons_of_not_stops hStop
              ⟨key rec, rec.value, find (key rec)⟩ (recs.filterMap (joinRow out.kind find key))
            have hRest := ih hOpen'
            rw [JoinOutput.filled_kind, hFilled] at hRest
            simpa [emitRows, hEmitRow, hStop] using hRest
      · have hRow : joinRow out.kind find key rec = none := by simp [joinRow, hEmit]
        rw [List.filterMap_cons_none hRow, ← ih hOpen]
        simp [emitRows, JoinOutput.emitRow, hEmit]

/-! ## Groups -/

/-- The output of each group, under the limit that the earlier ones leave. -/
def groupOutputs (hasLimit : Bool) : Nat → List (List (Joined L R)) → List (List (Joined L R))
  | _, [] => []
  | limitRemaining, rows :: groups =>
      let passed := JoinOutput.allowed hasLimit limitRemaining rows
      passed :: groupOutputs hasLimit (limitRemaining - passed.length) groups

/-- A chunk keeps the length of its vector modulo `2 ^ 32` only. -/
def throughChunk {α : Type} (data : List α) : List α := data.take (data.length % uint32Size)

@[simp] theorem allowed_false (n : Nat) (rows : List (Joined L R)) :
    JoinOutput.allowed false n rows = rows := rfl

@[simp] theorem allowed_true (n : Nat) (rows : List (Joined L R)) :
    JoinOutput.allowed true n rows = rows.take n := rfl

@[simp] theorem groupOutputs_false (n : Nat) (groups : List (List (Joined L R))) :
    groupOutputs false n groups = groups := by
  induction groups generalizing n with
  | nil => rfl
  | cons rows groups ih => simp [groupOutputs, ih]

theorem groupOutputs_zero (groups : List (List (Joined L R))) :
    ((groupOutputs true 0 groups).map throughChunk).flatten = [] := by
  induction groups with
  | nil => rfl
  | cons rows groups ih =>
      simpa [groupOutputs, JoinOutput.allowed, throughChunk] using ih

/-- How a refill feeds the queue. `Supply side done groups` says which groups of
left rows the side still holds, where `done` is the `upstream_done` flag. -/
structure Feeds {Side : Type} (kind : JoinKind) (find : Bytes → Option R) (key : Record L → Bytes)
    (refill : JoinImpl Side L R → Option (VoidResult × JoinImpl Side L R))
    (Supply : Side → Bool → List (List (Record L)) → Prop) : Prop where
  exhausted : ∀ (side : Side) (out : JoinOutput L R), out.kind = kind → out.pendingOut = [] →
    Supply side out.upstreamDone [] →
    ∃ side', refill ⟨side, out⟩ = some (.ok (), ⟨side', { out with upstreamDone := true }⟩)
  group : ∀ (side : Side) (out : JoinOutput L R) (rows : List (Record L))
    (groups : List (List (Record L))), out.kind = kind → out.pendingOut = [] →
    Supply side out.upstreamDone (rows :: groups) →
    ∃ side' done, refill ⟨side, out⟩ = some (.ok (),
        ⟨side', JoinOutput.filled { out with upstreamDone := done }
          (rows.filterMap (joinRow kind find key))⟩) ∧
      Supply side' done groups ∧ (∃ rest, Supply side' true rest) ∧
      (out.upstreamDone = true → done = true) ∧
      (done = true → out.upstreamDone = true ∨ groups = [])

namespace JoinImpl
variable {Side : Type} {kind : JoinKind} {find : Bytes → Option R} {key : Record L → Bytes}
  {refill : JoinImpl Side L R → Option (VoidResult × JoinImpl Side L R)}
  {Supply : Side → Bool → List (List (Record L)) → Prop}

/-- The queue that a refill finds: emptied, everything else as it was. -/
def cleared (out : JoinOutput L R) (done : Bool) : JoinOutput L R :=
  { out with pendingOut := [], outCursor := 0, upstreamDone := done }

/-- The queue after its rows have been handed out. -/
def handedOut (out : JoinOutput L R) : JoinOutput L R :=
  let passed := JoinOutput.allowed out.hasLimit out.limitRemaining out.pendingOut
  if out.hasLimit then
    { out with
      outCursor := out.pendingOut.length
      limitRemaining := out.limitRemaining - passed.length
      upstreamDone := out.upstreamDone || out.limitRemaining - passed.length == 0 }
  else { out with outCursor := out.pendingOut.length }

@[simp] theorem handedOut_kind (out : JoinOutput L R) : (handedOut out).kind = out.kind := by
  unfold handedOut
  split <;> rfl

@[simp] theorem handedOut_hasLimit (out : JoinOutput L R) :
    (handedOut out).hasLimit = out.hasLimit := by
  unfold handedOut
  split <;> simp_all

theorem handedOut_drained (out : JoinOutput L R) :
    (handedOut out).pendingOut.length ≤ (handedOut out).outCursor := by
  unfold handedOut
  split <;> exact Nat.le_refl _

theorem handedOut_upstreamDone {out : JoinOutput L R} (h : out.upstreamDone = true) :
    (handedOut out).upstreamDone = true := by
  unfold handedOut
  split <;> simp [h]

/-- One refill and one drain of an open queue hand out the rows up to the limit. -/
theorem handedOut_filled {out : JoinOutput L R} (done : Bool) (rows : List (Joined L R))
    (hLimit : out.hasLimit = true → 0 < out.limitRemaining) :
    ((cleared out done).filled rows).pendingOut =
        JoinOutput.allowed out.hasLimit out.limitRemaining rows ∧
      handedOut ((cleared out done).filled rows) =
        { out with
          pendingOut := JoinOutput.allowed out.hasLimit out.limitRemaining rows
          outCursor := (JoinOutput.allowed out.hasLimit out.limitRemaining rows).length
          limitRemaining := if out.hasLimit then
            out.limitRemaining - (JoinOutput.allowed out.hasLimit out.limitRemaining rows).length
            else out.limitRemaining
          upstreamDone := done || (out.hasLimit && out.limitRemaining ≤ rows.length) } := by
  obtain ⟨kind, limitRemaining, hasLimit, pendingOut, outCursor, upstreamDone⟩ := out
  cases hasLimit with
  | false => simp [handedOut, cleared, JoinOutput.filled, JoinOutput.allowed]
  | true =>
      have hPos : 0 < limitRemaining := hLimit rfl
      have hMax : max limitRemaining 1 = limitRemaining := by omega
      have hReached : (limitRemaining - min limitRemaining rows.length == 0) =
          decide (limitRemaining ≤ rows.length) := by
        rw [Bool.eq_iff_iff, beq_iff_eq, decide_eq_true_eq]
        omega
      simp [handedOut, cleared, JoinOutput.filled, JoinOutput.allowed, hMax, List.take_take,
        hReached]

theorem drain_eq {side : Side} {out : JoinOutput L R} (hCursor : out.outCursor = 0) :
    drain ⟨side, out⟩ =
      (.ok (some (Chunk.from (JoinOutput.allowed out.hasLimit out.limitRemaining out.pendingOut))),
        ⟨side, handedOut out⟩) := by
  cases hLimit : out.hasLimit with
  | false => simp [drain, handedOut, JoinOutput.allowed, hLimit, hCursor]
  | true =>
      by_cases hOver : out.limitRemaining < out.pendingOut.length
      · simp [drain, handedOut, JoinOutput.allowed, hLimit, hCursor, hOver]
      · have hTake : out.pendingOut.take out.limitRemaining = out.pendingOut :=
          List.take_of_length_le (by omega)
        simp [drain, handedOut, JoinOutput.allowed, hLimit, hCursor, hOver, hTake]

section Pull
variable {side side' : Side} {out out' : JoinOutput L R}
  (hDrained : out.pendingOut.length ≤ out.outCursor)
  (hMore : out.upstreamDone = false ∨ out.pendingOut ≠ [])
  (hRefill : refill ⟨side, cleared out out.upstreamDone⟩ = some (.ok (), ⟨side', out'⟩))

include hDrained hMore hRefill

theorem turn_refill : turn refill ⟨side, out⟩ =
    some (if out'.pendingOut.isEmpty && out'.upstreamDone then .leave (.ok none, ⟨side', out'⟩)
      else .again ⟨side', out'⟩) := by
  have hGuard : (out.upstreamDone && out.pendingOut.isEmpty) = false := by
    rcases hMore with h | h
    · simp [h]
    · simp [h]
  simp only [cleared] at hRefill
  simp only [turn, hDrained, if_true, hGuard, Bool.false_eq_true, if_false, hRefill,
    Option.bind_eq_bind, Option.bind_some]
  split <;> rfl

/-- The refill brought rows: they are handed out as one chunk. -/
theorem pullWith_rows (hCursor : out'.outCursor = 0) (hRows : out'.pendingOut ≠ []) :
    pullWith refill ⟨side, out⟩ =
      some (.ok (some (Chunk.from
        (JoinOutput.allowed out'.hasLimit out'.limitRemaining out'.pendingOut))),
        ⟨side', handedOut out'⟩) := by
  have hTurn := turn_refill hDrained hMore hRefill
  have hFull : ¬ out'.pendingOut.length ≤ out'.outCursor := by
    have hPos := List.length_pos_iff.mpr hRows
    omega
  have hDrain : turn refill ⟨side', out'⟩ = some (.leave (drain ⟨side', out'⟩)) := by
    simp [turn, hFull]
  rw [pullWith, Loop.run_again (by simpa [hRows] using hTurn), Loop.run_leave hDrain,
    drain_eq hCursor]

/-- The refill brought nothing, and there is more to come. -/
theorem pullWith_skip (hRows : out'.pendingOut = []) (hDone : out'.upstreamDone = false) :
    pullWith refill ⟨side, out⟩ = pullWith refill ⟨side', out'⟩ := by
  have hTurn := turn_refill hDrained hMore hRefill
  exact Loop.run_again (by simpa [hRows, hDone] using hTurn)

theorem pullWith_end (hRows : out'.pendingOut = []) (hDone : out'.upstreamDone = true) :
    pullWith refill ⟨side, out⟩ = some (.ok none, ⟨side', out'⟩) := by
  have hTurn := turn_refill hDrained hMore hRefill
  exact Loop.run_leave (by simpa [hRows, hDone] using hTurn)

end Pull

theorem pullWith_over {side : Side} {out : JoinOutput L R} (hRows : out.pendingOut = [])
    (hDone : out.upstreamDone = true) :
    pullWith refill ⟨side, out⟩ = some (.ok none, ⟨side, out⟩) := by
  have hTurn : turn refill ⟨side, out⟩ = some (.leave (.ok none, ⟨side, out⟩)) := by
    simp [turn, hRows, hDone]
  exact Loop.run_leave hTurn

variable [StreamImpl (JoinImpl Side L R) (Joined L R)]
  (hPull : ∀ s : JoinImpl Side L R, StreamImpl.pull s = pullWith refill s)
  (hFeeds : Feeds kind find key refill Supply)

include hPull hFeeds

/-- Once the left source is exhausted, or the limit used up, no further row comes
out. With a used-up limit the pulls first work off, in empty chunks, whatever
the side still holds. -/
theorem stopped_denotes (groups : List (List (Record L))) (side : Side) (out : JoinOutput L R)
    (hKind : out.kind = kind) (hDone : out.upstreamDone = true)
    (hDrained : out.pendingOut.length ≤ out.outCursor) (hSupply : Supply side true groups)
    (hStop : groups = [] ∨ (out.hasLimit = true ∧ out.limitRemaining = 0)) :
    Denotes (makeStreamHandle (⟨side, out⟩ : JoinImpl Side L R)) [] .done := by
  induction groups generalizing side out with
  | nil =>
      by_cases hEmpty : out.pendingOut = []
      · exact Denotes.make_done ((hPull _).trans (pullWith_over hEmpty hDone))
      · obtain ⟨side', hRefill⟩ := hFeeds.exhausted side (cleared out out.upstreamDone) hKind rfl
          (by rw [hDone]; exact hSupply)
        exact Denotes.make_done ((hPull _).trans
          (pullWith_end hDrained (Or.inr hEmpty) hRefill rfl rfl))
  | cons rows groups ih =>
      obtain ⟨hLimit, hZero⟩ := hStop.resolve_left (by simp)
      by_cases hEmpty : out.pendingOut = []
      · exact Denotes.make_done ((hPull _).trans (pullWith_over hEmpty hDone))
      · obtain ⟨side', done, hRefill, hNext, -, hStays, -⟩ := hFeeds.group side
          (cleared out out.upstreamDone) rows groups hKind rfl (by rw [hDone]; exact hSupply)
        obtain rfl : done = true := hStays hDone
        change refill _ = some (.ok (), ⟨side', (cleared out true).filled _⟩) at hRefill
        have hDone' : ((cleared out true).filled
            (rows.filterMap (joinRow kind find key))).upstreamDone = true := by
          simp [JoinOutput.filled, cleared]
        cases hRows : rows.filterMap (joinRow kind find key) with
        | nil =>
            rw [hRows] at hRefill hDone'
            refine Denotes.make_done ((hPull _).trans
              (pullWith_end hDrained (Or.inr hEmpty) hRefill ?_ hDone'))
            simp [JoinOutput.filled, JoinOutput.allowed, cleared]
        | cons row others =>
            -- The limit is checked after the push, so one row gets in and is cut off again.
            rw [hRows] at hRefill hDone'
            have hSome : ((cleared out true).filled (row :: others)).pendingOut ≠ [] := by
              simp [JoinOutput.filled, JoinOutput.allowed, cleared, hLimit, hZero]
            have hRest := ih side' (handedOut ((cleared out true).filled (row :: others)))
              (by simpa [cleared] using hKind) (handedOut_upstreamDone hDone')
              (handedOut_drained _) hNext
              (Or.inr ⟨by simpa [cleared] using hLimit, by
                simp [handedOut, JoinOutput.filled, cleared, hLimit, hZero]⟩)
            have hChunk := Denotes.make_chunk ((hPull _).trans
              (pullWith_rows hDrained (Or.inr hEmpty) hRefill rfl hSome)) hRest
            simpa [Chunk.toList_from, JoinOutput.allowed, cleared, hLimit, hZero] using hChunk

/-- The state after a group has been handed out: over when the limit is used up
or the source exhausted, open otherwise. `hOpen` is what an open state denotes. -/
theorem handedOut_denotes {groups rest : List (List (Record L))} {side : Side}
    {out : JoinOutput L R} {done : Bool} (rows : List (Joined L R)) (hKind : out.kind = kind)
    (hLimit : out.hasLimit = true → 0 < out.limitRemaining) (hNext : Supply side done groups)
    (hRest : Supply side true rest) (hLast : done = true → groups = [])
    (hOpen : ∀ next : JoinOutput L R, next.kind = kind → next.upstreamDone = false →
      (next.hasLimit = true → 0 < next.limitRemaining) →
      next.pendingOut.length ≤ next.outCursor → Supply side false groups →
      Denotes (makeStreamHandle (⟨side, next⟩ : JoinImpl Side L R))
        ((groupOutputs next.hasLimit next.limitRemaining
          (groups.map (List.filterMap (joinRow kind find key)))).map throughChunk).flatten .done) :
    Denotes (makeStreamHandle (⟨side, handedOut ((cleared out done).filled rows)⟩ :
        JoinImpl Side L R))
      ((groupOutputs out.hasLimit (out.limitRemaining -
        (JoinOutput.allowed out.hasLimit out.limitRemaining rows).length)
        (groups.map (List.filterMap (joinRow kind find key)))).map throughChunk).flatten .done := by
  obtain ⟨-, hOut⟩ := handedOut_filled done rows hLimit
  have hDrained := handedOut_drained ((cleared out done).filled rows)
  have hFlag : (handedOut ((cleared out done).filled rows)).upstreamDone =
      (done || (out.hasLimit && decide (out.limitRemaining ≤ rows.length))) := by rw [hOut]
  have hLeft : (handedOut ((cleared out done).filled rows)).limitRemaining =
      if out.hasLimit then out.limitRemaining -
        (JoinOutput.allowed out.hasLimit out.limitRemaining rows).length
      else out.limitRemaining := by rw [hOut]
  have hSame : (handedOut ((cleared out done).filled rows)).kind = kind := by rw [hOut]; exact hKind
  have hHas : (handedOut ((cleared out done).filled rows)).hasLimit = out.hasLimit := by rw [hOut]
  cases hReached : (out.hasLimit && decide (out.limitRemaining ≤ rows.length)) with
  | true =>
      rw [hReached, Bool.or_true] at hFlag
      rw [Bool.and_eq_true, decide_eq_true_eq] at hReached
      have hZero : out.limitRemaining -
          (JoinOutput.allowed out.hasLimit out.limitRemaining rows).length = 0 := by
        rw [hReached.1, allowed_true, List.length_take]
        omega
      rw [hZero, hReached.1, groupOutputs_zero]
      rw [hReached.1, if_pos rfl] at hLeft
      rw [hReached.1] at hZero hHas
      exact stopped_denotes hPull hFeeds rest side _ hSame hFlag hDrained hRest
        (Or.inr ⟨hHas, hLeft.trans hZero⟩)
  | false =>
      cases done with
      | true =>
          rw [hLast rfl] at hNext ⊢
          exact stopped_denotes hPull hFeeds [] side _ hSame (by rw [hFlag]; rfl) hDrained hNext
            (Or.inl rfl)
      | false =>
          have hPos : (handedOut ((cleared out false).filled rows)).hasLimit = true →
              0 < (handedOut ((cleared out false).filled rows)).limitRemaining := by
            intro h
            rw [hHas] at h
            rw [h, Bool.true_and, decide_eq_false_iff_not] at hReached
            rw [hLeft, h, if_pos rfl, allowed_true, List.length_take]
            omega
          have hDenotes := hOpen _ hSame (by rw [hFlag, hReached]; rfl) hPos hDrained hNext
          rw [hHas, hLeft] at hDenotes
          cases hCase : out.hasLimit with
          | false => simpa [hCase] using hDenotes
          | true => simpa [hCase] using hDenotes

/-- While the limit is not used up and the left source not exhausted, the groups
still held come out, each as the chunk that its rows make. -/
theorem open_denotes (groups : List (List (Record L))) (side : Side) (out : JoinOutput L R)
    (hKind : out.kind = kind) (hDone : out.upstreamDone = false)
    (hLimit : out.hasLimit = true → 0 < out.limitRemaining)
    (hDrained : out.pendingOut.length ≤ out.outCursor) (hSupply : Supply side false groups) :
    Denotes (makeStreamHandle (⟨side, out⟩ : JoinImpl Side L R))
      ((groupOutputs out.hasLimit out.limitRemaining
        (groups.map (List.filterMap (joinRow kind find key)))).map throughChunk).flatten .done := by
  induction groups generalizing side out with
  | nil =>
      obtain ⟨side', hRefill⟩ := hFeeds.exhausted side (cleared out out.upstreamDone) hKind rfl
        (by rw [hDone]; exact hSupply)
      exact Denotes.make_done ((hPull _).trans
        (pullWith_end hDrained (Or.inl hDone) hRefill rfl rfl))
  | cons rows groups ih =>
      obtain ⟨side', done, hRefill, hNext, ⟨rest, hRest⟩, -, hLast⟩ := hFeeds.group side
        (cleared out out.upstreamDone) rows groups hKind rfl (by rw [hDone]; exact hSupply)
      have hGroups : done = true → groups = [] := by
        intro h
        exact (hLast h).resolve_left (by simp [cleared, hDone])
      change refill _ = some (.ok (), ⟨side', (cleared out done).filled _⟩) at hRefill
      rw [List.map_cons, groupOutputs, List.map_cons, List.flatten_cons]
      cases hRows : rows.filterMap (joinRow kind find key) with
      | nil =>
          have hOpen : (cleared out done : JoinOutput L R).Open := by
            intro h
            simp [cleared]
          have hNone : JoinOutput.allowed out.hasLimit out.limitRemaining ([] : List (Joined L R)) = [] := by
            cases out.hasLimit <;> simp
          rw [hRows, JoinOutput.filled_nil hOpen] at hRefill
          rw [hNone]
          cases done with
          | true =>
              rw [hGroups rfl]
              exact Denotes.make_done ((hPull _).trans
                (pullWith_end hDrained (Or.inl hDone) hRefill rfl rfl))
          | false =>
              have hSkip := pullWith_skip hDrained (Or.inl hDone) hRefill rfl rfl
              have hSame : StreamImpl.pull (⟨side, out⟩ : JoinImpl Side L R) =
                  StreamImpl.pull (⟨side', cleared out false⟩ : JoinImpl Side L R) := by
                rw [hPull, hPull, hSkip]
              exact Denotes.make_congr hSame
                (ih side' (cleared out false) hKind rfl hLimit (Nat.le_refl _) hNext)
      | cons row others =>
          rw [hRows] at hRefill
          obtain ⟨hPending, -⟩ := handedOut_filled done (row :: others) hLimit
          have hSome : ((cleared out done).filled (row :: others)).pendingOut ≠ [] := by
            rw [hPending]
            cases hHas : out.hasLimit with
            | false => simp
            | true =>
                have hPos := hLimit hHas
                simp
                omega
          have hHanded := pullWith_rows hDrained (Or.inl hDone) hRefill rfl hSome
          have hTwice : JoinOutput.allowed out.hasLimit out.limitRemaining
              (JoinOutput.allowed out.hasLimit out.limitRemaining (row :: others)) =
              JoinOutput.allowed out.hasLimit out.limitRemaining (row :: others) := by
            cases out.hasLimit <;> simp [List.take_take]
          rw [hPending] at hHanded
          change pullWith refill _ = some (.ok (some (Chunk.from (JoinOutput.allowed out.hasLimit
            out.limitRemaining (JoinOutput.allowed out.hasLimit out.limitRemaining _)))), _) at hHanded
          rw [hTwice] at hHanded
          have hAfter := handedOut_denotes hPull hFeeds (row :: others) hKind hLimit hNext hRest
            hGroups (ih side')
          have hChunk := Denotes.make_chunk ((hPull _).trans hHanded) hAfter
          rw [Chunk.toList_from] at hChunk
          exact hChunk

end JoinImpl
end CelerMem.Materialization
