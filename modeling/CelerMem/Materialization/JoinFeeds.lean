import CelerMem.Materialization.JoinQueue
import CelerMem.Materialization.JoinSteps
import Mathlib

/-! How each executor's refill feeds the output queue: HashJoin and NestedLoop by
chunks of the left source, BatchIndexNestedLoop by batches of its rows. -/
namespace CelerMem.Materialization

open Batches

variable {L R : Type} {find : Bytes → Option R} {key : Record L → Bytes} {kind : JoinKind}

/-! ## One chunk at a time -/

section Chunks
variable {Side : Type} {leftSrc : Side → StreamHandle (Record L)}
  {withSrc : Side → StreamHandle (Record L) → Side} {extract : Side → Record L → Result Bytes}
  {findIn : Side → Bytes → Option R}

/-- The side still holds the chunks that its left source has yet to emit. -/
def ChunkSupply (find : Bytes → Option R) (key : Record L → Bytes)
    (leftSrc : Side → StreamHandle (Record L)) (extract : Side → Record L → Result Bytes)
    (findIn : Side → Bytes → Option R) (side : Side) (_done : Bool)
    (groups : List (List (Record L))) : Prop :=
  extract side = (fun rec => .ok (key rec)) ∧ findIn side = find ∧
    ∃ cs, Emits (leftSrc side) cs .done ∧ groups = cs.map Chunk.toList

theorem refillFromChunk_feeds
    (hSrc : ∀ side src, leftSrc (withSrc side src) = src)
    (hExtract : ∀ side src, extract (withSrc side src) = extract side)
    (hFind : ∀ side src, findIn (withSrc side src) = findIn side) :
    Feeds kind find key (refillFromChunk leftSrc withSrc extract findIn)
      (ChunkSupply find key leftSrc extract findIn) where
  exhausted := by
    rintro side out hKind hPending ⟨-, -, cs, hEmits, hGroups⟩
    obtain rfl : cs = [] := by simpa using hGroups.symm
    cases hEmits with
    | @done _ next hPull => exact ⟨withSrc side next, by simp [refillFromChunk, hPull]⟩
  group := by
    rintro side out rows groups hKind hPending ⟨hTotal, hFound, cs, hEmits, hGroups⟩
    cases hEmits with
    | done hPull => simp at hGroups
    | @chunk _ next c cs _ hPull hRest =>
        rw [List.map_cons, List.cons.injEq] at hGroups
        obtain ⟨rfl, rfl⟩ := hGroups
        have hOpen : out.Open := by
          intro _
          simp [hPending]
        have hEmit := emitRows_total find key c.toList hOpen
        have hNext : ∀ done, ChunkSupply find key leftSrc extract findIn (withSrc side next) done
            (cs.map Chunk.toList) := by
          intro done
          exact ⟨(hExtract side next).trans hTotal, (hFind side next).trans hFound, cs,
            by rw [hSrc]; exact hRest, rfl⟩
        refine ⟨withSrc side next, out.upstreamDone, ?_, hNext _, ⟨_, hNext true⟩, id, Or.inl⟩
        subst hKind
        simp [refillFromChunk, hPull, hExtract, hFind, hTotal, hFound, hEmit]

end Chunks

/-! ## One batch at a time -/

namespace BatchIndexNLImpl

/-- The rows of the last chunk that no batch has taken yet. -/
def held (side : BatchIndexNLSide L R) : List (Record L) :=
  side.leftover.toList.drop side.leftoverIdx

/-- The cursor moved on in the leftover chunk. -/
def advance (s : BatchIndexNLImpl L R) (idx : Nat) : BatchIndexNLImpl L R :=
  { s with side := { s.side with leftoverIdx := idx } }

theorem held_cons {side : BatchIndexNLSide L R} {rec : Record L} {recs : List (Record L)}
    (h : held side = rec :: recs) :
    side.leftover.toList[side.leftoverIdx]? = some rec ∧
      side.leftover.toList.drop (side.leftoverIdx + 1) = recs := by
  unfold held at h
  constructor
  · rw [← List.head?_drop, h, List.head?_cons]
  · rw [← List.drop_drop, h, List.drop_one, List.tail_cons]

theorem held_nil {side : BatchIndexNLSide L R} (h : held side = []) :
    side.leftover.toList[side.leftoverIdx]? = none := by
  unfold held at h
  rw [← List.head?_drop, h, List.head?_nil]

/-- The loop first takes what is left over, as far as the batch has room. -/
theorem batchTurn_held (recs : List (Record L)) (s : BatchIndexNLImpl L R)
    (leftBatch : List (Record L)) (hHeld : held s.side = recs) :
    ∃ idx, Loop.run batchTurn (s, leftBatch) = Loop.run batchTurn (s.advance idx,
        leftBatch ++ recs.take (s.side.batchSize - leftBatch.length)) ∧
      held (s.advance idx).side = recs.drop (s.side.batchSize - leftBatch.length) := by
  induction recs generalizing s leftBatch with
  | nil => exact ⟨s.side.leftoverIdx, by simp [advance], by simpa [advance] using hHeld⟩
  | cons rec recs ih =>
      by_cases hRoom : leftBatch.length < s.side.batchSize
      · obtain ⟨hGet, hDrop⟩ := held_cons hHeld
        have hTurn : batchTurn (s, leftBatch) =
            some (.again (s.advance (s.side.leftoverIdx + 1), leftBatch ++ [rec])) := by
          simp [batchTurn, hRoom, hGet, advance]
        obtain ⟨idx, hRun, hRest⟩ := ih (s.advance (s.side.leftoverIdx + 1)) (leftBatch ++ [rec]) hDrop
        have hSize : s.side.batchSize - leftBatch.length =
            (s.side.batchSize - (leftBatch ++ [rec]).length) + 1 := by
          rw [List.length_append, List.length_singleton]
          omega
        refine ⟨idx, ?_, ?_⟩
        · rw [Loop.run_again hTurn, hRun, hSize, List.take_succ_cons, List.append_assoc]
          rfl
        · rw [hSize, List.drop_succ_cons]
          exact hRest
      · have hFull : s.side.batchSize - leftBatch.length = 0 := by omega
        exact ⟨s.side.leftoverIdx, by simp [hFull, advance], by simpa [hFull, advance] using hHeld⟩

/-- The side still holds `rows`, in the leftover chunk and, unless `upstream_done`
is set, in the left source. -/
def Holds (side : BatchIndexNLSide L R) (done : Bool) (rows : List (Record L)) : Prop :=
  ∃ rest, rows = held side ++ rest ∧ if done then rest = [] else Denotes side.leftSrc rest .done

/-- The parts of a side that no refill changes. -/
def SameSetup (side side' : BatchIndexNLSide L R) : Prop :=
  side'.right = side.right ∧ side'.extract = side.extract ∧ side'.batchSize = side.batchSize

theorem Holds.held_only (side : BatchIndexNLSide L R) : Holds side true (held side) :=
  ⟨[], by simp, rfl⟩

/-- The loop leaves as soon as the batch is full. -/
theorem batchTurn_full {s : BatchIndexNLImpl L R} {leftBatch : List (Record L)}
    (h : s.side.batchSize ≤ leftBatch.length) :
    Loop.run batchTurn (s, leftBatch) = some (.ok leftBatch, s) :=
  Loop.run_leave (by simp [batchTurn, Nat.not_lt.mpr h])

/-- What the loop brings together and what it leaves behind. -/
def Gathers (s : BatchIndexNLImpl L R) (leftBatch rows : List (Record L)) : Prop :=
  ∃ side' done, Loop.run batchTurn (s, leftBatch) =
      some (.ok (leftBatch ++ rows.take (s.side.batchSize - leftBatch.length)),
        ⟨side', { s.out with upstreamDone := done }⟩) ∧
    SameSetup s.side side' ∧
    Holds side' done (rows.drop (s.side.batchSize - leftBatch.length)) ∧
    (s.out.upstreamDone = true → done = true) ∧
    (done = true → s.out.upstreamDone = true ∨
      rows.drop (s.side.batchSize - leftBatch.length) = []) ∧
    (rows.length < s.side.batchSize - leftBatch.length → done = true)

/-- A batch that the leftover chunk fills needs nothing from the source. -/
theorem gathers_of_room {s : BatchIndexNLImpl L R} {leftBatch rest : List (Record L)}
    (hRest : if s.out.upstreamDone then rest = [] else Denotes s.side.leftSrc rest .done)
    (hFits : s.side.batchSize ≤ leftBatch.length + (held s.side).length) :
    Gathers s leftBatch (held s.side ++ rest) := by
  obtain ⟨idx, hRun, hHeld⟩ := batchTurn_held (held s.side) s leftBatch rfl
  have hFull : (s.advance idx).side.batchSize ≤
      (leftBatch ++ (held s.side).take (s.side.batchSize - leftBatch.length)).length := by
    rw [List.length_append, List.length_take]
    simp only [advance]
    omega
  have hEnough : s.side.batchSize - leftBatch.length ≤ (held s.side).length := by omega
  refine ⟨(s.advance idx).side, s.out.upstreamDone, ?_, ⟨rfl, rfl, rfl⟩, ?_, id, Or.inl, ?_⟩
  · rw [hRun, batchTurn_full hFull, List.take_append_of_le_length hEnough]
    rfl
  · exact ⟨rest, by rw [hHeld, List.drop_append_of_le_length hEnough], hRest⟩
  · intro hLess
    rw [List.length_append] at hLess
    omega

section Short
variable {s : BatchIndexNLImpl L R} {leftBatch : List (Record L)}
  (hShort : leftBatch.length + (held s.side).length < s.side.batchSize)

include hShort

/-- A leftover chunk that does not fill the batch is taken whole. -/
theorem batchTurn_short : ∃ idx, held (s.advance idx).side = [] ∧
    Loop.run batchTurn (s, leftBatch) =
      Loop.run batchTurn (s.advance idx, leftBatch ++ held s.side) := by
  obtain ⟨idx, hRun, hHeld⟩ := batchTurn_held (held s.side) s leftBatch rfl
  have hAll : (held s.side).length ≤ s.side.batchSize - leftBatch.length := by omega
  refine ⟨idx, ?_, ?_⟩
  · rw [hHeld, List.drop_eq_nil_of_le hAll]
  · rw [hRun, List.take_of_length_le hAll]

theorem gathers_done (hDone : s.out.upstreamDone = true) : Gathers s leftBatch (held s.side) := by
  obtain ⟨idx, hNone, hRun⟩ := batchTurn_short hShort
  have hAll : (held s.side).length ≤ s.side.batchSize - leftBatch.length := by omega
  have hRoom : (leftBatch ++ held s.side).length < (s.advance idx).side.batchSize := by
    rw [List.length_append]
    exact hShort
  have hTurn : batchTurn (s.advance idx, leftBatch ++ held s.side) =
      some (.leave (.ok (leftBatch ++ held s.side), s.advance idx)) := by
    simp only [batchTurn, hRoom, if_true, held_nil hNone]
    simp [advance, hDone]
  refine ⟨(s.advance idx).side, true, ?_, ⟨rfl, rfl, rfl⟩, ?_, fun _ => rfl,
    fun _ => Or.inl hDone, fun _ => rfl⟩
  · rw [hRun, Loop.run_leave hTurn, List.take_of_length_le hAll, ← hDone]
    rfl
  · rw [List.drop_eq_nil_of_le hAll]
    exact ⟨[], by simp [hNone], rfl⟩

/-- The source answers the pull that a short batch makes. -/
theorem gathers_end {src : StreamHandle (Record L)} (hDone : s.out.upstreamDone = false)
    (hPull : s.side.leftSrc.pull = some (.ok none, src)) : Gathers s leftBatch (held s.side) := by
  obtain ⟨idx, hNone, hRun⟩ := batchTurn_short hShort
  have hAll : (held s.side).length ≤ s.side.batchSize - leftBatch.length := by omega
  have hRoom : (leftBatch ++ held s.side).length < (s.advance idx).side.batchSize := by
    rw [List.length_append]
    exact hShort
  have hSrc : (s.advance idx).side.leftSrc.pull = some (.ok none, src) := hPull
  have hOpen : (s.advance idx).out.upstreamDone = false := hDone
  have hTurn : batchTurn (s.advance idx, leftBatch ++ held s.side) =
      some (.leave (.ok (leftBatch ++ held s.side),
        ⟨{ (s.advance idx).side with leftSrc := src }, { s.out with upstreamDone := true }⟩)) := by
    simp only [batchTurn, hRoom, if_true, held_nil hNone, hOpen, Bool.false_eq_true, if_false, hSrc,
      Option.bind_eq_bind, Option.bind_some]
    rfl
  refine ⟨{ (s.advance idx).side with leftSrc := src }, true, ?_, ⟨rfl, rfl, rfl⟩, ?_,
    fun _ => rfl, fun _ => Or.inr ?_, fun _ => rfl⟩
  · rw [hRun, Loop.run_leave hTurn, List.take_of_length_le hAll]
  · rw [List.drop_eq_nil_of_le hAll]
    exact ⟨[], by rw [List.append_nil]; exact hNone.symm, rfl⟩
  · exact List.drop_eq_nil_of_le hAll

theorem gathers_chunk {src : StreamHandle (Record L)} {c : Chunk (Record L)}
    {rows : List (Record L)} (hDone : s.out.upstreamDone = false)
    (hPull : s.side.leftSrc.pull = some (.ok (some c), src))
    (hNext : ∀ side' : BatchIndexNLSide L R, SameSetup s.side side' → side'.leftSrc = src →
      held side' = c.toList → Gathers ⟨side', s.out⟩ (leftBatch ++ held s.side) rows) :
    Gathers s leftBatch (held s.side ++ rows) := by
  obtain ⟨idx, hNone, hRun⟩ := batchTurn_short hShort
  have hRoom : (leftBatch ++ held s.side).length < (s.advance idx).side.batchSize := by
    rw [List.length_append]
    exact hShort
  have hSrc : (s.advance idx).side.leftSrc.pull = some (.ok (some c), src) := hPull
  have hOpen : (s.advance idx).out.upstreamDone = false := hDone
  obtain ⟨side, hSide⟩ : ∃ side : BatchIndexNLSide L R, side =
      { s.side with leftSrc := src, leftover := c, leftoverIdx := 0 } := ⟨_, rfl⟩
  have hTurn : batchTurn (s.advance idx, leftBatch ++ held s.side) =
      some (.again (⟨side, s.out⟩, leftBatch ++ held s.side)) := by
    simp only [batchTurn, hRoom, if_true, held_nil hNone, hOpen, Bool.false_eq_true, if_false, hSrc,
      Option.bind_eq_bind, Option.bind_some, hSide]
    rfl
  have hSetup : SameSetup s.side side := by
    rw [hSide]
    exact ⟨rfl, rfl, rfl⟩
  obtain ⟨side', done, hRest, hSame, hHolds, hStays, hLast, hFew⟩ := hNext side hSetup (by rw [hSide])
    (by rw [hSide]; rfl)
  have hSize : side.batchSize - (leftBatch ++ held s.side).length =
      s.side.batchSize - leftBatch.length - (held s.side).length := by
    rw [hSetup.2.2, List.length_append]
    omega
  have hLess : (held s.side).length ≤ s.side.batchSize - leftBatch.length := by omega
  have hTake : (held s.side ++ rows).take (s.side.batchSize - leftBatch.length) = held s.side ++
      rows.take (s.side.batchSize - leftBatch.length - (held s.side).length) := by
    rw [List.take_append, List.take_of_length_le hLess]
  have hDrop : (held s.side ++ rows).drop (s.side.batchSize - leftBatch.length) =
      rows.drop (s.side.batchSize - leftBatch.length - (held s.side).length) := by
    rw [List.drop_append, List.drop_eq_nil_of_le hLess, List.nil_append]
  simp only [hSize] at hRest hHolds hLast hFew
  refine ⟨side', done, ?_, ?_, ?_, hStays, ?_, ?_⟩
  · rw [hRun, Loop.run_again hTurn, hRest, hTake, List.append_assoc]
  · exact ⟨hSame.1.trans hSetup.1, hSame.2.1.trans hSetup.2.1, hSame.2.2.trans hSetup.2.2⟩
  · rw [hDrop]
    exact hHolds
  · rw [hDrop]
    exact hLast
  · intro hLess
    refine hFew ?_
    rw [List.length_append] at hLess
    omega

end Short

theorem gathers_denotes {src : StreamHandle (Record L)} {rest : List (Record L)} {e : Ending}
    (hDenotes : Denotes src rest e) (hEnd : e = .done) (s : BatchIndexNLImpl L R)
    (leftBatch : List (Record L)) (hSrc : s.side.leftSrc = src)
    (hDone : s.out.upstreamDone = false) : Gathers s leftBatch (held s.side ++ rest) := by
  induction hDenotes generalizing s leftBatch with
  | @done h h' hPull =>
      by_cases hFits : s.side.batchSize ≤ leftBatch.length + (held s.side).length
      · refine gathers_of_room ?_ hFits
        simpa [hDone, hSrc] using Denotes.done hPull
      · rw [List.append_nil]
        exact gathers_end (Nat.lt_of_not_le hFits) hDone (hSrc ▸ hPull)
  | error hPull => cases hEnd
  | chunk hPull hRest ih =>
      by_cases hFits : s.side.batchSize ≤ leftBatch.length + (held s.side).length
      · refine gathers_of_room ?_ hFits
        rw [hDone, hSrc, ← hEnd]
        exact Denotes.chunk hPull hRest
      · refine gathers_chunk (Nat.lt_of_not_le hFits) hDone (hSrc ▸ hPull) ?_
        intro side' _ hNext hHeld
        rw [← hHeld]
        exact ih hEnd ⟨side', s.out⟩ _ hNext hDone

/-- The loop that fills `left_batch` takes as many rows as the batch has room for,
out of however many chunks they come. -/
theorem gathers {s : BatchIndexNLImpl L R} (leftBatch : List (Record L)) {rows : List (Record L)}
    (hHolds : Holds s.side s.out.upstreamDone rows) : Gathers s leftBatch rows := by
  obtain ⟨rest, rfl, hRest⟩ := hHolds
  cases hDone : s.out.upstreamDone with
  | true =>
      obtain rfl : rest = [] := by simpa [hDone] using hRest
      rw [List.append_nil]
      by_cases hFits : s.side.batchSize ≤ leftBatch.length + (held s.side).length
      · have hRoom := gathers_of_room hRest hFits
        rwa [List.append_nil] at hRoom
      · exact gathers_done (Nat.lt_of_not_le hFits) hDone
  | false =>
      have hDenotes : Denotes s.side.leftSrc rest .done := by simpa [hDone] using hRest
      exact gathers_denotes hDenotes rfl s leftBatch rfl hDone

/-- `dedupe` points into `unique_storage`, and every row's slot holds its key. -/
structure DerivedKeys.Sound (d : DerivedKeys) : Prop where
  dedupe : ∀ key slot, d.dedupe.lookup key = some slot → d.uniqueStorage[slot]? = some key
  slots : List.Forall₂ (fun key slot => d.uniqueStorage[slot]? = some key) d.rowKeys d.uniqueIdx

theorem DerivedKeys.sound_empty : DerivedKeys.Sound {} := ⟨by simp, .nil⟩

@[simp] theorem DerivedKeys.rowKeys_add (d : DerivedKeys) (key : Bytes) :
    (d.add key).rowKeys = d.rowKeys ++ [key] := by
  unfold DerivedKeys.add
  split <;> rfl

theorem DerivedKeys.Sound.add {d : DerivedKeys} (h : d.Sound) (key : Bytes) : (d.add key).Sound := by
  cases hFound : d.dedupe.lookup key with
  | some slot =>
      have hSlot : List.Forall₂ (fun key slot => d.uniqueStorage[slot]? = some key) [key] [slot] :=
        .cons (h.dedupe key slot hFound) .nil
      simp only [DerivedKeys.add, hFound]
      exact ⟨h.dedupe, List.rel_append h.slots hSlot⟩
  | none =>
      have hKept : ∀ {k : Bytes} {i : ℕ}, d.uniqueStorage[i]? = some k →
          (d.uniqueStorage ++ [key])[i]? = some k := by
        intro k i hi
        obtain ⟨hBound, -⟩ := List.getElem?_eq_some_iff.mp hi
        rw [List.getElem?_append_left hBound, hi]
      have hNew : (d.uniqueStorage ++ [key])[d.uniqueStorage.length]? = some key := by simp
      simp only [DerivedKeys.add, hFound]
      constructor
      · intro k slot hLookup
        rw [List.lookup_append] at hLookup
        cases hOld : d.dedupe.lookup k with
        | some old =>
            obtain rfl : old = slot := by simpa [hOld] using hLookup
            exact hKept (h.dedupe k old hOld)
        | none =>
            rw [hOld, Option.none_or, List.lookup_cons, List.lookup_nil] at hLookup
            split at hLookup
            · rename_i hKey
              obtain rfl : d.uniqueStorage.length = slot := by simpa using hLookup
              rw [beq_iff_eq.mp hKey]
              exact hNew
            · cases hLookup
      · exact List.rel_append (h.slots.imp fun k i hi => hKept hi) (.cons hNew .nil)

theorem deriveKeys_total (key : Record L → Bytes) (recs : List (Record L)) {d : DerivedKeys} (h : d.Sound) :
    ∃ d', deriveKeys (fun rec => .ok (key rec)) recs d = .ok d' ∧ d'.Sound ∧
      d'.rowKeys = d.rowKeys ++ recs.map key := by
  induction recs generalizing d with
  | nil => exact ⟨d, rfl, h, by simp⟩
  | cons rec recs ih =>
      obtain ⟨d', hDerive, hSound, hKeys⟩ := ih (h.add (key rec))
      exact ⟨d', hDerive, hSound, by rw [hKeys]; simp⟩

/-- Probing through the deduplicated fetch is looking every row's key up. -/
theorem probe_eq (find : Bytes → Option R) {storage : List Bytes} (recs : List (Record L))
    (slots : List ℕ)
    (hSlots : List.Forall₂ (fun k slot => storage[slot]? = some k) (recs.map key) slots)
    (out : JoinOutput L R) :
    probe (storage.map fun k => (k, find k)) recs (recs.map key) slots out =
      (emitRows (fun rec => .ok (key rec)) find recs out).2 := by
  induction recs generalizing slots out with
  | nil => rfl
  | cons rec recs ih =>
      cases hSlots with
      | @cons _ slot _ slots hSlot hRest =>
          have hFetched : ((storage.map fun k => (k, find k))[slot]?.bind Prod.snd) =
              find (key rec) := by simp [hSlot]
          rw [List.map_cons, probe, emitRows, hFetched]
          cases hRow : out.emitRow (key rec) rec.value (find (key rec)) with
          | mk out' stop =>
              cases stop with
              | true => simp [hRow]
              | false => simpa [hRow] using ih slots hRest out'

variable [Allocation] [Codec R]

/-- A refill with a full or a last batch emits the rows of that batch. -/
theorem refill_gathers {s : BatchIndexNLImpl L R} {rows : List (Record L)}
    (hRoom : s.side.batchSize ≤ Allocation.room (Record L))
    (hExtract : s.side.extract = fun rec => .ok (key rec))
    (hGetMany : ∀ keys, StoreRef.getMany (T := R) s.side.right keys =
      .ok (keys.map fun k => (k, find k)))
    (hPending : s.out.pendingOut = []) (hGathers : Gathers s [] rows) :
    ∃ side' done, refill s = some (.ok (), ⟨side', JoinOutput.filled
        { s.out with upstreamDone := done }
        ((rows.take s.side.batchSize).filterMap (joinRow s.out.kind find key))⟩) ∧
      SameSetup s.side side' ∧ Holds side' done (rows.drop s.side.batchSize) ∧
      (s.out.upstreamDone = true → done = true) ∧
      (done = true → s.out.upstreamDone = true ∨ rows.drop s.side.batchSize = []) ∧
      (rows.length < s.side.batchSize → done = true) := by
  obtain ⟨side', done, hRun, hSame, hRest⟩ := hGathers
  rw [List.nil_append, List.length_nil, Nat.sub_zero] at hRun
  rw [List.length_nil, Nat.sub_zero] at hRest
  rw [refill_eq hRoom]
  refine ⟨side', done, ?_, hSame, hRest⟩
  have hOpen : ({ s.out with upstreamDone := done } : JoinOutput L R).Open := by
    intro _
    simp [hPending]
  cases hBatch : rows.take s.side.batchSize with
  | nil =>
      rw [hBatch] at hRun
      rw [List.filterMap_nil, JoinOutput.filled_nil hOpen]
      simp [fillBatch, hRun]
  | cons rec recs =>
      rw [hBatch] at hRun
      obtain ⟨d, hDerive, hSound, hKeys⟩ :=
        deriveKeys_total key (rec :: recs) DerivedKeys.sound_empty
      have hFetch := hGetMany d.uniqueStorage
      rw [← hSame.1] at hFetch
      rw [← hSame.2.1] at hExtract
      have hRowKeys : d.rowKeys = (rec :: recs).map key := by simpa using hKeys
      have hProbe := probe_eq find (rec :: recs) d.uniqueIdx (hRowKeys ▸ hSound.slots)
        { s.out with upstreamDone := done }
      rw [emitRows_total find key (rec :: recs) hOpen] at hProbe
      simp only [fillBatch, hRun, Option.bind_eq_bind, Option.bind_some, List.isEmpty_cons,
        Bool.false_eq_true, if_false, hExtract, hDerive, hFetch, hRowKeys, hProbe]

/-- What a BatchIndexNL side holds, cut into the batches that it will make. -/
def BatchSupply (find : Bytes → Option R) (key : Record L → Bytes) (n : ℕ)
    (side : BatchIndexNLSide L R) (done : Bool) (groups : List (List (Record L))) : Prop :=
  side.extract = (fun rec => .ok (key rec)) ∧ side.batchSize = n ∧
    (∀ keys, StoreRef.getMany (T := R) side.right keys = .ok (keys.map fun k => (k, find k))) ∧
    ∃ rows, groups = batches n rows ∧ Holds side done rows

theorem refill_feeds {n : ℕ} (hn : 0 < n) (hRoom : n ≤ Allocation.room (Record L)) :
    Feeds kind find key (refill (L := L) (R := R)) (BatchSupply find key n) where
  exhausted := by
    rintro side out hKind hPending ⟨hExtract, rfl, hGetMany, rows, hGroups, hHolds⟩
    obtain rfl : rows = [] := by
      by_contra hRows
      rw [batches_of_ne_nil hn hRows] at hGroups
      cases hGroups
    obtain ⟨side', done, hRefill, -, -, -, -, hFew⟩ :=
      refill_gathers (s := ⟨side, out⟩) hRoom hExtract hGetMany hPending (gathers [] hHolds)
    obtain rfl : done = true := hFew hn
    have hOpen : ({ out with upstreamDone := true } : JoinOutput L R).Open := by
      intro _
      simp [hPending]
    rw [List.take_nil, List.filterMap_nil, JoinOutput.filled_nil hOpen] at hRefill
    exact ⟨side', hRefill⟩
  group := by
    rintro side out first groups rfl hPending ⟨hExtract, rfl, hGetMany, rows, hGroups, hHolds⟩
    have hRows : rows ≠ [] := by
      rintro rfl
      simp at hGroups
    rw [batches_of_ne_nil hn hRows, List.cons.injEq] at hGroups
    obtain ⟨rfl, rfl⟩ := hGroups
    obtain ⟨side', done, hRefill, ⟨hRight, hSame, hSize⟩, hRest, hStays, hLast, -⟩ :=
      refill_gathers (s := ⟨side, out⟩) hRoom hExtract hGetMany hPending (gathers [] hHolds)
    have hNext : ∀ {done' rest}, Holds side' done' rest →
        BatchSupply find key side.batchSize side' done' (batches side.batchSize rest) := by
      intro done' rest h
      exact ⟨hSame.trans hExtract, hSize, by rw [hRight]; exact hGetMany, rest, rfl, h⟩
    refine ⟨side', done, hRefill, hNext hRest, ⟨_, hNext (Holds.held_only side')⟩, hStays, ?_⟩
    intro h
    refine (hLast h).imp id ?_
    intro hDrop
    rw [show rows.drop side.batchSize = [] from hDrop, batches_nil]

end BatchIndexNLImpl
end CelerMem.Materialization
