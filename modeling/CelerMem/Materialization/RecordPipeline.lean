import CelerMem.Core.Pipeline
import CelerMem.Library.Batches
import CelerMem.Materialization.RecordStream
import Mathlib

/-! Pipelines over records. `batch` is the one combinator that makes chunks of its own: it
cuts what comes in anew, and what is left over when the source fails stays behind. -/
namespace CelerMem.Materialization.RecordStream

open Batches

variable {T U : Type}

/-! ## batch -/

/-- The batches of the records before an ending. An error leaves the last one out, unless
it is complete. -/
def batchesOf (n : Nat) (l : List (Record T)) : Ending → List (List (Record T))
  | .done => batches n l
  | .error _ => (batches n l).filter fun b => b.length = n

section Batch
variable {source : StreamHandle (Record T)} {n : ℕ} {buffer l : List (Record T)} {e : Ending}

theorem batchesOf_full (hn : 1 ≤ n) (h : n ≤ buffer.length) :
    batchesOf n (buffer ++ l) e = buffer.take n :: batchesOf n (buffer.drop n ++ l) e := by
  have hSome : buffer ++ l ≠ [] := by
    intro hNil
    rw [(List.append_eq_nil_iff.mp hNil).1, List.length_nil] at h
    omega
  have hCut : batches n (buffer ++ l) = buffer.take n :: batches n (buffer.drop n ++ l) := by
    rw [batches_of_ne_nil hn hSome, List.take_append_of_le_length h, List.drop_append_of_le_length h]
  cases e with
  | done => exact hCut
  | error err =>
      rw [batchesOf, hCut, List.filter_cons_of_pos (by simpa using h)]
      rfl

theorem batches_short (h : buffer.length < n) :
    batches n buffer = if buffer = [] then [] else [buffer] := by
  by_cases hNil : buffer = []
  · rw [hNil, batches_nil, if_pos rfl]
  · rw [batches_of_ne_nil (by omega) hNil, if_neg hNil, List.take_of_length_le h.le,
      List.drop_of_length_le h.le, batches_nil]

/-- A full buffer is cut before the source is looked at. -/
theorem pull_full (hn : 1 ≤ n) (h : n ≤ buffer.length) :
    BatchImpl.pull ⟨source, n, buffer, false⟩ =
      some (.ok (some (Chunk.from (buffer.take n))), ⟨source, n, buffer.drop n, false⟩) := by
  have hFilled : BatchImpl.fillTurn ⟨source, n, buffer, false⟩ =
      some (.leave (.ok (), ⟨source, n, buffer, false⟩)) := by
    simp [BatchImpl.fillTurn, Nat.not_lt.mpr h]
  have hSome : buffer ≠ [] := by
    rintro rfl
    rw [List.length_nil] at h
    omega
  simp [BatchImpl.pull, Loop.run_leave hFilled, hSome, Nat.min_eq_left h]

theorem drained_emits (source : StreamHandle (Record T)) (n : ℕ) :
    Emits (makeStreamHandle (⟨source, n, [], true⟩ : BatchImpl T)) [] .done := by
  have hFilled : BatchImpl.fillTurn (⟨source, n, [], true⟩ : BatchImpl T) =
      some (.leave (.ok (), ⟨source, n, [], true⟩)) := by
    simp [BatchImpl.fillTurn]
  have hPull : StreamImpl.pull (⟨source, n, [], true⟩ : BatchImpl T) =
      some (.ok none, ⟨source, n, [], true⟩) := by
    simp [StreamImpl.pull, BatchImpl.pull, Loop.run_leave hFilled]
  exact Emits.make_done hPull

theorem buffered_of_short (hn : 1 ≤ n)
    (hShort : ∀ buffer : List (Record T), buffer.length < n →
      Emits (makeStreamHandle (⟨source, n, buffer, false⟩ : BatchImpl T))
        ((batchesOf n (buffer ++ l) e).map Chunk.from) e) (buffer : List (Record T)) :
    Emits (makeStreamHandle (⟨source, n, buffer, false⟩ : BatchImpl T))
      ((batchesOf n (buffer ++ l) e).map Chunk.from) e := by
  induction buffer using batches_induction hn with
  | nil => exact hShort [] hn
  | cons buffer _ ih =>
      by_cases hFull : n ≤ buffer.length
      · rw [batchesOf_full hn hFull]
        exact Emits.make_chunk (pull_full hn hFull) ih
      · exact hShort buffer (Nat.not_le.mp hFull)

/-- What is in the buffer comes before the rest of the source. -/
theorem buffered_emits (hn : 1 ≤ n) (h : Denotes source l e) (buffer : List (Record T)) :
    Emits (makeStreamHandle (⟨source, n, buffer, false⟩ : BatchImpl T))
      ((batchesOf n (buffer ++ l) e).map Chunk.from) e := by
  induction h generalizing buffer with
  | @done source next hSource =>
      apply buffered_of_short hn
      intro buffer hShort
      have hFilled : BatchImpl.fillTurn ⟨source, n, buffer, false⟩ =
          some (.leave (.ok (), ⟨next, n, buffer, true⟩)) := by
        simp [BatchImpl.fillTurn, hShort, hSource]
      rw [List.append_nil, batchesOf, batches_short hShort]
      by_cases hNil : buffer = []
      · subst hNil
        have hPull : StreamImpl.pull (⟨source, n, [], false⟩ : BatchImpl T) =
            some (.ok none, ⟨next, n, [], true⟩) := by
          simp [StreamImpl.pull, BatchImpl.pull, Loop.run_leave hFilled]
        exact Emits.make_done hPull
      · have hPull : StreamImpl.pull (⟨source, n, buffer, false⟩ : BatchImpl T) =
            some (.ok (some (Chunk.from buffer)), ⟨next, n, [], true⟩) := by
          simp [StreamImpl.pull, BatchImpl.pull, Loop.run_leave hFilled, hNil,
            Nat.min_eq_right hShort.le]
        rw [if_neg hNil]
        exact Emits.make_chunk hPull (drained_emits next n)
  | @error source next err hSource =>
      apply buffered_of_short hn
      intro buffer hShort
      have hFilled : BatchImpl.fillTurn ⟨source, n, buffer, false⟩ =
          some (.leave (.error err, ⟨next, n, buffer, false⟩)) := by
        simp [BatchImpl.fillTurn, hShort, hSource]
      have hPull : StreamImpl.pull (⟨source, n, buffer, false⟩ : BatchImpl T) =
          some (.error err, ⟨next, n, buffer, false⟩) := by
        simp [StreamImpl.pull, BatchImpl.pull, Loop.run_leave hFilled]
      -- The batch is not complete, so it stays in the buffer.
      have hNone : batchesOf n (buffer ++ []) (.error err) = [] := by
        rw [List.append_nil, batchesOf, batches_short hShort]
        by_cases hNil : buffer = []
        · simp [hNil]
        · simp [hNil, hShort.ne]
      rw [hNone]
      exact Emits.make_error hPull
  | @chunk source next c l e hSource rest ih =>
      apply buffered_of_short hn
      intro buffer hShort
      have hFilled : BatchImpl.fillTurn ⟨source, n, buffer, false⟩ =
          some (.again ⟨next, n, buffer ++ c.toList, false⟩) := by
        simp [BatchImpl.fillTurn, hShort, hSource]
      have hPull : StreamImpl.pull (⟨source, n, buffer, false⟩ : BatchImpl T) =
          StreamImpl.pull (⟨next, n, buffer ++ c.toList, false⟩ : BatchImpl T) := by
        show BatchImpl.pull _ = BatchImpl.pull _
        rw [BatchImpl.pull, BatchImpl.pull, Loop.run_again hFilled]
      rw [← List.append_assoc]
      exact Emits.make_congr hPull (ih (buffer ++ c.toList))

/-- The chunks of `batch`, up to the 32-bit length of a chunk. -/
theorem batch_emits (hn : 1 ≤ n) (h : Denotes source l e) :
    Emits (batch source n) ((batchesOf n l e).map Chunk.from) e := buffered_emits hn h []

theorem toList_batches (h : ∀ b ∈ batchesOf n l e, b.length < uint32Size) :
    ((batchesOf n l e).map Chunk.from).map Chunk.toList = batchesOf n l e := by
  have hEach : ∀ b ∈ batchesOf n l e, (Chunk.toList ∘ Chunk.from) b = id b :=
    fun b hb => Chunk.toList_from_of_lt (h b hb)
  rw [List.map_map, List.map_congr_left hEach, List.map_id]

end Batch

/-! ## inspect -/

theorem inspect_denotes {Captured : Type} {source : StreamHandle (Record T)} {l : List (Record T)}
    {e : Ending} (h : Denotes source l e) (fn : Captured → Record T → Captured)
    (captured : Captured) : Denotes (inspect source fn captured) l e := by
  induction h generalizing captured with
  | done hPull =>
      exact Denotes.make_done (by simp [StreamImpl.pull, InspectImpl.pull, hPull]; rfl)
  | error hPull =>
      exact Denotes.make_error (by simp [StreamImpl.pull, InspectImpl.pull, hPull]; rfl)
  | @chunk source next c l e hPull rest ih =>
      have hSeen : StreamImpl.pull (⟨source, fn, captured⟩ : InspectImpl T Captured) =
          some (.ok (some c), ⟨next, fn, c.toList.foldl fn captured⟩) := by
        simp [StreamImpl.pull, InspectImpl.pull, hPull]
      exact Denotes.make_chunk hSeen (ih _)

/-! ## Whole pipelines -/

/-- Compositions of the combinators over a source in any chunking. -/
inductive Pipeline : Type → Type 1 where
  | source {T : Type} (h : StreamHandle (Record T)) (l : List (Record T)) (e : Ending)
      (hd : Denotes h l e) : Pipeline T
  | «where» {T : Type} (p : Pipeline T) (pred : Record T → Bool) : Pipeline T
  | map {T U : Type} (p : Pipeline T) (fn : T → U) : Pipeline U
  | take {T : Type} (p : Pipeline T) (n : Nat) : Pipeline T
  | inspect {T Captured : Type} (p : Pipeline T) (fn : Captured → Record T → Captured)
      (captured : Captured) : Pipeline T
  | batch {T : Type} (p : Pipeline T) (n : Nat) (hn : 1 ≤ n) : Pipeline T

namespace Pipeline

/-- The stream that the combinators build. -/
def build {T : Type} : Pipeline T → StreamHandle (Record T)
  | source h _ _ _ => h
  | «where» p pred => RecordStream.where p.build pred
  | map p fn => RecordStream.map p.build fn
  | take p n => RecordStream.take p.build n
  | inspect p fn captured => RecordStream.inspect p.build fn captured
  | batch p n _ => RecordStream.batch p.build n

/-- The list-level reading: the records up to the ending, and the ending. -/
def meaning {T : Type} : Pipeline T → List (Record T) × Ending
  | source _ l e _ => (l, e)
  | «where» p pred => (p.meaning.1.filter pred, p.meaning.2)
  | map p fn => (p.meaning.1.map fun rec => ⟨rec.key, fn rec.value⟩, p.meaning.2)
  | take p n => Stream.takeMeaning n p.meaning.1 p.meaning.2
  | inspect p _ _ => p.meaning
  | batch p n _ => ((batchesOf n p.meaning.1 p.meaning.2).flatten, p.meaning.2)

/-- Every `batch` in it emits the batches of what comes in as its chunks. -/
def Rechunks {T : Type} : Pipeline T → Prop
  | source _ _ _ _ => True
  | «where» p _ => p.Rechunks
  | map p _ => p.Rechunks
  | take p _ => p.Rechunks
  | inspect p _ _ => p.Rechunks
  | batch p n _ => p.Rechunks ∧ ∃ cs, Emits (RecordStream.batch p.build n) cs p.meaning.2 ∧
      cs.map Chunk.toList = batchesOf n p.meaning.1 p.meaning.2

/-- No batch in it needs a chunk of `2 ^ 32` records or more. -/
def BatchesFit {T : Type} : Pipeline T → Prop
  | source _ _ _ _ => True
  | «where» p _ => p.BatchesFit
  | map p _ => p.BatchesFit
  | take p _ => p.BatchesFit
  | inspect p _ _ => p.BatchesFit
  | batch p n _ => p.BatchesFit ∧
      ∀ b ∈ batchesOf n p.meaning.1 p.meaning.2, b.length < uint32Size

theorem build_denotes {T : Type} (p : Pipeline T) (hFit : p.BatchesFit) :
    Denotes p.build p.meaning.1 p.meaning.2 := by
  induction p with
  | source h l e hd => exact hd
  | «where» p pred ih => exact Stream.filter_denotes (ih hFit) pred
  | map p fn ih => exact Stream.map_denotes (ih hFit) _
  | take p n ih => exact Stream.take_denotes (ih hFit) n
  | inspect p fn captured ih => exact inspect_denotes (ih hFit) fn captured
  | batch p n hn ih =>
      have hEmits := batch_emits hn (ih hFit.1)
      have hDenotes := hEmits.denotes
      rw [chunkElems, toList_batches hFit.2] at hDenotes
      exact hDenotes

theorem rechunks_iff {T : Type} (p : Pipeline T) : p.Rechunks ↔ p.BatchesFit := by
  induction p with
  | source h l e hd => exact Iff.rfl
  | «where» p pred ih => exact ih
  | map p fn ih => exact ih
  | take p n ih => exact ih
  | inspect p fn captured ih => exact ih
  | batch p n hn ih =>
      constructor
      · rintro ⟨hRest, cs, -, hCut⟩
        refine ⟨ih.mp hRest, ?_⟩
        intro b hb
        rw [← hCut] at hb
        obtain ⟨c, -, rfl⟩ := List.mem_map.mp hb
        rw [Chunk.length_toList]
        exact c.size_lt
      · rintro ⟨hRest, hFit⟩
        exact ⟨ih.mpr hRest, _, batch_emits hn (p.build_denotes hRest), toList_batches hFit⟩

/-- `collect` returns the list-level result and every `batch` re-chunks what comes in,
exactly when no batch needs a chunk of `2 ^ 32` records or more. -/
theorem collects_iff_batchesFit {T : Type} (p : Pipeline T) :
    (collect p.build = some (p.meaning.2.result p.meaning.1) ∧ p.Rechunks) ↔ p.BatchesFit := by
  constructor
  · rintro ⟨-, hRechunks⟩
    exact p.rechunks_iff.mp hRechunks
  · intro hFit
    exact ⟨(p.build_denotes hFit).collect, p.rechunks_iff.mpr hFit⟩

end Pipeline

/-! ## A batch of `2 ^ 32` records -/

/-- A batch of `2 ^ 32` records leaves as an empty chunk. -/
theorem collect_batch_full {source : StreamHandle (Record T)} {l : List (Record T)} {n : ℕ}
    (h : Denotes source l .done) (hLength : l.length = n) (hn : n = uint32Size) :
    collect (batch source n) = some (.ok []) := by
  have hPos : 1 ≤ n := by
    rw [hn]
    decide
  have hSome : l ≠ [] := by
    rintro rfl
    rw [List.length_nil] at hLength
    omega
  have hOne : batchesOf n l .done = [l] := by
    rw [batchesOf, batches_of_ne_nil hPos hSome, List.take_of_length_le hLength.le,
      List.drop_of_length_le hLength.le, batches_nil]
  have hEmpty : (Chunk.from l).toList = [] := by
    rw [Chunk.toList_from, hLength, hn, Nat.mod_self, List.take_zero]
  have hDenotes := (batch_emits hPos h).denotes
  rw [hOne, List.map_singleton, chunkElems_cons, hEmpty] at hDenotes
  exact hDenotes.collect

theorem collect_batch_ne {source : StreamHandle (Record T)} {l : List (Record T)} {n : ℕ}
    (h : Denotes source l .done) (hLength : l.length = n) (hn : n = uint32Size) :
    collect (batch source n) ≠ some (.ok l) := by
  intro hSame
  rw [collect_batch_full h hLength hn] at hSame
  have hNil : [] = l := Except.ok.inj (Option.some.inj hSame)
  rw [← hNil, List.length_nil, hn] at hLength
  cases hLength

/-- Two chunks of `2 ^ 31` records, all of which are lost. -/
theorem batch_loses_full_batch :
    Denotes (Stream.ofChunks [Chunk.from (List.replicate (2 ^ 31) (⟨[], []⟩ : Record Bytes)),
      Chunk.from (List.replicate (2 ^ 31) ⟨[], []⟩)] .done)
      (List.replicate (2 ^ 31 + 2 ^ 31) ⟨[], []⟩) .done ∧
    collect (batch (Stream.ofChunks
      [Chunk.from (List.replicate (2 ^ 31) (⟨[], []⟩ : Record Bytes)),
        Chunk.from (List.replicate (2 ^ 31) ⟨[], []⟩)] .done) (2 ^ 31 + 2 ^ 31)) ≠
      some (.ok (List.replicate (2 ^ 31 + 2 ^ 31) ⟨[], []⟩)) := by
  have hSource := Stream.replicate_denotes (show 2 ^ 31 < uint32Size by simp [uint32Size])
    (⟨[], []⟩ : Record Bytes)
  have hFull : 2 ^ 31 + 2 ^ 31 = uint32Size := by norm_num [uint32Size]
  exact ⟨hSource, collect_batch_ne hSource List.length_replicate hFull⟩

end CelerMem.Materialization.RecordStream
