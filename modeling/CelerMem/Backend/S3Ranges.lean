import CelerMem.Backend.S3Get
import Mathlib

/-! The download of one object in ranges: every byte once, whenever a clone takes over. -/
namespace CelerMem

variable {α Impl ω : Type}

/-- What any number of pulls have brought, and the stream after them. Pulls that bring no
chunk count as well. -/
def pulls : ℕ → StreamHandle α → Option (List α × StreamHandle α)
  | 0, h => some ([], h)
  | n + 1, h => do
      let (r, h) ← h.pull
      let (taken, last) ← pulls n h
      match r with
      | .ok (some chunk) => some (chunk.toList ++ taken, last)
      | _ => some (taken, last)

/-- The chunks make up the list before the stream is done, and at any time a clone has what
the pulls up to then have left. -/
structure Downloads (h : StreamHandle α) (l : List α) : Prop where
  whole : Denotes h l .done
  resumed : ∀ n, ∃ taken next rest, pulls n h = some (taken, next) ∧
    Denotes next.clone rest .done ∧ taken ++ rest = l

/-- States of which it is known what they have left. -/
theorem pulls_make [StreamImpl Impl α] {Remains : Impl → List α → Prop}
    (hPull : ∀ s rest, Remains s rest →
      (∃ t, StreamImpl.pull s = some (.ok none, t) ∧ Remains t rest) ∨
      ∃ c t next, StreamImpl.pull s = some (.ok (some c), t) ∧ Remains t next ∧
        c.toList ++ next = rest)
    (n : ℕ) {s : Impl} {rest : List α} (h : Remains s rest) :
    ∃ taken t next, pulls n (makeStreamHandle s) = some (taken, makeStreamHandle t) ∧
      Remains t next ∧ taken ++ next = rest := by
  induction n generalizing s rest with
  | zero => exact ⟨[], s, rest, rfl, h, rfl⟩
  | succ n ih =>
      rcases hPull s rest h with ⟨t, hDone, hLeft⟩ | ⟨c, t, next, hChunk, hLeft, rfl⟩
      · obtain ⟨taken, u, next, hRun, hLast, rfl⟩ := ih hLeft
        exact ⟨taken, u, next, by simp [pulls, hDone, hRun], hLast, rfl⟩
      · obtain ⟨taken, u, last, hRun, hLast, rfl⟩ := ih hLeft
        exact ⟨c.toList ++ taken, u, last, by simp [pulls, hChunk, hRun], hLast,
          List.append_assoc _ _ _⟩

section Ranges
variable {client : S3Client ω} {w : ω} {key versionId body rest : Bytes} {chunkSize : ℕ}
  {s : S3GetStream}

theorem S3GetStream.Remains.fits (hFits : min chunkSize body.length < uint32Size)
    (h : S3GetStream.Remains key versionId body chunkSize s rest) :
    min chunkSize rest.length < uint32Size := by
  rcases h with ⟨-, rfl⟩ | ⟨offset, -, rfl⟩
  · exact (Nat.min_le_right _ _).trans_lt (by decide)
  · rw [List.length_drop]
    omega

theorem S3GetStream.Remains.whole (hServes : client.ServesRanges w key versionId body)
    (hPos : 0 < chunkSize) (hFits : min chunkSize body.length < uint32Size)
    (h : S3GetStream.Remains key versionId body chunkSize s rest) :
    Denotes (makeStreamHandle (⟨client, w, s⟩ : InBucket ω S3GetStream)) rest .done := by
  have hDenotes := h.denotes hServes hPos
  rwa [(received_eq_self_iff hPos rest).mpr (h.fits hFits)] at hDenotes

/-- Whatever the stream has left, its pulls and those of a clone share it. -/
theorem S3GetStream.Remains.downloads (hServes : client.ServesRanges w key versionId body)
    (hPos : 0 < chunkSize) (hFits : min chunkSize body.length < uint32Size)
    (h : S3GetStream.Remains key versionId body chunkSize s rest) :
    Downloads (makeStreamHandle (⟨client, w, s⟩ : InBucket ω S3GetStream)) rest where
  whole := h.whole hServes hPos hFits
  resumed := by
    intro n
    let left (x : InBucket ω S3GetStream) (rest : Bytes) : Prop :=
      ∃ s, x = ⟨client, w, s⟩ ∧ S3GetStream.Remains key versionId body chunkSize s rest
    have hPulls : ∀ x rest, left x rest →
        (∃ t, StreamImpl.pull x = some (.ok none, t) ∧ left t rest) ∨
        ∃ c t next, StreamImpl.pull x = some (.ok (some c), t) ∧ left t next ∧
          c.toList ++ next = rest := by
      rintro _ rest ⟨s, rfl, hRemains⟩
      rcases hRemains.pull hServes hPos with ⟨rfl, t, hPull, hNext⟩ | ⟨-, t, hPull, hNext⟩
      · exact Or.inl ⟨_, InBucket.step_eq hPull, t, rfl, hNext⟩
      · refine Or.inr ⟨_, _, _, InBucket.step_eq hPull, ⟨t, rfl, hNext⟩, ?_⟩
        have hRange : (rest.take chunkSize).length < uint32Size := by
          rw [List.length_take]
          exact hRemains.fits hFits
        rw [Chunk.toList_from_of_lt hRange, List.take_append_drop]
    obtain ⟨taken, x, next, hRun, ⟨t, rfl, hLast⟩, hWhole⟩ := pulls_make hPulls n ⟨s, rfl, h⟩
    exact ⟨taken, _, next, hRun, hLast.whole hServes hPos hFits, hWhole⟩

/-- A range that is too long for a chunk arrives short. -/
theorem fits_of_downloads (hServes : client.ServesRanges w key versionId body)
    (hPos : 0 < chunkSize) (hDownloads : Downloads (makeStreamHandle
      (⟨client, w, ⟨key, chunkSize, 0, false, versionId⟩⟩ : InBucket ω S3GetStream)) body) :
    min chunkSize body.length < uint32Size := by
  have hStart : S3GetStream.Remains key versionId body chunkSize
      ⟨key, chunkSize, 0, false, versionId⟩ body := Or.inr ⟨0, rfl, rfl⟩
  rw [← received_eq_self_iff hPos]
  exact ((hStart.denotes hServes hPos).unique hDownloads.whole).1

/-- An object that does not change is downloaded exactly, whatever its size, if and only if
its ranges fit into the 32-bit length of a chunk. -/
theorem ranged_download_iff (hServes : client.ServesRanges w key versionId body)
    (hPos : 0 < chunkSize) :
    Downloads (makeStreamHandle
      (⟨client, w, ⟨key, chunkSize, 0, false, versionId⟩⟩ : InBucket ω S3GetStream)) body ↔
    min chunkSize body.length < uint32Size := by
  constructor
  · exact fits_of_downloads hServes hPos
  · intro hFits
    exact S3GetStream.Remains.downloads hServes hPos hFits (Or.inr ⟨0, rfl, rfl⟩)

end Ranges

/-! ## A service in memory -/

open Materialization (Memory)

/-- A bucket with one object. -/
def bucketOf (body : Bytes) : Memory := ⟨[⟨ascii "t/a", body⟩], by simp, []⟩

theorem bucketOf_serves (body : Bytes) :
    memoryClient.ServesRanges (bucketOf body) (ascii "t/a") [] body := by
  have hFew : (bucketOf body).entries.length ≤ 1000 := by simp [bucketOf]
  exact (memoryClient_reads hFew).servesRanges rfl

/-- Three bytes, read two at a time. -/
theorem ranged_download_iff_threeBytes :
    Downloads (makeStreamHandle (⟨memoryClient, bucketOf [7, 8, 9],
      ⟨ascii "t/a", 2, 0, false, []⟩⟩ : InBucket Memory S3GetStream)) [7, 8, 9] ↔
    min 2 3 < uint32Size :=
  ranged_download_iff (bucketOf_serves [7, 8, 9]) (by decide)

theorem not_downloads_of_long {body : Bytes} (hLong : body.length = uint32Size) :
    ¬ Downloads (makeStreamHandle (⟨memoryClient, bucketOf body,
      ⟨ascii "t/a", uint32Size, 0, false, []⟩⟩ : InBucket Memory S3GetStream)) body := by
  intro hDownloads
  have hFits := fits_of_downloads (bucketOf_serves body) (by decide) hDownloads
  rw [hLong, Nat.min_self] at hFits
  exact Nat.lt_irrefl _ hFits

/-- Of 2^32 bytes that are asked for in one range, none is returned. -/
theorem ranged_download_loses :
    ¬ Downloads (makeStreamHandle (⟨memoryClient, bucketOf (List.replicate uint32Size 0),
      ⟨ascii "t/a", uint32Size, 0, false, []⟩⟩ : InBucket Memory S3GetStream))
      (List.replicate uint32Size 0) :=
  not_downloads_of_long List.length_replicate

end CelerMem
