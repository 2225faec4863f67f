import CelerMem.Backend.S3Ranges
import CelerMem.Backend.S3Upload
import CelerMem.Library.Transition
import Mathlib

/-! Objects by version. A version that was put can be read for as long as the bucket keeps it,
whatever is written under its key meanwhile, at once or in ranges with writes in between. -/
namespace CelerMem

variable {ω : Type}

/-! ## The client -/

/-- All requests to one bucket. The answer of `PutObject` has the version that was made. -/
structure VersioningClient (ω : Type) extends S3Client ω, MultipartClient ω where
  putVersion : Bytes → Bytes → ω → Except AwsError Bytes × ω
  putObject_eq : ∀ key body w, putObject key body w =
    ((putVersion key body w).1.map fun _ => (), (putVersion key body w).2)

/-- What is stored by key and version. -/
abbrev Versions := Bytes → Bytes → Option Bytes

/-- Nothing that was stored under a version has gone. -/
def Versions.Kept (before after : Versions) : Prop :=
  ∀ key id body, before key id = some body → after key id = some body

theorem Versions.Kept.refl (versions : Versions) : versions.Kept versions := fun _ _ _ => id

theorem Versions.Kept.trans {first second third : Versions} (h : first.Kept second)
    (h' : second.Kept third) : first.Kept third :=
  fun key id body hStored => h' key id body (h key id body hStored)

/-- A bucket with versioning: each object that is put makes a version that no request has made
before, and deleting a key leaves its versions alone. -/
structure VersioningClient.KeepsVersions (client : VersioningClient ω) (versions : ω → Versions) :
    Prop where
  made : ∀ {key body id w w'}, client.putVersion key body w = (.ok id, w') →
    versions w key id = none ∧ versions w' key id = some body
  putVersion : ∀ key body w, (versions w).Kept (versions (client.putVersion key body w).2)
  deleteObject : ∀ key w, (versions w).Kept (versions (client.deleteObject key w).2)
  deleteObjects : ∀ keys w, (versions w).Kept (versions (client.deleteObjects keys w).2)
  createMultipartUpload : ∀ key w,
    (versions w).Kept (versions (client.createMultipartUpload key w).2)
  uploadPart : ∀ key uploadId n body w,
    (versions w).Kept (versions (client.uploadPart key uploadId n body w).2)
  completeMultipartUpload : ∀ key uploadId parts w,
    (versions w).Kept (versions (client.completeMultipartUpload key uploadId parts w).2)
  abortMultipartUpload : ∀ key uploadId w,
    (versions w).Kept (versions (client.abortMultipartUpload key uploadId w).2)
  getObject : ∀ {key id body w}, versions w key id = some body →
    client.getObject ⟨key, id, none⟩ w = .ok body
  getRange : ∀ {key id body w}, versions w key id = some body →
    client.ServesRanges w key id body

/-! ## The backend -/

structure PutResult where
  versionId : Bytes

namespace S3Backend

/-- An object that is not there is no error here. -/
def getVersioned (backend : S3Backend ω) (key versionId : Bytes) (w : ω) :
    Result (Option Bytes) :=
  match backend.client.getObject ⟨backend.resolveKey key, versionId, none⟩ w with
  | .error err =>
      if err.responseCode == AwsError.notFound then .ok none
      else .error ⟨"S3GetVersioned", err.message⟩
  | .ok value => .ok (some value)

def streamGetVersioned (backend : S3Backend ω) (key versionId : Bytes) : S3GetStream :=
  ⟨backend.resolveKey key, backend.chunkSize, 0, false, versionId⟩

end S3Backend

/-- What the factory makes of a table, up to the client that all tables share. -/
structure S3Table where
  keyPrefix : Bytes
  chunkSize : ℕ
  chunkSize_pos : 0 < chunkSize

namespace VersioningClient

def backend (client : VersioningClient ω) (t : S3Table) : S3Backend ω :=
  ⟨client.toS3Client, t.keyPrefix, t.chunkSize, t.chunkSize_pos⟩

def putVersioned (client : VersioningClient ω) (t : S3Table) (key value : Bytes) (w : ω) :
    Result PutResult × ω :=
  match client.putVersion ((client.backend t).resolveKey key) value w with
  | (.error err, w) => (.error ⟨"S3PutVersioned", err.message⟩, w)
  | (.ok versionId, w) => (.ok ⟨versionId⟩, w)

end VersioningClient

/-! ## A bucket in use -/

/-- A stream with what its pulls have answered, which no function reads. -/
structure VersionReader where
  stream : S3GetStream
  answers : List (Pulled Byte) := []

/-- The bytes that a pull brings. -/
def S3GetStream.bytes : Pulled Byte → Bytes
  | .ok (some chunk) => chunk.toList
  | _ => []

namespace VersionReader

def pull (client : S3Client ω) (w : ω) (r : VersionReader) : VersionReader :=
  let (answer, stream) := r.stream.pull client w
  ⟨stream, r.answers ++ [answer]⟩

def brought (r : VersionReader) : Bytes := r.answers.flatMap S3GetStream.bytes

end VersionReader

/-- The streams have numbers, in the order in which they come up. -/
inductive BucketEvent where
  | put (t : S3Table) (key value : Bytes)
  | putVersioned (t : S3Table) (key value : Bytes)
  | del (t : S3Table) (key : Bytes)
  | batch (t : S3Table) (ops : List BatchOp)
  | streamPut (t : S3Table) (key : Bytes) (input : StreamHandle Byte)
  | streamGetVersioned (t : S3Table) (key versionId : Bytes)
  | pull (k : ℕ)
  | clone (k : ℕ)

structure BucketSession (ω : Type) where
  bucket : ω
  readers : List VersionReader := []

namespace BucketSession

/-- An upload of a stream that does not come to an end is not followed by anything. -/
def step (client : VersioningClient ω) (s : BucketSession ω) :
    BucketEvent → Option (BucketSession ω)
  | .put t key value => some { s with bucket := ((client.backend t).put key value s.bucket).2 }
  | .putVersioned t key value =>
      some { s with bucket := (client.putVersioned t key value s.bucket).2 }
  | .del t key => some { s with bucket := ((client.backend t).del key s.bucket).2 }
  | .batch t ops => some { s with bucket := ((client.backend t).batch ops s.bucket).2 }
  | .streamPut t key input => do
      let (_, w) ← (client.backend t).streamPut client.toMultipartClient key input s.bucket
      some { s with bucket := w }
  | .streamGetVersioned t key versionId =>
      some { s with readers := s.readers ++ [⟨(client.backend t).streamGetVersioned key versionId, []⟩] }
  | .pull k => do
      let r ← s.readers[k]?
      some { s with readers := s.readers.set k (r.pull client.toS3Client s.bucket) }
  | .clone k => do
      let r ← s.readers[k]?
      some { s with readers := s.readers ++ [r] }

end BucketSession

/-! ## Writes keep the versions -/

namespace VersioningClient.KeepsVersions
variable {client : VersioningClient ω} {versions : ω → Versions}

theorem put (h : client.KeepsVersions versions) (t : S3Table) (key value : Bytes) (w : ω) :
    (versions w).Kept (versions ((client.backend t).put key value w).2) := by
  have hPut := h.putVersion ((client.backend t).resolveKey key) value w
  have hSame := client.putObject_eq ((client.backend t).resolveKey key) value w
  have hState : ((client.backend t).put key value w).2 =
      (client.putVersion ((client.backend t).resolveKey key) value w).2 := by
    have hPutObject : (client.backend t).client.putObject ((client.backend t).resolveKey key)
        value w = _ := hSame
    unfold S3Backend.put
    rw [hPutObject]
    cases (client.putVersion ((client.backend t).resolveKey key) value w).1 <;> rfl
  rwa [hState]

theorem putVersioned (h : client.KeepsVersions versions) (t : S3Table) (key value : Bytes)
    (w : ω) : (versions w).Kept (versions (client.putVersioned t key value w).2) := by
  have hPut := h.putVersion ((client.backend t).resolveKey key) value w
  unfold VersioningClient.putVersioned
  split
  next err w' hMade => rwa [hMade] at hPut
  next id w' hMade => rwa [hMade] at hPut

theorem del (h : client.KeepsVersions versions) (t : S3Table) (key : Bytes) (w : ω) :
    (versions w).Kept (versions ((client.backend t).del key w).2) := by
  have hDelete := h.deleteObject ((client.backend t).resolveKey key) w
  unfold S3Backend.del
  split
  next err w' hDeleted =>
    have hState : (client.deleteObject ((client.backend t).resolveKey key) w).2 = w' :=
      congrArg Prod.snd hDeleted
    rwa [hState] at hDelete
  next w' hDeleted =>
    have hState : (client.deleteObject ((client.backend t).resolveKey key) w).2 = w' :=
      congrArg Prod.snd hDeleted
    rwa [hState] at hDelete

theorem putAll (h : client.KeepsVersions versions) (t : S3Table) (puts : List (Bytes × Bytes))
    (w : ω) : (versions w).Kept (versions ((client.backend t).putAll puts w).2) := by
  induction puts generalizing w with
  | nil => exact .refl _
  | cons p puts ih =>
      have hPut := h.put t p.1 p.2 w
      rw [S3Backend.putAll]
      split
      next e w' hPutAt => rwa [hPutAt] at hPut
      next w' hPutAt =>
        rw [hPutAt] at hPut
        exact hPut.trans (ih w')

theorem deleteAll (h : client.KeepsVersions versions) (keys : List Bytes) (w : ω) :
    (versions w).Kept (versions (S3Backend.deleteAll client.toS3Client keys w).2) := by
  induction keys, w using S3Backend.deleteAll.induct client.toS3Client with
  | case1 w =>
      rw [S3Backend.deleteAll]
      exact .refl _
  | case2 w key rest err w' hDeleted =>
      have hDelete := h.deleteObjects ((key :: rest).take S3Backend.maxKeysPerCall) w
      rw [S3Backend.deleteAll, hDeleted]
      rwa [hDeleted] at hDelete
  | case3 w key rest failed message tail w' hDeleted =>
      have hDelete := h.deleteObjects ((key :: rest).take S3Backend.maxKeysPerCall) w
      rw [S3Backend.deleteAll, hDeleted]
      rwa [hDeleted] at hDelete
  | case4 w key rest w' hDeleted ih =>
      have hDelete := h.deleteObjects ((key :: rest).take S3Backend.maxKeysPerCall) w
      rw [S3Backend.deleteAll, hDeleted]
      rw [hDeleted] at hDelete
      exact hDelete.trans ih

theorem batch (h : client.KeepsVersions versions) (t : S3Table) (ops : List BatchOp) (w : ω) :
    (versions w).Kept (versions ((client.backend t).batch ops w).2) := by
  unfold S3Backend.batch
  split
  next => exact .refl _
  next puts deleteKeys hOps =>
    have hPuts := h.putAll t puts w
    split
    next e w' hPutAll => rwa [hPutAll] at hPuts
    next w' hPutAll =>
      rw [hPutAll] at hPuts
      exact hPuts.trans (h.deleteAll deleteKeys w')

/-- A pass of the loop over the parts, whether it goes on or leaves. -/
theorem uploadTurn (h : client.KeepsVersions versions) {fullKey uploadId : Bytes}
    {before : Versions} {s : UploadState ω} {turn : Loop.Turn (UploadState ω)
      (Result (List CompletedPart) × ω)} (hBefore : before.Kept (versions s.bucket))
    (hTurn : CelerMem.uploadTurn client.toMultipartClient fullKey uploadId s = some turn) :
    turn.Holds (fun t => before.Kept (versions t.bucket)) (fun r => before.Kept (versions r.2)) := by
  unfold CelerMem.uploadTurn at hTurn
  obtain ⟨⟨r, input⟩, hPull, hTurn⟩ := Option.bind_eq_some_iff.mp hTurn
  match r with
  | .error e =>
      obtain rfl := Option.some.inj hTurn
      exact hBefore.trans (h.abortMultipartUpload fullKey uploadId s.bucket)
  | .ok none =>
      obtain rfl := Option.some.inj hTurn
      exact hBefore
  | .ok (some chunk) =>
      have hPart := hBefore.trans (h.uploadPart fullKey uploadId s.partNumber chunk.toList s.bucket)
      dsimp only at hTurn
      split at hTurn
      next err w hRefused =>
        rw [hRefused] at hPart
        obtain rfl := Option.some.inj hTurn
        exact hPart.trans (h.abortMultipartUpload fullKey uploadId w)
      next eTag w hTaken =>
        rw [hTaken] at hPart
        obtain rfl := Option.some.inj hTurn
        exact hPart

theorem streamPut (h : client.KeepsVersions versions) (t : S3Table) (key : Bytes)
    {input : StreamHandle Byte} {w w' : ω} {r : VoidResult}
    (hPut : (client.backend t).streamPut client.toMultipartClient key input w = some (r, w')) :
    (versions w).Kept (versions w') := by
  have hCreate := h.createMultipartUpload ((client.backend t).resolveKey key) w
  unfold S3Backend.streamPut at hPut
  dsimp only at hPut
  split at hPut
  next err w₁ hRefused =>
    rw [hRefused] at hCreate
    obtain ⟨-, rfl⟩ := Prod.mk.inj (Option.some.inj hPut)
    exact hCreate
  next uploadId w₁ hCreated =>
    rw [hCreated] at hCreate
    obtain ⟨⟨r', w₂⟩, hRun, hComplete⟩ := Option.map_eq_some_iff.mp hPut
    have hLoop : (versions w).Kept (versions w₂) :=
      Loop.run_holds (fun s : UploadState ω => (versions w).Kept (versions s.bucket))
        (fun r => (versions w).Kept (versions r.2))
        (fun s turn hBefore hTurn => h.uploadTurn hBefore hTurn) hCreate hRun
    cases r' with
    | error e =>
        obtain ⟨-, rfl⟩ := Prod.mk.inj hComplete
        exact hLoop
    | ok parts =>
        have hEnd := hLoop.trans (h.completeMultipartUpload
          ((client.backend t).resolveKey key) uploadId parts w₂)
        rw [completeUpload] at hComplete
        split at hComplete
        next err w₃ hRefused =>
          rw [hRefused] at hEnd
          obtain ⟨-, rfl⟩ := Prod.mk.inj hComplete
          exact hEnd
        next w₃ hCompleted =>
          rw [hCompleted] at hEnd
          obtain ⟨-, rfl⟩ := Prod.mk.inj hComplete
          exact hEnd

end VersioningClient.KeepsVersions

/-! ## Streams of a version -/

namespace S3GetStream
variable {client : S3Client ω} {w : ω} {key versionId body rest : Bytes} {s : S3GetStream}

/-- A pull does not change what the stream is a stream of. -/
theorem pull_object (client : S3Client ω) (w : ω) (s : S3GetStream) :
    (s.pull client w).2.key = s.key ∧ (s.pull client w).2.versionId = s.versionId ∧
      (s.pull client w).2.chunkSize = s.chunkSize := by
  unfold pull
  split
  next => exact ⟨rfl, rfl, rfl⟩
  next =>
    split
    next =>
      split
      next => exact ⟨rfl, rfl, rfl⟩
      next => exact ⟨rfl, rfl, rfl⟩
    next =>
      split
      next => exact ⟨rfl, rfl, rfl⟩
      next =>
        dsimp only
        split
        next => exact ⟨rfl, rfl, rfl⟩
        next => exact ⟨rfl, rfl, rfl⟩

end S3GetStream

namespace VersionReader
variable {client : S3Client ω} {w : ω} {key versionId body rest : Bytes} {r : VersionReader}

/-- What a stream of an object has brought of it and what it has left. -/
structure Reads (body rest : Bytes) (r : VersionReader) : Prop where
  remains : r.stream.Remains r.stream.key r.stream.versionId body r.stream.chunkSize rest
  whole : r.brought ++ rest = body
  noError : ∀ e, .error e ∉ r.answers
  ended : .ok none ∈ r.answers → rest = []
  /-- A pull brings a byte at least, or is at the end. -/
  counted : .ok none ∈ r.answers ∨ r.answers.length + rest.length ≤ body.length

theorem reads_start (t : S3Table) (client : VersioningClient ω) (key versionId body : Bytes) :
    Reads body body ⟨(client.backend t).streamGetVersioned key versionId, []⟩ where
  remains := .inr ⟨0, rfl, rfl⟩
  whole := rfl
  noError := fun _ h => List.not_mem_nil h
  ended := fun h => absurd h List.not_mem_nil
  counted := .inr (Nat.zero_add _).le

theorem brought_pull : (r.pull client w).brought =
    r.brought ++ S3GetStream.bytes (r.stream.pull client w).1 := by
  simp [VersionReader.pull, brought]

/-- The next pull goes on where the last one stopped, whatever has been written since. -/
theorem Reads.pull (h : r.Reads body rest) (hPos : 0 < r.stream.chunkSize)
    (hFits : min r.stream.chunkSize body.length < uint32Size)
    (hServes : client.ServesRanges w r.stream.key r.stream.versionId body) :
    ∃ rest, (r.pull client w).Reads body rest := by
  obtain ⟨hKey, hVersion, hChunk⟩ := S3GetStream.pull_object client w r.stream
  have hRemains : ∀ {t rest}, (r.stream.pull client w).2 = t →
      t.Remains r.stream.key r.stream.versionId body r.stream.chunkSize rest →
      (r.stream.pull client w).2.Remains (r.stream.pull client w).2.key
        (r.stream.pull client w).2.versionId body (r.stream.pull client w).2.chunkSize rest := by
    intro t rest hNext hLeft
    rw [hKey, hVersion, hChunk, hNext]
    exact hLeft
  rcases h.remains.pull hServes hPos with ⟨rfl, t, hPull, hNext⟩ | ⟨hRest, t, hPull, hNext⟩
  · refine ⟨[], hRemains (congrArg Prod.snd hPull) hNext, ?_, ?_, fun _ => rfl, .inl ?_⟩
    · have hNothing : S3GetStream.bytes (.ok none) = [] := rfl
      rw [brought_pull, hPull, hNothing, List.append_assoc]
      exact h.whole
    · intro e hMem
      simp only [VersionReader.pull, hPull, List.mem_append, List.mem_singleton] at hMem
      exact hMem.elim (h.noError e) (fun hSame => by cases hSame)
    · simp [VersionReader.pull, hPull]
  · have hRange : (rest.take r.stream.chunkSize).length < uint32Size := by
      rw [List.length_take]
      exact h.remains.fits hFits
    have hGoes : .ok none ∉ r.answers := fun hMem => hRest (h.ended hMem)
    have hStays : .ok none ∉ (r.pull client w).answers := by
      simp only [VersionReader.pull, hPull, List.mem_append, List.mem_singleton, not_or]
      exact ⟨hGoes, fun hSame => by cases hSame⟩
    refine ⟨rest.drop r.stream.chunkSize, hRemains (congrArg Prod.snd hPull) hNext, ?_, ?_,
      fun hMem => absurd hMem hStays, .inr ?_⟩
    · rw [brought_pull, hPull, S3GetStream.bytes, Chunk.toList_from_of_lt hRange,
        List.append_assoc, List.take_append_drop]
      exact h.whole
    · intro e hMem
      simp only [VersionReader.pull, hPull, List.mem_append, List.mem_singleton] at hMem
      exact hMem.elim (h.noError e) (fun hSame => by cases hSame)
    · have hBefore := h.counted.resolve_left hGoes
      have hLength : 0 < rest.length := List.length_pos_iff.mpr hRest
      have hAnswers : (r.pull client w).answers.length = r.answers.length + 1 := by
        simp [VersionReader.pull]
      rw [hAnswers, List.length_drop]
      omega

end VersionReader

namespace BucketSession
variable {client : VersioningClient ω} {versions : ω → Versions} {s s' : BucketSession ω}
  {fullKey id body : Bytes}

/-- The version is stored, and its streams have brought a part of it and have the rest left. -/
structure Snapshot (versions : ω → Versions) (fullKey id body : Bytes) (s : BucketSession ω) :
    Prop where
  stored : versions s.bucket fullKey id = some body
  positive : ∀ r ∈ s.readers, 0 < r.stream.chunkSize
  reads : ∀ r ∈ s.readers, r.stream.key = fullKey → r.stream.versionId = id →
    min r.stream.chunkSize body.length < uint32Size → ∃ rest, r.Reads body rest

theorem Snapshot.write (h : s.Snapshot versions fullKey id body) {w : ω}
    (hKept : (versions s.bucket).Kept (versions w)) :
    Snapshot versions fullKey id body { s with bucket := w } :=
  ⟨hKept fullKey id body h.stored, h.positive, h.reads⟩

theorem Snapshot.pull (hKeeps : client.KeepsVersions versions)
    (h : s.Snapshot versions fullKey id body) {r : VersionReader} (hMem : r ∈ s.readers) (k : ℕ) :
    Snapshot versions fullKey id body
      { s with readers := s.readers.set k (r.pull client.toS3Client s.bucket) } := by
  obtain ⟨hKey, hVersion, hChunk⟩ := S3GetStream.pull_object client.toS3Client s.bucket r.stream
  refine ⟨h.stored, ?_, ?_⟩
  · intro q hq
    rcases List.mem_or_eq_of_mem_set hq with hOld | rfl
    · exact h.positive q hOld
    · exact hChunk.symm ▸ h.positive r hMem
  · intro q hq hSameKey hSameId hFits
    rcases List.mem_or_eq_of_mem_set hq with hOld | rfl
    · exact h.reads q hOld hSameKey hSameId hFits
    · have hReadKey : r.stream.key = fullKey := hKey.symm.trans hSameKey
      have hReadId : r.stream.versionId = id := hVersion.symm.trans hSameId
      have hReadFits : min r.stream.chunkSize body.length < uint32Size := by
        rw [← hChunk]
        exact hFits
      obtain ⟨rest, hReads⟩ := h.reads r hMem hReadKey hReadId hReadFits
      have hServes := hKeeps.getRange h.stored
      rw [← hReadKey, ← hReadId] at hServes
      exact hReads.pull (h.positive r hMem) hReadFits hServes

theorem Snapshot.open (h : s.Snapshot versions fullKey id body) {r : VersionReader}
    (hPos : 0 < r.stream.chunkSize)
    (hReads : r.stream.key = fullKey → r.stream.versionId = id →
      min r.stream.chunkSize body.length < uint32Size → ∃ rest, r.Reads body rest) :
    Snapshot versions fullKey id body { s with readers := s.readers ++ [r] } := by
  refine ⟨h.stored, ?_, ?_⟩
  · intro q hq
    rcases List.mem_append.mp hq with hOld | hNew
    · exact h.positive q hOld
    · rwa [List.mem_singleton.mp hNew]
  · intro q hq
    rcases List.mem_append.mp hq with hOld | hNew
    · exact h.reads q hOld
    · rwa [List.mem_singleton.mp hNew]

/-- One event of any kind. -/
theorem Snapshot.step (hKeeps : client.KeepsVersions versions)
    (h : s.Snapshot versions fullKey id body) {e : BucketEvent} (hStep : s.step client e = some s') :
    s'.Snapshot versions fullKey id body := by
  cases e with
  | put t key value =>
      obtain rfl := Option.some.inj hStep
      exact h.write (hKeeps.put t key value s.bucket)
  | putVersioned t key value =>
      obtain rfl := Option.some.inj hStep
      exact h.write (hKeeps.putVersioned t key value s.bucket)
  | del t key =>
      obtain rfl := Option.some.inj hStep
      exact h.write (hKeeps.del t key s.bucket)
  | batch t ops =>
      obtain rfl := Option.some.inj hStep
      exact h.write (hKeeps.batch t ops s.bucket)
  | streamPut t key input =>
      obtain ⟨⟨r, w⟩, hPut, hNext⟩ := Option.bind_eq_some_iff.mp hStep
      obtain rfl := Option.some.inj hNext
      exact h.write (hKeeps.streamPut t key hPut)
  | streamGetVersioned t key versionId =>
      obtain rfl := Option.some.inj hStep
      exact h.open t.chunkSize_pos fun _ _ _ =>
        ⟨body, VersionReader.reads_start t client key versionId body⟩
  | pull k =>
      obtain ⟨r, hAt, hNext⟩ := Option.bind_eq_some_iff.mp hStep
      obtain rfl := Option.some.inj hNext
      exact h.pull hKeeps (List.mem_of_getElem? hAt) k
  | clone k =>
      obtain ⟨r, hAt, hNext⟩ := Option.bind_eq_some_iff.mp hStep
      obtain rfl := Option.some.inj hNext
      have hMem := List.mem_of_getElem? hAt
      exact h.open (h.positive r hMem) (h.reads r hMem)

end BucketSession

namespace VersioningClient
variable {client : VersioningClient ω} {versions : ω → Versions}

theorem putVersion_of_ok {t : S3Table} {key value id : Bytes} {w w' : ω}
    (h : client.putVersioned t key value w = (.ok ⟨id⟩, w')) :
    client.putVersion ((client.backend t).resolveKey key) value w = (.ok id, w') := by
  unfold putVersioned at h
  split at h
  next err w₁ hPut => cases h
  next id' w₁ hPut =>
    rw [hPut]
    obtain ⟨hId, rfl⟩ := Prod.mk.inj h
    rw [PutResult.mk.inj (Except.ok.inj hId)]

/-- A version is a snapshot. Whatever is put, deleted or uploaded after it was put, under its key
or elsewhere, it is read as it was put, an empty value too; a stream of it and the copies of the
stream bring nothing else, though the bucket changes between their pulls; and no other version
gets its id. -/
theorem version_is_snapshot (hKeeps : client.KeepsVersions versions) {t : S3Table}
    {key value id : Bytes} {w w' : ω} {s : BucketSession ω}
    (hPut : client.putVersioned t key value w = (.ok ⟨id⟩, w'))
    (hRun : Transition.Runs (BucketSession.step client) ⟨w', []⟩ s) :
    (client.backend t).getVersioned key id s.bucket = .ok (some value) ∧
    (∀ r ∈ s.readers, r.stream.key = (client.backend t).resolveKey key → r.stream.versionId = id →
      min r.stream.chunkSize value.length < uint32Size →
        (∀ e, .error e ∉ r.answers) ∧ r.brought <+: value ∧
        (.ok none ∈ r.answers → r.brought = value) ∧
        (value.length < r.answers.length → .ok none ∈ r.answers)) ∧
    ∀ t' key' value' id' w'', client.putVersioned t' key' value' s.bucket = (.ok ⟨id'⟩, w'') →
      (client.backend t').resolveKey key' = (client.backend t).resolveKey key → id' ≠ id := by
  have hMade := hKeeps.made (putVersion_of_ok hPut)
  have hStart : BucketSession.Snapshot versions ((client.backend t).resolveKey key) id value
      ⟨w', []⟩ :=
    ⟨hMade.2, fun r hMem => absurd hMem List.not_mem_nil, fun r hMem => absurd hMem List.not_mem_nil⟩
  have hEnd : s.Snapshot versions ((client.backend t).resolveKey key) id value :=
    Transition.RunsWhere.preserves (fun s e s' h _ hStep => h.step hKeeps hStep) hRun hStart
  refine ⟨?_, ?_, ?_⟩
  · have hGet : (client.backend t).client.getObject ⟨(client.backend t).resolveKey key, id, none⟩
        s.bucket = .ok value := hKeeps.getObject hEnd.stored
    rw [S3Backend.getVersioned, hGet]
  · intro r hMem hKey hId hFits
    obtain ⟨rest, hReads⟩ := hEnd.reads r hMem hKey hId hFits
    refine ⟨hReads.noError, ⟨rest, hReads.whole⟩, ?_, ?_⟩
    · intro hEnded
      rw [← hReads.whole, hReads.ended hEnded, List.append_nil]
    · intro hMany
      exact hReads.counted.resolve_right (by omega)
  · rintro t' key' value' id' w'' hLater hSameKey rfl
    have hFresh := (hKeeps.made (putVersion_of_ok hLater)).1
    rw [hSameKey, hEnd.stored] at hFresh
    cases hFresh

end VersioningClient

/-! ## A service in memory -/

/-- All that was put and deleted, the latest last. A version id is as long as what came up to
it. -/
structure VersionLog where
  entries : List (Bytes × Option Bytes)

namespace VersionLog

def versions (log : VersionLog) (key : Bytes) : Bytes → Option Bytes
  | [] => none
  | _ :: before =>
      match log.entries[before.length]? with
      | some (k, some body) => if k = key then some body else none
      | _ => none

def latest (log : VersionLog) (key : Bytes) : Option Bytes :=
  (log.entries.reverse.find? fun e => e.1 == key).bind Prod.snd

def getObject (req : GetObjectRequest) (log : VersionLog) : Except AwsError Bytes :=
  let object := if req.versionId = [] then log.latest req.key else log.versions req.key req.versionId
  match object, req.range with
  | none, _ => .error ⟨"NoSuchKey", AwsError.notFound, "The specified key does not exist."⟩
  | some body, none => .ok body
  | some body, some (first, last) =>
      if first < body.length then .ok ((body.drop first).take (last + 1 - first))
      else .error ⟨"InvalidRange", AwsError.rangeNotSatisfiable,
        "The requested range is not satisfiable"⟩

def add (log : VersionLog) (more : List (Bytes × Option Bytes)) : VersionLog :=
  ⟨log.entries ++ more⟩

def nextId (log : VersionLog) : Bytes := List.replicate (log.entries.length + 1) 0

def notImplemented : AwsError :=
  ⟨"NotImplemented", 501, "A header you provided implies functionality that is not implemented"⟩

/-- Keys are listed on one page, and uploads in parts are not offered. -/
def client : VersioningClient VersionLog where
  getObject := getObject
  putObject := fun key body log => (.ok (), log.add [(key, some body)])
  deleteObject := fun key log => (.ok (), log.add [(key, none)])
  deleteObjects := fun keys log => (.ok [], log.add (keys.map fun key => (key, none)))
  listObjectsV2 := fun start _ log => .ok ⟨((log.entries.map Prod.fst).dedup.filter fun key =>
    (log.latest key).isSome && startsWith key start), false, []⟩
  createMultipartUpload := fun _ log => (.error notImplemented, log)
  uploadPart := fun _ _ _ _ log => (.error notImplemented, log)
  completeMultipartUpload := fun _ _ _ log => (.error notImplemented, log)
  abortMultipartUpload := fun _ _ log => (.error notImplemented, log)
  putVersion := fun key body log => (.ok log.nextId, log.add [(key, some body)])
  putObject_eq := fun _ _ _ => rfl

variable {log : VersionLog}

theorem kept_add (log : VersionLog) (more : List (Bytes × Option Bytes)) :
    Versions.Kept log.versions (log.add more).versions := by
  intro key id body h
  cases id with
  | nil => cases h
  | cons b before =>
      have hInside : before.length < log.entries.length := by
        by_contra hBeyond
        rw [versions, List.getElem?_eq_none (Nat.not_lt.mp hBeyond)] at h
        cases h
      rw [versions, add, List.getElem?_append_left hInside]
      exact h

theorem versions_nextId (log : VersionLog) (key : Bytes) : log.versions key log.nextId = none := by
  rw [nextId, List.replicate_succ, versions, List.length_replicate,
    List.getElem?_eq_none le_rfl]

theorem versions_add_nextId (log : VersionLog) (key body : Bytes) :
    (log.add [(key, some body)]).versions key log.nextId = some body := by
  rw [nextId, List.replicate_succ, versions, List.length_replicate, add,
    List.getElem?_append_right le_rfl, Nat.sub_self]
  simp

theorem object_eq {key id body : Bytes} (h : log.versions key id = some body) :
    (if id = [] then log.latest key else log.versions key id) = some body := by
  cases id with
  | nil => cases h
  | cons b before => rwa [if_neg (List.cons_ne_nil b before)]

theorem client_keepsVersions : client.KeepsVersions versions where
  made := by
    intro key body id w w' h
    obtain ⟨hId, rfl⟩ := Prod.mk.inj h
    obtain rfl := Except.ok.inj hId
    exact ⟨w.versions_nextId key, w.versions_add_nextId key body⟩
  putVersion := fun _ _ w => w.kept_add _
  deleteObject := fun _ w => w.kept_add _
  deleteObjects := fun _ w => w.kept_add _
  createMultipartUpload := fun _ _ => .refl _
  uploadPart := fun _ _ _ _ _ => .refl _
  completeMultipartUpload := fun _ _ _ _ => .refl _
  abortMultipartUpload := fun _ _ _ => .refl _
  getObject := by
    intro key id body w h
    show getObject ⟨key, id, none⟩ w = .ok body
    simp only [getObject, object_eq h]
  getRange := by
    intro key id body w h
    constructor
    · intro first last hFirst hLast
      show getObject ⟨key, id, some (first, last)⟩ w = _
      simp only [getObject, object_eq h, if_pos hFirst]
    · intro first last hFirst
      refine ⟨⟨"InvalidRange", AwsError.rangeNotSatisfiable,
        "The requested range is not satisfiable"⟩, ?_, rfl⟩
      show getObject ⟨key, id, some (first, last)⟩ w = _
      simp only [getObject, object_eq h, if_neg (Nat.not_lt.mpr hFirst)]

end VersionLog

namespace VersioningClient
open VersionLog (client)

/-- A table whose streams ask for two bytes at a time. -/
def pairTable : S3Table := ⟨ascii "s/t/", 2, by decide⟩

/-- The key is put again and deleted while a stream of its first version is pulled. -/
def overwriting : List BucketEvent :=
  [.streamGetVersioned pairTable (ascii "k") [0], .pull 0, .put pairTable (ascii "k") [9],
    .del pairTable (ascii "k"), .pull 0, .pull 0]

theorem version_is_snapshot_overwritten : ∃ s : BucketSession VersionLog,
    s.readers.map VersionReader.brought = [[1, 2, 3]] ∧
    (client.backend pairTable).getVersioned (ascii "k") [0] s.bucket = .ok (some [1, 2, 3]) ∧
    (∀ r ∈ s.readers, r.stream.key = (client.backend pairTable).resolveKey (ascii "k") →
      r.stream.versionId = [0] → min r.stream.chunkSize [1, 2, 3].length < uint32Size →
        (∀ e, .error e ∉ r.answers) ∧ r.brought <+: [1, 2, 3] ∧
        (.ok none ∈ r.answers → r.brought = [1, 2, 3]) ∧
        ([1, 2, 3].length < r.answers.length → .ok none ∈ r.answers)) ∧
    ∀ t' key' value' id' w'', client.putVersioned t' key' value' s.bucket = (.ok ⟨id'⟩, w'') →
      (client.backend t').resolveKey key' = (client.backend pairTable).resolveKey (ascii "k") →
        id' ≠ [0] := by
  have hPut : client.putVersioned pairTable (ascii "k") [1, 2, 3] ⟨[]⟩ =
      (.ok ⟨[0]⟩, ⟨[((client.backend pairTable).resolveKey (ascii "k"), some [1, 2, 3])]⟩) := rfl
  obtain ⟨s, hSteps⟩ : ∃ s, overwriting.foldlM (BucketSession.step client)
      ⟨⟨[((client.backend pairTable).resolveKey (ascii "k"), some [1, 2, 3])]⟩, []⟩ = some s :=
    ⟨_, rfl⟩
  have hRun : Transition.Runs (BucketSession.step client) _ s :=
    .of_foldlM overwriting (fun _ _ _ => trivial) hSteps
  have hBrought : s.readers.map VersionReader.brought = [[1, 2, 3]] := by
    obtain rfl := Option.some.inj hSteps
    rfl
  exact ⟨s, hBrought, version_is_snapshot VersionLog.client_keepsVersions hPut hRun⟩

end VersioningClient
end CelerMem
