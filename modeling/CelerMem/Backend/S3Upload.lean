import CelerMem.Backend.S3

/-! `stream_put` of S3: a multipart upload with one part for each chunk of the stream, and
what is left of it when it fails. -/
namespace CelerMem

variable {ω : Type}

structure CompletedPart where
  partNumber : Nat
  eTag : Bytes
  deriving DecidableEq

/-- The requests of a multipart upload, by key, upload id, and part number and body. -/
structure MultipartClient (ω : Type) where
  createMultipartUpload : Bytes → ω → Except AwsError Bytes × ω
  uploadPart : Bytes → Bytes → Nat → Bytes → ω → Except AwsError Bytes × ω
  completeMultipartUpload : Bytes → Bytes → List CompletedPart → ω → Except AwsError Unit × ω
  abortMultipartUpload : Bytes → Bytes → ω → Except AwsError Unit × ω

structure UploadState (ω : Type) where
  input : StreamHandle Byte
  parts : List CompletedPart
  partNumber : Nat
  bucket : ω

/-- A pass of the loop. It leaves with the parts of the whole stream, or with an error after
the upload was aborted; how the request to abort it was answered is not looked at. -/
def uploadTurn (client : MultipartClient ω) (fullKey uploadId : Bytes) (s : UploadState ω) :
    Option (Loop.Turn (UploadState ω) (Result (List CompletedPart) × ω)) := do
  let (r, input) ← s.input.pull
  match r with
  | .error e => some (.leave (.error e, (client.abortMultipartUpload fullKey uploadId s.bucket).2))
  | .ok none => some (.leave (.ok s.parts, s.bucket))
  | .ok (some chunk) =>
      match client.uploadPart fullKey uploadId s.partNumber chunk.toList s.bucket with
      | (.error err, w) =>
          some (.leave (.error ⟨"S3StreamPut", err.message⟩,
            (client.abortMultipartUpload fullKey uploadId w).2))
      | (.ok eTag, w) =>
          some (.again ⟨input, s.parts ++ [⟨s.partNumber, eTag⟩], s.partNumber + 1, w⟩)

/-- `CompleteMultipartUpload`, when the loop has uploaded the whole stream. -/
def completeUpload (client : MultipartClient ω) (fullKey uploadId : Bytes) :
    Result (List CompletedPart) × ω → VoidResult × ω
  | (.error e, w) => (.error e, w)
  | (.ok parts, w) =>
      match client.completeMultipartUpload fullKey uploadId parts w with
      | (.error err, w) => (.error ⟨"S3StreamPut", err.message⟩, w)
      | (.ok (), w) => (.ok (), w)

/-- `none` when a pull of the stream, or the stream itself, does not come to an end. -/
def S3Backend.streamPut (backend : S3Backend ω) (client : MultipartClient ω) (key : Bytes)
    (input : StreamHandle Byte) (w : ω) : Option (VoidResult × ω) :=
  let fullKey := backend.resolveKey key
  match client.createMultipartUpload fullKey w with
  | (.error err, w) => some (.error ⟨"S3StreamPut", err.message⟩, w)
  | (.ok uploadId, w) =>
      (Loop.run (uploadTurn client fullKey uploadId) ⟨input, [], 1, w⟩).map
        (completeUpload client fullKey uploadId)

/-! ## What happens to the stream -/

/-- Every part of the stream is taken, from a part number and a bucket on. -/
inductive Uploaded (client : MultipartClient ω) (fullKey uploadId : Bytes) :
    StreamHandle Byte → Nat → ω → List CompletedPart → ω → Prop where
  | done {input input' : StreamHandle Byte} {n : Nat} {w : ω}
      (hPull : input.pull = some (.ok none, input')) :
      Uploaded client fullKey uploadId input n w [] w
  | part {input input' : StreamHandle Byte} {n : Nat} {w w' w'' : ω} {chunk : Chunk Byte}
      {eTag : Bytes} {parts : List CompletedPart}
      (hPull : input.pull = some (.ok (some chunk), input'))
      (hPart : client.uploadPart fullKey uploadId n chunk.toList w = (.ok eTag, w'))
      (rest : Uploaded client fullKey uploadId input' (n + 1) w' parts w'') :
      Uploaded client fullKey uploadId input n w (⟨n, eTag⟩ :: parts) w''

/-- The stream ends in an error, or a part is refused; the bucket is the one before the
upload is aborted. -/
inductive Broken (client : MultipartClient ω) (fullKey uploadId : Bytes) :
    StreamHandle Byte → Nat → ω → Error → ω → Prop where
  | source {input input' : StreamHandle Byte} {n : Nat} {w : ω} {e : Error}
      (hPull : input.pull = some (.error e, input')) :
      Broken client fullKey uploadId input n w e w
  | refused {input input' : StreamHandle Byte} {n : Nat} {w w' : ω} {chunk : Chunk Byte}
      {err : AwsError} (hPull : input.pull = some (.ok (some chunk), input'))
      (hPart : client.uploadPart fullKey uploadId n chunk.toList w = (.error err, w')) :
      Broken client fullKey uploadId input n w ⟨"S3StreamPut", err.message⟩ w'
  | part {input input' : StreamHandle Byte} {n : Nat} {w w' w'' : ω} {chunk : Chunk Byte}
      {eTag : Bytes} {e : Error} (hPull : input.pull = some (.ok (some chunk), input'))
      (hPart : client.uploadPart fullKey uploadId n chunk.toList w = (.ok eTag, w'))
      (rest : Broken client fullKey uploadId input' (n + 1) w' e w'') :
      Broken client fullKey uploadId input n w e w''

section Loop
variable {client : MultipartClient ω} {fullKey uploadId : Bytes} {input : StreamHandle Byte}
  {n : Nat} {w w' : ω} {parts : List CompletedPart} {e : Error}

theorem Uploaded.run (h : Uploaded client fullKey uploadId input n w parts w')
    (before : List CompletedPart) :
    Loop.run (uploadTurn client fullKey uploadId) ⟨input, before, n, w⟩ =
      some (.ok (before ++ parts), w') := by
  induction h generalizing before with
  | done hPull =>
      rw [List.append_nil]
      exact Loop.run_leave (by simp [uploadTurn, hPull])
  | part hPull hPart _ ih =>
      rw [Loop.run_again (by simp [uploadTurn, hPull, hPart]; rfl), ih, List.append_assoc]
      rfl

theorem Broken.run (h : Broken client fullKey uploadId input n w e w')
    (before : List CompletedPart) :
    Loop.run (uploadTurn client fullKey uploadId) ⟨input, before, n, w⟩ =
      some (.error e, (client.abortMultipartUpload fullKey uploadId w').2) := by
  induction h generalizing before with
  | source hPull => exact Loop.run_leave (by simp [uploadTurn, hPull])
  | refused hPull hPart => exact Loop.run_leave (by simp [uploadTurn, hPull, hPart])
  | part hPull hPart _ ih =>
      rw [Loop.run_again (by simp [uploadTurn, hPull, hPart]; rfl), ih]

/-- The stream is taken as a whole, or breaks. -/
def Decided (client : MultipartClient ω) (fullKey uploadId : Bytes) (s : UploadState ω) : Prop :=
  (∃ parts w, Uploaded client fullKey uploadId s.input s.partNumber s.bucket parts w) ∨
    ∃ e w, Broken client fullKey uploadId s.input s.partNumber s.bucket e w

theorem decided_again {s t : UploadState ω}
    (hTurn : uploadTurn client fullKey uploadId s = some (.again t))
    (hRest : Decided client fullKey uploadId t) : Decided client fullKey uploadId s := by
  unfold uploadTurn at hTurn
  obtain ⟨⟨r, input'⟩, hPull, hTurn⟩ := Option.bind_eq_some_iff.mp hTurn
  match r with
  | .error e => cases hTurn
  | .ok none => cases hTurn
  | .ok (some chunk) =>
      dsimp only at hTurn
      split at hTurn
      next => cases hTurn
      next eTag w hPart =>
        obtain rfl := Loop.Turn.again.inj (Option.some.inj hTurn)
        rcases hRest with ⟨parts, w', hUploaded⟩ | ⟨e, w', hBroken⟩
        · exact .inl ⟨_, w', .part hPull hPart hUploaded⟩
        · exact .inr ⟨e, w', .part hPull hPart hBroken⟩

theorem decided_leave {s : UploadState ω} {result : Result (List CompletedPart) × ω}
    (hTurn : uploadTurn client fullKey uploadId s = some (.leave result)) :
    Decided client fullKey uploadId s := by
  unfold uploadTurn at hTurn
  obtain ⟨⟨r, input'⟩, hPull, hTurn⟩ := Option.bind_eq_some_iff.mp hTurn
  match r with
  | .error e => exact .inr ⟨e, s.bucket, .source hPull⟩
  | .ok none => exact .inl ⟨[], s.bucket, .done hPull⟩
  | .ok (some chunk) =>
      dsimp only at hTurn
      split at hTurn
      next err w hPart => exact .inr ⟨_, w, .refused hPull hPart⟩
      next => cases hTurn

/-- A loop that comes to an end came to one of the two. -/
theorem decided_of_run {s : UploadState ω} {result : Result (List CompletedPart) × ω}
    (hRun : Loop.run (uploadTurn client fullKey uploadId) s = some result) :
    Decided client fullKey uploadId s :=
  Loop.run_induction (motive := fun s _ => Decided client fullKey uploadId s)
    (fun _ _ _ hTurn hRest => decided_again hTurn hRest) (fun _ _ hTurn => decided_leave hTurn) hRun

end Loop

/-! ## What the service keeps -/

/-- An upload that was begun: the tag and the body of each part. -/
structure Upload where
  key : Bytes
  parts : Nat → Option (Bytes × Bytes)

def Upload.begin (key : Bytes) : Upload := ⟨key, fun _ => none⟩

def Upload.put (upload : Upload) (n : Nat) (eTag body : Bytes) : Upload :=
  { upload with parts := Function.update upload.parts n (some (eTag, body)) }

/-- The objects that are visible, and the uploads that are neither completed nor aborted. -/
structure BucketView (ω : Type) where
  objects : ω → Contents
  uploads : ω → Bytes → Option Upload

/-- A request that fails changes nothing, and one that is answered does what it says; any of
them may fail. -/
structure MultipartClient.Keeps (client : MultipartClient ω) (view : BucketView ω) : Prop where
  created : ∀ {key id w w'}, client.createMultipartUpload key w = (.ok id, w') →
    view.uploads w id = none ∧ view.objects w' = view.objects w ∧
      view.uploads w' = Function.update (view.uploads w) id (some (.begin key))
  notCreated : ∀ {key err w w'}, client.createMultipartUpload key w = (.error err, w') →
    view.objects w' = view.objects w ∧ view.uploads w' = view.uploads w
  part : ∀ {key id n body r w w'}, client.uploadPart key id n body w = (r, w') →
    view.objects w' = view.objects w ∧
      ∀ other, view.uploads w' other = none ↔ view.uploads w other = none
  notCompleted : ∀ {key id parts err w w'},
    client.completeMultipartUpload key id parts w = (.error err, w') →
    view.objects w' = view.objects w ∧ view.uploads w' = view.uploads w
  aborted : ∀ {key id w w'}, client.abortMultipartUpload key id w = (.ok (), w') →
    view.objects w' = view.objects w ∧
      view.uploads w' = Function.update (view.uploads w) id none
  notAborted : ∀ {key id err w w'}, client.abortMultipartUpload key id w = (.error err, w') →
    view.objects w' = view.objects w ∧ view.uploads w' = view.uploads w

def minPartSize : Nat := 5 * 2 ^ 20

def maxPartSize : Nat := 5 * 2 ^ 30

def maxPartNumber : Nat := 10000

/-- The body of a part that a completion lists, if it was uploaded under this tag. -/
def Upload.body (upload : Upload) (part : CompletedPart) : Option Bytes :=
  match upload.parts part.partNumber with
  | none => none
  | some (eTag, body) => if eTag = part.eTag then some body else none

def Upload.bodies (upload : Upload) (parts : List CompletedPart) : Option (List Bytes) :=
  parts.mapM upload.body

/-- At least one part, in the order of the numbers, and all but the last of full size. -/
def Upload.assemble (upload : Upload) (limit : Nat) (parts : List CompletedPart) : Option Bytes :=
  match upload.bodies parts with
  | none => none
  | some bodies =>
      if bodies ≠ [] ∧ (parts.map CompletedPart.partNumber).Pairwise (· < ·) ∧
          (∀ body ∈ bodies.dropLast, minPartSize ≤ body.length) ∧ bodies.flatten.length ≤ limit then
        some bodies.flatten
      else none

/-- The rules of multipart uploads, when no request fails for another reason. -/
structure MultipartClient.Serves (client : MultipartClient ω) (view : BucketView ω) (limit : Nat) :
    Prop extends client.Keeps view where
  create : ∀ key w, ∃ id w', client.createMultipartUpload key w = (.ok id, w')
  partTaken : ∀ {key id upload n body w}, view.uploads w id = some upload → upload.key = key →
    1 ≤ n → n ≤ maxPartNumber → body.length ≤ maxPartSize →
    ∃ eTag w', client.uploadPart key id n body w = (.ok eTag, w') ∧
      view.objects w' = view.objects w ∧
      view.uploads w' = Function.update (view.uploads w) id (some (upload.put n eTag body))
  partRefused : ∀ {key id n body w}, maxPartNumber < n →
    ∃ err w', client.uploadPart key id n body w = (.error err, w')
  completed : ∀ {id upload parts body w}, view.uploads w id = some upload →
    upload.assemble limit parts = some body →
    ∃ w', client.completeMultipartUpload upload.key id parts w = (.ok (), w') ∧
      view.objects w' = Function.update (view.objects w) upload.key (some body)
  completionRefused : ∀ {id upload parts w}, view.uploads w id = some upload →
    upload.assemble limit parts = none →
    ∃ err w', client.completeMultipartUpload upload.key id parts w = (.error err, w')

/-! ## A service in memory -/

open Materialization (Memory)

/-- Upload ids are numbered. -/
def uploadIdOf (n : Nat) : Bytes := List.replicate n 0

structure S3Bucket where
  memory : Memory
  uploads : Bytes → Option Upload
  created : Nat
  fresh : ∀ n, created ≤ n → uploads (uploadIdOf n) = none

theorem uploadIdOf_inj {m n : Nat} (h : uploadIdOf m = uploadIdOf n) : m = n := by
  have hLength := congrArg List.length h
  rwa [uploadIdOf, uploadIdOf, List.length_replicate, List.length_replicate] at hLength

namespace S3Bucket

def empty : S3Bucket := ⟨⟨[], List.nodup_nil, []⟩, fun _ => none, 0, fun _ _ => rfl⟩

def view : BucketView S3Bucket := ⟨fun b => b.memory.contents, fun b => b.uploads⟩

def createUpload (b : S3Bucket) (key : Bytes) : S3Bucket :=
  { b with
    uploads := Function.update b.uploads (uploadIdOf b.created) (some (.begin key))
    created := b.created + 1
    fresh := by
      intro n hn
      have hOther : uploadIdOf n ≠ uploadIdOf b.created := fun h => by
        have hEq := uploadIdOf_inj h
        omega
      rw [Function.update_of_ne hOther]
      exact b.fresh n (by omega) }

/-- What becomes of an upload that is there. -/
def setUpload (b : S3Bucket) (id : Bytes) (upload : Option Upload) (hThere : b.uploads id ≠ none) :
    S3Bucket :=
  { b with
    uploads := Function.update b.uploads id upload
    fresh := by
      intro n hn
      have hOther : uploadIdOf n ≠ id := fun h => hThere (h ▸ b.fresh n hn)
      rw [Function.update_of_ne hOther]
      exact b.fresh n hn }

def noSuchUpload : AwsError :=
  ⟨"NoSuchUpload", AwsError.notFound, "The specified upload does not exist."⟩

def refused : AwsError := ⟨"InvalidRequest", 400, "The request is refused."⟩

def uploadPart (key id : Bytes) (n : Nat) (body : Bytes) (b : S3Bucket) :
    Except AwsError Bytes × S3Bucket :=
  match h : b.uploads id with
  | none => (.error noSuchUpload, b)
  | some upload =>
      if upload.key = key ∧ 1 ≤ n ∧ n ≤ maxPartNumber ∧ body.length ≤ maxPartSize then
        (.ok (uploadIdOf n), b.setUpload id (some (upload.put n (uploadIdOf n) body)) (by simp [h]))
      else (.error refused, b)

def complete (limit : Nat) (key id : Bytes) (parts : List CompletedPart) (b : S3Bucket) :
    Except AwsError Unit × S3Bucket :=
  match h : b.uploads id with
  | none => (.error noSuchUpload, b)
  | some upload =>
      match upload.assemble limit parts with
      | none => (.error refused, b)
      | some body =>
          if upload.key = key then
            (.ok (), { b.setUpload id none (by simp [h]) with memory := b.memory.insert key body })
          else (.error refused, b)

def abort (key id : Bytes) (b : S3Bucket) : Except AwsError Unit × S3Bucket :=
  match h : b.uploads id with
  | none => (.error noSuchUpload, b)
  | some upload =>
      if upload.key = key then (.ok (), b.setUpload id none (by simp [h]))
      else (.error noSuchUpload, b)

def multipart (limit : Nat) : MultipartClient S3Bucket where
  createMultipartUpload key b := (.ok (uploadIdOf b.created), b.createUpload key)
  uploadPart := uploadPart
  completeMultipartUpload := complete limit
  abortMultipartUpload := abort

section Requests
variable {b b' : S3Bucket} {key id : Bytes} {n limit : Nat} {body : Bytes}
  {parts : List CompletedPart} {upload : Upload}

theorem uploadPart_ok (hUpload : b.uploads id = some upload) (hKey : upload.key = key) (hLow : 1 ≤ n)
    (hHigh : n ≤ maxPartNumber) (hBody : body.length ≤ maxPartSize) :
    ∃ b', uploadPart key id n body b = (.ok (uploadIdOf n), b') ∧ b'.memory = b.memory ∧
      b'.uploads = Function.update b.uploads id (some (upload.put n (uploadIdOf n) body)) := by
  unfold uploadPart
  split
  next hNone =>
    rw [hUpload] at hNone
    cases hNone
  next other hOther =>
    obtain rfl : upload = other := Option.some.inj (hUpload.symm.trans hOther)
    rw [if_pos ⟨hKey, hLow, hHigh, hBody⟩]
    exact ⟨_, rfl, rfl, rfl⟩

/-- A part is stored in its upload, or nothing happens. -/
theorem uploadPart_cases {r : Except AwsError Bytes} (h : uploadPart key id n body b = (r, b')) :
    (r = .ok (uploadIdOf n) ∧ n ≤ maxPartNumber ∧ b'.memory = b.memory ∧
      ∃ upload, b.uploads id = some upload ∧
        b'.uploads = Function.update b.uploads id (some (upload.put n (uploadIdOf n) body))) ∨
      (∃ err, r = .error err) ∧ b' = b := by
  unfold uploadPart at h
  split at h
  next =>
    obtain ⟨rfl, rfl⟩ := Prod.mk.inj h
    exact .inr ⟨⟨_, rfl⟩, rfl⟩
  next upload hUpload =>
    split at h
    next hFits =>
      obtain ⟨rfl, rfl⟩ := Prod.mk.inj h
      exact .inl ⟨rfl, hFits.2.2.1, rfl, upload, hUpload, rfl⟩
    next =>
      obtain ⟨rfl, rfl⟩ := Prod.mk.inj h
      exact .inr ⟨⟨_, rfl⟩, rfl⟩

theorem complete_eq (hUpload : b.uploads id = some upload) :
    (∀ body, upload.assemble limit parts = some body →
      ∃ b', complete limit upload.key id parts b = (.ok (), b') ∧
        b'.memory = b.memory.insert upload.key body) ∧
    (upload.assemble limit parts = none →
      complete limit upload.key id parts b = (.error refused, b)) := by
  unfold complete
  split
  next hNone =>
    rw [hUpload] at hNone
    cases hNone
  next other hOther =>
    obtain rfl : upload = other := Option.some.inj (hUpload.symm.trans hOther)
    constructor
    · intro body hBody
      simp only [hBody, if_true]
      exact ⟨_, rfl, rfl⟩
    · intro hBody
      simp only [hBody]

theorem complete_error {err : AwsError} (h : complete limit key id parts b = (.error err, b')) :
    b' = b := by
  unfold complete at h
  split at h
  next => exact (Prod.mk.inj h).2.symm
  next =>
    split at h
    next => exact (Prod.mk.inj h).2.symm
    next =>
      split at h
      next => cases (Prod.mk.inj h).1
      next => exact (Prod.mk.inj h).2.symm

theorem abort_cases {r : Except AwsError Unit} (h : abort key id b = (r, b')) :
    (r = .ok () ∧ b'.memory = b.memory ∧ b'.uploads = Function.update b.uploads id none) ∨
      (∃ err, r = .error err) ∧ b' = b := by
  unfold abort at h
  split at h
  next =>
    obtain ⟨rfl, rfl⟩ := Prod.mk.inj h
    exact .inr ⟨⟨_, rfl⟩, rfl⟩
  next =>
    split at h
    next =>
      obtain ⟨rfl, rfl⟩ := Prod.mk.inj h
      exact .inl ⟨rfl, rfl, rfl⟩
    next =>
      obtain ⟨rfl, rfl⟩ := Prod.mk.inj h
      exact .inr ⟨⟨_, rfl⟩, rfl⟩

end Requests

theorem multipart_keeps (limit : Nat) : (multipart limit).Keeps view where
  created := by
    intro key id b b' h
    obtain ⟨hId, rfl⟩ := Prod.mk.inj h
    obtain rfl := Except.ok.inj hId
    exact ⟨b.fresh b.created le_rfl, rfl, rfl⟩
  notCreated := by
    intro key err b b' h
    cases (Prod.mk.inj h).1
  part := by
    intro key id n body r b b' h
    rcases uploadPart_cases h with ⟨-, -, hMemory, upload, hUpload, hUploads⟩ | ⟨-, rfl⟩
    · refine ⟨congrArg Memory.contents hMemory, fun other => ?_⟩
      show b'.uploads other = none ↔ b.uploads other = none
      rw [hUploads]
      by_cases hEq : other = id
      · simp [hEq, hUpload]
      · rw [Function.update_of_ne hEq]
    · exact ⟨rfl, fun _ => Iff.rfl⟩
  notCompleted := by
    intro key id parts err b b' h
    obtain rfl := complete_error h
    exact ⟨rfl, rfl⟩
  aborted := by
    intro key id b b' h
    rcases abort_cases h with ⟨-, hMemory, hUploads⟩ | ⟨⟨_, hErr⟩, -⟩
    · exact ⟨congrArg Memory.contents hMemory, hUploads⟩
    · cases hErr
  notAborted := by
    intro key id err b b' h
    rcases abort_cases h with ⟨hOk, -⟩ | ⟨-, rfl⟩
    · cases hOk
    · exact ⟨rfl, rfl⟩

theorem multipart_serves (limit : Nat) : (multipart limit).Serves view limit where
  toKeeps := multipart_keeps limit
  create := fun _ _ => ⟨_, _, rfl⟩
  partTaken := by
    intro key id upload n body b hUpload hKey hLow hHigh hBody
    obtain ⟨b', hPart, hMemory, hUploads⟩ := uploadPart_ok hUpload hKey hLow hHigh hBody
    exact ⟨_, b', hPart, congrArg Memory.contents hMemory, hUploads⟩
  partRefused := by
    intro key id n body b hHigh
    cases hPart : uploadPart key id n body b with
    | mk r b' =>
        rcases uploadPart_cases hPart with ⟨-, hFits, -⟩ | ⟨⟨err, rfl⟩, -⟩
        · omega
        · exact ⟨err, b', hPart⟩
  completed := by
    intro id upload parts body b hUpload hBody
    obtain ⟨b', hComplete, hMemory⟩ := (complete_eq hUpload).1 body hBody
    exact ⟨b', hComplete, (congrArg Memory.contents hMemory).trans (b.memory.contents_insert _ _)⟩
  completionRefused := by
    intro id upload parts b hUpload hNone
    exact ⟨_, _, (complete_eq hUpload).2 hNone⟩

end S3Bucket

/-- The object under the key is as before, and no upload is left that was not there. -/
structure CleanedUp (view : BucketView ω) (fullKey : Bytes) (w w' : ω) : Prop where
  object : view.objects w' fullKey = view.objects w fullKey
  uploads : ∀ id, view.uploads w id = none → view.uploads w' id = none

/-- The whole stream was uploaded, and the request to complete the upload fails. -/
def CompletionFails (client : MultipartClient ω) (fullKey : Bytes) (input : StreamHandle Byte)
    (w : ω) : Prop :=
  ∃ id w₁ parts w₂ err w₃, client.createMultipartUpload fullKey w = (.ok id, w₁) ∧
    Uploaded client fullKey id input 1 w₁ parts w₂ ∧
    client.completeMultipartUpload fullKey id parts w₂ = (.error err, w₃)

/-- The upload broke, and the request to abort it fails. -/
def AbortFails (client : MultipartClient ω) (fullKey : Bytes) (input : StreamHandle Byte)
    (w : ω) : Prop :=
  ∃ id w₁ e w₂ err w₃, client.createMultipartUpload fullKey w = (.ok id, w₁) ∧
    Broken client fullKey id input 1 w₁ e w₂ ∧
    client.abortMultipartUpload fullKey id w₂ = (.error err, w₃)

section Cleanup
variable {client : MultipartClient ω} {view : BucketView ω} {fullKey uploadId : Bytes}
  {input : StreamHandle Byte} {n : Nat} {w w' : ω} {parts : List CompletedPart} {e : Error}

/-- What the parts of an upload leave alone. -/
structure OnlyParts (view : BucketView ω) (w w' : ω) : Prop where
  objects : view.objects w' = view.objects w
  uploads : ∀ other, view.uploads w' other = none ↔ view.uploads w other = none

theorem OnlyParts.trans {w'' : ω} (h : OnlyParts view w w') (h' : OnlyParts view w' w'') :
    OnlyParts view w w'' where
  objects := h'.objects.trans h.objects
  uploads other := (h'.uploads other).trans (h.uploads other)

theorem Uploaded.onlyParts (hKeeps : client.Keeps view)
    (h : Uploaded client fullKey uploadId input n w parts w') : OnlyParts view w w' := by
  induction h with
  | done => exact ⟨rfl, fun _ => Iff.rfl⟩
  | part _ hPart _ ih =>
      obtain ⟨hObjects, hUploads⟩ := hKeeps.part hPart
      exact OnlyParts.trans ⟨hObjects, hUploads⟩ ih

theorem Broken.onlyParts (hKeeps : client.Keeps view)
    (h : Broken client fullKey uploadId input n w e w') : OnlyParts view w w' := by
  induction h with
  | source => exact ⟨rfl, fun _ => Iff.rfl⟩
  | refused _ hPart =>
      obtain ⟨hObjects, hUploads⟩ := hKeeps.part hPart
      exact ⟨hObjects, hUploads⟩
  | part _ hPart _ ih =>
      obtain ⟨hObjects, hUploads⟩ := hKeeps.part hPart
      exact OnlyParts.trans ⟨hObjects, hUploads⟩ ih

/-- There is one way for an upload to break. -/
theorem Broken.unique {e' : Error} {w'' : ω}
    (h : Broken client fullKey uploadId input n w e w')
    (h' : Broken client fullKey uploadId input n w e' w'') : e = e' ∧ w' = w'' := by
  induction h generalizing e' w'' with
  | source hPull =>
      cases h' with
      | source hPull' =>
          obtain ⟨hError, -⟩ := Prod.mk.inj (Option.some.inj (hPull.symm.trans hPull'))
          exact ⟨Except.error.inj hError, rfl⟩
      | refused hPull' _ => simp [hPull] at hPull'
      | part hPull' _ _ => simp [hPull] at hPull'
  | refused hPull hPart =>
      cases h' with
      | source hPull' => simp [hPull] at hPull'
      | refused hPull' hPart' =>
          obtain ⟨hChunk, -⟩ := Prod.mk.inj (Option.some.inj (hPull.symm.trans hPull'))
          obtain rfl := Option.some.inj (Except.ok.inj hChunk)
          obtain ⟨hError, rfl⟩ := Prod.mk.inj (hPart.symm.trans hPart')
          obtain rfl := Except.error.inj hError
          exact ⟨rfl, rfl⟩
      | part hPull' hPart' _ =>
          obtain ⟨hChunk, -⟩ := Prod.mk.inj (Option.some.inj (hPull.symm.trans hPull'))
          obtain rfl := Option.some.inj (Except.ok.inj hChunk)
          simp [hPart] at hPart'
  | part hPull hPart _ ih =>
      cases h' with
      | source hPull' => simp [hPull] at hPull'
      | refused hPull' hPart' =>
          obtain ⟨hChunk, -⟩ := Prod.mk.inj (Option.some.inj (hPull.symm.trans hPull'))
          obtain rfl := Option.some.inj (Except.ok.inj hChunk)
          simp [hPart] at hPart'
      | part hPull' hPart' hRest' =>
          obtain ⟨hChunk, rfl⟩ := Prod.mk.inj (Option.some.inj (hPull.symm.trans hPull'))
          obtain rfl := Option.some.inj (Except.ok.inj hChunk)
          obtain ⟨-, rfl⟩ := Prod.mk.inj (hPart.symm.trans hPart')
          exact ih hRest'

/-- An upload that is taken as a whole does not break. -/
theorem Uploaded.not_broken (h : Uploaded client fullKey uploadId input n w parts w') {w'' : ω}
    (h' : Broken client fullKey uploadId input n w e w'') : False := by
  have hRun := h.run []
  rw [h'.run []] at hRun
  cases (Prod.mk.inj (Option.some.inj hRun)).1

/-- Aborting takes away the one upload that is new. -/
theorem cleanedUp_of_aborted (hKeeps : client.Keeps view) {id : Bytes} {w₁ w₂ w₃ : ω}
    (hCreate : client.createMultipartUpload fullKey w = (.ok id, w₁))
    (hBroken : Broken client fullKey id input n w₁ e w₂)
    (hAbort : client.abortMultipartUpload fullKey id w₂ = (.ok (), w₃)) :
    CleanedUp view fullKey w w₃ := by
  obtain ⟨-, hObjects, hUploads⟩ := hKeeps.created hCreate
  obtain ⟨hObjects₂, hUploads₂⟩ := hBroken.onlyParts hKeeps
  obtain ⟨hObjects₃, hUploads₃⟩ := hKeeps.aborted hAbort
  constructor
  · rw [hObjects₃, hObjects₂, hObjects]
  · intro other hNone
    rw [hUploads₃]
    by_cases hEq : other = id
    · rw [hEq, Function.update_self]
    · rw [Function.update_of_ne hEq, hUploads₂, hUploads, Function.update_of_ne hEq]
      exact hNone

/-- An upload that was begun and is still there is a new one. -/
theorem not_cleanedUp {id : Bytes} (hNew : view.uploads w id = none)
    (hLeft : view.uploads w' id ≠ none) : ¬CleanedUp view fullKey w w' :=
  fun hClean => hLeft (hClean.uploads id hNew)

end Cleanup

section Put
variable {client : MultipartClient ω} {input : StreamHandle Byte} {key id : Bytes}
  {w w₁ w₂ : ω} {e : Error} {parts : List CompletedPart}

theorem S3Backend.streamPut_of_uploaded (backend : S3Backend ω)
    (hCreate : client.createMultipartUpload (backend.resolveKey key) w = (.ok id, w₁))
    (hUploaded : Uploaded client (backend.resolveKey key) id input 1 w₁ parts w₂) :
    backend.streamPut client key input w =
      some (completeUpload client (backend.resolveKey key) id (.ok parts, w₂)) := by
  simp only [S3Backend.streamPut, hCreate, hUploaded.run, Option.map_some, List.nil_append]

theorem S3Backend.streamPut_of_broken (backend : S3Backend ω)
    (hCreate : client.createMultipartUpload (backend.resolveKey key) w = (.ok id, w₁))
    (hBroken : Broken client (backend.resolveKey key) id input 1 w₁ e w₂) :
    backend.streamPut client key input w =
      some (.error e, (client.abortMultipartUpload (backend.resolveKey key) id w₂).2) := by
  simp only [S3Backend.streamPut, hCreate, hBroken.run, Option.map_some, completeUpload]

/-- A call that returns has uploaded the whole stream or broken, if the upload was begun. -/
theorem S3Backend.decided_of_streamPut (backend : S3Backend ω)
    (hCreate : client.createMultipartUpload (backend.resolveKey key) w = (.ok id, w₁))
    {result : VoidResult × ω} (hPut : backend.streamPut client key input w = some result) :
    Decided client (backend.resolveKey key) id ⟨input, [], 1, w₁⟩ := by
  simp only [S3Backend.streamPut, hCreate] at hPut
  obtain ⟨_, hRun, -⟩ := Option.map_eq_some_iff.mp hPut
  exact decided_of_run hRun

end Put

/-- An upload that fails leaves nothing behind unless it was the completion that failed, or
the request to abort it. -/
theorem S3Backend.stream_put_cleans_up_iff {client : MultipartClient ω} {view : BucketView ω}
    (hKeeps : client.Keeps view) (backend : S3Backend ω) {key : Bytes} {input : StreamHandle Byte}
    {w w' : ω} {e : Error} (hPut : backend.streamPut client key input w = some (.error e, w')) :
    CleanedUp view (backend.resolveKey key) w w' ↔
      ¬CompletionFails client (backend.resolveKey key) input w ∧
        ¬AbortFails client (backend.resolveKey key) input w := by
  cases hCreate : client.createMultipartUpload (backend.resolveKey key) w with
  | mk created w₁ =>
      cases created with
      | error err =>
          simp only [S3Backend.streamPut, hCreate] at hPut
          obtain ⟨-, rfl⟩ := Prod.mk.inj (Option.some.inj hPut)
          obtain ⟨hObjects, hUploads⟩ := hKeeps.notCreated hCreate
          refine iff_of_true ⟨congrFun hObjects _, fun id hNone => by rwa [hUploads]⟩ ⟨?_, ?_⟩
          · rintro ⟨id, w₂, _, _, _, _, hCreated, -⟩
            simp [hCreate] at hCreated
          · rintro ⟨id, w₂, _, _, _, _, hCreated, -⟩
            simp [hCreate] at hCreated
      | ok id =>
          obtain ⟨hNew, -, hUploads⟩ := hKeeps.created hCreate
          have hBegun : view.uploads w₁ id ≠ none := by simp [hUploads]
          rcases backend.decided_of_streamPut hCreate hPut with
            ⟨parts, w₂, hUploaded⟩ | ⟨e', w₂, hBroken⟩
          · have hResult := backend.streamPut_of_uploaded hCreate hUploaded
            rw [hPut, completeUpload] at hResult
            have hStill : view.uploads w₂ id ≠ none := fun h =>
              hBegun (((hUploaded.onlyParts hKeeps).uploads id).mp h)
            split at hResult
            next err w₃ hFailed =>
              obtain ⟨-, rfl⟩ := Prod.mk.inj (Option.some.inj hResult)
              refine iff_of_false (not_cleanedUp hNew ?_) fun hBoth => hBoth.1 ?_
              · rwa [(hKeeps.notCompleted hFailed).2]
              · exact ⟨id, w₁, parts, w₂, err, _, hCreate, hUploaded, hFailed⟩
            next => cases (Prod.mk.inj (Option.some.inj hResult)).1
          · have hResult := backend.streamPut_of_broken hCreate hBroken
            rw [hPut] at hResult
            obtain ⟨-, rfl⟩ := Prod.mk.inj (Option.some.inj hResult)
            cases hAbort : client.abortMultipartUpload (backend.resolveKey key) id w₂ with
            | mk aborted w₃ =>
                cases aborted with
                | error err =>
                    refine iff_of_false (not_cleanedUp hNew ?_) fun hBoth => hBoth.2 ?_
                    · rw [(hKeeps.notAborted hAbort).2]
                      exact fun h => hBegun (((hBroken.onlyParts hKeeps).uploads id).mp h)
                    · exact ⟨id, w₁, e', w₂, err, w₃, hCreate, hBroken, hAbort⟩
                | ok =>
                    refine iff_of_true (cleanedUp_of_aborted hKeeps hCreate hBroken hAbort) ⟨?_, ?_⟩
                    · rintro ⟨id', w₁', _, _, _, _, hCreate', hUploaded, -⟩
                      obtain ⟨hId, rfl⟩ := Prod.mk.inj (hCreate.symm.trans hCreate')
                      obtain rfl := Except.ok.inj hId
                      exact hUploaded.not_broken hBroken
                    · rintro ⟨id', w₁', _, _, _, _, hCreate', hBroken', hFailed⟩
                      obtain ⟨hId, rfl⟩ := Prod.mk.inj (hCreate.symm.trans hCreate')
                      obtain rfl := Except.ok.inj hId
                      obtain ⟨-, rfl⟩ := hBroken.unique hBroken'
                      simp [hAbort] at hFailed

namespace S3Bucket

/-- A stream that fails after its first chunk. -/
def brokenStream : StreamHandle Byte :=
  Stream.ofChunks [Chunk.singleton 7] (.error ⟨"Source", "failed"⟩)

def backend : S3Backend S3Bucket where
  client := ⟨fun req b => memoryClient.getObject req b.memory,
    fun key body b => (.ok (), { b with memory := b.memory.insert key body }),
    fun key b => (.ok (), { b with memory := b.memory.erase key }),
    fun keys b => (.ok [], { b with memory := keys.foldl Memory.erase b.memory }),
    fun start token b => memoryClient.listObjectsV2 start token b.memory⟩
  keyPrefix := ascii "t/"
  chunkSize := 5 * 2 ^ 20
  chunkSize_pos := by decide

end S3Bucket

open S3Bucket in
/-- The part that has been uploaded goes with the upload. -/
theorem stream_put_cleans_up_iff_broken : ∃ w',
    backend.streamPut (multipart 0) (ascii "k") brokenStream S3Bucket.empty =
      some (.error ⟨"Source", "failed"⟩, w') ∧
    CleanedUp S3Bucket.view (backend.resolveKey (ascii "k")) S3Bucket.empty w' := by
  have hBroken : Broken (multipart 0) (backend.resolveKey (ascii "k")) [] brokenStream 1
      (S3Bucket.empty.createUpload (backend.resolveKey (ascii "k"))) ⟨"Source", "failed"⟩
      (uploadPart (backend.resolveKey (ascii "k")) [] 1 [7]
        (S3Bucket.empty.createUpload (backend.resolveKey (ascii "k")))).2 :=
    .part (makeStreamHandle_pull _) rfl (.source (makeStreamHandle_pull _))
  have hCreate : (multipart 0).createMultipartUpload (backend.resolveKey (ascii "k"))
      S3Bucket.empty = (.ok [], S3Bucket.empty.createUpload (backend.resolveKey (ascii "k"))) := rfl
  have hPut := backend.streamPut_of_broken hCreate hBroken
  refine ⟨_, hPut, (backend.stream_put_cleans_up_iff (multipart_keeps 0) hPut).mpr ⟨?_, ?_⟩⟩
  · rintro ⟨id, w₁, _, _, _, _, hCreate, hUploaded, -⟩
    obtain ⟨hId, rfl⟩ := Prod.mk.inj hCreate
    obtain rfl := Except.ok.inj hId
    exact hUploaded.not_broken hBroken
  · rintro ⟨id, w₁, e, w₂, err, w₃, hCreate, hBroken', hFailed⟩
    obtain ⟨hId, rfl⟩ := Prod.mk.inj hCreate
    obtain rfl := Except.ok.inj hId
    obtain ⟨-, rfl⟩ := hBroken.unique hBroken'
    cases (Prod.mk.inj hFailed).1

open S3Bucket in
/-- An empty stream: the service refuses to complete an upload without parts, and nobody
aborts it. -/
theorem completion_failure_leaves_upload : ∃ e w',
    backend.streamPut (multipart 0) (ascii "k") Stream.empty S3Bucket.empty =
      some (.error e, w') ∧
    S3Bucket.view.uploads S3Bucket.empty [] = none ∧ S3Bucket.view.uploads w' [] ≠ none := by
  have hUploaded : Uploaded (multipart 0) (backend.resolveKey (ascii "k")) [] Stream.empty 1
      (S3Bucket.empty.createUpload (backend.resolveKey (ascii "k"))) []
      (S3Bucket.empty.createUpload (backend.resolveKey (ascii "k"))) :=
    .done (makeStreamHandle_pull _)
  have hCreate : (multipart 0).createMultipartUpload (backend.resolveKey (ascii "k"))
      S3Bucket.empty = (.ok [], S3Bucket.empty.createUpload (backend.resolveKey (ascii "k"))) := rfl
  have hPut := backend.streamPut_of_uploaded hCreate hUploaded
  exact ⟨⟨"S3StreamPut", refused.message⟩, _, hPut, rfl, Option.some_ne_none _⟩

end CelerMem
