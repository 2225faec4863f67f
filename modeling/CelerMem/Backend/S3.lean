import CelerMem.Core.Contents
import CelerMem.Core.Meaning
import CelerMem.Materialization.AtomicTarget
import Mathlib

/-! `S3Backend` and its two streams. The client of the service is a parameter, for one bucket:
its requests are answered from the state of the bucket, which writes change. -/
namespace CelerMem

variable {ω : Type}

/-! ## The client -/

structure AwsError where
  exceptionName : String
  responseCode : Nat
  message : String

namespace AwsError

/-- `HttpResponseCode::NOT_FOUND`. -/
def notFound : Nat := 404

/-- `HttpResponseCode::REQUESTED_RANGE_NOT_SATISFIABLE`. -/
def rangeNotSatisfiable : Nat := 416

end AwsError

/-- The range is from its first byte to its last one; without a version, the latest is meant. -/
structure GetObjectRequest where
  key : Bytes
  versionId : Bytes := []
  range : Option (Nat × Nat) := none

structure ListPage where
  contents : List Bytes
  isTruncated : Bool
  nextContinuationToken : Bytes

structure S3Client (ω : Type) where
  getObject : GetObjectRequest → ω → Except AwsError Bytes
  putObject : Bytes → Bytes → ω → Except AwsError Unit × ω
  deleteObject : Bytes → ω → Except AwsError Unit × ω
  /-- The keys that could not be deleted are reported with a message. -/
  deleteObjects : List Bytes → ω → Except AwsError (List (Bytes × String)) × ω
  /-- By prefix and continuation token, where an empty token is not set. -/
  listObjectsV2 : Bytes → Bytes → ω → Except AwsError ListPage

/-! ## Streams -/

/-- A stream together with the client it asks and the bucket it reads, which nobody changes
while it is drained. -/
structure InBucket (ω Impl : Type) where
  client : S3Client ω
  bucket : ω
  impl : Impl

/-- A pull of the stream itself, at the bucket. -/
def InBucket.step {Impl α : Type} (pull : S3Client ω → ω → Impl → Pulled α × Impl)
    (s : InBucket ω Impl) : Option (Pulled α × InBucket ω Impl) :=
  let (r, impl) := pull s.client s.bucket s.impl
  some (r, { s with impl })

theorem InBucket.step_eq {Impl α : Type} {pull : S3Client ω → ω → Impl → Pulled α × Impl}
    {client : S3Client ω} {w : ω} {impl next : Impl} {r : Pulled α}
    (h : pull client w impl = (r, next)) :
    (⟨client, w, impl⟩ : InBucket ω Impl).step pull = some (r, ⟨client, w, next⟩) := by
  rw [InBucket.step, h]

structure S3GetStream where
  key : Bytes
  chunkSize : Nat
  offset : Nat
  done : Bool
  versionId : Bytes

def S3GetStream.pull (client : S3Client ω) (w : ω) (s : S3GetStream) :
    Pulled Byte × S3GetStream :=
  if s.done then (.ok none, s)
  else
    match client.getObject
      ⟨s.key, s.versionId, some (s.offset, s.offset + s.chunkSize - 1)⟩ w with
    | .error err =>
        if err.responseCode == AwsError.rangeNotSatisfiable || err.exceptionName == "NoSuchKey" ||
          err.responseCode == AwsError.notFound then (.ok none, { s with done := true })
        else (.error ⟨"S3StreamGet", err.message⟩, s)
    | .ok buf =>
        if buf.isEmpty then (.ok none, { s with done := true })
        else
          let next := { s with offset := s.offset + buf.length }
          (.ok (some (Chunk.from buf)),
            if buf.length < s.chunkSize then { next with done := true } else next)

instance : StreamImpl (InBucket ω S3GetStream) Byte where
  pull := InBucket.step S3GetStream.pull
  copy s := s

structure S3ListStream where
  start : Bytes
  continuationToken : Bytes
  done : Bool

/-- The loop over a page: each key without the prefix, with the value of its object. -/
def S3ListStream.fetch (client : S3Client ω) (w : ω) (start : Bytes) :
    List Bytes → Result (List KVPair)
  | [] => .ok []
  | fullKey :: keys =>
      match client.getObject ⟨fullKey, [], none⟩ w with
      | .error err => .error ⟨"S3StreamScan",
          "failed to get object '" ++ text fullKey ++ "': " ++ err.message⟩
      | .ok value =>
          match fetch client w start keys with
          | .error e => .error e
          | .ok pairs => .ok (⟨fullKey.drop start.length, value⟩ :: pairs)

/-- A page without pairs ends the stream, truncated or not. -/
def S3ListStream.pull (client : S3Client ω) (w : ω) (s : S3ListStream) :
    Pulled KVPair × S3ListStream :=
  if s.done then (.ok none, s)
  else
    match client.listObjectsV2 s.start s.continuationToken w with
    | .error err => (.error ⟨"S3StreamScan", err.message⟩, s)
    | .ok page =>
        let next :=
          if page.isTruncated then { s with continuationToken := page.nextContinuationToken }
          else { s with done := true }
        match fetch client w s.start page.contents with
        | .error e => (.error e, next)
        | .ok [] => (.ok none, { next with done := true })
        | .ok pairs => (.ok (some (Chunk.from pairs)), next)

instance : StreamImpl (InBucket ω S3ListStream) KVPair where
  pull := InBucket.step S3ListStream.pull
  copy s := s

/-! ## The backend -/

/-- A range of the stream has at least one byte. -/
structure S3Backend (ω : Type) where
  client : S3Client ω
  keyPrefix : Bytes
  chunkSize : Nat
  chunkSize_pos : 0 < chunkSize

namespace S3Backend

def resolveKey (backend : S3Backend ω) (key : Bytes) : Bytes := backend.keyPrefix ++ key

def streamGet (backend : S3Backend ω) (key : Bytes) (w : ω) : StreamHandle Byte :=
  makeStreamHandle (⟨backend.client, w, ⟨backend.resolveKey key, backend.chunkSize, 0, false, []⟩⟩ :
    InBucket ω S3GetStream)

/-- Nothing collected is taken for no object. -/
def get (backend : S3Backend ω) (key : Bytes) (w : ω) : Option (Result (Option Bytes)) :=
  (Stream.collect (backend.streamGet key w)).map fun
    | .error e => .error e
    | .ok collected => if collected.isEmpty then .ok none else .ok (some collected)

def put (backend : S3Backend ω) (key value : Bytes) (w : ω) : VoidResult × ω :=
  match backend.client.putObject (backend.resolveKey key) value w with
  | (.error err, w) => (.error ⟨"S3Put", err.message⟩, w)
  | (.ok (), w) => (.ok (), w)

def del (backend : S3Backend ω) (key : Bytes) (w : ω) : VoidResult × ω :=
  match backend.client.deleteObject (backend.resolveKey key) w with
  | (.error err, w) => (.error ⟨"S3Del", err.message⟩, w)
  | (.ok (), w) => (.ok (), w)

def streamScan (backend : S3Backend ω) (start : Bytes) (w : ω) : StreamHandle KVPair :=
  makeStreamHandle (⟨backend.client, w, ⟨backend.resolveKey start, [], false⟩⟩ :
    InBucket ω S3ListStream)

def prefixScan (backend : S3Backend ω) (start : Bytes) (w : ω) : Option (Result (List KVPair)) :=
  Stream.collect (backend.streamScan start w)

/-- The loop that divides the operations into puts and keys to delete. -/
def partitionOps (backend : S3Backend ω) :
    List BatchOp → Result (List (Bytes × Bytes) × List Bytes)
  | [] => .ok ([], [])
  | op :: ops =>
      match op.kind, op.value with
      | .put, none => .error ⟨"S3Batch", "put op missing value"⟩
      | .put, some value =>
          match partitionOps backend ops with
          | .error e => .error e
          | .ok (puts, deleteKeys) => .ok ((op.key, value) :: puts, deleteKeys)
      | .del, _ =>
          match partitionOps backend ops with
          | .error e => .error e
          | .ok (puts, deleteKeys) => .ok (puts, backend.resolveKey op.key :: deleteKeys)

def putAll (backend : S3Backend ω) : List (Bytes × Bytes) → ω → VoidResult × ω
  | [], w => (.ok (), w)
  | (key, value) :: puts, w =>
      match backend.put key value w with
      | (.error e, w) => (.error e, w)
      | (.ok (), w) => putAll backend puts w

def maxKeysPerCall : Nat := 1000

/-- The loop over the chunks of keys to delete. -/
def deleteAll (client : S3Client ω) (deleteKeys : List Bytes) (w : ω) : VoidResult × ω :=
  match deleteKeys with
  | [] => (.ok (), w)
  | key :: rest =>
      match client.deleteObjects ((key :: rest).take maxKeysPerCall) w with
      | (.error err, w) => (.error ⟨"S3BatchDel", err.message⟩, w)
      | (.ok ((failed, message) :: _), w) =>
          (.error ⟨"S3BatchDel", text failed ++ ": " ++ message⟩, w)
      | (.ok [], w) => deleteAll client ((key :: rest).drop maxKeysPerCall) w
termination_by deleteKeys.length
decreasing_by
  rw [List.length_drop]
  exact Nat.sub_lt (Nat.succ_pos _) (by decide)

def batch (backend : S3Backend ω) (ops : List BatchOp) (w : ω) : VoidResult × ω :=
  match backend.partitionOps ops with
  | .error e => (.error e, w)
  | .ok (puts, deleteKeys) =>
      match backend.putAll puts w with
      | (.error e, w) => (.error e, w)
      | (.ok (), w) => deleteAll backend.client deleteKeys w

end S3Backend

/-! ## A service that stores what it is given -/

/-- Writes that succeed do what they say to the objects that are visible. -/
structure S3Client.Stores (client : S3Client ω) (objects : ω → Contents) : Prop where
  putObject : ∀ {key body w w'}, client.putObject key body w = (.ok (), w') →
    objects w' = Function.update (objects w) key (some body)
  deleteObject : ∀ {key w w'}, client.deleteObject key w = (.ok (), w') →
    objects w' = Function.update (objects w) key none
  deleteObjects : ∀ {keys w w'}, client.deleteObjects keys w = (.ok [], w') →
    ∀ key, objects w' key = if key ∈ keys then none else objects w key

/-- The pages that follow a continuation token. -/
inductive Listing (client : S3Client ω) (w : ω) (start : Bytes) : Bytes → List (List Bytes) → Prop
    where
  | last {token next : Bytes} {page : List Bytes}
      (hList : client.listObjectsV2 start token w = .ok ⟨page, false, next⟩) :
      Listing client w start token [page]
  | more {token next : Bytes} {page : List Bytes} {pages : List (List Bytes)}
      (hList : client.listObjectsV2 start token w = .ok ⟨page, true, next⟩)
      (hRest : Listing client w start next pages) : Listing client w start token (page :: pages)

/-- Requests that read a bucket are answered, and from the objects that are visible. -/
structure S3Client.Reads (client : S3Client ω) (objects : Contents) (w : ω) : Prop where
  getObject : ∀ {key body}, objects key = some body →
    client.getObject ⟨key, [], none⟩ w = .ok body
  getRange : ∀ {key body first last}, objects key = some body → first < body.length →
    first ≤ last → client.getObject ⟨key, [], some (first, last)⟩ w =
      .ok ((body.drop first).take (last + 1 - first))
  getBeyond : ∀ {key body first last}, objects key = some body → body.length ≤ first →
    ∃ err, client.getObject ⟨key, [], some (first, last)⟩ w = .error err ∧
      err.responseCode = AwsError.rangeNotSatisfiable
  getMissing : ∀ {key} range, objects key = none →
    ∃ err, client.getObject ⟨key, [], range⟩ w = .error err ∧ err.exceptionName = "NoSuchKey"
  /-- A page has at most a thousand keys. -/
  list : ∀ start, ∃ pages, Listing client w start [] pages ∧ pages.flatten.Nodup ∧
    (∀ key, key ∈ pages.flatten ↔ objects key ≠ none ∧ start <+: key) ∧
    ∀ page ∈ pages, page.length ≤ 1000

/-! ## A service in memory -/

open Materialization (Memory)

def memoryGetObject (req : GetObjectRequest) (m : Memory) : Except AwsError Bytes :=
  match m.contents req.key, req.range with
  | none, _ => .error ⟨"NoSuchKey", AwsError.notFound, "The specified key does not exist."⟩
  | some body, none => .ok body
  | some body, some (first, last) =>
      if first < body.length then .ok ((body.drop first).take (last + 1 - first))
      else .error ⟨"InvalidRange", AwsError.rangeNotSatisfiable,
        "The requested range is not satisfiable"⟩

/-- All keys are on one page. -/
def memoryClient : S3Client Memory where
  getObject := memoryGetObject
  putObject := fun key body m => (.ok (), m.insert key body)
  deleteObject := fun key m => (.ok (), m.erase key)
  deleteObjects := fun keys m => (.ok [], keys.foldl Memory.erase m)
  listObjectsV2 := fun start _ m => .ok
    ⟨(m.entries.map KVPair.key).filter fun key => startsWith key start, false, []⟩

theorem contents_foldl_erase (keys : List Bytes) (m : Memory) (key : Bytes) :
    (keys.foldl Memory.erase m).contents key = if key ∈ keys then none else m.contents key := by
  induction keys generalizing m with
  | nil => rw [if_neg List.not_mem_nil, List.foldl_nil]
  | cons first keys ih =>
      rw [List.foldl_cons, ih, Memory.contents_erase]
      by_cases hFirst : key = first
      · simp [hFirst]
      · simp [hFirst, Function.update_of_ne]

theorem memoryClient_stores : memoryClient.Stores Memory.contents where
  putObject := by
    intro key body m m' h
    obtain ⟨-, rfl⟩ := Prod.mk.inj h
    exact m.contents_insert key body
  deleteObject := by
    intro key m m' h
    obtain ⟨-, rfl⟩ := Prod.mk.inj h
    exact m.contents_erase key
  deleteObjects := by
    intro keys m m' h key
    obtain ⟨-, rfl⟩ := Prod.mk.inj h
    exact contents_foldl_erase keys m key

theorem contents_ne_none_iff (m : Memory) (key : Bytes) :
    m.contents key ≠ none ↔ key ∈ m.entries.map KVPair.key := by
  rw [Memory.contents, Ne, Option.map_eq_none_iff, List.find?_eq_none]
  simp

theorem memoryClient_reads {m : Memory} (hFew : m.entries.length ≤ 1000) :
    memoryClient.Reads m.contents m where
  getObject := by
    intro key body hBody
    simp [memoryClient, memoryGetObject, hBody]
  getRange := by
    intro key body first last hBody hFirst hLast
    simp [memoryClient, memoryGetObject, hBody, hFirst]
  getBeyond := by
    intro key body first last hBody hFirst
    simp [memoryClient, memoryGetObject, hBody, Nat.not_lt.mpr hFirst]
  getMissing := by
    intro key range hBody
    simp [memoryClient, memoryGetObject, hBody]
  list := by
    intro start
    refine ⟨[(m.entries.map KVPair.key).filter fun key => startsWith key start], .last rfl, ?_, ?_, ?_⟩
    · rw [List.flatten_singleton]
      exact m.unique.sublist List.filter_sublist
    · intro key
      rw [List.flatten_singleton, List.mem_filter, startsWith_iff, contents_ne_none_iff]
    · intro page hPage
      obtain rfl := List.mem_singleton.mp hPage
      exact (List.length_filter_le _ _).trans (by rwa [List.length_map])

end CelerMem
