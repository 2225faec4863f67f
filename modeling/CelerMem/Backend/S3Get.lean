import CelerMem.Backend.S3
import Mathlib

/-! What `get` of S3 makes of an object: the ranges that the stream asks for, each cut to the
32-bit length of a chunk, and nothing at all if that is empty. -/
namespace CelerMem

variable {ω : Type}

/-- The bytes that arrive of an object that is read in ranges. -/
def received (chunkSize : Nat) (hPos : 0 < chunkSize) (body : Bytes) : Bytes :=
  if body = [] then []
  else (Chunk.from (body.take chunkSize)).toList ++ received chunkSize hPos (body.drop chunkSize)
termination_by body.length
decreasing_by
  rename_i hBody
  have hLength : 0 < body.length := List.length_pos_iff.mpr hBody
  rw [List.length_drop]
  omega

section Received
variable {chunkSize : ℕ} (hPos : 0 < chunkSize)

@[simp] theorem received_nil : received chunkSize hPos [] = [] := by
  rw [received, if_pos rfl]

theorem received_cons {body : Bytes} (h : body ≠ []) :
    received chunkSize hPos body = (Chunk.from (body.take chunkSize)).toList ++
      received chunkSize hPos (body.drop chunkSize) := by
  rw [received, if_neg h]

theorem length_received_le (body : Bytes) : (received chunkSize hPos body).length ≤ body.length := by
  induction body using received.induct chunkSize hPos with
  | case1 => rw [received_nil]
  | case2 body h ih =>
      rw [received_cons hPos h, List.length_append, Chunk.toList_from, List.length_take,
        List.length_take]
      rw [List.length_drop] at ih
      have hMod := Nat.mod_le (min chunkSize body.length) uint32Size
      omega

/-- An object arrives whole unless a range is too long for a chunk. -/
theorem received_eq_self_iff (body : Bytes) :
    received chunkSize hPos body = body ↔ min chunkSize body.length < uint32Size := by
  induction body using received.induct chunkSize hPos with
  | case1 =>
      rw [received_nil]
      exact iff_of_true rfl ((Nat.min_le_right _ _).trans_lt (by decide))
  | case2 body h ih =>
      rw [received_cons hPos h]
      by_cases hFits : min chunkSize body.length < uint32Size
      · have hRange : (body.take chunkSize).length < uint32Size := by
          rwa [List.length_take]
        have hRest : min chunkSize (body.drop chunkSize).length < uint32Size := by
          rw [List.length_drop]
          omega
        rw [Chunk.toList_from_of_lt hRange, ih.mpr hRest, List.take_append_drop]
        exact iff_of_true rfl hFits
      · -- The first chunk is short, and the later ones do not make up for it.
        refine iff_of_false ?_ hFits
        intro hSame
        have hLength := congrArg List.length hSame
        have hLater := length_received_le hPos (body.drop chunkSize)
        have hMod := Nat.mod_lt (min chunkSize body.length) (show 0 < uint32Size by decide)
        rw [List.length_append, Chunk.toList_from, List.length_take, List.length_take] at hLength
        rw [List.length_drop] at hLater
        omega

end Received

/-! ## The stream -/

/-- Ranges of an object are answered with the bytes that there are, or with
range-not-satisfiable when there are none. -/
structure S3Client.ServesRanges (client : S3Client ω) (w : ω) (key versionId body : Bytes) : Prop
    where
  inside : ∀ {first last}, first < body.length → first ≤ last →
    client.getObject ⟨key, versionId, some (first, last)⟩ w =
      .ok ((body.drop first).take (last + 1 - first))
  beyond : ∀ {first last}, body.length ≤ first →
    ∃ err, client.getObject ⟨key, versionId, some (first, last)⟩ w = .error err ∧
      err.responseCode = AwsError.rangeNotSatisfiable

theorem S3Client.Reads.servesRanges {client : S3Client ω} {objects : Contents} {w : ω}
    {key body : Bytes} (hReads : client.Reads objects w) (hBody : objects key = some body) :
    client.ServesRanges w key [] body where
  inside := fun hFirst hLast => hReads.getRange hBody hFirst hLast
  beyond := fun hFirst => hReads.getBeyond hBody hFirst

namespace S3GetStream

/-- What the stream still has to ask for: nothing, or the object from an offset on. -/
def Remains (key versionId body : Bytes) (chunkSize : ℕ) (s : S3GetStream) (rest : Bytes) : Prop :=
  s.done = true ∧ rest = [] ∨
    ∃ offset, s = ⟨key, chunkSize, offset, false, versionId⟩ ∧ rest = body.drop offset

section Remains
variable {client : S3Client ω} {w : ω} {key versionId body rest : Bytes} {chunkSize : ℕ}
  {s : S3GetStream}

theorem pull_inside (hServes : client.ServesRanges w key versionId body) (hPos : 0 < chunkSize)
    {offset : ℕ} (hOffset : offset < body.length) :
    pull client w ⟨key, chunkSize, offset, false, versionId⟩ =
      (.ok (some (Chunk.from ((body.drop offset).take chunkSize))),
        ⟨key, chunkSize, offset + min chunkSize (body.length - offset),
          min chunkSize (body.length - offset) < chunkSize, versionId⟩) := by
  have hRange := hServes.inside hOffset (show offset ≤ offset + chunkSize - 1 by omega)
  have hSize : offset + chunkSize - 1 + 1 - offset = chunkSize := by omega
  rw [hSize] at hRange
  have hLength : ((body.drop offset).take chunkSize).length =
      min chunkSize (body.length - offset) := by
    rw [List.length_take, List.length_drop]
  have hNonempty : ((body.drop offset).take chunkSize).isEmpty = false := by
    rw [List.isEmpty_eq_false_iff, ← List.length_pos_iff, hLength]
    omega
  simp only [pull, hRange, hNonempty, hLength, Bool.false_eq_true, if_false]
  split
  · rename_i hShort
    simp [hShort]
  · rename_i hFull
    simp [hFull]

theorem pull_beyond (hServes : client.ServesRanges w key versionId body) {offset : ℕ}
    (hOffset : body.length ≤ offset) :
    pull client w ⟨key, chunkSize, offset, false, versionId⟩ =
      (.ok none, ⟨key, chunkSize, offset, true, versionId⟩) := by
  obtain ⟨err, hErr, hCode⟩ : ∃ err, client.getObject
      ⟨key, versionId, some (offset, offset + chunkSize - 1)⟩ w = .error err ∧
        err.responseCode = AwsError.rangeNotSatisfiable := hServes.beyond hOffset
  simp [pull, hErr, hCode]

/-- A pull takes one range off what remains. -/
theorem Remains.pull (hServes : client.ServesRanges w key versionId body) (hPos : 0 < chunkSize)
    (h : Remains key versionId body chunkSize s rest) :
    (rest = [] ∧ ∃ t, S3GetStream.pull client w s = (.ok none, t) ∧
      Remains key versionId body chunkSize t []) ∨
    rest ≠ [] ∧ ∃ t, S3GetStream.pull client w s =
      (.ok (some (Chunk.from (rest.take chunkSize))), t) ∧
        Remains key versionId body chunkSize t (rest.drop chunkSize) := by
  rcases h with ⟨hDone, rfl⟩ | ⟨offset, rfl, rfl⟩
  · exact Or.inl ⟨rfl, s, by simp [S3GetStream.pull, hDone], Or.inl ⟨hDone, rfl⟩⟩
  · by_cases hOffset : offset < body.length
    · refine Or.inr ⟨?_, _, pull_inside hServes hPos hOffset, ?_⟩
      · rw [Ne, List.drop_eq_nil_iff]
        omega
      · by_cases hShort : min chunkSize (body.length - offset) < chunkSize
        · refine Or.inl ⟨decide_eq_true hShort, ?_⟩
          rw [List.drop_drop]
          apply List.drop_eq_nil_of_le
          omega
        · have hFull : min chunkSize (body.length - offset) = chunkSize := by omega
          refine Or.inr ⟨offset + chunkSize, ?_, List.drop_drop⟩
          rw [hFull, decide_eq_false (Nat.lt_irrefl chunkSize)]
    · have hBeyond : body.length ≤ offset := Nat.not_lt.mp hOffset
      exact Or.inl ⟨List.drop_eq_nil_of_le hBeyond, _, pull_beyond hServes hBeyond,
        Or.inl ⟨rfl, rfl⟩⟩

theorem Remains.denotes (hServes : client.ServesRanges w key versionId body)
    (hPos : 0 < chunkSize) (h : Remains key versionId body chunkSize s rest) :
    Denotes (makeStreamHandle (⟨client, w, s⟩ : InBucket ω S3GetStream))
      (received chunkSize hPos rest) .done := by
  induction rest using received.induct chunkSize hPos generalizing s with
  | case1 =>
      rcases h.pull hServes hPos with ⟨-, t, hPull, -⟩ | ⟨hRest, -⟩
      · rw [received_nil]
        exact Denotes.make_done (InBucket.step_eq hPull)
      · exact absurd rfl hRest
  | case2 rest hRest ih =>
      rcases h.pull hServes hPos with ⟨hNil, -⟩ | ⟨-, t, hPull, hNext⟩
      · exact absurd hNil hRest
      · rw [received_cons hPos hRest]
        exact Denotes.make_chunk (InBucket.step_eq hPull) (ih hNext)

end Remains
end S3GetStream

section Stream
variable {client : S3Client ω} {objects : Contents} {w : ω} {key : Bytes} {chunkSize : ℕ}

/-- The state of the stream at an offset. -/
def getAt (key : Bytes) (chunkSize offset : ℕ) (done : Bool) : S3GetStream :=
  ⟨key, chunkSize, offset, done, []⟩

theorem getAt_pull_error {offset : ℕ} {err : AwsError}
    (h : client.getObject ⟨key, [], some (offset, offset + chunkSize - 1)⟩ w = .error err)
    (hGone : err.responseCode = AwsError.rangeNotSatisfiable ∨ err.exceptionName = "NoSuchKey") :
    Denotes (makeStreamHandle
      (⟨client, w, getAt key chunkSize offset false⟩ : InBucket ω S3GetStream)) [] .done := by
  have hPull : S3GetStream.pull client w (getAt key chunkSize offset false) =
      (.ok none, getAt key chunkSize offset true) := by
    rcases hGone with hGone | hGone
    · simp [S3GetStream.pull, getAt, h, hGone]
    · simp [S3GetStream.pull, getAt, h, hGone]
  exact Denotes.make_done (InBucket.step_eq hPull)

theorem getAt_denotes (hReads : client.Reads objects w) (hPos : 0 < chunkSize) {body : Bytes}
    (hBody : objects key = some body) (offset : ℕ) :
    Denotes (makeStreamHandle
      (⟨client, w, getAt key chunkSize offset false⟩ : InBucket ω S3GetStream))
      (received chunkSize hPos (body.drop offset)) .done :=
  S3GetStream.Remains.denotes (hReads.servesRanges hBody) hPos (Or.inr ⟨offset, rfl, rfl⟩)

end Stream

namespace S3Backend
variable {backend : S3Backend ω} {objects : Contents} {w : ω}

/-- What `get` answers for an object. -/
def answer (backend : S3Backend ω) (object : Option Bytes) : Option Bytes :=
  match object with
  | none => none
  | some body =>
      let collected := received backend.chunkSize backend.chunkSize_pos body
      if collected.isEmpty then none else some collected

theorem get_eq (hReads : backend.client.Reads objects w) (key : Bytes) :
    backend.get key w = some (.ok (backend.answer (objects (backend.resolveKey key)))) := by
  cases hObject : objects (backend.resolveKey key) with
  | none =>
      obtain ⟨err, hErr, hName⟩ := hReads.getMissing (some (0, 0 + backend.chunkSize - 1)) hObject
      have hDenotes := (getAt_pull_error hErr (Or.inr hName)).collect
      rw [get, streamGet]
      unfold getAt at hDenotes
      rw [hDenotes]
      rfl
  | some body =>
      have hDenotes := (getAt_denotes hReads backend.chunkSize_pos hObject 0).collect
      rw [get, streamGet]
      unfold getAt at hDenotes
      rw [hDenotes, List.drop_zero, Option.map_some, Ending.result, answer]
      dsimp only
      split
      · rfl
      · rfl

/-- An object is read back if and only if it is not empty and its ranges fit into chunks. -/
theorem answer_eq_iff (body : Bytes) : backend.answer (some body) = some body ↔
    body ≠ [] ∧ min backend.chunkSize body.length < uint32Size := by
  rw [← received_eq_self_iff backend.chunkSize_pos body]
  exact collected_eq_iff

end S3Backend
end CelerMem
