import CelerMem.Core.Meaning

/-! The read side of `StoreRef<T>`: a typed lens over a backend handle, with the
codec applied at the boundary. Contents are taken as fixed while they are read. -/
namespace CelerMem.Materialization

/-- `codec<T>`: the customization point that turns values into stored bytes. -/
class Codec (T : Type) where
  encode : T → Result Bytes
  decode : Bytes → Result T

/-- `codec<std::string>` passes strings through. -/
instance : Codec Bytes where
  encode := .ok
  decode := .ok

structure Record (T : Type) where
  key : Bytes
  value : T
  deriving DecidableEq, Repr

structure BatchGetItem where
  key : Bytes
  value : Option Bytes
  deriving DecidableEq, Repr

/-- The entries of `BackendVTable` that a join reads through. -/
structure BackendReads where
  getMany : List Bytes → Result (List BatchGetItem)
  streamScan : Bytes → Result (StreamHandle KVPair)
  hasNativeBatchGet : Bool

inductive CostTier where
  | local
  | embedded
  | network
  | computed
  deriving DecidableEq, Repr

structure StoreCapabilities where
  nativeBatchGet : Bool := false
  orderedScan : Bool := true
  costTier : CostTier := .local
  deriving DecidableEq, Repr

/-! ## Room for vectors -/

/-- For how many elements of a type `std::vector::reserve` makes room. It throws for more. -/
class Allocation where
  room : Type → Nat
  room_pos : ∀ T, 0 < room T

/-- The exception of `reserve`. Nothing under `materialization/` catches it, so it passes
through the calls as an error does. -/
def lengthError : Error := ⟨"std::length_error", "vector::reserve"⟩

def reserve (T : Type) [Allocation] (n : Nat) : VoidResult :=
  if n ≤ Allocation.room T then .ok () else .error lengthError

/-- Elements of up to 64 bytes in the `2 ^ 63 - 1` bytes that a vector may take. -/
instance (priority := low) Allocation.of64Bytes : Allocation where
  room _ := 2 ^ 57 - 1
  room_pos _ := by decide

theorem reserve_ok {T : Type} [Allocation] {n : Nat} (h : n ≤ Allocation.room T) :
    reserve T n = .ok () := if_pos h

theorem reserve_error {T : Type} [Allocation] {n : Nat} (h : Allocation.room T < n) :
    reserve T n = .error lengthError := if_neg (Nat.not_le.mpr h)

/-! ## Decoding a scan -/

variable {T : Type} [Codec T]

/-- The fill loop of `DecodeKVImpl::pull`, up to the first value that fails. -/
def decodeKVs : List KVPair → Result (List (Record T))
  | [] => .ok []
  | kv :: kvs =>
      match Codec.decode kv.value with
      | .error e => .error e
      | .ok value =>
          match decodeKVs kvs with
          | .error e => .error e
          | .ok rest => .ok (⟨kv.key, value⟩ :: rest)

theorem decodeKVs_cons_ok {kv : KVPair} {kvs : List KVPair} {records : List (Record T)}
    (h : decodeKVs (kv :: kvs) = .ok records) :
    ∃ value rest, Codec.decode kv.value = .ok value ∧ decodeKVs kvs = .ok rest ∧
      records = ⟨kv.key, value⟩ :: rest := by
  rw [decodeKVs] at h
  cases hValue : Codec.decode (T := T) kv.value with
  | error e => simp [hValue] at h
  | ok value =>
      cases hRest : decodeKVs (T := T) kvs with
      | error e => simp [hValue, hRest] at h
      | ok rest =>
          have hCons : ⟨kv.key, value⟩ :: rest = records := by simpa [hValue, hRest] using h
          exact ⟨value, rest, rfl, rfl, hCons.symm⟩

theorem length_decodeKVs {kvs : List KVPair} {records : List (Record T)}
    (h : decodeKVs kvs = .ok records) : records.length = kvs.length := by
  induction kvs generalizing records with
  | nil =>
      have hNil : [] = records := by simpa [decodeKVs] using h
      simp [← hNil]
  | cons kv kvs ih =>
      obtain ⟨value, rest, -, hRest, rfl⟩ := decodeKVs_cons_ok h
      rw [List.length_cons, List.length_cons, ih hRest]

structure DecodeKVImpl (T : Type) where
  source : StreamHandle KVPair
  limitRemaining : Nat
  hasLimit : Bool

namespace DecodeKVImpl

/-- How many pairs of a chunk the limit still admits. -/
def cap (s : DecodeKVImpl T) (kvs : Chunk KVPair) : Nat :=
  if s.hasLimit && s.limitRemaining < kvs.size then s.limitRemaining else kvs.size

omit [Codec T] in
theorem cap_le (s : DecodeKVImpl T) (kvs : Chunk KVPair) : s.cap kvs ≤ kvs.size := by
  unfold cap
  split
  · rename_i h
    simp only [Bool.and_eq_true, decide_eq_true_eq] at h
    exact h.2.le
  · exact Nat.le_refl _

/-- A chunk that comes out empty is answered with `nullopt`. -/
def pull (s : DecodeKVImpl T) : Option (Pulled (Record T) × DecodeKVImpl T) :=
  if s.hasLimit && s.limitRemaining == 0 then some (.ok none, s)
  else do
    let (r, source) ← s.source.pull
    let s := { s with source }
    match r with
    | .error e => some (.error e, s)
    | .ok none => some (.ok none, s)
    | .ok (some kvs) =>
        match hDecoded : decodeKVs (kvs.toList.take (s.cap kvs)) with
        | .error e => some (.error e, s)
        | .ok records =>
            let chunk := Chunk.build (s.cap kvs) records
              (by rw [length_decodeKVs hDecoded]; simp) (s.cap_le kvs |>.trans_lt kvs.size_lt)
            let s := if s.hasLimit then { s with limitRemaining := s.limitRemaining - chunk.size }
              else s
            if chunk.empty then some (.ok none, s) else some (.ok (some chunk), s)

end DecodeKVImpl

instance : StreamImpl (DecodeKVImpl T) (Record T) where
  pull := DecodeKVImpl.pull
  copy s := ⟨s.source.clone, s.limitRemaining, s.hasLimit⟩

/-! ## The lens -/

/-- `handle` is null for a default-constructed reference. -/
structure StoreRef (T : Type) where
  handle : Option BackendReads
  tableName : Bytes

namespace StoreRef

def capabilities (store : StoreRef T) : StoreCapabilities :=
  match store.handle with
  | none => {}
  | some handle => { nativeBatchGet := handle.hasNativeBatchGet }

/-- Decodes the values that were found, aborting on the first failure. -/
def decodeItems : List BatchGetItem → Result (List (Bytes × Option T))
  | [] => .ok []
  | item :: items =>
      match item.value with
      | none =>
          match decodeItems items with
          | .error e => .error e
          | .ok rest => .ok ((item.key, none) :: rest)
      | some bytes =>
          match Codec.decode bytes with
          | .error e => .error e
          | .ok value =>
              match decodeItems items with
              | .error e => .error e
              | .ok rest => .ok ((item.key, some value) :: rest)

def getMany (handle : BackendReads) (keys : List Bytes) : Result (List (Bytes × Option T)) :=
  match handle.getMany keys with
  | .error e => .error e
  | .ok raw => decodeItems raw

def streamScan (handle : BackendReads) (pfx : Bytes) (limit : Nat) :
    Result (StreamHandle (Record T)) :=
  match handle.streamScan pfx with
  | .error e => .error e
  | .ok src => .ok (makeStreamHandle (⟨src, limit, 0 < limit⟩ : DecodeKVImpl T))

def streamAll (handle : BackendReads) : Result (StreamHandle (Record T)) :=
  streamScan handle [] 0

end StoreRef
end CelerMem.Materialization
