import CelerMem.Backend.GetMany
import CelerMem.Backend.RocksDBStore
import CelerMem.Materialization.ScanCompleteness

/-! All calls of `StoreRef<T>`, over whole runs: the lens shows a map to values of `T`, in which
the bytes are not seen any more. -/
namespace CelerMem.Materialization

variable {σ T : Type}

/-- The entries of the vtable that the lens calls. -/
structure StoreBackend (σ : Type) extends BackendVTable σ where
  getMany : List Bytes → σ → Result (List BatchGetItem)
  streamScan : Bytes → σ → Result (StreamHandle KVPair)
  hasNativeBatchGet : Bool

def StoreBackend.reads (backend : StoreBackend σ) (s : σ) : BackendReads :=
  ⟨fun keys => backend.getMany keys s, fun start => backend.streamScan start s,
    backend.hasNativeBatchGet⟩

namespace StoreRef
variable [Codec T]

def get (backend : StoreBackend σ) (key : Bytes) (s : σ) : Result (Option T) :=
  match backend.get key s with
  | .error e => .error e
  | .ok none => .ok none
  | .ok (some raw) =>
      match Codec.decode raw with
      | .error e => .error e
      | .ok value => .ok (some value)

def put (backend : StoreBackend σ) (key : Bytes) (value : T) (s : σ) : VoidResult × σ :=
  match Codec.encode value with
  | .error e => (.error e, s)
  | .ok encoded => backend.put key encoded s

def del (backend : StoreBackend σ) (key : Bytes) (s : σ) : VoidResult × σ := backend.del key s

/-- The loop of `putMany`. -/
def putOps (tableName : Bytes) : List (Bytes × T) → Result (List BatchOp)
  | [] => .ok []
  | (key, value) :: items =>
      match Codec.encode value with
      | .error e => .error e
      | .ok encoded =>
          match putOps tableName items with
          | .error e => .error e
          | .ok ops => .ok (⟨.put, tableName, key, some encoded⟩ :: ops)

def putMany (backend : StoreBackend σ) (tableName : Bytes) (items : List (Bytes × T)) (s : σ) :
    VoidResult × σ :=
  match putOps tableName items with
  | .error e => (.error e, s)
  | .ok ops => backend.batch ops s

end StoreRef

/-! ## Calls -/

/-- A scan is collected. -/
inductive LensCall (T : Type) where
  | get (key : Bytes)
  | put (key : Bytes) (value : T)
  | del (key : Bytes)
  | getMany (keys : List Bytes)
  | putMany (items : List (Bytes × T))
  | scan (start : Bytes) (limit : ℕ)

def LensCall.writes : LensCall T → Bool
  | .put _ _ | .del _ | .putMany _ => true
  | .get _ | .getMany _ | .scan _ _ => false

/-- What a call encodes. -/
def LensCall.encodes : LensCall T → List (Bytes × T)
  | .put key value => [(key, value)]
  | .putMany items => items
  | .get _ | .del _ | .getMany _ | .scan _ _ => []

/-- `none` is a scan whose stream never ends. -/
inductive LensAnswer (T : Type) where
  | value (r : Result (Option T))
  | done (r : VoidResult)
  | items (r : Result (List (Bytes × Option T)))
  | records (r : Option (Result (List (Record T))))

/-- An answer with an error. -/
inductive LensAnswer.Failed : LensAnswer T → Prop where
  | value (e : Error) : Failed (.value (.error e))
  | done (e : Error) : Failed (.done (.error e))
  | items (e : Error) : Failed (.items (.error e))
  | records (e : Error) : Failed (.records (some (.error e)))

def LensCall.call [Codec T] (backend : StoreBackend σ) (tableName : Bytes) :
    LensCall T → σ → LensAnswer T × σ
  | .get key, s => (.value (StoreRef.get backend key s), s)
  | .put key value, s => (StoreRef.put backend key value s).map .done id
  | .del key, s => (StoreRef.del backend key s).map .done id
  | .getMany keys, s => (.items (StoreRef.getMany (backend.reads s) keys), s)
  | .putMany items, s => (StoreRef.putMany backend tableName items s).map .done id
  | .scan start limit, s =>
      match StoreRef.streamScan (backend.reads s) start limit with
      | .error e => (.records (some (.error e)), s)
      | .ok stream => (.records (Stream.collect stream), s)

/-! ## Typed maps -/

/-- The values under their keys; one that cannot be decoded is the error it gives. -/
abbrev TypedMap (T : Type) := Bytes → Option (Result T)

/-- What the lens shows of the bytes. -/
def typed [Codec T] (contents : Contents) : TypedMap T := fun key => (contents key).map Codec.decode

/-- All results, or the first error. -/
def allOk {α : Type} : List (Result α) → Result (List α)
  | [] => .ok []
  | r :: rs =>
      match r with
      | .error e => .error e
      | .ok a => (allOk rs).map (a :: ·)

/-- A key that is read. -/
def TypedMap.read (m : TypedMap T) (key : Bytes) : Result (Option T) :=
  match m key with
  | none => .ok none
  | some r => r.map some

def TypedMap.set (m : TypedMap T) (item : Bytes × T) : TypedMap T :=
  Function.update m item.1 (some (.ok item.2))

/-- The rows of a map whose keys start with a prefix, in the order of the keys. -/
structure TypedMap.Rows (m : TypedMap T) (start : Bytes) (rows : List (Bytes × Result T)) :
    Prop where
  mem_iff : ∀ key r, (key, r) ∈ rows ↔ m key = some r ∧ start <+: key
  sorted : rows.Pairwise fun a b => a.1 < b.1

/-- The records of the first rows, of all of them without a limit. -/
def TypedMap.scanned (limit : ℕ) (rows : List (Bytes × Result T)) : Result (List (Record T)) :=
  allOk ((if 0 < limit then rows.take limit else rows).map fun row => row.2.map (Record.mk row.1))

/-- What a call may do to the map. A write that fails in the codec leaves all as it was, one that
fails in the backend may leave anything. The rows of a scan are counted in 32 bits. -/
inductive LensCall.Does [Codec T] : LensCall T → TypedMap T → LensAnswer T → TypedMap T → Prop where
  | get (m : TypedMap T) (key : Bytes) : Does (.get key) m (.value (m.read key)) m
  | put (m : TypedMap T) (key : Bytes) (value : T) :
      Does (.put key value) m (.done (.ok ())) (m.set (key, value))
  | del (m : TypedMap T) (key : Bytes) :
      Does (.del key) m (.done (.ok ())) (Function.update m key none)
  | getMany (m : TypedMap T) (keys : List Bytes) :
      Does (.getMany keys) m (.items (allOk (keys.map fun key => (m.read key).map (key, ·)))) m
  | putMany (m : TypedMap T) (items : List (Bytes × T)) :
      Does (.putMany items) m (.done (.ok ())) (items.foldl TypedMap.set m)
  | scan {m : TypedMap T} {start : Bytes} {rows : List (Bytes × Result T)} (hRows : m.Rows start rows)
      (hFits : rows.length < uint32Size) (limit : ℕ) :
      Does (.scan start limit) m (.records (some (TypedMap.scanned limit rows))) m
  | manyRows {m : TypedMap T} {start : Bytes} {rows : List (Bytes × Result T)}
      (hRows : m.Rows start rows) (hMany : uint32Size ≤ rows.length) (limit : ℕ)
      (r : Result (List (Record T))) : Does (.scan start limit) m (.records (some r)) m
  | readFails {call : LensCall T} {answer : LensAnswer T} (m : TypedMap T)
      (hReads : call.writes = false) (hFailed : answer.Failed) : Does call m answer m
  | notEncoded {call : LensCall T} (m : TypedMap T) {item : Bytes × T} {e : Error}
      (hMem : item ∈ call.encodes) (hEncode : Codec.encode item.2 = .error e) :
      Does call m (.done (.error e)) m
  | writeFails {call : LensCall T} (m m' : TypedMap T) (e : Error) (hWrites : call.writes = true)
      (hEncodes : ∀ item ∈ call.encodes, ∃ raw, Codec.encode item.2 = .ok raw) :
      Does call m (.done (.error e)) m'

/-! ## The lens over a lawful backend -/

/-- What the calls of a backend that succeed do, within its limits. The stream of a scan may fail
before it has brought all rows; otherwise it brings them all, in chunks that are not empty, where
32 bits can count them. -/
structure LawfulStore (backend : StoreBackend σ) (view : σ → Contents) (limits : Limits) : Prop where
  get : ∀ {key r s}, backend.get key s = .ok r → r = view s key
  put : ∀ {key value s s'}, limits key (some value) → backend.put key value s = (.ok (), s') →
    view s' = Function.update (view s) key (some value)
  del : ∀ {key s s'}, limits key none → backend.del key s = (.ok (), s') →
    view s' = Function.update (view s) key none
  batch : ∀ {ops s s'}, (∀ op ∈ ops, limits op.key op.value) → backend.batch ops s = (.ok (), s') →
    applyOps ops (view s) = .ok (view s')
  getMany : ∀ {keys items s}, backend.getMany keys s = .ok items →
    items = keys.map fun key => ⟨key, view s key⟩
  streamScan : ∀ {start src s}, backend.streamScan start s = .ok src → ∃ cs rest e,
    Emits src cs e ∧ (view s).Scanned start (chunkElems cs ++ rest) ∧
      ((chunkElems cs ++ rest).length < uint32Size →
        (∀ c ∈ cs, c.toList ≠ []) ∧ (e = .done → rest = []))

/-- What is encoded is decoded to the same. -/
def RoundTrips (T : Type) [Codec T] : Prop :=
  ∀ (value : T) raw, Codec.encode value = .ok raw → Codec.decode raw = .ok value

section Lens
variable [Codec T] {backend : StoreBackend σ} {view : σ → Contents} {limits : Limits}

/-- The call keeps to the limits of the backend. -/
def LensCall.Within (limits : Limits) : LensCall T → Prop
  | .put key value => ∀ raw, Codec.encode value = .ok raw → limits key (some raw)
  | .del key => limits key none
  | .putMany items => ∀ item ∈ items, ∀ raw, Codec.encode item.2 = .ok raw →
      limits item.1 (some raw)
  | .get _ | .getMany _ | .scan _ _ => True

theorem typed_update (hRound : RoundTrips T) (contents : Contents) (key : Bytes) {value : T}
    {raw : Bytes} (hEncode : Codec.encode value = .ok raw) :
    typed (Function.update contents key (some raw)) = TypedMap.set (typed contents) (key, value) := by
  funext other
  by_cases hKey : other = key
  · subst hKey
    simp [typed, TypedMap.set, hRound value raw hEncode]
  · simp [typed, TypedMap.set, Function.update_of_ne hKey]

theorem typed_remove (contents : Contents) (key : Bytes) :
    (typed (Function.update contents key none) : TypedMap T) =
      Function.update (typed contents) key none := by
  funext other
  by_cases hKey : other = key
  · subst hKey
    simp [typed]
  · simp [typed, Function.update_of_ne hKey]

theorem putOps_error {tableName : Bytes} {items : List (Bytes × T)} {e : Error}
    (h : StoreRef.putOps tableName items = .error e) :
    ∃ item ∈ items, Codec.encode item.2 = .error e := by
  induction items with
  | nil => cases h
  | cons item items ih =>
      obtain ⟨key, value⟩ := item
      rw [StoreRef.putOps] at h
      cases hEncode : Codec.encode value with
      | error e' =>
          simp only [hEncode] at h
          obtain rfl := Except.error.inj h
          exact ⟨_, List.mem_cons_self, hEncode⟩
      | ok raw =>
          simp only [hEncode] at h
          cases hRest : StoreRef.putOps tableName items with
          | error e' =>
              simp only [hRest] at h
              obtain rfl := Except.error.inj h
              obtain ⟨other, hMem, hFails⟩ := ih hRest
              exact ⟨other, List.mem_cons_of_mem _ hMem, hFails⟩
          | ok ops =>
              simp only [hRest] at h
              cases h

/-- What the loop has done when it comes to its end. -/
theorem putOps_cons_ok {tableName key : Bytes} {value : T} {items : List (Bytes × T)}
    {ops : List BatchOp} (h : StoreRef.putOps tableName ((key, value) :: items) = .ok ops) :
    ∃ raw later, Codec.encode value = .ok raw ∧ StoreRef.putOps tableName items = .ok later ∧
      ops = ⟨.put, tableName, key, some raw⟩ :: later := by
  rw [StoreRef.putOps] at h
  cases hEncode : Codec.encode value with
  | error e =>
      simp only [hEncode] at h
      cases h
  | ok raw =>
      simp only [hEncode] at h
      cases hRest : StoreRef.putOps tableName items with
      | error e =>
          simp only [hRest] at h
          cases h
      | ok later =>
          simp only [hRest] at h
          exact ⟨raw, later, rfl, rfl, (Except.ok.inj h).symm⟩

theorem putOps_encodes {tableName : Bytes} {items : List (Bytes × T)} {ops : List BatchOp}
    (h : StoreRef.putOps tableName items = .ok ops) :
    ∀ item ∈ items, ∃ raw, Codec.encode item.2 = .ok raw := by
  induction items generalizing ops with
  | nil => exact fun item hMem => absurd hMem List.not_mem_nil
  | cons item items ih =>
      obtain ⟨raw, later, hEncode, hRest, -⟩ := putOps_cons_ok h
      intro other hMem
      rcases List.mem_cons.mp hMem with rfl | hMem
      · exact ⟨raw, hEncode⟩
      · exact ih hRest other hMem

/-- The operations of `putMany` put the items, one after the other. -/
theorem putOps_ok (hRound : RoundTrips T) {tableName : Bytes} {items : List (Bytes × T)}
    {ops : List BatchOp} (h : StoreRef.putOps tableName items = .ok ops) :
    (∀ op ∈ ops, ∃ item ∈ items, ∃ raw, Codec.encode item.2 = .ok raw ∧ op.key = item.1 ∧
      op.value = some raw) ∧
    ∀ contents contents', applyOps ops contents = .ok contents' →
      typed contents' = items.foldl TypedMap.set (typed contents) := by
  induction items generalizing ops with
  | nil =>
      obtain rfl : [] = ops := Except.ok.inj h
      refine ⟨fun op hMem => absurd hMem List.not_mem_nil, fun contents contents' hApply => ?_⟩
      rw [← Except.ok.inj hApply]
      rfl
  | cons item items ih =>
      obtain ⟨raw, later, hEncode, hRest, rfl⟩ := putOps_cons_ok h
      obtain ⟨hOps, hApplied⟩ := ih hRest
      constructor
      · intro op hMem
        rcases List.mem_cons.mp hMem with rfl | hMem
        · exact ⟨item, List.mem_cons_self, raw, hEncode, rfl, rfl⟩
        · obtain ⟨other, hItem, hOp⟩ := hOps op hMem
          exact ⟨other, List.mem_cons_of_mem _ hItem, hOp⟩
      · intro contents contents' hApply
        rw [List.foldl_cons, ← typed_update hRound contents item.1 hEncode]
        exact hApplied _ contents' hApply

theorem read_typed (contents : Contents) (key : Bytes) :
    TypedMap.read (T := T) (typed contents) key =
      match contents key with
      | none => .ok none
      | some raw => (Codec.decode raw).map some := by
  rw [TypedMap.read, typed]
  cases contents key with
  | none => rfl
  | some raw => rfl

theorem allOk_cons {α : Type} (r : Result α) (rs : List (Result α)) :
    allOk (r :: rs) =
      match r with
      | .error e => .error e
      | .ok a =>
          match allOk rs with
          | .error e => .error e
          | .ok rest => .ok (a :: rest) := by
  rw [allOk.eq_def]
  cases r with
  | error e => rfl
  | ok a =>
      dsimp only
      cases allOk rs with
      | error e => rfl
      | ok rest => rfl

theorem decodeItems_eq (contents : Contents) (keys : List Bytes) :
    StoreRef.decodeItems (T := T) (keys.map fun key => ⟨key, contents key⟩) =
      allOk (keys.map fun key => (TypedMap.read (typed contents) key).map (key, ·)) := by
  induction keys with
  | nil => rfl
  | cons key keys ih =>
      rw [List.map_cons, List.map_cons, StoreRef.decodeItems.eq_def, allOk_cons, ← ih, read_typed]
      dsimp only
      generalize StoreRef.decodeItems (T := T) (keys.map fun key => ⟨key, contents key⟩) = later
      cases contents key with
      | none =>
          cases later with
          | error e => rfl
          | ok rest => rfl
      | some raw =>
          dsimp only
          cases Codec.decode (T := T) raw with
          | error e => rfl
          | ok value =>
              cases later with
              | error e => rfl
              | ok rest => rfl

theorem decodeKVs_eq (kvs : List KVPair) :
    decodeKVs (T := T) kvs =
      allOk (kvs.map fun kv => (Codec.decode kv.value).map (Record.mk kv.key)) := by
  induction kvs with
  | nil => rfl
  | cons kv kvs ih =>
      rw [List.map_cons, decodeKVs, allOk_cons, ← ih]
      cases Codec.decode (T := T) kv.value with
      | error e => rfl
      | ok value =>
          cases decodeKVs (T := T) kvs with
          | error e => rfl
          | ok rest => rfl

/-- The rows of the map that the lens shows, from those of the bytes. -/
theorem rows_of_scanned {contents : Contents} {start : Bytes} {kvs : List KVPair}
    (h : contents.Scanned start kvs) :
    TypedMap.Rows (T := T) (typed contents) start
      (kvs.map fun kv => (kv.key, Codec.decode kv.value)) := by
  constructor
  · intro key r
    rw [List.mem_map, typed, Option.map_eq_some_iff]
    constructor
    · rintro ⟨kv, hMem, hRow⟩
      obtain ⟨rfl, rfl⟩ := Prod.mk.inj hRow
      obtain ⟨hStored, hStarts⟩ := (h.mem_iff kv).mp hMem
      exact ⟨⟨kv.value, hStored, rfl⟩, hStarts⟩
    · rintro ⟨⟨raw, hStored, rfl⟩, hStarts⟩
      exact ⟨⟨key, raw⟩, (h.mem_iff ⟨key, raw⟩).mpr ⟨hStored, hStarts⟩, rfl⟩
  · exact List.pairwise_map.mpr h.sorted

/-- A typed scan gives the first rows of the map, or all of them, if 32 bits can count them. -/
theorem scan_ok (hLawful : LawfulStore backend view limits) {start : Bytes} {limit : ℕ} {s : σ}
    {stream : StreamHandle (Record T)}
    (hScan : StoreRef.streamScan (backend.reads s) start limit = .ok stream) :
    ∃ r rows, Stream.collect stream = some r ∧ TypedMap.Rows (typed (view s)) start rows ∧
      (rows.length < uint32Size → (∃ e, r = .error e) ∨ r = TypedMap.scanned limit rows) := by
  rw [StoreRef.streamScan] at hScan
  cases hSource : (backend.reads s).streamScan start with
  | error e =>
      simp only [hSource] at hScan
      cases hScan
  | ok src =>
      simp only [hSource] at hScan
      obtain rfl := Except.ok.inj hScan
      obtain ⟨cs, rest, e, hEmits, hScanned, hFits⟩ := hLawful.streamScan hSource
      obtain ⟨records, ending, hDenotes, hResult⟩ := scan_delivers (T := T) hEmits (0 < limit) limit
      refine ⟨_, _, hDenotes.collect, rows_of_scanned hScanned, fun hLength => ?_⟩
      rw [List.length_map] at hLength
      obtain ⟨hFull, hEnd⟩ := hFits hLength
      have hNoEmpty : EmptyHarmless T limit cs e := by
        refine .inl (List.dropWhile_eq_nil_iff.mpr fun c hMem => ?_)
        rw [Bool.not_eq_true', Bool.eq_false_iff, ne_eq, Chunk.empty_iff]
        exact hFull c hMem
      have hComplete := (delivered_complete_iff limit cs e).mpr hNoEmpty
      rw [hResult]
      cases hDelivered : delivered (T := T) (0 < limit) limit cs e with
      | error err => exact .inl ⟨err, rfl⟩
      | ok out =>
          rw [hDelivered, complete_ok_iff] at hComplete
          obtain ⟨hDecoded, hReached⟩ := hComplete
          have hAll : wanted limit (chunkElems cs ++ rest) = wanted limit (chunkElems cs) := by
            rcases hReached with hDone | ⟨hPos, hLe⟩
            · rw [hEnd hDone, List.append_nil]
            · exact wanted_append_of_reached hPos hLe rest
          right
          rw [← hDecoded, ← hAll, decodeKVs_eq, TypedMap.scanned, wanted, DecodeKVImpl.admitted]
          simp only [decide_eq_true_eq]
          split
          next => rw [← List.map_take, List.map_map]; rfl
          next => rw [List.map_map]; rfl

/-- One call. -/
theorem lens_does (hLawful : LawfulStore backend view limits) (hRound : RoundTrips T)
    (tableName : Bytes) {call : LensCall T} (hWithin : call.Within limits) (s : σ) :
    call.Does (typed (view s)) (call.call backend tableName s).1
      (typed (view (call.call backend tableName s).2)) := by
  cases call with
  | get key =>
      simp only [LensCall.call, StoreRef.get]
      cases hGet : backend.get key s with
      | error e => exact .readFails _ rfl (.value e)
      | ok r =>
          have hRead := read_typed (T := T) (view s) key
          rw [← hLawful.get hGet] at hRead
          cases r with
          | none =>
              dsimp only at hRead ⊢
              rw [← hRead]
              exact .get _ key
          | some raw =>
              have hAnswer : (match Codec.decode (T := T) raw with
                  | .error e => .error e
                  | .ok value => .ok (some value)) = (Codec.decode raw).map some := by
                cases Codec.decode (T := T) raw with
                | error e => rfl
                | ok value => rfl
              dsimp only at hRead ⊢
              rw [hAnswer, ← hRead]
              exact .get _ key
  | put key value =>
      simp only [LensCall.call, StoreRef.put]
      cases hEncode : Codec.encode value with
      | error e =>
          exact .notEncoded _ (List.mem_singleton_self (key, value)) hEncode
      | ok raw =>
          dsimp only
          rcases hPut : backend.put key raw s with ⟨r, s'⟩
          cases r with
          | error e =>
              refine .writeFails _ _ e rfl fun item hMem => ?_
              obtain rfl := List.mem_singleton.mp hMem
              exact ⟨raw, hEncode⟩
          | ok _ =>
              show LensCall.Does _ _ _ (typed (view s'))
              rw [hLawful.put (hWithin raw hEncode) hPut, typed_update hRound _ key hEncode]
              exact .put _ key value
  | del key =>
      simp only [LensCall.call, StoreRef.del]
      rcases hDel : backend.del key s with ⟨r, s'⟩
      cases r with
      | error e => exact .writeFails _ _ e rfl fun _ hMem => absurd hMem List.not_mem_nil
      | ok _ =>
          show LensCall.Does _ _ _ (typed (view s'))
          rw [hLawful.del hWithin hDel, typed_remove]
          exact .del _ key
  | getMany keys =>
      simp only [LensCall.call, StoreRef.getMany]
      cases hGet : (backend.reads s).getMany keys with
      | error e => exact .readFails _ rfl (.items e)
      | ok items =>
          dsimp only
          rw [hLawful.getMany hGet, decodeItems_eq]
          exact .getMany _ keys
  | putMany items =>
      simp only [LensCall.call, StoreRef.putMany]
      cases hOps : StoreRef.putOps tableName items with
      | error e =>
          obtain ⟨item, hMem, hEncode⟩ := putOps_error hOps
          exact .notEncoded _ hMem hEncode
      | ok ops =>
          obtain ⟨hItems, hApplied⟩ := putOps_ok hRound hOps
          dsimp only
          rcases hBatch : backend.batch ops s with ⟨r, s'⟩
          cases r with
          | error e => exact .writeFails _ _ e rfl (putOps_encodes hOps)
          | ok _ =>
              have hLimits : ∀ op ∈ ops, limits op.key op.value := by
                intro op hOp
                obtain ⟨item, hMem, raw, hEncode, hKey, hValue⟩ := hItems op hOp
                rw [hKey, hValue]
                exact hWithin item hMem raw hEncode
              show LensCall.Does _ _ _ (typed (view s'))
              rw [hApplied _ _ (hLawful.batch hLimits hBatch)]
              exact .putMany _ items
  | scan start limit =>
      simp only [LensCall.call]
      cases hScan : StoreRef.streamScan (T := T) (backend.reads s) start limit with
      | error e => exact .readFails _ rfl (.records e)
      | ok stream =>
          obtain ⟨r, rows, hCollect, hRows, hScanned⟩ := scan_ok hLawful hScan
          dsimp only
          rw [hCollect]
          by_cases hFits : rows.length < uint32Size
          · rcases hScanned hFits with ⟨e, rfl⟩ | rfl
            · exact .readFails _ rfl (.records e)
            · exact .scan hRows hFits limit
          · exact .manyRows hRows (Nat.le_of_not_lt hFits) limit r

theorem lens_performs (hLawful : LawfulStore backend view limits) (hRound : RoundTrips T)
    (tableName : Bytes) {calls : List (LensCall T)}
    (hWithin : ∀ call ∈ calls, call.Within limits) (s : σ) :
    SequentialObject.Performs LensCall.Does calls (typed (view s))
      (SequentialObject.run (LensCall.call backend tableName) calls s).1
      (typed (view (SequentialObject.run (LensCall.call backend tableName) calls s).2)) :=
  @SequentialObject.run_performs _ _ _ _ (LensCall.call backend tableName) LensCall.Does
    (fun s => typed (view s)) calls
    (fun call hMem s => lens_does hLawful hRound tableName (hWithin call hMem) s) s

end Lens
end CelerMem.Materialization

/-! ## The lens over RocksDB -/
namespace CelerMem
namespace RocksDBBackend

open Materialization

variable {ρ T : Type} {e : RocksEngine ρ} {contents : ρ → Contents}

def streamScan (backend : RocksDBBackend) (start : Bytes) : Result (StreamHandle KVPair) :=
  match backend.prefixScan start with
  | .error e => .error e
  | .ok rows => .ok (Stream.fromVector rows)

def storeBackend (e : RocksEngine ρ) : StoreBackend (Option ρ) where
  toBackendVTable := vtable e
  getMany keys db := getMany (reads e db) keys
  streamScan start db := streamScan (reads e db) start
  hasNativeBatchGet := true

theorem alignStatuses_ok {contents : Contents} {keys : List Bytes}
    {statuses : List (Except String (Option Bytes))} {items : List BatchGetItem}
    (hStatuses : List.Forall₂ (fun key status => ∀ r, status = .ok r → r = contents key)
      keys statuses)
    (h : alignStatuses keys statuses = .ok items) :
    items = keys.map fun key => ⟨key, contents key⟩ := by
  induction hStatuses generalizing items with
  | nil => exact (Except.ok.inj h).symm
  | @cons key status keys statuses hStatus _ ih =>
      cases status with
      | error msg =>
          rw [alignStatuses] at h
          cases h
      | ok value =>
          rw [alignStatuses] at h
          cases hRest : alignStatuses keys statuses with
          | error e =>
              simp only [hRest] at h
              cases h
          | ok later =>
              simp only [hRest] at h
              obtain rfl := Except.ok.inj h
              rw [ih hRest, hStatus value rfl, List.map_cons]

theorem getMany_ok (hLawful : e.Lawful contents) {keys : List Bytes} {db : Option ρ}
    {items : List BatchGetItem} (h : getMany (reads e db) keys = .ok items) :
    items = keys.map fun key => ⟨key, rocksView contents db key⟩ := by
  cases db with
  | none => cases h
  | some db =>
      cases keys with
      | nil => exact (Except.ok.inj h).symm
      | cons key keys => exact alignStatuses_ok (hLawful.multiGet (key :: keys) db) h

/-- The rows of a scan come in one chunk, unless there are none. -/
theorem streamScan_ok (hLawful : e.Lawful contents) {start : Bytes} {db : Option ρ}
    {src : StreamHandle KVPair} (h : streamScan (reads e db) start = .ok src) :
    ∃ cs rest ending, Emits src cs ending ∧
      (rocksView contents db).Scanned start (chunkElems cs ++ rest) ∧
      ((chunkElems cs ++ rest).length < uint32Size →
        (∀ c ∈ cs, c.toList ≠ []) ∧ (ending = .done → rest = [])) := by
  rw [streamScan] at h
  cases hScan : (reads e db).prefixScan start with
  | error err =>
      simp only [hScan] at h
      cases h
  | ok rows =>
      simp only [hScan] at h
      obtain rfl := Except.ok.inj h
      have hScanned := prefixScan_ok hLawful hScan
      have hEmits := Stream.fromVector_emits rows
      by_cases hEmpty : rows = []
      · rw [if_pos hEmpty] at hEmits
        subst hEmpty
        exact ⟨[], [], .done, hEmits, hScanned, fun _ => ⟨by simp, fun _ => rfl⟩⟩
      · rw [if_neg hEmpty] at hEmits
        have hSplit : chunkElems [Chunk.from rows] ++ rows.drop (rows.length % uint32Size) = rows := by
          rw [chunkElems_cons, chunkElems_nil, List.append_nil, Chunk.toList_from,
            List.take_append_drop]
        refine ⟨_, rows.drop (rows.length % uint32Size), .done, hEmits, ?_, ?_⟩
        · rwa [hSplit]
        · rw [hSplit]
          intro hFits
          rw [Nat.mod_eq_of_lt hFits, List.drop_length]
          refine ⟨fun c hMem => ?_, fun _ => rfl⟩
          obtain rfl := List.mem_singleton.mp hMem
          rwa [Chunk.toList_from_of_lt hFits]

theorem lawfulStore (hLawful : e.Lawful contents) :
    LawfulStore (storeBackend e) (rocksView contents) rocksLimits where
  get := (lawfulTable (τ := ℕ) hLawful).get
  put := (lawfulTable (τ := ℕ) hLawful).put
  del := (lawfulTable (τ := ℕ) hLawful).del
  batch := (lawfulTable (τ := ℕ) hLawful).batch
  getMany := getMany_ok hLawful
  streamScan := streamScan_ok hLawful

/-- Whatever calls are made through the lens on a table in RocksDB, one after the other: they
return, and do what they do to a map to values of `T`. -/
theorem lens_is_typed_map [Materialization.Codec T] (hLawful : e.Lawful contents) (hRound : RoundTrips T)
    (tableName : Bytes) {calls : List (LensCall T)}
    (hWithin : ∀ call ∈ calls, call.Within rocksLimits) (db : Option ρ) :
    SequentialObject.Performs LensCall.Does calls (typed (rocksView contents db))
      (SequentialObject.run (LensCall.call (storeBackend e) tableName) calls db).1
      (typed (rocksView contents
        (SequentialObject.run (LensCall.call (storeBackend e) tableName) calls db).2)) :=
  lens_performs (lawfulStore hLawful) hRound tableName hWithin db

theorem bytes_roundTrips : RoundTrips Bytes := by
  intro value raw h
  obtain rfl := Except.ok.inj h
  rfl

/-- A key is written twice, and is then read twice at once. -/
def lensCalls : List (LensCall Bytes) :=
  [.put [97] [8], .putMany [([98], [1]), ([97], [2])], .getMany [[97], [97]], .scan [] 1]

theorem lensCalls_within : ∀ call ∈ lensCalls, call.Within rocksLimits := by
  simp [lensCalls, LensCall.Within, rocksLimits, uint32Size, Materialization.Codec.encode, or_imp,
    forall_and]

theorem lens_is_typed_map_oneRow :
    SequentialObject.Performs LensCall.Does lensCalls
      (typed (rocksView SortedTable.contents (some oneRow)))
      (SequentialObject.run (LensCall.call (storeBackend sortedRocks) (ascii "t")) lensCalls
        (some oneRow)).1
      (typed (rocksView SortedTable.contents
        (SequentialObject.run (LensCall.call (storeBackend sortedRocks) (ascii "t")) lensCalls
          (some oneRow)).2)) :=
  lens_is_typed_map sortedRocks_lawful bytes_roundTrips (ascii "t") lensCalls_within (some oneRow)

end RocksDBBackend
end CelerMem
