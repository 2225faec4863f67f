import CelerMem.Core.BatchOrder
import CelerMem.Core.TreeBuilder
import CelerMem.Core.TreeScan

/-! Tables with typed values: `TableRef` encodes what it puts and decodes what it reads. -/
namespace CelerMem

variable {σ α τ : Type}

/-- `Codec<T>`, which a program may specialize. -/
structure Codec (α : Type) where
  encode : α → Result Bytes
  decode : Bytes → Result α

namespace Codec

/-- A value that was read, if there is one. -/
def read (codec : Codec α) : Option Bytes → Result (Option α)
  | none => .ok none
  | some raw =>
      match codec.decode raw with
      | .error e => .error e
      | .ok value => .ok (some value)

/-- The values that can be decoded. -/
def decoded (codec : Codec α) (values : List Bytes) : List α :=
  values.filterMap fun value => (codec.decode value).toOption

end Codec

/-- The rows that cannot be decoded are dropped. -/
def fromRawPairs (codec : Codec α) (pairs : List KVPair) : List α :=
  codec.decoded (pairs.map KVPair.value)

/-- The visitor that a callback on values is wrapped into. It drops the same rows. -/
def decodingVisitor (codec : Codec α) (callback : τ → α → τ) : ScanVisitor τ :=
  fun ctx _ value =>
    match codec.decode value with
    | .error _ => ctx
    | .ok v => callback ctx v

namespace TableRef

def get (codec : Codec α) (ref : TableRef σ) (key : Bytes) (w : World σ) : Result (Option α) :=
  match ref.handle.get key w with
  | .error e => .error e
  | .ok raw => codec.read raw

def put (codec : Codec α) (ref : TableRef σ) (key : Bytes) (value : α) (w : World σ) :
    VoidResult × World σ :=
  match codec.encode value with
  | .error e => (.error e, w)
  | .ok encoded => ref.handle.put key encoded w

def del (ref : TableRef σ) (key : Bytes) (w : World σ) : VoidResult × World σ :=
  ref.handle.del key w

def putRaw (ref : TableRef σ) (key value : Bytes) (w : World σ) : VoidResult × World σ :=
  ref.handle.put key value w

/-- `prefix`. -/
def withPrefix (codec : Codec α) (scans : BackendHandle σ → ScanVTable σ τ) (ref : TableRef σ)
    (start : Bytes) (w : World σ) : Result (List α) :=
  (ref.handle.prefixScan scans start w).map (fromRawPairs codec)

def all (codec : Codec α) (scans : BackendHandle σ → ScanVTable σ τ) (ref : TableRef σ)
    (w : World σ) : Result (List α) :=
  (ref.handle.prefixScan scans [] w).map (fromRawPairs codec)

def foreach (codec : Codec α) (scans : BackendHandle σ → ScanVTable σ τ) (ref : TableRef σ)
    (callback : τ → α → τ) (ctx : τ) (w : World σ) : VoidResult × τ :=
  ref.handle.foreachScan scans [] (decodingVisitor codec callback) ctx w

end TableRef

theorem foldl_decodingVisitor (codec : Codec α) (callback : τ → α → τ) (rows : List KVPair)
    (ctx : τ) : rows.foldl (fun ctx kv => decodingVisitor codec callback ctx kv.key kv.value) ctx =
      (fromRawPairs codec rows).foldl callback ctx := by
  induction rows generalizing ctx with
  | nil => rfl
  | cons kv rows ih =>
      rw [List.foldl_cons, ih]
      cases hDecode : codec.decode kv.value with
      | error e => simp [decodingVisitor, fromRawPairs, Codec.decoded, hDecode, Except.toOption]
      | ok value => simp [decodingVisitor, fromRawPairs, Codec.decoded, hDecode, Except.toOption]

/-! ## Lawful backends -/

/-- The keys that a backend takes, with the values that are put there. -/
abbrev Limits := Bytes → Option Bytes → Prop

/-- What the calls of a backend that succeed do to what it holds, within its limits. A call that
fails may leave anything. -/
structure LawfulTable (vtable : BackendVTable σ) (scans : ScanVTable σ τ) (view : σ → Contents)
    (limits : Limits) : Prop where
  get : ∀ {key r s}, vtable.get key s = .ok r → r = view s key
  put : ∀ {key value s s'}, limits key (some value) → vtable.put key value s = (.ok (), s') →
    view s' = Function.update (view s) key (some value)
  del : ∀ {key s s'}, limits key none → vtable.del key s = (.ok (), s') →
    view s' = Function.update (view s) key none
  batch : ∀ {ops s s'}, (∀ op ∈ ops, limits op.key op.value) → vtable.batch ops s = (.ok (), s') →
    applyOps ops (view s) = .ok (view s')
  scan : ∀ {start rows s}, scans.prefixScan start s = .ok rows → (view s).Scanned start rows
  visits : ∀ visitor, scans.Agrees visitor

/-- A handle to a lawful backend. -/
structure LawfulHandle (scans : BackendHandle σ → ScanVTable σ τ) (view : σ → Contents)
    (limits : Limits) (handle : BackendHandle σ) (ctx : ℕ) : Prop where
  ctx_eq : handle.ctx = some ctx
  lawful : ∃ vtable, handle.vtable = some vtable ∧
    LawfulTable vtable (scans handle) view limits

/-! ## A backend in memory -/

namespace SortedTable

/-- The rows before the key, its row if it gets a value, and the rows after it. -/
def set (table : SortedTable) (key : Bytes) (value : Option Bytes) : SortedTable where
  rows := (table.rows.filter fun kv => kv.key < key) ++ (value.map (KVPair.mk key)).toList ++
    table.rows.filter fun kv => key < kv.key
  sorted := by
    have hBelow : ∀ kv ∈ table.rows.filter fun kv => kv.key < key, kv.key < key :=
      fun kv hMem => of_decide_eq_true (List.mem_filter.mp hMem).2
    have hAbove : ∀ kv ∈ table.rows.filter fun kv => key < kv.key, key < kv.key :=
      fun kv hMem => of_decide_eq_true (List.mem_filter.mp hMem).2
    have hRow : ∀ kv ∈ (value.map (KVPair.mk key)).toList, kv.key = key := by
      intro kv hMem
      obtain ⟨v, -, rfl⟩ := Option.map_eq_some_iff.mp (Option.mem_toList.mp hMem)
      rfl
    refine List.pairwise_append.mpr ⟨List.pairwise_append.mpr ⟨table.filter_sorted _, ?_, ?_⟩,
      table.filter_sorted _, ?_⟩
    · cases value with
      | none => exact .nil
      | some v => exact List.pairwise_singleton _ _
    · intro a ha b hb
      rw [hRow b hb]
      exact hBelow a ha
    · intro a ha b hb
      rcases List.mem_append.mp ha with ha | ha
      · exact (hBelow a ha).trans (hAbove b hb)
      · rw [hRow a ha]
        exact hAbove b hb

theorem mem_set_iff (table : SortedTable) (key : Bytes) (value : Option Bytes) (kv : KVPair) :
    kv ∈ (table.set key value).rows ↔
      (kv ∈ table.rows ∧ kv.key < key) ∨ value.map (KVPair.mk key) = some kv ∨
        kv ∈ table.rows ∧ key < kv.key := by
  simp only [set, List.append_assoc, List.mem_append, List.mem_filter, decide_eq_true_eq,
    Option.mem_toList]

theorem contents_set (table : SortedTable) (key : Bytes) (value : Option Bytes) :
    (table.set key value).contents = Function.update table.contents key value := by
  funext other
  apply Option.ext
  intro v
  rw [contents_eq_some_iff, mem_set_iff, Option.map_eq_some_iff]
  rcases lt_trichotomy other key with hLess | rfl | hMore
  · rw [Function.update_of_ne hLess.ne, contents_eq_some_iff]
    simp [hLess, hLess.not_gt, hLess.ne']
  · simp
  · rw [Function.update_of_ne hMore.ne', contents_eq_some_iff]
    simp [hMore, hMore.not_gt, hMore.ne]

def applyBatch : List BatchOp → SortedTable → Result SortedTable
  | [], table => .ok table
  | op :: ops, table =>
      match op.kind, op.value with
      | .put, none => .error missingValue
      | .put, some value => applyBatch ops (table.set op.key (some value))
      | .del, _ => applyBatch ops (table.set op.key none)

theorem applyOps_contents (ops : List BatchOp) (table : SortedTable) :
    applyOps ops table.contents = (table.applyBatch ops).map contents := by
  induction ops generalizing table with
  | nil => rfl
  | cons op ops ih =>
      obtain ⟨kind, cfName, key, value⟩ := op
      cases kind with
      | del =>
          rw [applyBatch, ← ih, contents_set]
          rfl
      | put =>
          cases value with
          | none => rfl
          | some value =>
              rw [applyBatch, ← ih, contents_set]
              rfl

end SortedTable

def inMemory : BackendVTable SortedTable where
  get := fun key table => .ok (table.contents key)
  put := fun key value table => (.ok (), table.set key (some value))
  del := fun key table => (.ok (), table.set key none)
  batch := fun ops table =>
    match table.applyBatch ops with
    | .error e => (.error e, table)
    | .ok table => (.ok (), table)

def inMemoryScans : ScanVTable SortedTable τ where
  prefixScan := fun start table => .ok (table.rows.filter fun kv => startsWith kv.key start)
  foreachScan := fun start visitor userCtx table =>
    (.ok (), (table.rows.filter fun kv => startsWith kv.key start).foldl
      (fun seen kv => visitor seen kv.key kv.value) userCtx)

theorem inMemory_lawful :
    LawfulTable inMemory (inMemoryScans : ScanVTable SortedTable τ) SortedTable.contents
      fun _ _ => True where
  get := fun h => (Except.ok.inj h).symm
  put := by
    intro key value s s' _ h
    obtain rfl := (Prod.mk.inj h).2
    exact s.contents_set key (some value)
  del := by
    intro key s s' _ h
    obtain rfl := (Prod.mk.inj h).2
    exact s.contents_set key none
  batch := by
    intro ops s s' _ h
    rw [SortedTable.applyOps_contents]
    cases hApplied : s.applyBatch ops with
    | error e =>
        simp only [inMemory, hApplied] at h
        cases (Prod.mk.inj h).1
    | ok table =>
        simp only [inMemory, hApplied] at h
        obtain rfl := (Prod.mk.inj h).2
        rfl
  scan := by
    intro start rows s h
    obtain rfl := Except.ok.inj h
    refine ⟨fun kv => ?_, s.filter_sorted _⟩
    rw [← startsWith_iff]
    exact s.mem_filter_iff (startsWith · start) kv
  visits := fun _ _ _ => Visits.of_ok fun _ => rfl

/-! ## Calls of one table -/

/-- `all` is the scan of the empty prefix. -/
inductive TableCall (α : Type) where
  | get (key : Bytes)
  | put (key : Bytes) (value : α)
  | del (key : Bytes)
  | putRaw (key value : Bytes)
  | getRaw (key : Bytes)
  | all
  | withPrefix (start : Bytes)
  | foreach

inductive StoreAnswer (α τ : Type) where
  | done (r : VoidResult)
  | value (r : Result (Option α))
  | raw (r : Result (Option Bytes))
  | rows (r : Result (List α))
  | seen (r : VoidResult) (ctx : τ)
  | pairs (r : Result (List KVPair))
  | notFound (e : Error)

/-- What a program uses of the library: its codec, and a callback with the context it has. -/
structure Client (α τ : Type) where
  codec : Codec α
  callback : τ → α → τ
  ctx : τ

namespace TableCall

def call (client : Client α τ) (scans : BackendHandle σ → ScanVTable σ τ) (ref : TableRef σ) :
    TableCall α → World σ → StoreAnswer α τ × World σ
  | .get key, w => (.value (ref.get client.codec key w), w)
  | .put key value, w => (ref.put client.codec key value w).map .done id
  | .del key, w => (ref.del key w).map .done id
  | .putRaw key value, w => (ref.putRaw key value w).map .done id
  | .getRaw key, w => (.raw (ref.getRaw key w), w)
  | .all, w => (.rows (ref.all client.codec scans w), w)
  | .withPrefix start, w => (.rows (ref.withPrefix client.codec scans start w), w)
  | .foreach, w =>
      let (r, ctx) := ref.foreach client.codec scans client.callback client.ctx w
      (.seen r ctx, w)

/-- Only these may change the table. -/
def writes : TableCall α → Bool
  | .put _ _ | .del _ | .putRaw _ _ => true
  | .get _ | .getRaw _ | .all | .withPrefix _ | .foreach => false

/-- The call keeps to the limits of the backend. -/
def Within (client : Client α τ) (limits : Limits) : TableCall α → Prop
  | .put key value => ∀ raw, client.codec.encode value = .ok raw → limits key (some raw)
  | .del key => limits key none
  | .putRaw key value => limits key (some value)
  | .get _ | .getRaw _ | .all | .withPrefix _ | .foreach => True

/-- What a call that succeeds does to the map it is a call on. A value that cannot be decoded is
an error to `get`, and is left out by the scans. -/
inductive Does (client : Client α τ) :
    TableCall α → Contents → StoreAnswer α τ → Contents → Prop where
  | get (m : Contents) (key : Bytes) :
      Does client (.get key) m (.value (client.codec.read (m key))) m
  | put (m : Contents) (key : Bytes) {value : α} {raw : Bytes}
      (hEncode : client.codec.encode value = .ok raw) :
      Does client (.put key value) m (.done (.ok ())) (Function.update m key (some raw))
  | del (m : Contents) (key : Bytes) :
      Does client (.del key) m (.done (.ok ())) (Function.update m key none)
  | putRaw (m : Contents) (key value : Bytes) :
      Does client (.putRaw key value) m (.done (.ok ())) (Function.update m key (some value))
  | getRaw (m : Contents) (key : Bytes) : Does client (.getRaw key) m (.raw (.ok (m key))) m
  | all {m : Contents} {rows : List KVPair} (hScanned : m.Scanned [] rows) :
      Does client .all m (.rows (.ok (fromRawPairs client.codec rows))) m
  | withPrefix {m : Contents} {start : Bytes} {rows : List KVPair} (hScanned : m.Scanned start rows) :
      Does client (.withPrefix start) m (.rows (.ok (fromRawPairs client.codec rows))) m
  | foreach {m : Contents} {rows : List KVPair} (hScanned : m.Scanned [] rows) :
      Does client .foreach m
        (.seen (.ok ()) ((fromRawPairs client.codec rows).foldl client.callback client.ctx)) m

end TableCall

/-- An answer with an error. -/
inductive StoreAnswer.Failed : StoreAnswer α τ → Prop where
  | done (e : Error) : Failed (.done (.error e))
  | value (e : Error) : Failed (.value (.error e))
  | raw (e : Error) : Failed (.raw (.error e))
  | rows (e : Error) : Failed (.rows (.error e))
  | seen (e : Error) (ctx : τ) : Failed (.seen (.error e) ctx)
  | pairs (e : Error) : Failed (.pairs (.error e))

namespace LawfulHandle
variable {scans : BackendHandle σ → ScanVTable σ τ} {view : σ → Contents} {handle : BackendHandle σ}
  {limits : Limits} {cell : ℕ} {w w' : World σ}

theorem get_ok (h : LawfulHandle scans view limits handle cell) {key : Bytes} {r : Option Bytes}
    (hGet : handle.get key w = .ok r) : r = view (w cell) key := by
  obtain ⟨vtable, hVTable, hLawful⟩ := h.lawful
  rw [BackendHandle.get_some h.ctx_eq hVTable] at hGet
  exact hLawful.get hGet

theorem scan_ok (h : LawfulHandle scans view limits handle cell) {start : Bytes} {rows : List KVPair}
    (hScan : handle.prefixScan scans start w = .ok rows) : (view (w cell)).Scanned start rows := by
  obtain ⟨vtable, hVTable, hLawful⟩ := h.lawful
  rw [BackendHandle.prefixScan, h.ctx_eq, hVTable] at hScan
  exact hLawful.scan hScan

/-- A call that may write, and does no more than that. -/
theorem call_eq (h : LawfulHandle scans view limits handle cell)
    (fn : BackendVTable σ → σ → VoidResult × σ) (w : World σ) :
    ∃ vtable, LawfulTable vtable (scans handle) view limits ∧
      handle.call fn w = ((fn vtable (w cell)).1, Function.update w cell (fn vtable (w cell)).2) := by
  obtain ⟨vtable, hVTable, hLawful⟩ := h.lawful
  refine ⟨vtable, hLawful, ?_⟩
  rw [BackendHandle.call, h.ctx_eq, hVTable]

/-- What a write does that succeeds, and that other backends are left alone. -/
theorem write (h : LawfulHandle scans view limits handle cell)
    (fn : BackendVTable σ → σ → VoidResult × σ) (edit : Contents → Contents)
    (hLaw : ∀ {vtable s s'}, LawfulTable vtable (scans handle) view limits → fn vtable s = (.ok (), s') →
      view s' = edit (view s)) (w : World σ) :
    ((∃ e, (handle.call fn w).1 = .error e) ∨ (handle.call fn w).1 = .ok () ∧
      view ((handle.call fn w).2 cell) = edit (view (w cell))) ∧
    ∀ i, i ≠ cell → (handle.call fn w).2 i = w i := by
  obtain ⟨vtable, hLawful, hCall⟩ := h.call_eq fn w
  rw [hCall]
  refine ⟨?_, fun i hOther => Function.update_of_ne hOther _ _⟩
  cases hResult : (fn vtable (w cell)).1 with
  | error e => exact .inl ⟨e, rfl⟩
  | ok result =>
      refine .inr ⟨rfl, ?_⟩
      dsimp only
      rw [Function.update_self]
      exact hLaw hLawful (Prod.ext hResult rfl)

theorem put (h : LawfulHandle scans view limits handle cell) {key value : Bytes}
    (hWithin : limits key (some value)) (w : World σ) :
    ((∃ e, (handle.put key value w).1 = .error e) ∨ (handle.put key value w).1 = .ok () ∧
      view ((handle.put key value w).2 cell) =
        Function.update (view (w cell)) key (some value)) ∧
    ∀ i, i ≠ cell → (handle.put key value w).2 i = w i :=
  h.write (fun vtable => vtable.put key value) (fun m => Function.update m key (some value))
    (fun hLawful => hLawful.put hWithin) w

theorem del (h : LawfulHandle scans view limits handle cell) {key : Bytes}
    (hWithin : limits key none) (w : World σ) :
    ((∃ e, (handle.del key w).1 = .error e) ∨ (handle.del key w).1 = .ok () ∧
      view ((handle.del key w).2 cell) = Function.update (view (w cell)) key none) ∧
    ∀ i, i ≠ cell → (handle.del key w).2 i = w i :=
  h.write (fun vtable => vtable.del key) (fun m => Function.update m key none)
    (fun hLawful => hLawful.del hWithin) w

/-- A typed table does what its call says, or fails; it changes its own backend only, and that
only with a call that writes. -/
theorem does (client : Client α τ) {ref : TableRef σ}
    (h : LawfulHandle scans view limits ref.handle cell) {call : TableCall α}
    (hWithin : call.Within client limits) (w : World σ) :
    ((call.call client scans ref w).1.Failed ∨
      call.Does client (view (w cell)) (call.call client scans ref w).1
        (view ((call.call client scans ref w).2 cell))) ∧
    (∀ i, i ≠ cell → (call.call client scans ref w).2 i = w i) ∧
    (call.writes = false → (call.call client scans ref w).2 = w) := by
  cases call with
  | get key =>
      refine ⟨?_, fun _ _ => rfl, fun _ => rfl⟩
      cases hGet : ref.handle.get key w with
      | error e =>
          have hRead : ref.get client.codec key w = .error e := by simp only [TableRef.get, hGet]
          simp only [TableCall.call, hRead]
          exact .inl (.value e)
      | ok r =>
          have hRead : ref.get client.codec key w = client.codec.read r := by
            simp only [TableRef.get, hGet]
          simp only [TableCall.call, hRead]
          rw [h.get_ok hGet]
          exact .inr (.get _ key)
  | put key value =>
      cases hEncode : client.codec.encode value with
      | error e =>
          have hPut : ref.put client.codec key value w = (.error e, w) := by
            simp only [TableRef.put, hEncode]
          simp only [TableCall.call, hPut, Prod.map]
          exact ⟨.inl (.done e), fun _ _ => rfl, fun hReads => (by cases hReads)⟩
      | ok raw =>
          have hPut : ref.put client.codec key value w = ref.handle.put key raw w := by
            simp only [TableRef.put, hEncode]
          obtain ⟨hResult, hFrame⟩ := h.put (hWithin raw hEncode) w
          simp only [TableCall.call, hPut, Prod.map, id]
          refine ⟨?_, hFrame, fun hReads => (by cases hReads)⟩
          rcases hResult with ⟨e, hError⟩ | ⟨hOk, hView⟩
          · rw [hError]
            exact .inl (.done e)
          · rw [hOk, hView]
            exact .inr (.put _ key hEncode)
  | del key =>
      obtain ⟨hResult, hFrame⟩ := h.del hWithin w
      simp only [TableCall.call, TableRef.del, Prod.map, id]
      refine ⟨?_, hFrame, fun hReads => (by cases hReads)⟩
      rcases hResult with ⟨e, hError⟩ | ⟨hOk, hView⟩
      · rw [hError]
        exact .inl (.done e)
      · rw [hOk, hView]
        exact .inr (.del _ key)
  | putRaw key value =>
      obtain ⟨hResult, hFrame⟩ := h.put hWithin w
      simp only [TableCall.call, TableRef.putRaw, Prod.map, id]
      refine ⟨?_, hFrame, fun hReads => (by cases hReads)⟩
      rcases hResult with ⟨e, hError⟩ | ⟨hOk, hView⟩
      · rw [hError]
        exact .inl (.done e)
      · rw [hOk, hView]
        exact .inr (.putRaw _ key value)
  | getRaw key =>
      refine ⟨?_, fun _ _ => rfl, fun _ => rfl⟩
      simp only [TableCall.call, TableRef.getRaw]
      cases hGet : ref.handle.get key w with
      | error e => exact .inl (.raw e)
      | ok r =>
          rw [h.get_ok hGet]
          exact .inr (.getRaw _ key)
  | all =>
      refine ⟨?_, fun _ _ => rfl, fun _ => rfl⟩
      simp only [TableCall.call, TableRef.all]
      cases hScan : ref.handle.prefixScan scans [] w with
      | error e => exact .inl (.rows e)
      | ok rows => exact .inr (.all (h.scan_ok hScan))
  | withPrefix start =>
      refine ⟨?_, fun _ _ => rfl, fun _ => rfl⟩
      simp only [TableCall.call, TableRef.withPrefix]
      cases hScan : ref.handle.prefixScan scans start w with
      | error e => exact .inl (.rows e)
      | ok rows => exact .inr (.withPrefix (h.scan_ok hScan))
  | foreach =>
      refine ⟨?_, fun _ _ => rfl, fun _ => rfl⟩
      obtain ⟨vtable, hVTable, hLawful⟩ := h.lawful
      have hVisits := BackendHandle.visits (hLawful.visits
        (decodingVisitor client.codec client.callback)) [] w
      simp only [TableCall.call, TableRef.foreach]
      cases hScan : ref.handle.prefixScan scans [] w with
      | error e =>
          obtain ⟨e', hError⟩ := (hVisits.fails_iff client.ctx).mpr ⟨e, hScan⟩
          rw [hError]
          exact .inl (.seen e' _)
      | ok rows =>
          rw [hVisits.pairs rows hScan client.ctx, foldl_decodingVisitor]
          exact .inr (.foreach (h.scan_ok hScan))

end LawfulHandle
end CelerMem
