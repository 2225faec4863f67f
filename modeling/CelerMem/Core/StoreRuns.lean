import CelerMem.Core.Directory
import CelerMem.Library.Objects

/-! The store that `open` has built, over whole runs: it is a map for each table, and the calls on
tables and scopes do to these maps what they say. -/
namespace CelerMem

variable {σ α τ : Type} {hashKey : Bytes → Nat}

/-! ## Maps -/

/-- What each table holds; one that there is not holds nothing. -/
def Store.contents (hashKey : Bytes → Nat) (store : Store σ) (view : σ → Contents) (w : World σ)
    (td : TableDescriptor) : Contents :=
  match store.resolve hashKey td with
  | .error _ => fun _ => none
  | .ok ref =>
      match ref.handle.ctx with
      | none => fun _ => none
      | some ctx => view (w ctx)

inductive StoreCall (α : Type) where
  | table (td : TableDescriptor) (call : TableCall α)
  | scanAll (scope start : Bytes)
  | batch (scope : Bytes) (ops : List BatchOp)

def DbRef.scanAll (hashKey : Bytes → Nat) (scans : BackendHandle σ → ScanVTable σ τ)
    (ref : DbRef σ) (start : Bytes) (w : World σ) : Result (List KVPair) :=
  match ref.node with
  | none => .error ⟨"DbRef", "null node"⟩
  | some node => nodePrefixScan hashKey scans w node start

namespace StoreCall

/-- Each call looks its scope and its table up. -/
def call (hashKey : Bytes → Nat) (hashOrder : HashOrder) (client : Client α τ)
    (scans : BackendHandle σ → ScanVTable σ τ) (store : Store σ) :
    StoreCall α → World σ → StoreAnswer α τ × World σ
  | .table td call, w =>
      match store.resolve hashKey td with
      | .error e => (.notFound e, w)
      | .ok ref => call.call client scans ref w
  | .scanAll scope start, w =>
      match store.db hashKey scope with
      | .error e => (.notFound e, w)
      | .ok ref => (.pairs (ref.scanAll hashKey scans start w), w)
  | .batch scope ops, w =>
      match store.db hashKey scope with
      | .error e => (.notFound e, w)
      | .ok ref => (ref.batch hashKey hashOrder ops w).map .done id

/-- The call keeps to the limits of the backends. -/
def Within (client : Client α τ) (limits : Limits) : StoreCall α → Prop
  | .table _ call => call.Within client limits
  | .scanAll _ _ => True
  | .batch _ ops => ∀ op ∈ ops, limits op.key op.value

/-- The pairs of a scope: of the table that the prefix names, or of all its tables. -/
def Scans (tables : List TableDescriptor) (s : TableDescriptor → Contents) (scope start : Bytes)
    (rows : List KVPair) : Prop :=
  if (routeKey start).child = [] then
    ∃ parts : List (List KVPair), rows = parts.flatten ∧
      List.Forall₂ (fun table part => (s ⟨scope, table⟩).Scanned start part)
        (scopeTables tables scope) parts
  else ⟨scope, (routeKey start).child⟩ ∈ tables ∧
    (s ⟨scope, (routeKey start).child⟩).Scanned (routeKey start).rest rows

/-- What a call may do to the maps of the tables. A call that fails may leave anything in the
table it was to write to. A batch that succeeds has applied to each table the operations that
name it; one that fails has done so for some tables, left others as they were, and may have left
anything in one. -/
inductive Does (client : Client α τ) (tables : List TableDescriptor) :
    StoreCall α → (TableDescriptor → Contents) → StoreAnswer α τ → (TableDescriptor → Contents) →
      Prop where
  | table {td : TableDescriptor} {call : TableCall α} {s : TableDescriptor → Contents}
      {answer : StoreAnswer α τ} {m : Contents} (hListed : td ∈ tables)
      (hDoes : call.Does client (s td) answer m) :
      Does client tables (.table td call) s answer (Function.update s td m)
  | tableFails {td : TableDescriptor} {call : TableCall α} {s s' : TableDescriptor → Contents}
      {answer : StoreAnswer α τ} (hListed : td ∈ tables) (hFailed : answer.Failed)
      (hOthers : ∀ other, other ≠ td → s' other = s other) (hReads : call.writes = false → s' = s) :
      Does client tables (.table td call) s answer s'
  | noTable {td : TableDescriptor} (call : TableCall α) (s : TableDescriptor → Contents) (e : Error)
      (hNone : td ∉ tables) : Does client tables (.table td call) s (.notFound e) s
  | scanAll {scope start : Bytes} {s : TableDescriptor → Contents} {rows : List KVPair}
      (hScans : Scans tables s scope start rows) :
      Does client tables (.scanAll scope start) s (.pairs (.ok rows)) s
  | scanFails {scope start : Bytes} (s : TableDescriptor → Contents) (e : Error) :
      Does client tables (.scanAll scope start) s (.pairs (.error e)) s
  | batch {scope : Bytes} {ops : List BatchOp} {s s' : TableDescriptor → Contents}
      (hListed : ∀ op ∈ ops, ⟨scope, op.cfName⟩ ∈ tables)
      (hTables : ∀ table, applyOps (ops.filter fun op => op.cfName = table) (s ⟨scope, table⟩) =
        .ok (s' ⟨scope, table⟩))
      (hOthers : ∀ td, td.scope ≠ scope → s' td = s td) :
      Does client tables (.batch scope ops) s (.done (.ok ())) s'
  | batchFails {scope : Bytes} {ops : List BatchOp} {s s' : TableDescriptor → Contents} (e : Error)
      {failed : Bytes} (hFailed : failed ∈ ops.map BatchOp.cfName)
      (hTables : ∀ table, table ≠ failed → s' ⟨scope, table⟩ = s ⟨scope, table⟩ ∨
        applyOps (ops.filter fun op => op.cfName = table) (s ⟨scope, table⟩) =
          .ok (s' ⟨scope, table⟩))
      (hOthers : ∀ td, td.scope ≠ scope → s' td = s td) :
      Does client tables (.batch scope ops) s (.done (.error e)) s'
  | noScope {scope : Bytes} (s : TableDescriptor → Contents) (e : Error) {call : StoreCall α}
      (hScope : (∃ start, call = .scanAll scope start) ∨ ∃ ops, call = .batch scope ops)
      (hNone : scopeTables tables scope = []) : Does client tables call s (.notFound e) s

end StoreCall

theorem LawfulHandle.mem_contexts {scans : BackendHandle σ → ScanVTable σ τ} {view : σ → Contents} {limits : Limits}
    {handle : BackendHandle σ} {cell : ℕ} (h : LawfulHandle scans view limits handle cell) :
    cell ∈ handle.erased.contexts := by
  obtain ⟨vtable, hVTable, -⟩ := h.lawful
  rw [ErasedHandle.mem_contexts_iff]
  exact ⟨by simp [ErasedHandle.valid, BackendHandle.erased, h.ctx_eq, hVTable], h.ctx_eq⟩

namespace Opened
variable {scans : BackendHandle σ → ScanVTable σ τ} {view : σ → Contents} {limits : Limits}
  {tables : List TableDescriptor} {scopes : Directory σ} {td : TableDescriptor}
  {handle : BackendHandle σ} {w w' : World σ} {cell : ℕ} {client : Client α τ}

theorem contents_listed (hHandle : scopes.handle td = some handle)
    (hLawful : LawfulHandle scans view limits handle cell) (w : World σ) :
    Store.contents hashKey ⟨scopes.root hashKey⟩ view w td = view (w cell) := by
  simp only [Store.contents, Directory.resolve_handle hHandle, hLawful.ctx_eq]

theorem contents_unlisted (hNone : scopes.handle td = none) (w : World σ) :
    Store.contents hashKey ⟨scopes.root hashKey⟩ view w td = fun _ => none := by
  obtain ⟨e, hError⟩ := @Directory.resolve_none _ hashKey _ _ hNone
  simp only [Store.contents, hError]

/-- What is left of the backend of one table alone does not change what another holds. -/
theorem contents_congr (h : Opened scans view limits tables scopes) (td : TableDescriptor)
    (hSame : ∀ handle cell, scopes.handle td = some handle → LawfulHandle scans view limits handle cell →
      w' cell = w cell) :
    Store.contents hashKey ⟨scopes.root hashKey⟩ view w' td =
      Store.contents hashKey ⟨scopes.root hashKey⟩ view w td := by
  cases hHandle : scopes.handle td with
  | none => rw [contents_unlisted hHandle, contents_unlisted hHandle]
  | some handle =>
      obtain ⟨cell, hLawful⟩ := h.lawful_handle hHandle
      rw [contents_listed hHandle hLawful, contents_listed hHandle hLawful,
        hSame handle cell hHandle hLawful]

/-- A call on a table. -/
theorem table_does (h : Opened scans view limits tables scopes) (hashOrder : HashOrder)
    (td : TableDescriptor) {call : TableCall α} (hWithin : call.Within client limits)
    (w : World σ) : StoreCall.Does client tables (.table td call)
      (Store.contents hashKey ⟨scopes.root hashKey⟩ view w)
      ((StoreCall.table td call).call hashKey hashOrder client scans ⟨scopes.root hashKey⟩ w).1
      (Store.contents hashKey ⟨scopes.root hashKey⟩ view
        ((StoreCall.table td call).call hashKey hashOrder client scans
          ⟨scopes.root hashKey⟩ w).2) := by
  cases hHandle : scopes.handle td with
  | none =>
      obtain ⟨e, hError⟩ := @Directory.resolve_none _ hashKey _ _ hHandle
      simp only [StoreCall.call, hError]
      refine .noTable call _ e fun hListed => ?_
      obtain ⟨handle, hSome⟩ := h.handle_some_iff.mpr hListed
      rw [hHandle] at hSome
      cases hSome
  | some handle =>
      obtain ⟨cell, hLawful⟩ := h.lawful_handle hHandle
      have hListed : td ∈ tables := h.handle_some_iff.mp ⟨handle, hHandle⟩
      have hResolve := @Directory.resolve_handle _ hashKey _ _ _ hHandle
      have hRef : LawfulHandle scans view limits (⟨td.table, handle⟩ : TableRef σ).handle cell := hLawful
      obtain ⟨hResult, hFrame, hReads⟩ := hRef.does client hWithin w
      simp only [StoreCall.call, hResolve]
      have hOthers : ∀ other, other ≠ td → Store.contents hashKey ⟨scopes.root hashKey⟩ view
          (call.call client scans ⟨td.table, handle⟩ w).2 other =
            Store.contents hashKey ⟨scopes.root hashKey⟩ view w other := by
        intro other hOther
        apply h.contents_congr
        intro handle' cell' hHandle' hLawful'
        apply hFrame
        rintro rfl
        exact hOther (h.apart hHandle' hHandle hLawful'.mem_contexts hLawful.mem_contexts)
      rcases hResult with hFailed | hDoes
      · exact .tableFails hListed hFailed hOthers fun hNoWrite => by rw [hReads hNoWrite]
      · have hContents : Store.contents hashKey ⟨scopes.root hashKey⟩ view
            (call.call client scans ⟨td.table, handle⟩ w).2 =
              Function.update (Store.contents hashKey ⟨scopes.root hashKey⟩ view w) td
                (view ((call.call client scans ⟨td.table, handle⟩ w).2 cell)) := by
          funext other
          by_cases hSame : other = td
          · subst hSame
            rw [Function.update_self, contents_listed hHandle hLawful]
          · rw [Function.update_of_ne hSame, hOthers other hSame]
        rw [hContents]
        rw [← @contents_listed _ _ hashKey _ _ _ _ _ _ _ hHandle hLawful w] at hDoes
        exact .table hListed hDoes

/-! ### Scans of a scope -/

theorem ownStores (h : Opened scans view limits tables scopes) {scope : Bytes}
    {leaves : List (Bytes × BackendHandle σ)} (hScope : scopes.lookup scope = some leaves) :
    OwnStores leaves := by
  have hInner := (List.nodup_flatMap.mp h.contexts).1 _ (lookup_mem hScope)
  have hApart := (List.nodup_flatMap.mp hInner).2
  refine hApart.imp_of_mem fun {a b} ha hb hDisjoint ctx hCtx hCtx' => ?_
  obtain ⟨cell, hLawful⟩ := h.lawful _ (lookup_mem hScope) a ha
  obtain ⟨cell', hLawful'⟩ := h.lawful _ (lookup_mem hScope) b hb
  obtain rfl := Option.some.inj (hLawful.ctx_eq.symm.trans hCtx)
  obtain rfl := Option.some.inj (hLawful'.ctx_eq.symm.trans hCtx')
  exact hDisjoint hLawful.mem_contexts hLawful'.mem_contexts

theorem handle_eq {scope table : Bytes} {leaves : List (Bytes × BackendHandle σ)}
    (hScope : scopes.lookup scope = some leaves) :
    scopes.handle ⟨scope, table⟩ = leaves.lookup table := by
  rw [Directory.handle, hScope, Option.bind_some]

/-- Each leaf is the one that its name is looked up for. -/
theorem lookup_leaf (h : Opened scans view limits tables scopes) {scope : Bytes}
    {leaves : List (Bytes × BackendHandle σ)} (hScope : scopes.lookup scope = some leaves)
    {leaf : Bytes × BackendHandle σ} (hMem : leaf ∈ leaves) :
    leaves.lookup leaf.1 = some leaf.2 := by
  have hNames : (leaves.map Prod.fst).Nodup := by
    rw [h.leaves _ (lookup_mem hScope)]
    refine (h.distinct.filter _).map_on fun a ha b hb hSame => ?_
    obtain ⟨-, hA⟩ := List.mem_filter.mp ha
    obtain ⟨-, hB⟩ := List.mem_filter.mp hb
    obtain ⟨scopeA, tableA⟩ := a
    obtain ⟨scopeB, tableB⟩ := b
    obtain rfl : scopeA = scope := of_decide_eq_true hA
    obtain rfl : scopeB = scopeA := of_decide_eq_true hB
    obtain rfl : tableA = tableB := hSame
    rfl
  obtain ⟨before, after, rfl⟩ := List.append_of_mem hMem
  rw [List.map_append, List.map_cons] at hNames
  refine List.lookup_eq_some_iff.mpr ⟨before, after, rfl, fun other hOther => ?_⟩
  have hApart := (List.nodup_append.mp hNames).2.2 other.1 (List.mem_map_of_mem hOther) leaf.1
    List.mem_cons_self
  exact bne_iff_ne.mpr hApart.symm

/-- What the fan-out over the leaves of a scope collects. -/
theorem scanLeaves_ok (h : Opened scans view limits tables scopes) {scope start : Bytes}
    {leaves : List (Bytes × BackendHandle σ)} (hScope : scopes.lookup scope = some leaves)
    {chosen : List (Bytes × BackendHandle σ)} (hChosen : ∀ leaf ∈ chosen, leaf ∈ leaves)
    {rows : List KVPair}
    (hScan : scanChildren (fun leaf => leaf.2.prefixScan scans start w) chosen [] = .ok rows) :
    ∃ parts : List (List KVPair), rows = parts.flatten ∧ List.Forall₂ (fun table part =>
      (Store.contents hashKey ⟨scopes.root hashKey⟩ view w ⟨scope, table⟩).Scanned start part)
        (chosen.map Prod.fst) parts := by
  induction chosen generalizing rows with
  | nil =>
      obtain rfl : [] = rows := Except.ok.inj hScan
      exact ⟨[], rfl, .nil⟩
  | cons leaf rest ih =>
      rw [scanChildren] at hScan
      cases hLeaf : leaf.2.prefixScan scans start w with
      | error e =>
          rw [hLeaf] at hScan
          cases hScan
      | ok part =>
          simp only [hLeaf, List.nil_append] at hScan
          rw [scanChildren_append] at hScan
          cases hRest : scanChildren (fun leaf => leaf.2.prefixScan scans start w) rest [] with
          | error e =>
              rw [hRest] at hScan
              cases hScan
          | ok later =>
              rw [hRest] at hScan
              obtain rfl : part ++ later = rows := Except.ok.inj hScan
              obtain ⟨parts, rfl, hParts⟩ := ih (fun other hMem =>
                hChosen other (List.mem_cons_of_mem leaf hMem)) hRest
              refine ⟨part :: parts, rfl, .cons ?_ hParts⟩
              have hMem := hChosen leaf List.mem_cons_self
              have hHandle : scopes.handle ⟨scope, leaf.1⟩ = some leaf.2 :=
                (handle_eq hScope).trans (h.lookup_leaf hScope hMem)
              obtain ⟨cell, hLawful⟩ := h.lawful_handle hHandle
              rw [contents_listed hHandle hLawful]
              exact hLawful.scan_ok hLeaf

end Opened

section Leaves
variable {scans : BackendHandle σ → ScanVTable σ τ} {leaves : List (Bytes × BackendHandle σ)}
  {name start : Bytes} {w : World σ}

theorem scanChildren_map {β γ : Type} (scan : γ → Result (List KVPair)) (f : β → γ) (l : List β)
    (all : List KVPair) :
    scanChildren scan (l.map f) all = scanChildren (fun b => scan (f b)) l all := by
  induction l generalizing all with
  | nil => rfl
  | cons b l ih =>
      rw [List.map_cons, scanChildren, scanChildren]
      cases scan (f b) with
      | error e => rfl
      | ok rows => exact ih _

/-- A prefix that names no child goes to every leaf as it is. -/
theorem scan_leafScope_all (hName : (routeKey start).child = []) :
    nodePrefixScan hashKey scans w (leafScope hashKey name leaves) start =
      scanChildren (fun leaf => leaf.2.prefixScan scans start w) leaves [] := by
  rw [leafScope, buildComposite, nodePrefixScan, if_pos (List.isEmpty_iff.mpr hName)]
  rw [← scanChildren_map (fun child => nodePrefixScan hashKey scans w child start) Subtype.val,
    List.attach_map_subtype_val, scanChildren_map]
  congr 1
  funext leaf
  rw [buildLeaf, nodePrefixScan]

/-- One that names a child goes to the leaf of the name. -/
theorem scan_leafScope_one (hName : (routeKey start).child ≠ []) {rows : List KVPair}
    (hScan : nodePrefixScan hashKey scans w (leafScope hashKey name leaves) start = .ok rows) :
    ∃ handle, leaves.lookup (routeKey start).child = some handle ∧
      handle.prefixScan scans (routeKey start).rest w = .ok rows := by
  rw [leafScope, buildComposite, nodePrefixScan,
    if_neg (fun hEmpty => hName (List.isEmpty_iff.mp hEmpty))] at hScan
  rcases findChild_built hashKey name (leaves.map fun leaf => buildLeaf leaf.1 leaf.2)
    (routeKey start).child with ⟨i, child, hFirst, hFound⟩ | ⟨-, hFound⟩
  · simp only [hFound] at hScan
    have hNamed := @childNamed_of_firstChild _ hashKey _ _ _ _ hFirst
    rw [childNamed_built, find?_map_lookup (fun _ => rfl), Option.map_eq_some_iff] at hNamed
    obtain ⟨handle, hLookup, hChild⟩ := hNamed
    rw [← hChild, buildLeaf, nodePrefixScan] at hScan
    exact ⟨handle, hLookup, hScan⟩
  · simp only [hFound] at hScan
    cases hScan

end Leaves

namespace Opened
variable {scans : BackendHandle σ → ScanVTable σ τ} {view : σ → Contents} {limits : Limits}
  {tables : List TableDescriptor} {scopes : Directory σ} {td : TableDescriptor}
  {handle : BackendHandle σ} {w w' : World σ} {cell : ℕ} {client : Client α τ}

theorem scopeTables_of_none (h : Opened scans view limits tables scopes) {scope : Bytes}
    (hNone : scopes.lookup scope = none) : scopeTables tables scope = [] := by
  apply List.eq_nil_iff_forall_not_mem.mpr
  intro table hMem
  obtain ⟨leaves, hSome⟩ := lookup_of_mem_names (h.listed _ (mem_scopeTables.mp hMem))
  rw [hNone] at hSome
  cases hSome

theorem scanAll_does (h : Opened scans view limits tables scopes) (hashOrder : HashOrder)
    (scope start : Bytes) (w : World σ) :
    StoreCall.Does client tables (.scanAll scope start)
      (Store.contents hashKey ⟨scopes.root hashKey⟩ view w)
      ((StoreCall.scanAll scope start).call hashKey hashOrder client scans
        ⟨scopes.root hashKey⟩ w).1
      (Store.contents hashKey ⟨scopes.root hashKey⟩ view
        ((StoreCall.scanAll scope start).call hashKey hashOrder client scans
          ⟨scopes.root hashKey⟩ w).2) := by
  simp only [StoreCall.call, Directory.db_eq]
  cases hScope : scopes.lookup scope with
  | none => exact .noScope _ _ (.inl ⟨start, rfl⟩) (h.scopeTables_of_none hScope)
  | some leaves =>
      show StoreCall.Does client tables (.scanAll scope start) _
        (.pairs (nodePrefixScan hashKey scans w (leafScope hashKey scope leaves) start)) _
      cases hScan : nodePrefixScan hashKey scans w (leafScope hashKey scope leaves) start with
      | error e => exact .scanFails _ e
      | ok rows =>
          apply StoreCall.Does.scanAll
          unfold StoreCall.Scans
          split
          next hName =>
            rw [scan_leafScope_all hName] at hScan
            obtain ⟨parts, hRows, hParts⟩ :=
              h.scanLeaves_ok hScope (fun _ hMem => hMem) hScan
            rw [h.leaves _ (lookup_mem hScope)] at hParts
            exact ⟨parts, hRows, hParts⟩
          next hName =>
            obtain ⟨handle, hLookup, hRows⟩ := scan_leafScope_one hName hScan
            have hHandle := (handle_eq hScope).trans hLookup
            obtain ⟨cell, hLawful⟩ := h.lawful_handle hHandle
            rw [contents_listed hHandle hLawful]
            exact ⟨h.handle_some_iff.mp ⟨handle, hHandle⟩, hLawful.scan_ok hRows⟩

/-! ### Batches of a scope -/

section Batch
variable {scope : Bytes} {leaves : List (Bytes × BackendHandle σ)} {ops : List BatchOp}

theorem mem_tableCells (hScope : scopes.lookup scope = some leaves) {table : Bytes} {i : ℕ} :
    i ∈ tableCells (leafScope hashKey scope leaves) table ↔
      ∃ handle, scopes.handle ⟨scope, table⟩ = some handle ∧ handle.ctx = some i := by
  constructor
  · rintro ⟨position, handle, hHolds, hCtx⟩
    have hLookup := (holdsTable_leafScope table).mp ⟨position, hHolds⟩
    exact ⟨handle, (handle_eq hScope).trans hLookup, hCtx⟩
  · rintro ⟨handle, hHandle, hCtx⟩
    rw [handle_eq hScope] at hHandle
    obtain ⟨position, hHolds⟩ := (holdsTable_leafScope table).mpr hHandle
    exact ⟨position, handle, hHolds, hCtx⟩

/-- A backend is in the table it was made for. -/
theorem table_of_cell (h : Opened scans view limits tables scopes)
    (hScope : scopes.lookup scope = some leaves) (hHandle : scopes.handle td = some handle)
    (hLawful : LawfulHandle scans view limits handle cell) {table : Bytes}
    (hMem : cell ∈ tableCells (leafScope hashKey scope leaves) table) : ⟨scope, table⟩ = td := by
  obtain ⟨handle', hHandle', hCtx⟩ := (mem_tableCells hScope).mp hMem
  obtain ⟨cell', hLawful'⟩ := h.lawful_handle hHandle'
  obtain rfl := Option.some.inj (hLawful'.ctx_eq.symm.trans hCtx)
  exact h.apart hHandle' hHandle hLawful'.mem_contexts hLawful.mem_contexts

/-- A group that has made its batch. -/
theorem group_done (h : Opened scans view limits tables scopes)
    (hScope : scopes.lookup scope = some leaves) {group : Bytes × List BatchOp}
    (hWithin : ∀ op ∈ ops, limits op.key op.value) (hMem : group ∈ groupByCf ops)
    (hDone : ∃ position handle ctx vtable,
      HoldsTable (leafScope hashKey scope leaves) group.1 position handle ∧
        handle.ctx = some ctx ∧ handle.vtable = some vtable ∧
        vtable.batch group.2 (w ctx) = (.ok (), w' ctx)) :
    ⟨scope, group.1⟩ ∈ tables ∧
      applyOps (ops.filter fun op => op.cfName = group.1)
        (Store.contents hashKey ⟨scopes.root hashKey⟩ view w ⟨scope, group.1⟩) =
          .ok (Store.contents hashKey ⟨scopes.root hashKey⟩ view w' ⟨scope, group.1⟩) := by
  obtain ⟨position, handle, ctx, vtable, hHolds, hCtx, hVTable, hBatch⟩ := hDone
  have hHandle : scopes.handle ⟨scope, group.1⟩ = some handle :=
    (handle_eq hScope).trans ((holdsTable_leafScope group.1).mp ⟨position, hHolds⟩)
  obtain ⟨cell, hLawful⟩ := h.lawful_handle hHandle
  obtain rfl := Option.some.inj (hLawful.ctx_eq.symm.trans hCtx)
  obtain ⟨vtable', hVTable', hTable⟩ := hLawful.lawful
  obtain rfl := Option.some.inj (hVTable'.symm.trans hVTable)
  refine ⟨h.handle_some_iff.mp ⟨handle, hHandle⟩, ?_⟩
  rw [contents_listed hHandle hLawful, contents_listed hHandle hLawful, ← group_eq_filter hMem]
  refine hTable.batch (fun op hOp => hWithin op ?_) hBatch
  rw [group_eq_filter hMem] at hOp
  exact (List.mem_filter.mp hOp).1

/-- A table of another scope, or that no group is for. -/
theorem outside_groups (h : Opened scans view limits tables scopes)
    (hScope : scopes.lookup scope = some leaves) {groups : List (Bytes × List BatchOp)}
    (hFrame : ∀ i, (∀ group ∈ groups, i ∉ tableCells (leafScope hashKey scope leaves) group.1) →
      w' i = w i) (hOutside : ∀ group ∈ groups, ⟨scope, group.1⟩ ≠ td) :
    Store.contents hashKey ⟨scopes.root hashKey⟩ view w' td =
      Store.contents hashKey ⟨scopes.root hashKey⟩ view w td := by
  apply h.contents_congr
  intro handle cell hHandle hLawful
  apply hFrame
  intro group hMem hCell
  exact hOutside group hMem (h.table_of_cell hScope hHandle hLawful hCell)

theorem batch_ok_does (h : Opened scans view limits tables scopes) {hashOrder : HashOrder}
    (hScope : scopes.lookup scope = some leaves) (hWithin : ∀ op ∈ ops, limits op.key op.value)
    (hBatch : nodeBatch hashKey hashOrder (leafScope hashKey scope leaves) ops w = (.ok (), w')) :
    StoreCall.Does client tables (.batch scope ops)
      (Store.contents hashKey ⟨scopes.root hashKey⟩ view w) (.done (.ok ()))
      (Store.contents hashKey ⟨scopes.root hashKey⟩ view w') := by
  obtain ⟨hGroups, hFrame⟩ :=
    batch_ok_cells (leafTree hashKey scope leaves (h.ownStores hScope)) hashOrder hBatch
  have hDone : ∀ group ∈ groupByCf ops, _ := fun group hMem =>
    h.group_done hScope hWithin hMem (hGroups group ((hashOrder.perm _).mem_iff.mpr hMem))
  apply StoreCall.Does.batch
  · intro op hMem
    obtain ⟨group, hGroup, hName⟩ := exists_group hMem
    rw [← hName]
    exact (hDone group hGroup).1
  · intro table
    by_cases hNamed : ∃ group ∈ groupByCf ops, group.1 = table
    · obtain ⟨group, hGroup, rfl⟩ := hNamed
      exact (hDone group hGroup).2
    · have hNone : (ops.filter fun op => op.cfName = table) = [] := by
        apply List.filter_eq_nil_iff.mpr
        intro op hMem hName
        obtain ⟨group, hGroup, hSame⟩ := exists_group hMem
        exact hNamed ⟨group, hGroup, hSame.trans (of_decide_eq_true hName)⟩
      rw [hNone, h.outside_groups hScope hFrame]
      · rfl
      · intro group hMem hSame
        exact hNamed ⟨group, (hashOrder.perm _).mem_iff.mp hMem, congrArg TableDescriptor.table hSame⟩
  · intro td hOther
    exact h.outside_groups hScope hFrame fun group _ hSame =>
      hOther (congrArg TableDescriptor.scope hSame).symm

theorem batch_error_does (h : Opened scans view limits tables scopes) {hashOrder : HashOrder}
    (hScope : scopes.lookup scope = some leaves) (hWithin : ∀ op ∈ ops, limits op.key op.value)
    {e : Error}
    (hBatch : nodeBatch hashKey hashOrder (leafScope hashKey scope leaves) ops w = (.error e, w')) :
    StoreCall.Does client tables (.batch scope ops)
      (Store.contents hashKey ⟨scopes.root hashKey⟩ view w) (.done (.error e))
      (Store.contents hashKey ⟨scopes.root hashKey⟩ view w') := by
  obtain ⟨⟨before, failed, after, hSplit, hBefore, hAfter⟩, hFrame⟩ :=
    batch_error_cells (leafTree hashKey scope leaves (h.ownStores hScope)) hashOrder hBatch
  have hOrder : hashOrder.order (groupByCf ops) = before ++ failed :: after := hSplit
  have hIn : ∀ group, group ∈ before ++ failed :: after → group ∈ groupByCf ops := by
    intro group hMem
    rw [← hOrder] at hMem
    exact (hashOrder.perm _).mem_iff.mp hMem
  have hFailed : failed.1 ∈ ops.map BatchOp.cfName := by
    have hGroup := hIn failed (List.mem_append_right _ List.mem_cons_self)
    have hGrouped := groupByCf_grouped ops
    obtain ⟨op, hOp⟩ := List.exists_mem_of_ne_nil _ (hGrouped.nonempty failed hGroup)
    have hName := hGrouped.uniform failed hGroup op hOp
    rw [group_eq_filter hGroup] at hOp
    rw [← hName]
    exact List.mem_map_of_mem (List.mem_filter.mp hOp).1
  refine .batchFails e hFailed ?_ fun td hOther => ?_
  · intro table hTable
    by_cases hDone : ∃ group ∈ before, group.1 = table
    · obtain ⟨group, hMem, rfl⟩ := hDone
      have hGroup := hIn group (List.mem_append_left _ hMem)
      exact .inr (h.group_done hScope hWithin hGroup (hBefore group hMem)).2
    · -- The groups behind the one that failed were not run, and no other is for this table.
      refine .inl (h.contents_congr _ fun handle cell hHandle hLawful => ?_)
      by_cases hLater : ∃ group ∈ after, group.1 = table
      · obtain ⟨group, hMem, rfl⟩ := hLater
        exact hAfter group hMem cell ((mem_tableCells hScope).mpr ⟨handle, hHandle, hLawful.ctx_eq⟩)
      · apply hFrame
        intro group hMem hCell
        obtain rfl : group.1 = table :=
          congrArg TableDescriptor.table (h.table_of_cell hScope hHandle hLawful hCell)
        rw [hSplit] at hMem
        rcases List.mem_append.mp hMem with hMem | hMem
        · exact hDone ⟨group, hMem, rfl⟩
        · rcases List.mem_cons.mp hMem with rfl | hMem
          · exact hTable rfl
          · exact hLater ⟨group, hMem, rfl⟩
  · exact h.outside_groups hScope hFrame fun group _ hSame =>
      hOther (congrArg TableDescriptor.scope hSame).symm

end Batch

/-- What a call on the store does, it does to the maps of the tables. -/
theorem does (h : Opened scans view limits tables scopes) (client : Client α τ) (hashOrder : HashOrder)
    {call : StoreCall α} (hWithin : call.Within client limits) (w : World σ) :
    call.Does client tables (Store.contents hashKey ⟨scopes.root hashKey⟩ view w)
      (call.call hashKey hashOrder client scans ⟨scopes.root hashKey⟩ w).1
      (Store.contents hashKey ⟨scopes.root hashKey⟩ view
        (call.call hashKey hashOrder client scans ⟨scopes.root hashKey⟩ w).2) := by
  cases call with
  | table td call => exact h.table_does hashOrder td hWithin w
  | scanAll scope start => exact h.scanAll_does hashOrder scope start w
  | batch scope ops =>
      simp only [StoreCall.call, Directory.db_eq]
      cases hScope : scopes.lookup scope with
      | none => exact .noScope _ _ (.inr ⟨ops, rfl⟩) (h.scopeTables_of_none hScope)
      | some leaves =>
          simp only [DbRef.batch, Prod.map, id]
          cases hResult : nodeBatch hashKey hashOrder (leafScope hashKey scope leaves) ops w with
          | mk r w' =>
              cases r with
              | ok _ => exact h.batch_ok_does hScope hWithin hResult
              | error e => exact h.batch_error_does hScope hWithin hResult

/-- What calls on the store do one after the other, they do to the maps. -/
theorem performs (h : Opened scans view limits tables scopes) (client : Client α τ)
    (hashOrder : HashOrder) {calls : List (StoreCall α)}
    (hWithin : ∀ call ∈ calls, call.Within client limits) (w : World σ) :
    SequentialObject.Performs (StoreCall.Does client tables) calls
      (Store.contents hashKey ⟨scopes.root hashKey⟩ view w)
      (SequentialObject.run
        (StoreCall.call hashKey hashOrder client scans ⟨scopes.root hashKey⟩) calls w).1
      (Store.contents hashKey ⟨scopes.root hashKey⟩ view (SequentialObject.run
        (StoreCall.call hashKey hashOrder client scans ⟨scopes.root hashKey⟩) calls w).2) :=
  SequentialObject.run_performs (fun call hMem w => h.does client hashOrder (hWithin call hMem) w) w

end Opened

/-- A store that is open is a map for each of its tables, whatever calls are made on it: the
answers and the maps after them are what the calls say, in the order they are made, with tables
that never mix. -/
theorem Store.is_maps {scans : BackendHandle σ → ScanVTable σ τ} {view : σ → Contents}
    {limits : Limits} {scopeOrder : ScopeOrder} {factory : BackendFactory σ} {tables : List TableDescriptor}
    (hFresh : factory.Fresh) (hDistinct : tables.Nodup)
    (hLawful : ∀ calls td handle, factory calls td = .ok handle →
      ∃ cell, LawfulHandle scans view limits handle cell)
    {root : StoreNode σ} {made : List (FactoryCall σ)}
    (hBuild : buildTree hashKey scopeOrder factory tables = (.ok root, made))
    (client : Client α τ) (hashOrder : HashOrder) {calls : List (StoreCall α)}
    (hWithin : ∀ call ∈ calls, call.Within client limits) (w : World σ) :
    SequentialObject.Performs (StoreCall.Does client tables) calls
      (Store.contents hashKey ⟨root⟩ view w)
      (SequentialObject.run (StoreCall.call hashKey hashOrder client scans ⟨root⟩) calls w).1
      (Store.contents hashKey ⟨root⟩ view
        (SequentialObject.run (StoreCall.call hashKey hashOrder client scans ⟨root⟩) calls w).2) := by
  obtain ⟨scopes, rfl, hOpened, -⟩ := opened_of_build hFresh hDistinct hLawful hBuild
  exact hOpened.performs client hashOrder hWithin w

/-- A factory that makes tables in memory. -/
def inMemoryFactory : BackendFactory SortedTable :=
  fun calls _ => .ok ⟨some calls.length, some inMemory⟩

/-- Values that are what they are stored as. -/
def rawCodec : Codec Bytes := ⟨.ok, .ok⟩

/-- A put, a batch on two tables of a scope, and a scan of that scope. -/
def demoCalls : List (StoreCall Bytes) :=
  [.table ⟨ascii "a", ascii "x"⟩ (.put [1] [7]),
    .batch (ascii "a") [⟨.put, ascii "y", [2], some [8]⟩, ⟨.del, ascii "x", [1], none⟩],
    .scanAll (ascii "a") []]

theorem Store.is_maps_demo : ∃ root made,
    buildTree List.length ⟨id, fun _ => .refl _⟩ inMemoryFactory demoTables = (.ok root, made) ∧
      ∀ w, SequentialObject.Performs
        (StoreCall.Does ⟨rawCodec, fun seen _ => seen + 1, 0⟩ demoTables) demoCalls
        (Store.contents List.length ⟨root⟩ SortedTable.contents w)
        (SequentialObject.run (StoreCall.call List.length insertionOrder
          ⟨rawCodec, fun seen _ => seen + 1, 0⟩ (fun _ => inMemoryScans) ⟨root⟩) demoCalls w).1
        (Store.contents List.length ⟨root⟩ SortedTable.contents
          (SequentialObject.run (StoreCall.call List.length insertionOrder
            ⟨rawCodec, fun (seen : ℕ) _ => seen + 1, 0⟩ (fun _ => inMemoryScans) ⟨root⟩)
            demoCalls w).2) := by
  have hFresh : inMemoryFactory.Fresh := by
    apply fresh_of_numbers
    intro calls td handle h
    obtain rfl := Except.ok.inj h
    rfl
  have hLawful : ∀ calls td handle, inMemoryFactory calls td = .ok handle →
      ∃ cell, LawfulHandle (fun _ => (inMemoryScans : ScanVTable SortedTable ℕ))
        SortedTable.contents (fun _ _ => True) handle cell := by
    intro calls td handle h
    obtain rfl := Except.ok.inj h
    exact ⟨calls.length, rfl, inMemory, rfl, inMemory_lawful⟩
  obtain ⟨root, made, hBuild⟩ : ∃ root made, buildTree List.length ⟨id, fun _ => .refl _⟩
      inMemoryFactory demoTables = (.ok root, made) := ⟨_, _, rfl⟩
  exact ⟨root, made, hBuild,
    fun w => Store.is_maps hFresh (by decide) hLawful hBuild _ _
      (by simp [demoCalls, StoreCall.Within, TableCall.Within]) w⟩

end CelerMem
