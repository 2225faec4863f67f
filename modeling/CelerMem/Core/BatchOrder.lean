import CelerMem.Core.ScopeBatch
import Mathlib

/-! A batch across a scope of leaves, against its operations one by one: the order of the
groups does not matter, and each group keeps the order of its operations. -/
namespace CelerMem

open Sequence

variable {σ : Type} {hashKey : Bytes → Nat}

/-! ## The operations of a group -/

theorem lookup_addToGroup (grouped : List (Bytes × List BatchOp)) (op : BatchOp) (cf : Bytes) :
    ((addToGroup grouped op).lookup cf).getD [] =
      (grouped.lookup cf).getD [] ++ if op.cfName = cf then [op] else [] := by
  induction grouped with
  | nil =>
      rw [addToGroup, List.lookup_cons]
      by_cases hName : op.cfName = cf
      · simp [hName]
      · simp [hName, beq_eq_false_iff_ne.mpr (Ne.symm hName)]
  | cons group rest ih =>
      obtain ⟨name, ops⟩ := group
      rw [addToGroup]
      by_cases hGroup : name = op.cfName
      · rw [if_pos hGroup, List.lookup_cons, List.lookup_cons]
        by_cases hName : cf = name
        · simp [hName, hGroup]
        · have hOther : op.cfName ≠ cf := fun hSame => hName (hSame.symm.trans hGroup.symm)
          simp [beq_eq_false_iff_ne.mpr hName, hOther]
      · rw [if_neg hGroup, List.lookup_cons, List.lookup_cons]
        by_cases hName : cf = name
        · have hOther : op.cfName ≠ cf := fun hSame => hGroup (hName.symm.trans hSame.symm)
          simp [hName, Ne.symm hGroup]
        · rw [beq_eq_false_iff_ne.mpr hName]
          exact ih

theorem lookup_groupByCf (ops : List BatchOp) (cf : Bytes) :
    ((groupByCf ops).lookup cf).getD [] = ops.filter fun op => op.cfName = cf := by
  have hFold : ∀ grouped, ((ops.foldl addToGroup grouped).lookup cf).getD [] =
      (grouped.lookup cf).getD [] ++ ops.filter fun op => op.cfName = cf := by
    induction ops with
    | nil => exact fun grouped => (List.append_nil _).symm
    | cons op ops ih =>
        intro grouped
        rw [List.foldl_cons, ih, lookup_addToGroup, List.append_assoc]
        by_cases hName : op.cfName = cf
        · simp [hName]
        · simp [hName]
  exact hFold []

theorem Grouped.lookup_eq {grouped : List (Bytes × List BatchOp)} (h : Grouped grouped)
    {group : Bytes × List BatchOp} (hMem : group ∈ grouped) :
    grouped.lookup group.1 = some group.2 := by
  obtain ⟨before, after, rfl⟩ := List.append_of_mem hMem
  refine List.lookup_eq_some_iff.mpr ⟨before, after, rfl, ?_⟩
  intro other hOther
  have hNames := (List.pairwise_append.mp h.names).2.2 other hOther group List.mem_cons_self
  exact bne_iff_ne.mpr hNames.symm

/-- A group has the operations on its table, in their order. -/
theorem group_eq_filter {ops : List BatchOp} {group : Bytes × List BatchOp}
    (hMem : group ∈ groupByCf ops) : group.2 = ops.filter fun op => op.cfName = group.1 := by
  rw [← lookup_groupByCf, (groupByCf_grouped ops).lookup_eq hMem, Option.getD_some]

theorem exists_group {ops : List BatchOp} {op : BatchOp} (hMem : op ∈ ops) :
    ∃ group ∈ groupByCf ops, group.1 = op.cfName := by
  have hFiltered : op ∈ ((groupByCf ops).lookup op.cfName).getD [] := by
    rw [lookup_groupByCf]
    exact List.mem_filter.mpr ⟨hMem, decide_eq_true rfl⟩
  cases hLookup : (groupByCf ops).lookup op.cfName with
  | none =>
      rw [hLookup] at hFiltered
      exact absurd hFiltered List.not_mem_nil
  | some group =>
      obtain ⟨before, after, hSplit, -⟩ := List.lookup_eq_some_iff.mp hLookup
      exact ⟨(op.cfName, group), by rw [hSplit]; simp, rfl⟩

/-! ## A scope of leaves -/

def leafScope (hashKey : Bytes → Nat) (name : Bytes) (leaves : List (Bytes × BackendHandle σ)) :
    StoreNode σ :=
  buildComposite hashKey name (leaves.map fun leaf => buildLeaf leaf.1 leaf.2)

/-- No two leaves hold the same store. -/
def OwnStores (leaves : List (Bytes × BackendHandle σ)) : Prop :=
  leaves.Pairwise fun a b => ∀ ctx, a.2.ctx = some ctx → b.2.ctx ≠ some ctx

section Leaves
variable {name : Bytes} {leaves : List (Bytes × BackendHandle σ)} {handle handle' : BackendHandle σ}

theorem leafAt_leafScope {position : List ℕ}
    (h : leafAt (leafScope hashKey name leaves) position = some handle) :
    ∃ i leafName, position = [i] ∧ leaves[i]? = some (leafName, handle) := by
  cases position with
  | nil => cases h
  | cons i position =>
      rw [leafScope, buildComposite, leafAt, List.getElem?_map] at h
      cases hLeaf : leaves[i]? with
      | none =>
          rw [hLeaf] at h
          cases h
      | some leaf =>
          rw [hLeaf] at h
          cases position with
          | nil =>
              obtain rfl := Option.some.inj h
              exact ⟨i, leaf.1, rfl, hLeaf⟩
          | cons j position => cases h

/-- The store of a scope of leaves. -/
def leafTree (hashKey : Bytes → Nat) (name : Bytes) (leaves : List (Bytes × BackendHandle σ))
    (hOwn : OwnStores leaves) : StoreTree σ hashKey where
  node := leafScope hashKey name leaves
  built := by
    apply Built.composite
    intro child hChild
    obtain ⟨leaf, -, rfl⟩ := List.mem_map.mp hChild
    exact Built.leaf leaf.1 leaf.2
  distinct := by
    intro position position' handle handle' ctx hLeaf hLeaf' hCtx hCtx'
    obtain ⟨i, leafName, rfl, hAt⟩ := leafAt_leafScope hLeaf
    obtain ⟨j, leafName', rfl, hAt'⟩ := leafAt_leafScope hLeaf'
    obtain ⟨hi, hGet⟩ := List.getElem?_eq_some_iff.mp hAt
    obtain ⟨hj, hGet'⟩ := List.getElem?_eq_some_iff.mp hAt'
    have hPairs := List.pairwise_iff_getElem.mp hOwn
    rcases Nat.lt_trichotomy i j with hLess | rfl | hMore
    · have hApart := hPairs i j hi hj hLess ctx
      rw [hGet, hGet'] at hApart
      exact absurd hCtx' (hApart hCtx)
    · rfl
    · have hApart := hPairs j i hj hi hMore ctx
      rw [hGet, hGet'] at hApart
      exact absurd hCtx (hApart hCtx')

/-- A table is in the first leaf of its name. -/
theorem holdsTable_leafScope (cf : Bytes) :
    (∃ position, HoldsTable (leafScope hashKey name leaves) cf position handle) ↔
      leaves.lookup cf = some handle := by
  rw [List.lookup_eq_some_iff]
  constructor
  · rintro ⟨position, hHolds⟩
    cases hHolds with
    | @child _ _ _ _ i child position _ hFirst hBelow =>
        obtain ⟨hAt, hName, hBefore⟩ := hFirst
        rw [List.getElem?_map, Option.map_eq_some_iff] at hAt
        obtain ⟨leaf, hLeaf, rfl⟩ := hAt
        obtain ⟨hi, hGet⟩ := List.getElem?_eq_some_iff.mp hLeaf
        cases hBelow
        refine ⟨leaves.take i, leaves.drop (i + 1), ?_, ?_⟩
        · have hSame : leaves[i] = (cf, leaf.2) := by rw [hGet, ← hName]; rfl
          rw [← hSame, List.cons_getElem_drop_succ, List.take_append_drop]
        · intro other hOther
          obtain ⟨j, hj, rfl⟩ := List.mem_iff_getElem.mp hOther
          rw [List.length_take] at hj
          have hLess : j < leaves.length := hj.trans_le (Nat.min_le_right _ _)
          have hOther : (leaves.map fun leaf => buildLeaf leaf.1 leaf.2)[j]? =
              some (buildLeaf leaves[j].1 leaves[j].2) := by
            rw [List.getElem?_map, List.getElem?_eq_getElem hLess]
            rfl
          have hNot := hBefore j (hj.trans_le (Nat.min_le_left _ _)) _ hOther
          rw [List.getElem_take]
          exact bne_iff_ne.mpr (Ne.symm hNot)
  · rintro ⟨before, after, rfl, hBefore⟩
    refine ⟨[before.length], HoldsTable.child ⟨?_, rfl, ?_⟩ (HoldsTable.leaf cf handle cf)⟩
    · simp [buildLeaf]
    · intro j hj other hOther
      rw [List.getElem?_map, List.getElem?_append_left hj, Option.map_eq_some_iff] at hOther
      obtain ⟨leaf, hLeaf, rfl⟩ := hOther
      exact (bne_iff_ne.mp (hBefore leaf (List.mem_of_getElem? hLeaf))).symm

end Leaves

/-! ## One operation after the other -/

/-- A batch that succeeds has applied its operations in their order. -/
def BackendVTable.LawfulBatch (vtable : BackendVTable σ) (view : σ → Contents) : Prop :=
  ∀ {ops s s'}, vtable.batch ops s = (.ok (), s') → applyOps ops (view s) = .ok (view s')

/-- Each operation is applied to the store of the leaf that its table is named by. -/
def applyOneByOne (name : Bytes) (leaves : List (Bytes × BackendHandle σ)) :
    List BatchOp → (ℕ → Contents) → Result (ℕ → Contents) :=
  applyEach (fun op => (leaves.lookup op.cfName).bind BackendHandle.ctx)
    (fun op => childNotFound op.cfName name) fun op => applyOps [op]

theorem applyOps_eq_applyAll (ops : List BatchOp) (s : Contents) :
    applyOps ops s = applyAll (fun op => applyOps [op]) ops s := by
  induction ops generalizing s with
  | nil => rfl
  | cons op ops ih =>
      obtain ⟨kind, cfName, key, value⟩ := op
      cases kind with
      | del => exact ih _
      | put =>
          cases value with
          | none => rfl
          | some value => exact ih _

/-- The leaf that a group has gone to, with the batch it has made there. -/
theorem GoesTo.batch_ok {node : StoreNode σ} {cf : Bytes} {ops : List BatchOp}
    {step : Step ℕ σ Error} (h : GoesTo node cf ops step) {w : World σ} (hOk : ¬ Fails step w) :
    ∃ position handle ctx vtable, HoldsTable node cf position handle ∧ handle.ctx = some ctx ∧
      handle.vtable = some vtable ∧ vtable.batch ops (w ctx) = (.ok (), (step w).2 ctx) := by
  rcases h with ⟨position, handle, hHolds, rfl⟩ | ⟨-, e, rfl⟩
  · have hResult : handle.batch ops w = (.ok (), (handle.batch ops w).2) := by
      cases hBatch : (handle.batch ops w).1 with
      | error e => exact absurd ⟨e, hBatch⟩ hOk
      | ok result => exact Prod.ext hBatch rfl
    obtain ⟨ctx, vtable, s, hCtx, hVTable, hWritten, hWorld⟩ := BackendHandle.call_ok hResult
    refine ⟨position, handle, ctx, vtable, hHolds, hCtx, hVTable, ?_⟩
    rw [hWorld, Function.update_self]
    exact hWritten
  · exact absurd ⟨e, rfl⟩ hOk

/-- After a batch that succeeds, every group has made its batch on the store of its table as it
was, and all other stores are what they were. -/
theorem batch_ok_cells (tree : StoreTree σ hashKey) (hashOrder : HashOrder) {ops : List BatchOp}
    {w w' : World σ} (h : nodeBatch hashKey hashOrder tree.node ops w = (.ok (), w')) :
    (∀ group ∈ scopeGroups hashOrder tree.node ops, ∃ position handle ctx vtable,
      HoldsTable tree.node group.1 position handle ∧ handle.ctx = some ctx ∧
        handle.vtable = some vtable ∧ vtable.batch group.2 (w ctx) = (.ok (), w' ctx)) ∧
    ∀ i, (∀ group ∈ scopeGroups hashOrder tree.node ops, i ∉ tableCells tree.node group.1) →
      w' i = w i := by
  obtain ⟨step, hRun, hSteps⟩ := nodeBatch_sequence tree.built hashOrder ops
  have hOn : ∀ group ∈ scopeGroups hashOrder tree.node ops,
      On (tableCells tree.node group.1) (step group) := fun group hMem => (hSteps group hMem).on
  have hApart := scopeGroups_apart tree hashOrder ops
  rw [hRun] at h
  have hOk : ¬ Fails (run ((scopeGroups hashOrder tree.node ops).map step)) w := by
    rintro ⟨e, hError⟩
    rw [h] at hError
    cases hError
  constructor
  · intro group hMem
    have hStep : ¬ Fails (step group) w :=
      fun hFails => hOk ((run_fails_iff hOn hApart w).mpr ⟨group, hMem, hFails⟩)
    obtain ⟨position, handle, ctx, vtable, hHolds, hCtx, hVTable, hBatch⟩ :=
      (hSteps group hMem).batch_ok hStep
    have hEnd := run_value hOn hApart hOk hMem ⟨position, handle, hHolds, hCtx⟩
    rw [← hEnd, h] at hBatch
    exact ⟨position, handle, ctx, vtable, hHolds, hCtx, hVTable, hBatch⟩
  · intro i hOther
    rw [← run_frame hOn w hOther, h]

/-- A batch that fails has made the batches of the groups before some group, and none of those
after it. What that group itself has left is up to its backend. -/
theorem batch_error_cells (tree : StoreTree σ hashKey) (hashOrder : HashOrder) {ops : List BatchOp}
    {w w' : World σ} {e : Error} (h : nodeBatch hashKey hashOrder tree.node ops w = (.error e, w')) :
    (∃ before group after, scopeGroups hashOrder tree.node ops = before ++ group :: after ∧
      (∀ b ∈ before, ∃ position handle ctx vtable, HoldsTable tree.node b.1 position handle ∧
        handle.ctx = some ctx ∧ handle.vtable = some vtable ∧
        vtable.batch b.2 (w ctx) = (.ok (), w' ctx)) ∧
      ∀ b ∈ after, ∀ i ∈ tableCells tree.node b.1, w' i = w i) ∧
    ∀ i, (∀ group ∈ scopeGroups hashOrder tree.node ops, i ∉ tableCells tree.node group.1) →
      w' i = w i := by
  obtain ⟨step, hRun, hSteps⟩ := nodeBatch_sequence tree.built hashOrder ops
  have hOn : ∀ group ∈ scopeGroups hashOrder tree.node ops,
      On (tableCells tree.node group.1) (step group) := fun group hMem => (hSteps group hMem).on
  rw [hRun] at h
  constructor
  · obtain ⟨before, group, after, hSplit, hBefore, hAfter⟩ :=
      run_first_failure hOn (scopeGroups_apart tree hashOrder ops) ⟨e, congrArg Prod.fst h⟩
    rw [h] at hBefore hAfter
    refine ⟨before, group, after, hSplit, fun b hMem => ?_, hAfter⟩
    have hIn : b ∈ scopeGroups hashOrder tree.node ops := by
      rw [hSplit]
      exact List.mem_append_left _ hMem
    obtain ⟨hOk, hValue⟩ := hBefore b hMem
    obtain ⟨position, handle, ctx, vtable, hHolds, hCtx, hVTable, hBatch⟩ :=
      (hSteps b hIn).batch_ok hOk
    rw [← hValue ctx ⟨position, handle, hHolds, hCtx⟩] at hBatch
    exact ⟨position, handle, ctx, vtable, hHolds, hCtx, hVTable, hBatch⟩
  · intro i hOther
    rw [← run_frame hOn w hOther, h]

section Scope
variable {name : Bytes} {leaves : List (Bytes × BackendHandle σ)}

/-- The operations on a store are those on the one table that is in it. -/
theorem filter_cell (hOwn : OwnStores leaves) {cf : Bytes} {handle : BackendHandle σ} {ctx : ℕ}
    (ops : List BatchOp) (hLeaf : leaves.lookup cf = some handle) (hCtx : handle.ctx = some ctx) :
    (ops.filter fun op => (leaves.lookup op.cfName).bind BackendHandle.ctx = some ctx) =
      ops.filter fun op => op.cfName = cf := by
  let tree := leafTree List.length [] leaves hOwn
  apply List.filter_congr
  intro op hMem
  rw [decide_eq_decide]
  constructor
  · intro hCell
    obtain ⟨handle', hLeaf', hCtx'⟩ := Option.bind_eq_some_iff.mp hCell
    obtain ⟨position, hHolds⟩ : ∃ position, HoldsTable tree.node cf position handle :=
      (holdsTable_leafScope cf).mpr hLeaf
    obtain ⟨position', hHolds'⟩ : ∃ position, HoldsTable tree.node op.cfName position handle' :=
      (holdsTable_leafScope op.cfName).mpr hLeaf'
    by_contra hNames
    exact hHolds'.apart hHolds hNames
      (tree.distinct hHolds'.leafAt_eq hHolds.leafAt_eq hCtx' hCtx)
  · rintro rfl
    rw [hLeaf, Option.bind_some, hCtx]

/-- A batch that succeeds leaves every leaf as its operations one by one do, whatever the order
in which the groups are gone through. -/
theorem scope_batch_in_order (view : σ → Contents) (hOwn : OwnStores leaves)
    (hLawful : ∀ leaf ∈ leaves, ∀ vtable, leaf.2.vtable = some vtable → vtable.LawfulBatch view)
    (hashOrder : HashOrder) {ops : List BatchOp} {w w' : World σ}
    (h : nodeBatch hashKey hashOrder (leafScope hashKey name leaves) ops w = (.ok (), w')) :
    applyOneByOne name leaves ops (fun ctx => view (w ctx)) = .ok fun ctx => view (w' ctx) := by
  let tree := leafTree hashKey name leaves hOwn
  obtain ⟨hGroups, hOthers⟩ := batch_ok_cells tree hashOrder h
  have hGroup : ∀ op ∈ ops, ∃ group ∈ scopeGroups hashOrder tree.node ops,
      group.1 = op.cfName := by
    intro op hMem
    obtain ⟨group, hGroup, hName⟩ := exists_group hMem
    exact ⟨group, (hashOrder.perm _).mem_iff.mpr hGroup, hName⟩
  apply applyEach_eq_ok
  · intro op hMem
    obtain ⟨group, hMem, hName⟩ := hGroup op hMem
    obtain ⟨position, handle, ctx, -, hHolds, hCtx, -, -⟩ := hGroups group hMem
    rw [← hName, (holdsTable_leafScope group.1).mp ⟨position, hHolds⟩, Option.bind_some, hCtx]
    exact Option.some_ne_none ctx
  · intro i
    rw [← applyOps_eq_applyAll]
    by_cases hCell : ∃ group ∈ scopeGroups hashOrder tree.node ops, i ∈ tableCells tree.node group.1
    · -- The group of the table that is in this store has made its batch there.
      obtain ⟨group, hMem, position, handle, hHolds, hCtx⟩ := hCell
      obtain ⟨position', handle', ctx, vtable, hHolds', hCtx', hVTable, hBatch⟩ :=
        hGroups group hMem
      obtain ⟨-, rfl⟩ := hHolds.unique hHolds'
      obtain rfl := Option.some.inj (hCtx.symm.trans hCtx')
      have hLeaf := (holdsTable_leafScope group.1).mp ⟨position, hHolds⟩
      have hIn : (group.1, handle) ∈ leaves := by
        obtain ⟨before, after, hSplit, -⟩ := List.lookup_eq_some_iff.mp hLeaf
        rw [hSplit]
        exact List.mem_append_right before List.mem_cons_self
      rw [filter_cell hOwn ops hLeaf hCtx, ← group_eq_filter ((hashOrder.perm _).mem_iff.mp hMem)]
      exact hLawful _ hIn vtable hVTable hBatch
    · -- No operation is for this store.
      have hNone : (ops.filter fun op =>
          (leaves.lookup op.cfName).bind BackendHandle.ctx = some i) = [] := by
        apply List.filter_eq_nil_iff.mpr
        intro op hMem hFor
        obtain ⟨handle, hLeaf, hCtx⟩ := Option.bind_eq_some_iff.mp (of_decide_eq_true hFor)
        obtain ⟨group, hGroupMem, hName⟩ := hGroup op hMem
        obtain ⟨position, hHolds⟩ : ∃ position, HoldsTable tree.node op.cfName position handle :=
          (holdsTable_leafScope op.cfName).mpr hLeaf
        rw [← hName] at hHolds
        exact hCell ⟨group, hGroupMem, position, handle, hHolds, hCtx⟩
      rw [hNone, hOthers i fun group hMem hIn => hCell ⟨group, hMem, hIn⟩]
      rfl

end Scope

/-! ## Two tables -/

theorem memory_lawfulBatch : memory.LawfulBatch id := by
  intro ops s s' h
  cases hApplied : applyOps ops s with
  | error e =>
      have hBatch : memory.batch ops s = (.error e, s) := by simp only [memory, hApplied]
      cases (Prod.mk.inj (hBatch.symm.trans h)).1
  | ok s'' =>
      have hBatch : memory.batch ops s = (.ok (), s'') := by simp only [memory, hApplied]
      rw [← (Prod.mk.inj (hBatch.symm.trans h)).2]
      exact hApplied

def twoLeaves : List (Bytes × BackendHandle Contents) :=
  [(ascii "a", ⟨some 0, some memory⟩), (ascii "b", ⟨some 1, some memory⟩)]

theorem twoLeaves_lawful : ∀ leaf ∈ twoLeaves, ∀ vtable, leaf.2.vtable = some vtable →
    vtable.LawfulBatch id := by
  intro leaf hMem vtable hVTable
  have hMemory : leaf.2.vtable = some memory := by
    rcases List.mem_pair.mp hMem with rfl | rfl
    · rfl
    · rfl
  obtain rfl := Option.some.inj (hMemory.symm.trans hVTable)
  exact @memory_lawfulBatch

/-- Two puts to one table, with one to the other between them. -/
def mixedOps : List BatchOp :=
  [⟨.put, ascii "a", [1], some [7]⟩, ⟨.put, ascii "b", [1], some [8]⟩,
    ⟨.put, ascii "a", [1], some [9]⟩]

/-- The tables after the three puts. -/
def mixedWorld : World Contents :=
  Function.update (Function.update emptyWorld 0
    (Function.update (Function.update (emptyWorld 0) [1] (some [7])) [1] (some [9]))) 1
    (Function.update (emptyWorld 1) [1] (some [8]))

theorem runGroups_both {step : Bytes → List BatchOp → World σ → VoidResult × World σ}
    {cf cf' : Bytes} {ops ops' : List BatchOp} {w w' w'' : World σ}
    (hFirst : step cf ops w = (.ok (), w')) (hSecond : step cf' ops' w' = (.ok (), w'')) :
    runGroups step [(cf, ops), (cf', ops')] w = (.ok (), w'') := by
  simp only [runGroups, hFirst, hSecond]

theorem mixedOps_batch :
    nodeBatch List.length insertionOrder (leafScope List.length (ascii "app") twoLeaves) mixedOps
      emptyWorld = (.ok (), mixedWorld) := by
  have hGroups : insertionOrder.order (groupByCf mixedOps) =
      [(ascii "a", [⟨.put, ascii "a", [1], some [7]⟩, ⟨.put, ascii "a", [1], some [9]⟩]),
        (ascii "b", [⟨.put, ascii "b", [1], some [8]⟩])] := by
    decide
  show nodeBatch List.length insertionOrder (.compositeNode _ _ _) mixedOps emptyWorld = _
  rw [nodeBatch_composite, hGroups]
  apply runGroups_both
  · exact (twoTables_childBatch _ _ (by decide) Nat.zero_lt_two).trans rfl
  · exact (twoTables_childBatch _ _ (by decide) Nat.one_lt_two).trans rfl

theorem scope_batch_in_order_mixed :
    applyOneByOne (ascii "app") twoLeaves mixedOps emptyWorld = .ok mixedWorld :=
  scope_batch_in_order id (by simp [OwnStores, twoLeaves]) twoLeaves_lawful insertionOrder
    mixedOps_batch

end CelerMem
