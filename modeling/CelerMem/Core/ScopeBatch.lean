import CelerMem.Core.Routing
import CelerMem.Library.Sequence
import Mathlib

/-! A batch across a scope: the groups that it falls into, the leaf that each of them goes
to, and when a failure part of the way leaves every leaf as it was. -/
namespace CelerMem

open Sequence

variable {σ : Type} {hashKey : Bytes → Nat}

/-! ## Groups -/

/-- One group for each name, with the operations that carry it. -/
structure Grouped (grouped : List (Bytes × List BatchOp)) : Prop where
  names : grouped.Pairwise fun a b => a.1 ≠ b.1
  nonempty : ∀ group ∈ grouped, group.2 ≠ []
  uniform : ∀ group ∈ grouped, ∀ op ∈ group.2, op.cfName = group.1

theorem addToGroup_names {grouped : List (Bytes × List BatchOp)} {op : BatchOp}
    {group : Bytes × List BatchOp} (hMem : group ∈ addToGroup grouped op) :
    group.1 = op.cfName ∨ ∃ old ∈ grouped, old.1 = group.1 := by
  induction grouped with
  | nil =>
      rw [addToGroup, List.mem_singleton] at hMem
      exact Or.inl (congrArg Prod.fst hMem)
  | cons head rest ih =>
      rw [addToGroup] at hMem
      split at hMem
      · rename_i hName
        rcases List.mem_cons.mp hMem with rfl | hRest
        · exact Or.inl hName
        · exact Or.inr ⟨group, List.mem_cons_of_mem head hRest, rfl⟩
      · rcases List.mem_cons.mp hMem with rfl | hRest
        · exact Or.inr ⟨head, List.mem_cons_self, rfl⟩
        · rcases ih hRest with hNew | ⟨old, hOld, hSame⟩
          · exact Or.inl hNew
          · exact Or.inr ⟨old, List.mem_cons_of_mem head hOld, hSame⟩

theorem Grouped.add {grouped : List (Bytes × List BatchOp)} (h : Grouped grouped) (op : BatchOp) :
    Grouped (addToGroup grouped op) := by
  induction grouped with
  | nil =>
      rw [addToGroup]
      exact ⟨List.pairwise_singleton _ _, by simp, by simp⟩
  | cons head rest ih =>
      obtain ⟨hHead, hNames⟩ := List.pairwise_cons.mp h.names
      have hRest : Grouped rest := ⟨hNames, fun g hMem => h.nonempty g (List.mem_cons_of_mem head hMem),
        fun g hMem => h.uniform g (List.mem_cons_of_mem head hMem)⟩
      rw [addToGroup]
      split
      · rename_i hName
        refine ⟨List.pairwise_cons.mpr ⟨hHead, hNames⟩, ?_, ?_⟩
        · intro g hMem
          rcases List.mem_cons.mp hMem with rfl | hMem
          · simp
          · exact hRest.nonempty g hMem
        · intro g hMem
          rcases List.mem_cons.mp hMem with rfl | hMem
          · intro other hOther
            rcases List.mem_append.mp hOther with hOld | hNew
            · exact h.uniform head List.mem_cons_self other hOld
            · rw [List.mem_singleton.mp hNew, hName]
          · exact hRest.uniform g hMem
      · rename_i hName
        have hAdded := ih hRest
        refine ⟨List.pairwise_cons.mpr ⟨?_, hAdded.names⟩, ?_, ?_⟩
        · intro g hMem
          rcases addToGroup_names hMem with hNew | ⟨old, hOld, hSame⟩
          · rw [hNew]
            exact hName
          · rw [← hSame]
            exact hHead old hOld
        · intro g hMem
          rcases List.mem_cons.mp hMem with rfl | hMem
          · exact h.nonempty head List.mem_cons_self
          · exact hAdded.nonempty g hMem
        · intro g hMem
          rcases List.mem_cons.mp hMem with rfl | hMem
          · exact h.uniform head List.mem_cons_self
          · exact hAdded.uniform g hMem

theorem groupByCf_grouped (ops : List BatchOp) : Grouped (groupByCf ops) := by
  have hFold : ∀ grouped, Grouped grouped → Grouped (ops.foldl addToGroup grouped) := by
    induction ops with
    | nil => exact fun grouped h => h
    | cons op ops ih => exact fun grouped h => ih _ (h.add op)
  exact hFold [] ⟨List.Pairwise.nil, by simp, by simp⟩

theorem Grouped.perm {grouped ordered : List (Bytes × List BatchOp)} (h : Grouped grouped)
    (hPerm : ordered.Perm grouped) : Grouped ordered where
  names := (hPerm.pairwise_iff fun hApart => hApart.symm).mpr h.names
  nonempty := fun group hMem => h.nonempty group (hPerm.mem_iff.mp hMem)
  uniform := fun group hMem => h.uniform group (hPerm.mem_iff.mp hMem)

theorem addToGroup_uniform {cf : Bytes} {ops : List BatchOp} (hUniform : ∀ op ∈ ops, op.cfName = cf)
    (done : List BatchOp) : ops.foldl addToGroup [(cf, done)] = [(cf, done ++ ops)] := by
  induction ops generalizing done with
  | nil => rw [List.append_nil, List.foldl_nil]
  | cons op ops ih =>
      rw [List.foldl_cons, addToGroup, if_pos (hUniform op List.mem_cons_self).symm,
        ih (fun other hMem => hUniform other (List.mem_cons_of_mem op hMem)), List.append_assoc,
        List.singleton_append]

/-- Operations on one table make one group. -/
theorem groupByCf_uniform {cf : Bytes} {ops : List BatchOp} (hNonempty : ops ≠ [])
    (hUniform : ∀ op ∈ ops, op.cfName = cf) : groupByCf ops = [(cf, ops)] := by
  cases ops with
  | nil => exact absurd rfl hNonempty
  | cons op ops =>
      rw [groupByCf, List.foldl_cons, addToGroup, hUniform op List.mem_cons_self]
      exact addToGroup_uniform (fun other hMem => hUniform other (List.mem_cons_of_mem op hMem)) [op]

/-! ## The leaf of a table -/

/-- The leaf that the operations of a table go to: in every composite on the way down, the
child that has the name of the table. -/
inductive HoldsTable : StoreNode σ → Bytes → List ℕ → BackendHandle σ → Prop where
  | leaf (name : Bytes) (handle : BackendHandle σ) (cf : Bytes) :
      HoldsTable (.columnLeaf name handle) cf [] handle
  | child {name : Bytes} {children : List (StoreNode σ)} {index : FlatSymbolTable} {cf : Bytes}
      {i : ℕ} {child : StoreNode σ} {position : List ℕ} {handle : BackendHandle σ}
      (hFirst : FirstChild children cf i child) (hBelow : HoldsTable child cf position handle) :
      HoldsTable (.compositeNode name children index) cf (i :: position) handle

theorem HoldsTable.leafAt_eq {node : StoreNode σ} {cf : Bytes} {position : List ℕ}
    {handle : BackendHandle σ} (h : HoldsTable node cf position handle) :
    leafAt node position = some handle := by
  induction h with
  | leaf name handle cf => rfl
  | child hFirst hBelow ih =>
      rw [leafAt, hFirst.1]
      exact ih

theorem HoldsTable.unique {node : StoreNode σ} {cf : Bytes} {position position' : List ℕ}
    {handle handle' : BackendHandle σ} (h : HoldsTable node cf position handle)
    (h' : HoldsTable node cf position' handle') : position = position' ∧ handle = handle' := by
  induction h generalizing position' with
  | leaf name handle cf =>
      cases h'
      exact ⟨rfl, rfl⟩
  | child hFirst hBelow ih =>
      cases h' with
      | child hFirst' hBelow' =>
          obtain ⟨rfl, rfl⟩ := hFirst.unique hFirst'
          obtain ⟨rfl, hLeaf⟩ := ih hBelow'
          exact ⟨rfl, hLeaf⟩

/-- A composite keeps its tables in different leaves. -/
theorem HoldsTable.apart {name : Bytes} {children : List (StoreNode σ)} {index : FlatSymbolTable}
    {cf cf' : Bytes} {position position' : List ℕ} {handle handle' : BackendHandle σ}
    (h : HoldsTable (.compositeNode name children index) cf position handle)
    (h' : HoldsTable (.compositeNode name children index) cf' position' handle')
    (hNames : cf ≠ cf') : position ≠ position' := by
  cases h with
  | child hFirst hBelow =>
      cases h' with
      | child hFirst' hBelow' =>
          intro hSame
          obtain ⟨rfl, -⟩ := List.cons.inj hSame
          obtain rfl := Option.some.inj (hFirst.1.symm.trans hFirst'.1)
          exact hNames (hFirst.2.1.symm.trans hFirst'.2.1)

/-! ## A group -/

/-- What the body of the loop over the groups does. -/
def childBatch (hashKey : Bytes → Nat) (hashOrder : HashOrder) (name : Bytes)
    (children : List (StoreNode σ)) (index : FlatSymbolTable) (cf : Bytes) (group : List BatchOp)
    (w : World σ) : VoidResult × World σ :=
  match findChild hashKey name children index cf with
  | .error e => (.error e, w)
  | .ok child => nodeBatch hashKey hashOrder child.1 group w

theorem nodeBatch_composite (hashOrder : HashOrder) (name : Bytes) (children : List (StoreNode σ))
    (index : FlatSymbolTable) (ops : List BatchOp) :
    nodeBatch hashKey hashOrder (.compositeNode name children index) ops =
      runGroups (childBatch hashKey hashOrder name children index)
        (hashOrder.order (groupByCf ops)) := by
  funext w
  rw [nodeBatch]
  rfl

theorem runGroups_eq (step : Bytes → List BatchOp → World σ → VoidResult × World σ)
    (groups : List (Bytes × List BatchOp)) :
    runGroups step groups = run (groups.map fun group => step group.1 group.2) := by
  funext w
  induction groups generalizing w with
  | nil => rfl
  | cons group groups ih =>
      rw [List.map_cons, runGroups, run]
      rcases step group.1 group.2 w with ⟨_ | _, w'⟩
      · rfl
      · exact ih w'

theorem run_singleton (step : Step ℕ σ Error) : run [step] = step := by
  funext w
  by_cases hFails : Fails step w
  · exact run_cons_of_fails hFails
  · rw [run_cons_of_not_fails hFails, run]
    cases hResult : (step w).1 with
    | error e => exact absurd ⟨e, hResult⟩ hFails
    | ok result => exact Prod.ext hResult.symm rfl

/-- Operations on a table are the batch of its leaf, or an error without one. -/
def GoesTo (node : StoreNode σ) (cf : Bytes) (ops : List BatchOp) (step : Step ℕ σ Error) : Prop :=
  (∃ position handle, HoldsTable node cf position handle ∧ step = handle.batch ops) ∨
    (∀ position handle, ¬ HoldsTable node cf position handle) ∧ ∃ e, step = fun w => (.error e, w)

theorem childBatch_goesTo {name : Bytes} {children : List (StoreNode σ)} {hashOrder : HashOrder}
    {cf : Bytes} {ops : List BatchOp}
    (h : ∀ child ∈ children, GoesTo child cf ops (nodeBatch hashKey hashOrder child ops)) :
    GoesTo (buildComposite hashKey name children) cf ops (childBatch hashKey hashOrder name children
      (FlatSymbolTable.buildIndexed hashKey (children.map nodeName)) cf ops) := by
  unfold childBatch
  rcases findChild_built hashKey name children cf with ⟨i, child, hFirst, hFound⟩ |
    ⟨hNone, hFound⟩
  · simp only [hFound]
    rcases h child.1 child.2 with ⟨position, handle, hHolds, hStep⟩ | ⟨hNowhere, e, hStep⟩
    · exact Or.inl ⟨i :: position, handle, HoldsTable.child hFirst hHolds, hStep⟩
    · refine Or.inr ⟨?_, e, hStep⟩
      intro position handle hHolds
      cases hHolds with
      | child hFirst' hBelow =>
          obtain ⟨-, rfl⟩ := hFirst.unique hFirst'
          exact hNowhere _ _ hBelow
  · simp only [hFound]
    refine Or.inr ⟨?_, _, rfl⟩
    intro position handle hHolds
    cases hHolds with
    | child hFirst hBelow => exact hNone _ _ hFirst

/-- In a tree of any depth, one group goes to one leaf. -/
theorem nodeBatch_goesTo {node : StoreNode σ} (hBuilt : Built hashKey node) (hashOrder : HashOrder)
    {cf : Bytes} {ops : List BatchOp} (hNonempty : ops ≠ [])
    (hUniform : ∀ op ∈ ops, op.cfName = cf) :
    GoesTo node cf ops (nodeBatch hashKey hashOrder node ops) := by
  induction hBuilt with
  | leaf name handle =>
      refine Or.inl ⟨[], handle, HoldsTable.leaf name handle cf, ?_⟩
      funext w
      rw [buildLeaf, nodeBatch]
  | composite name hChildren ih =>
      rw [buildComposite, nodeBatch_composite, groupByCf_uniform hNonempty hUniform,
        List.perm_singleton.mp (hashOrder.perm _), runGroups_eq, List.map_singleton, run_singleton]
      exact childBatch_goesTo ih

/-! ## The scope -/

/-- A batch that fails leaves the backend as it was. -/
def BackendVTable.AtomicBatch (vtable : BackendVTable σ) : Prop :=
  ∀ {ops s s' e}, vtable.batch ops s = (.error e, s') → s' = s

structure AtomicTree (σ : Type) (hashKey : Bytes → Nat) extends StoreTree σ hashKey where
  atomic : ∀ {position handle vtable}, leafAt node position = some handle →
    handle.vtable = some vtable → vtable.AtomicBatch

theorem BackendHandle.batch_on (handle : BackendHandle σ) (ops : List BatchOp) :
    On {ctx | handle.ctx = some ctx} (handle.batch ops) := by
  unfold BackendHandle.batch BackendHandle.call
  split
  · rename_i ctx vtable hCtx hVTable
    refine ⟨?_, ?_, ?_⟩
    · intro w i hOther
      apply Function.update_of_ne
      rintro rfl
      exact hOther hCtx
    · intro w w' hSame
      dsimp only
      rw [hSame ctx hCtx]
    · intro w w' hSame i hMem
      obtain rfl := Option.some.inj (hCtx.symm.trans hMem)
      dsimp only
      rw [Function.update_self, Function.update_self, hSame ctx hCtx]
  · exact ⟨fun w i hOther => rfl, fun hSame => rfl, fun hSame => hSame⟩

theorem BackendHandle.batch_atomic {handle : BackendHandle σ} (ops : List BatchOp)
    (h : ∀ {vtable}, handle.vtable = some vtable → vtable.AtomicBatch) :
    Atomic (handle.batch ops) := by
  unfold BackendHandle.batch BackendHandle.call
  split
  · rename_i ctx vtable hCtx hVTable
    rintro w ⟨e, hError⟩
    have hSame : (vtable.batch ops (w ctx)).2 = w ctx := h hVTable (Prod.ext hError rfl)
    dsimp only
    rw [hSame, Function.update_eq_self]
  · exact fun w hFails => rfl

/-- The stores of the leaf that a table is in. -/
def tableCells (node : StoreNode σ) (cf : Bytes) : Set ℕ :=
  {ctx | ∃ position handle, HoldsTable node cf position handle ∧ handle.ctx = some ctx}

theorem GoesTo.on {node : StoreNode σ} {cf : Bytes} {ops : List BatchOp} {step : Step ℕ σ Error}
    (h : GoesTo node cf ops step) : On (tableCells node cf) step := by
  rcases h with ⟨position, handle, hHolds, rfl⟩ | ⟨hNowhere, e, rfl⟩
  · have hCells : tableCells node cf = {ctx | handle.ctx = some ctx} := by
      ext ctx
      constructor
      · rintro ⟨position', handle', hHolds', hCtx⟩
        obtain ⟨-, rfl⟩ := hHolds.unique hHolds'
        exact hCtx
      · exact fun hCtx => ⟨position, handle, hHolds, hCtx⟩
    rw [hCells]
    exact handle.batch_on ops
  · exact ⟨fun w i hOther => rfl, fun hSame => rfl, fun hSame => hSame⟩

/-- The group names no table, or its own batch fails. -/
def GroupFails (scope : StoreNode σ) (w : World σ) (group : Bytes × List BatchOp) : Prop :=
  ∀ position handle, HoldsTable scope group.1 position handle → Fails (handle.batch group.2) w

def GroupChanges (scope : StoreNode σ) (w : World σ) (group : Bytes × List BatchOp) : Prop :=
  ∃ position handle, HoldsTable scope group.1 position handle ∧ (handle.batch group.2 w).2 ≠ w

theorem GoesTo.fails_iff {scope : StoreNode σ} {group : Bytes × List BatchOp}
    {step : Step ℕ σ Error} (h : GoesTo scope group.1 group.2 step) (w : World σ) :
    Fails step w ↔ GroupFails scope w group := by
  rcases h with ⟨position, handle, hHolds, rfl⟩ | ⟨hNowhere, e, rfl⟩
  · constructor
    · intro hFails position' handle' hHolds'
      obtain ⟨-, rfl⟩ := hHolds.unique hHolds'
      exact hFails
    · exact fun hFails => hFails position handle hHolds
  · exact iff_of_true ⟨e, rfl⟩ fun position handle hHolds => absurd hHolds (hNowhere _ _)

theorem GoesTo.changes_iff {scope : StoreNode σ} {group : Bytes × List BatchOp}
    {step : Step ℕ σ Error} (h : GoesTo scope group.1 group.2 step) (w : World σ) :
    (step w).2 ≠ w ↔ GroupChanges scope w group := by
  rcases h with ⟨position, handle, hHolds, rfl⟩ | ⟨hNowhere, e, rfl⟩
  · constructor
    · exact fun hChanges => ⟨position, handle, hHolds, hChanges⟩
    · rintro ⟨position', handle', hHolds', hChanges⟩
      obtain ⟨-, rfl⟩ := hHolds.unique hHolds'
      exact hChanges
  · refine iff_of_false (fun hChanges => hChanges rfl) ?_
    rintro ⟨position, handle, hHolds, -⟩
    exact hNowhere position handle hHolds

/-- The groups of a batch as they are run; a leaf takes its batch whole. -/
def scopeGroups (hashOrder : HashOrder) : StoreNode σ → List BatchOp → List (Bytes × List BatchOp)
  | .columnLeaf _ _, ops => [([], ops)]
  | .compositeNode _ _ _, ops => hashOrder.order (groupByCf ops)

/-- The batch of a scope, as a sequence of batches of its tables. -/
theorem nodeBatch_sequence {node : StoreNode σ} (hBuilt : Built hashKey node)
    (hashOrder : HashOrder) (ops : List BatchOp) :
    ∃ step : Bytes × List BatchOp → Step ℕ σ Error,
      nodeBatch hashKey hashOrder node ops = run ((scopeGroups hashOrder node ops).map step) ∧
        ∀ group ∈ scopeGroups hashOrder node ops, GoesTo node group.1 group.2 (step group) := by
  cases hBuilt with
  | leaf name handle =>
      refine ⟨fun group => handle.batch group.2, ?_, ?_⟩
      · rw [buildLeaf, scopeGroups, List.map_singleton, run_singleton]
        funext w
        rw [nodeBatch]
      · exact fun group hMem => Or.inl ⟨[], handle, HoldsTable.leaf name handle group.1, rfl⟩
  | composite name hChildren =>
      rw [buildComposite, nodeBatch_composite, runGroups_eq]
      refine ⟨_, rfl, ?_⟩
      intro group hMem
      have hGrouped := (groupByCf_grouped ops).perm (hashOrder.perm _)
      exact childBatch_goesTo fun child hChild => nodeBatch_goesTo (hChildren child hChild) hashOrder
        (hGrouped.nonempty group hMem) (hGrouped.uniform group hMem)

theorem scopeGroups_apart (tree : StoreTree σ hashKey) (hashOrder : HashOrder)
    (ops : List BatchOp) : (scopeGroups hashOrder tree.node ops).Pairwise fun a b =>
      Disjoint (tableCells tree.node a.1) (tableCells tree.node b.1) := by
  have hApart : ∀ {name children index}, tree.node = .compositeNode name children index →
      ∀ {cf cf'}, cf ≠ cf' → Disjoint (tableCells tree.node cf) (tableCells tree.node cf') := by
    intro name children index hNode cf cf' hNames
    apply Set.disjoint_left.mpr
    rintro ctx ⟨position, handle, hHolds, hCtx⟩ ⟨position', handle', hHolds', hCtx'⟩
    have hSame := tree.distinct hHolds.leafAt_eq hHolds'.leafAt_eq hCtx hCtx'
    rw [hNode] at hHolds hHolds'
    exact hHolds.apart hHolds' hNames hSame
  cases hNode : tree.node with
  | columnLeaf name handle => exact List.pairwise_singleton _ _
  | compositeNode name children index =>
      rw [← hNode]
      have hGrouped := (groupByCf_grouped ops).perm (hashOrder.perm _)
      rw [hNode, scopeGroups, ← hNode]
      exact hGrouped.names.imp fun hNames => hApart hNode hNames

/-- A failed batch leaves the scope as it was if and only if no group changes its table
before the first group that fails. -/
theorem batch_atomic_iff (tree : AtomicTree σ hashKey) (hashOrder : HashOrder) (scopeName : Bytes)
    (ops : List BatchOp) (w : World σ) :
    (∀ e w', DbRef.batch hashKey hashOrder ⟨scopeName, some tree.node⟩ ops w = (.error e, w') →
      w' = w) ↔
    UnchangedBefore (GroupFails tree.node w) (GroupChanges tree.node w)
      (scopeGroups hashOrder tree.node ops) := by
  obtain ⟨step, hRun, hSteps⟩ := nodeBatch_sequence tree.built hashOrder ops
  have hOn : ∀ group ∈ scopeGroups hashOrder tree.node ops,
      On (tableCells tree.node group.1) (step group) :=
    fun group hMem => (hSteps group hMem).on
  have hAtomic : ∀ group ∈ scopeGroups hashOrder tree.node ops, Atomic (step group) := by
    intro group hMem
    rcases hSteps group hMem with ⟨position, handle, hHolds, hStep⟩ | ⟨-, e, hStep⟩
    · rw [hStep]
      exact handle.batch_atomic group.2 fun hVTable => tree.atomic hHolds.leafAt_eq hVTable
    · rw [hStep]
      exact fun w hFails => rfl
  have hBatch : (∀ e w', DbRef.batch hashKey hashOrder ⟨scopeName, some tree.node⟩ ops w =
      (.error e, w') → w' = w) ↔
      (Fails (run ((scopeGroups hashOrder tree.node ops).map step)) w →
        (run ((scopeGroups hashOrder tree.node ops).map step) w).2 = w) := by
    show (∀ e w', nodeBatch hashKey hashOrder tree.node ops w = (.error e, w') → w' = w) ↔ _
    rw [hRun]
    constructor
    · rintro hSame ⟨e, hError⟩
      exact hSame e _ (Prod.ext hError rfl)
    · intro hSame e w' hResult
      have hEnd := hSame ⟨e, congrArg Prod.fst hResult⟩
      rw [hResult] at hEnd
      exact hEnd
  rw [hBatch, run_atomic_iff hOn hAtomic (scopeGroups_apart tree.toStoreTree hashOrder ops) w]
  exact UnchangedBefore.congr (fun group hMem => (hSteps group hMem).fails_iff w)
    fun group hMem => (hSteps group hMem).changes_iff w

/-! ## Two tables -/

theorem memory_atomicBatch : memory.AtomicBatch := by
  intro ops s s' e h
  cases hApplied : applyOps ops s with
  | error e' =>
      have hBatch : memory.batch ops s = (.error e', s) := by simp only [memory, hApplied]
      exact (Prod.mk.inj (hBatch.symm.trans h)).2.symm
  | ok s'' =>
      have hBatch : memory.batch ops s = (.ok (), s'') := by simp only [memory, hApplied]
      cases (Prod.mk.inj (hBatch.symm.trans h)).1

def memoryScope (hashKey : Bytes → ℕ) : AtomicTree Contents hashKey where
  toStoreTree := (memoryTree hashKey).toStoreTree
  atomic := by
    intro position handle vtable hLeaf hVTable
    obtain ⟨ctx, -, rfl⟩ := twoTables_leafAt hLeaf
    obtain rfl := Option.some.inj hVTable
    exact memory_atomicBatch

/-- A hash map that is gone through in the order of insertion. -/
def insertionOrder : HashOrder := ⟨id, List.Perm.refl⟩

/-- A put to each of the two tables, the second without a value. -/
def halfBadOps : List BatchOp :=
  [⟨.put, ascii "a", [1], some [7]⟩, ⟨.put, ascii "b", [1], none⟩]

theorem twoTables_childBatch (group : List BatchOp) (w : World Contents) {cf : Bytes} {ctx : ℕ}
    (hIndex : [ascii "a", ascii "b"].findIdx? (· == cf) = some ctx) (hLess : ctx < 2) :
    childBatch List.length insertionOrder (ascii "app")
      [memoryLeaf (ascii "a") 0, memoryLeaf (ascii "b") 1]
      (FlatSymbolTable.buildIndexed List.length [ascii "a", ascii "b"]) cf group w =
        BackendHandle.batch ⟨some ctx, some memory⟩ group w := by
  unfold childBatch findChild
  rw [FlatSymbolTable.find_buildIndexed, hIndex]
  rcases ctx with _ | _ | ctx
  · show nodeBatch List.length insertionOrder (.columnLeaf _ _) group w = _
    rw [nodeBatch]
  · show nodeBatch List.length insertionOrder (.columnLeaf _ _) group w = _
    rw [nodeBatch]
  · omega

theorem runGroups_second_fails {step : Bytes → List BatchOp → World σ → VoidResult × World σ}
    {cf cf' : Bytes} {ops ops' : List BatchOp} {w w' w'' : World σ} {e : Error}
    (hFirst : step cf ops w = (.ok (), w')) (hSecond : step cf' ops' w' = (.error e, w'')) :
    runGroups step [(cf, ops), (cf', ops')] w = (.error e, w'') := by
  simp only [runGroups, hFirst, hSecond]

theorem twoTables_batch :
    nodeBatch List.length insertionOrder (memoryScope List.length).node halfBadOps emptyWorld =
      (.error missingValue,
        Function.update emptyWorld 0 (Function.update (emptyWorld 0) [1] (some [7]))) := by
  have hGroups : insertionOrder.order (groupByCf halfBadOps) =
      [(ascii "a", [⟨.put, ascii "a", [1], some [7]⟩]),
        (ascii "b", [⟨.put, ascii "b", [1], none⟩])] := by
    decide
  show nodeBatch List.length insertionOrder (.compositeNode _ _ _) halfBadOps emptyWorld = _
  rw [nodeBatch_composite, hGroups]
  apply runGroups_second_fails
  · exact (twoTables_childBatch _ _ (by decide) Nat.zero_lt_two).trans rfl
  · exact (twoTables_childBatch _ _ (by decide) Nat.one_lt_two).trans
      (Prod.ext rfl (Function.update_eq_self _ _))

/-- The first table keeps its row although the batch fails at the second. -/
theorem batch_keeps_first_table :
    ¬ ∀ e w', DbRef.batch List.length insertionOrder
      ⟨ascii "app", some (memoryScope List.length).node⟩ halfBadOps emptyWorld = (.error e, w') →
        w' = emptyWorld := by
  intro hSame
  have hRow := congrFun (congrFun (hSame _ _ twoTables_batch) 0) [1]
  rw [Function.update_self, Function.update_self] at hRow
  cases hRow

end CelerMem
