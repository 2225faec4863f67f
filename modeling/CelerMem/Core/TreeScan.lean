import CelerMem.Core.Routing
import Mathlib

/-! Scans of a store tree: `node_prefix_scan` collects the pairs, `node_foreach` shows them to a
visitor one by one. Both go down or fan out by the prefix. -/
namespace CelerMem

variable {σ τ γ : Type} {hashKey : Bytes → Nat}

/-! ## Leaves -/

/-- What a visitor does to its context at a key and a value. -/
abbrev ScanVisitor (τ : Type) := τ → Bytes → Bytes → τ

/-- The entries of a backend that scan. -/
structure ScanVTable (σ τ : Type) where
  prefixScan : Bytes → σ → Result (List KVPair)
  foreachScan : Bytes → ScanVisitor τ → τ → σ → VoidResult × τ

namespace BackendHandle

def prefixScan (h : BackendHandle σ) (scans : BackendHandle σ → ScanVTable σ τ) (start : Bytes)
    (w : World σ) : Result (List KVPair) :=
  match h.ctx, h.vtable with
  | some ctx, some _ => (scans h).prefixScan start (w ctx)
  | _, _ => .error invalid

def foreachScan (h : BackendHandle σ) (scans : BackendHandle σ → ScanVTable σ τ) (start : Bytes)
    (visitor : ScanVisitor τ) (userCtx : τ) (w : World σ) : VoidResult × τ :=
  match h.ctx, h.vtable with
  | some ctx, some _ => (scans h).foreachScan start visitor userCtx (w ctx)
  | _, _ => (.error invalid, userCtx)

end BackendHandle

/-! ## The two recursions -/

/-- The fan-out of a scan: the pairs of all children, up to the first error. -/
def scanChildren (scan : γ → Result (List KVPair)) : List γ → List KVPair → Result (List KVPair)
  | [], all => .ok all
  | child :: children, all =>
      match scan child with
      | .error e => .error e
      | .ok rows => scanChildren scan children (all ++ rows)

/-- An empty child name, of an empty prefix or of one that starts with the separator, is no
child: the prefix goes to all of them as it is. -/
def nodePrefixScan (hashKey : Bytes → Nat) (scans : BackendHandle σ → ScanVTable σ τ)
    (w : World σ) : StoreNode σ → Bytes → Result (List KVPair)
  | .columnLeaf _ handle, start => handle.prefixScan scans start w
  | .compositeNode name children index, start =>
      let route := routeKey start
      if route.child.isEmpty then
        scanChildren (fun child => nodePrefixScan hashKey scans w child.1 start) children.attach []
      else
        match findChild hashKey name children index route.child with
        | .error e => .error e
        | .ok child => nodePrefixScan hashKey scans w child.1 route.rest
termination_by node => sizeOf node
decreasing_by
  all_goals
    have := List.sizeOf_lt_of_mem child.2
    simp only [StoreNode.compositeNode.sizeOf_spec]
    omega

/-- The fan-out of a visit. -/
def visitChildren (walk : γ → τ → VoidResult × τ) : List γ → τ → VoidResult × τ
  | [], userCtx => (.ok (), userCtx)
  | child :: children, userCtx =>
      match walk child userCtx with
      | (.error e, userCtx) => (.error e, userCtx)
      | (.ok (), userCtx) => visitChildren walk children userCtx

def nodeForeach (hashKey : Bytes → Nat) (scans : BackendHandle σ → ScanVTable σ τ)
    (visitor : ScanVisitor τ) (w : World σ) : StoreNode σ → Bytes → τ → VoidResult × τ
  | .columnLeaf _ handle, start, userCtx => handle.foreachScan scans start visitor userCtx w
  | .compositeNode name children index, start, userCtx =>
      let route := routeKey start
      if route.child.isEmpty then
        visitChildren (fun child => nodeForeach hashKey scans visitor w child.1 start)
          children.attach userCtx
      else
        match findChild hashKey name children index route.child with
        | .error e => (.error e, userCtx)
        | .ok child => nodeForeach hashKey scans visitor w child.1 route.rest userCtx
termination_by node => sizeOf node
decreasing_by
  all_goals
    have := List.sizeOf_lt_of_mem child.2
    simp only [StoreNode.compositeNode.sizeOf_spec]
    omega

/-! ## Agreement -/

/-- A walk fails when the scan does, and else shows the visitor the scanned pairs in order. -/
structure Visits (visitor : ScanVisitor τ) (walk : τ → VoidResult × τ)
    (scanned : Result (List KVPair)) : Prop where
  fails_iff : ∀ userCtx, (∃ e, (walk userCtx).1 = .error e) ↔ ∃ e, scanned = .error e
  pairs : ∀ rows, scanned = .ok rows → ∀ userCtx, walk userCtx =
    (.ok (), rows.foldl (fun seen kv => visitor seen kv.key kv.value) userCtx)

section Agreement
variable {visitor : ScanVisitor τ}

theorem Visits.of_error {walk : τ → VoidResult × τ} (e : Error)
    (h : ∀ userCtx, ∃ e, (walk userCtx).1 = .error e) : Visits visitor walk (.error e) where
  fails_iff := fun userCtx => iff_of_true (h userCtx) ⟨e, rfl⟩
  pairs := by
    intro rows hRows
    cases hRows

theorem Visits.of_ok {walk : τ → VoidResult × τ} {rows : List KVPair}
    (h : ∀ userCtx, walk userCtx =
      (.ok (), rows.foldl (fun seen kv => visitor seen kv.key kv.value) userCtx)) :
    Visits visitor walk (.ok rows) where
  fails_iff := by
    intro userCtx
    refine iff_of_false ?_ ?_
    · rintro ⟨e, hError⟩
      rw [h] at hError
      cases hError
    · rintro ⟨e, hError⟩
      cases hError
  pairs := by
    intro rows' hRows
    obtain rfl := Except.ok.inj hRows
    exact h

theorem scanChildren_append (scan : γ → Result (List KVPair)) (children : List γ)
    (all : List KVPair) : scanChildren scan children all =
      (scanChildren scan children []).map (all ++ ·) := by
  induction children generalizing all with
  | nil => simp [scanChildren, Except.map]
  | cons child children ih =>
      rw [scanChildren, scanChildren]
      cases scan child with
      | error e => rfl
      | ok rows =>
          dsimp only
          rw [ih (all ++ rows), ih ([] ++ rows)]
          cases scanChildren scan children [] with
          | error e => rfl
          | ok rest => simp [Except.map]

/-- The fan-outs agree if the children do. -/
theorem visits_children {scan : γ → Result (List KVPair)} {walk : γ → τ → VoidResult × τ}
    {children : List γ} (h : ∀ child ∈ children, Visits visitor (walk child) (scan child)) :
    Visits visitor (visitChildren walk children) (scanChildren scan children []) := by
  induction children with
  | nil => exact Visits.of_ok fun userCtx => rfl
  | cons child children ih =>
      have hHead := h child List.mem_cons_self
      have hRest := ih fun other hMem => h other (List.mem_cons_of_mem child hMem)
      cases hScan : scan child with
      | error e =>
          have hAll : scanChildren scan (child :: children) [] = .error e := by
            simp only [scanChildren, hScan]
          rw [hAll]
          apply Visits.of_error
          intro userCtx
          obtain ⟨e', hError⟩ := (hHead.fails_iff userCtx).mpr ⟨e, hScan⟩
          refine ⟨e', ?_⟩
          have hWalk : walk child userCtx = (.error e', (walk child userCtx).2) :=
            Prod.ext hError rfl
          rw [visitChildren, hWalk]
      | ok rows =>
          have hAll : scanChildren scan (child :: children) [] =
              (scanChildren scan children []).map (rows ++ ·) := by
            simp only [scanChildren, hScan, List.nil_append]
            exact scanChildren_append scan children rows
          have hWalk : ∀ userCtx, visitChildren walk (child :: children) userCtx =
              visitChildren walk children
                (rows.foldl (fun seen kv => visitor seen kv.key kv.value) userCtx) := by
            intro userCtx
            rw [visitChildren, hHead.pairs rows hScan]
          rw [hAll]
          cases hLater : scanChildren scan children [] with
          | error e =>
              apply Visits.of_error
              intro userCtx
              rw [hWalk]
              exact (hRest.fails_iff _).mpr ⟨e, hLater⟩
          | ok rest =>
              apply Visits.of_ok
              intro userCtx
              rw [hWalk, hRest.pairs rest hLater, List.foldl_append]

end Agreement

/-- Induction over a tree, one case for each kind of node. -/
theorem StoreNode.induction {motive : StoreNode σ → Prop}
    (hLeaf : ∀ name handle, motive (.columnLeaf name handle))
    (hComposite : ∀ name children index, (∀ child ∈ children, motive child) →
      motive (.compositeNode name children index)) (node : StoreNode σ) : motive node := by
  induction hSize : sizeOf node using Nat.strong_induction_on generalizing node with
  | _ n ih =>
      cases node with
      | columnLeaf name handle => exact hLeaf name handle
      | compositeNode name children index =>
          apply hComposite
          intro child hMem
          refine ih (sizeOf child) ?_ child rfl
          have hLess := List.sizeOf_lt_of_mem hMem
          rw [← hSize, StoreNode.compositeNode.sizeOf_spec]
          omega

section Tree
variable {scans : BackendHandle σ → ScanVTable σ τ} {visitor : ScanVisitor τ}

/-- A backend shows a visitor what its scan returns, in every state. -/
def ScanVTable.Agrees (vtable : ScanVTable σ τ) (visitor : ScanVisitor τ) : Prop :=
  ∀ start s, Visits visitor (fun userCtx => vtable.foreachScan start visitor userCtx s)
    (vtable.prefixScan start s)

theorem BackendHandle.visits {handle : BackendHandle σ} (h : (scans handle).Agrees visitor)
    (start : Bytes) (w : World σ) :
    Visits visitor (fun userCtx => handle.foreachScan scans start visitor userCtx w)
      (handle.prefixScan scans start w) := by
  unfold BackendHandle.foreachScan BackendHandle.prefixScan
  split
  · exact h start _
  · exact Visits.of_error _ fun userCtx => ⟨_, rfl⟩

/-- If the leaves of a tree show a visitor what their scans return, the tree does. -/
theorem foreach_visits_scan {node : StoreNode σ} (hLeaves : ∀ position handle,
      leafAt node position = some handle → (scans handle).Agrees visitor)
    (start : Bytes) (w : World σ) :
    Visits visitor (nodeForeach hashKey scans visitor w node start)
      (nodePrefixScan hashKey scans w node start) := by
  induction node using StoreNode.induction generalizing start with
  | hLeaf name handle =>
      have hWalk : nodeForeach hashKey scans visitor w (.columnLeaf name handle) start =
          fun userCtx => handle.foreachScan scans start visitor userCtx w := by
        funext userCtx
        rw [nodeForeach]
      rw [hWalk, nodePrefixScan]
      exact BackendHandle.visits (hLeaves [] handle rfl) start w
  | hComposite name children index ih =>
      have hBelow : ∀ child ∈ children, ∀ start,
          Visits visitor (nodeForeach hashKey scans visitor w child start)
            (nodePrefixScan hashKey scans w child start) := by
        intro child hMem start
        refine ih child hMem ?_ start
        intro position handle hLeaf
        obtain ⟨i, hi, rfl⟩ := List.mem_iff_getElem.mp hMem
        apply hLeaves (i :: position)
        rw [leafAt, List.getElem?_eq_getElem hi]
        exact hLeaf
      rw [nodePrefixScan]
      by_cases hEmpty : (routeKey start).child.isEmpty = true
      · have hWalk : nodeForeach hashKey scans visitor w (.compositeNode name children index) start =
            visitChildren (fun child : {child // child ∈ children} =>
              nodeForeach hashKey scans visitor w child.1 start) children.attach := by
          funext userCtx
          rw [nodeForeach, if_pos hEmpty]
        rw [hWalk, if_pos hEmpty]
        exact visits_children fun child _ => hBelow child.1 child.2 start
      · have hWalk : ∀ userCtx, nodeForeach hashKey scans visitor w
            (.compositeNode name children index) start userCtx =
              match findChild hashKey name children index (routeKey start).child with
              | .error e => (.error e, userCtx)
              | .ok child => nodeForeach hashKey scans visitor w child.1 (routeKey start).rest
                  userCtx := by
          intro userCtx
          rw [nodeForeach, if_neg hEmpty]
        rw [funext hWalk, if_neg hEmpty]
        cases findChild hashKey name children index (routeKey start).child with
        | error e => exact Visits.of_error e fun userCtx => ⟨e, rfl⟩
        | ok child => exact hBelow child.1 child.2 (routeKey start).rest

end Tree

/-! ## Tables in memory -/

/-- A sorted table that is only read. -/
def sortedVTable : BackendVTable SortedTable where
  get := fun key table => .ok (table.contents key)
  put := fun _ _ table => (.error ⟨"SortedTable", "read-only"⟩, table)
  del := fun _ table => (.error ⟨"SortedTable", "read-only"⟩, table)
  batch := fun _ table => (.error ⟨"SortedTable", "read-only"⟩, table)

/-- A visitor that keeps all pairs. -/
def keepAll : ScanVisitor (List KVPair) := fun seen key value => seen ++ [⟨key, value⟩]

def sortedScans (_ : BackendHandle SortedTable) : ScanVTable SortedTable (List KVPair) where
  prefixScan := fun start table => .ok (table.rows.filter fun kv => startsWith kv.key start)
  foreachScan := fun start visitor userCtx table =>
    (.ok (), (table.rows.filter fun kv => startsWith kv.key start).foldl
      (fun seen kv => visitor seen kv.key kv.value) userCtx)

theorem sortedScans_agrees (handle : BackendHandle SortedTable) :
    (sortedScans handle).Agrees keepAll := by
  intro start table
  exact Visits.of_ok fun userCtx => rfl

/-- Two tables, one of them in a scope of its own. -/
def nestedTables (hashKey : Bytes → Nat) : StoreNode SortedTable :=
  buildComposite hashKey (ascii "root")
    [buildComposite hashKey (ascii "app") [buildLeaf (ascii "a") ⟨some 0, some sortedVTable⟩],
      buildLeaf (ascii "b") ⟨some 1, some sortedVTable⟩]

/-- Every table has one row. -/
def oneRowEach : World SortedTable := fun _ => ⟨[⟨[1], [7]⟩], by simp⟩

/-- The empty prefix fans out. -/
theorem foreach_visits_scan_nested :
    Visits keepAll
      (nodeForeach List.length sortedScans keepAll oneRowEach (nestedTables List.length) [])
      (nodePrefixScan List.length sortedScans oneRowEach (nestedTables List.length) []) :=
  foreach_visits_scan (fun _ handle _ => sortedScans_agrees handle) [] oneRowEach

end CelerMem
