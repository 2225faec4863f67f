import CelerMem.Core.Contents
import CelerMem.Core.Dispatch
import Mathlib

/-! Paths through a store tree: the leaf that a path routes to, what a write there does to
every read, and what is left alone when there is no such leaf. -/
namespace CelerMem

variable {σ : Type} {hashKey : Bytes → Nat}

/-! ## Lawful backends -/

/-- A store of keys and values: a write that succeeds is read back and changes no other key. -/
structure BackendVTable.Lawful (vtable : BackendVTable σ) : Prop where
  get_put : ∀ {key value s s'}, vtable.put key value s = (.ok (), s') →
    vtable.get key s' = .ok (some value) ∧
      ∀ other, other ≠ key → vtable.get other s' = vtable.get other s
  get_del : ∀ {key s s'}, vtable.del key s = (.ok (), s') →
    vtable.get key s' = .ok none ∧ ∀ other, other ≠ key → vtable.get other s' = vtable.get other s

/-- The leaf at the end of a way down that picks a child by its position at every step. -/
def leafAt : StoreNode σ → List Nat → Option (BackendHandle σ)
  | .columnLeaf _ handle, [] => some handle
  | .compositeNode _ children _, i :: position =>
      match children[i]? with
      | some child => leafAt child position
      | none => none
  | _, _ => none

/-- A tree as the builders make it, no two leaves of which hold the same store. -/
structure StoreTree (σ : Type) (hashKey : Bytes → Nat) where
  node : StoreNode σ
  built : Built hashKey node
  distinct : ∀ {position position' handle handle' ctx}, leafAt node position = some handle →
    leafAt node position' = some handle' → handle.ctx = some ctx → handle'.ctx = some ctx →
    position = position'

structure LawfulTree (σ : Type) (hashKey : Bytes → Nat) extends StoreTree σ hashKey where
  lawful : ∀ {position handle vtable}, leafAt node position = some handle →
    handle.vtable = some vtable → vtable.Lawful

/-! ## Routes -/

/-- The first segment of a path. Without a separator, the whole path is one. -/
def Segment (path child rest : Bytes) : Prop :=
  separator ∉ child ∧ (path = child ++ separator :: rest ∨ path = child ∧ rest = [])

/-- The first child of a name. -/
def FirstChild (children : List (StoreNode σ)) (name : Bytes) (i : ℕ) (child : StoreNode σ) :
    Prop :=
  children[i]? = some child ∧ nodeName child = name ∧
    ∀ j < i, ∀ other, children[j]? = some other → nodeName other ≠ name

/-- A path names a child in each segment, down to a leaf that takes the rest for its key. -/
inductive RoutesTo : StoreNode σ → Bytes → List ℕ → BackendHandle σ → Bytes → Prop where
  | leaf (name : Bytes) (handle : BackendHandle σ) (key : Bytes) :
      RoutesTo (.columnLeaf name handle) key [] handle key
  | child {name : Bytes} {children : List (StoreNode σ)} {index : FlatSymbolTable}
      {path childName rest key : Bytes} {i : ℕ} {child : StoreNode σ} {position : List ℕ}
      {handle : BackendHandle σ} (hSegment : Segment path childName rest)
      (hFirst : FirstChild children childName i child)
      (hBelow : RoutesTo child rest position handle key) :
      RoutesTo (.compositeNode name children index) path (i :: position) handle key

/-- There is one way to cut at the first separator. -/
theorem cut_unique {child child' rest rest' : Bytes} (hFree : separator ∉ child)
    (hFree' : separator ∉ child')
    (h : child ++ separator :: rest = child' ++ separator :: rest') :
    child = child' ∧ rest = rest' := by
  induction child generalizing child' with
  | nil =>
      cases child' with
      | nil => exact ⟨rfl, (List.cons.inj h).2⟩
      | cons b child' => exact absurd (List.cons.inj h).1 (List.ne_of_not_mem_cons hFree')
  | cons a child ih =>
      cases child' with
      | nil => exact absurd (List.cons.inj h).1.symm (List.ne_of_not_mem_cons hFree)
      | cons b child' =>
          obtain ⟨rfl, hTail⟩ := List.cons.inj h
          obtain ⟨rfl, hRest⟩ := ih (List.not_mem_of_not_mem_cons hFree)
            (List.not_mem_of_not_mem_cons hFree') hTail
          exact ⟨rfl, hRest⟩

theorem Segment.unique {path child child' rest rest' : Bytes} (h : Segment path child rest)
    (h' : Segment path child' rest') : child = child' ∧ rest = rest' := by
  obtain ⟨hFree, hPath⟩ := h
  obtain ⟨hFree', hPath'⟩ := h'
  rcases hPath with rfl | ⟨rfl, rfl⟩
  · rcases hPath' with hSame | ⟨hSame, -⟩
    · exact cut_unique hFree hFree' hSame
    · exact absurd (hSame ▸ by simp) hFree'
  · rcases hPath' with rfl | ⟨rfl, rfl⟩
    · exact absurd (by simp) hFree
    · exact ⟨rfl, rfl⟩

theorem FirstChild.unique {children : List (StoreNode σ)} {name : Bytes} {i i' : ℕ}
    {child child' : StoreNode σ} (h : FirstChild children name i child)
    (h' : FirstChild children name i' child') : i = i' ∧ child = child' := by
  obtain ⟨hAt, hName, hBefore⟩ := h
  obtain ⟨hAt', hName', hBefore'⟩ := h'
  have hSame : i = i' := by
    rcases Nat.lt_trichotomy i i' with hLess | hEq | hMore
    · exact absurd hName (hBefore' i hLess child hAt)
    · exact hEq
    · exact absurd hName' (hBefore i' hMore child' hAt')
  rw [hSame, hAt'] at hAt
  exact ⟨hSame, (Option.some.inj hAt).symm⟩

/-- A path routes to one leaf at most. -/
theorem RoutesTo.unique {node : StoreNode σ} {path key key' : Bytes} {position position' : List ℕ}
    {handle handle' : BackendHandle σ} (h : RoutesTo node path position handle key)
    (h' : RoutesTo node path position' handle' key') :
    position = position' ∧ handle = handle' ∧ key = key' := by
  induction h generalizing position' with
  | leaf name handle key =>
      cases h'
      exact ⟨rfl, rfl, rfl⟩
  | child hSegment hFirst hBelow ih =>
      cases h' with
      | child hSegment' hFirst' hBelow' =>
          obtain ⟨rfl, rfl⟩ := hSegment.unique hSegment'
          obtain ⟨rfl, rfl⟩ := hFirst.unique hFirst'
          obtain ⟨rfl, hLeaf, hKey⟩ := ih hBelow'
          exact ⟨rfl, hLeaf, hKey⟩

theorem RoutesTo.leafAt_eq {node : StoreNode σ} {path key : Bytes} {position : List ℕ}
    {handle : BackendHandle σ} (h : RoutesTo node path position handle key) :
    leafAt node position = some handle := by
  induction h with
  | leaf name handle key => rfl
  | child hSegment hFirst hBelow ih =>
      rw [leafAt, hFirst.1]
      exact ih

/-! ## Routing finds them -/

theorem routeKey_segment (key : Bytes) :
    Segment key (routeKey key).child (routeKey key).rest := by
  rw [routeKey]
  cases hFound : key.findIdx? (· == separator) with
  | none =>
      refine ⟨?_, Or.inr ⟨rfl, rfl⟩⟩
      intro hMem
      simpa using List.findIdx?_eq_none_iff.mp hFound separator hMem
  | some pos =>
      obtain ⟨hLess, hAt, hBefore⟩ := List.findIdx?_eq_some_iff_getElem.mp hFound
      refine ⟨?_, Or.inl ?_⟩
      · intro hMem
        obtain ⟨j, hj, hSame⟩ := List.getElem_of_mem hMem
        rw [List.length_take] at hj
        rw [List.getElem_take] at hSame
        exact hBefore j (by omega) (beq_iff_eq.mpr hSame)
      · rw [← beq_iff_eq.mp hAt, ← List.drop_eq_getElem_cons hLess, List.take_append_drop]

variable (hashKey) in
/-- In a built composite, the symbol table leads to the first child of the name. -/
theorem findChild_built (name : Bytes) (children : List (StoreNode σ)) (childName : Bytes) :
    (∃ i child, FirstChild children childName i child.1 ∧ findChild hashKey name children
      (FlatSymbolTable.buildIndexed hashKey (children.map nodeName)) childName = .ok child) ∨
    (∀ i child, ¬ FirstChild children childName i child) ∧ findChild hashKey name children
      (FlatSymbolTable.buildIndexed hashKey (children.map nodeName)) childName =
        .error (childNotFound childName name) := by
  unfold findChild
  rw [FlatSymbolTable.find_buildIndexed]
  cases hFound : (children.map nodeName).findIdx? (· == childName) with
  | none =>
      refine Or.inr ⟨?_, rfl⟩
      intro i child hFirst
      have hMem := List.mem_map_of_mem (f := nodeName) (List.mem_of_getElem? hFirst.1)
      simpa [hFirst.2.1] using List.findIdx?_eq_none_iff.mp hFound _ hMem
  | some i =>
      obtain ⟨hLess, hAt, hBefore⟩ := List.findIdx?_eq_some_iff_getElem.mp hFound
      have hChild : i < children.length := by rwa [List.length_map] at hLess
      refine Or.inl ⟨i, ⟨children[i], List.getElem_mem hChild⟩, ⟨?_, ?_, ?_⟩, dif_pos hChild⟩
      · exact List.getElem?_eq_getElem hChild
      · simpa using hAt
      · intro j hj other hOther hSame
        obtain ⟨hBelow, rfl⟩ := List.getElem?_eq_some_iff.mp hOther
        apply hBefore j hj
        simpa using hSame

/-- A visit ends at the leaf that the path routes to; without one, it ends in an error. -/
theorem visit_built {node : StoreNode σ} (hBuilt : Built hashKey node) (path : Bytes) :
    (∃ position handle key, RoutesTo node path position handle key ∧
      ∀ {γ : Type} (onLeaf : BackendHandle σ → Bytes → γ) (onError : Error → γ),
        visit hashKey onLeaf onError node path = onLeaf handle key) ∨
    (∀ position handle key, ¬ RoutesTo node path position handle key) ∧
      ∃ e, ∀ {γ : Type} (onLeaf : BackendHandle σ → Bytes → γ) (onError : Error → γ),
        visit hashKey onLeaf onError node path = onError e := by
  induction hBuilt generalizing path with
  | leaf name handle =>
      refine Or.inl ⟨[], handle, path, RoutesTo.leaf name handle path, ?_⟩
      intro γ onLeaf onError
      rw [buildLeaf, visit]
  | composite name hChildren ih =>
      rename_i children
      have hSegment := routeKey_segment path
      rcases findChild_built hashKey name children (routeKey path).child with
        ⟨i, child, hFirst, hFound⟩ | ⟨hNone, hFound⟩
      · rcases ih child.1 child.2 (routeKey path).rest with
          ⟨position, handle, key, hBelow, hVisit⟩ | ⟨hNowhere, e, hVisit⟩
        · refine Or.inl ⟨i :: position, handle, key, RoutesTo.child hSegment hFirst hBelow, ?_⟩
          intro γ onLeaf onError
          rw [buildComposite, visit]
          simp only [hFound]
          exact hVisit onLeaf onError
        · refine Or.inr ⟨?_, e, ?_⟩
          · intro position handle key hRoute
            cases hRoute with
            | child hSegment' hFirst' hBelow =>
                obtain ⟨rfl, rfl⟩ := hSegment.unique hSegment'
                obtain ⟨rfl, rfl⟩ := hFirst.unique hFirst'
                exact hNowhere _ _ _ hBelow
          · intro γ onLeaf onError
            rw [buildComposite, visit]
            simp only [hFound]
            exact hVisit onLeaf onError
      · refine Or.inr ⟨?_, childNotFound (routeKey path).child name, ?_⟩
        · intro position handle key hRoute
          cases hRoute with
          | child hSegment' hFirst' hBelow =>
              obtain ⟨rfl, rfl⟩ := hSegment.unique hSegment'
              exact hNone _ _ hFirst'
        · intro γ onLeaf onError
          rw [buildComposite, visit]
          simp only [hFound]

theorem RoutesTo.visit_eq {node : StoreNode σ} {path key : Bytes} {position : List ℕ}
    {handle : BackendHandle σ} (h : RoutesTo node path position handle key)
    (hBuilt : Built hashKey node) {γ : Type} (onLeaf : BackendHandle σ → Bytes → γ)
    (onError : Error → γ) : visit hashKey onLeaf onError node path = onLeaf handle key := by
  rcases visit_built hBuilt path with ⟨position', handle', key', hRoute, hVisit⟩ | ⟨hNowhere, -⟩
  · obtain ⟨-, rfl, rfl⟩ := h.unique hRoute
    exact hVisit onLeaf onError
  · exact absurd h (hNowhere position handle key)

/-! ## Reads after a write -/

/-- Two paths name the same key of the same leaf. -/
def SameKey (node : StoreNode σ) (p q : Bytes) : Prop :=
  ∃ position handle key, RoutesTo node p position handle key ∧ RoutesTo node q position handle key

theorem BackendHandle.call_ok {handle : BackendHandle σ}
    {fn : BackendVTable σ → σ → VoidResult × σ} {w w' : World σ}
    (h : handle.call fn w = (.ok (), w')) :
    ∃ ctx vtable s, handle.ctx = some ctx ∧ handle.vtable = some vtable ∧
      fn vtable (w ctx) = (.ok (), s) ∧ w' = Function.update w ctx s := by
  unfold BackendHandle.call at h
  split at h
  · rename_i ctx vtable hCtx hVTable
    obtain ⟨hResult, hWorld⟩ := Prod.mk.inj h
    exact ⟨ctx, vtable, (fn vtable (w ctx)).2, hCtx, hVTable, Prod.ext hResult rfl, hWorld.symm⟩
  · cases h

/-- Reading a leaf only looks at its own backend. -/
theorem BackendHandle.get_update {handle : BackendHandle σ} {ctx : ℕ} (key : Bytes) (w : World σ)
    (s : σ) (hOther : handle.ctx ≠ some ctx) :
    handle.get key (Function.update w ctx s) = handle.get key w := by
  unfold BackendHandle.get
  split
  · rename_i ctx' vtable hCtx hVTable
    have hApart : ctx' ≠ ctx := by
      rintro rfl
      exact hOther hCtx
    rw [Function.update_of_ne hApart]
  · rfl

theorem BackendHandle.get_some {handle : BackendHandle σ} {ctx : ℕ} {vtable : BackendVTable σ}
    (hCtx : handle.ctx = some ctx) (hVTable : handle.vtable = some vtable) (key : Bytes)
    (w : World σ) : handle.get key w = vtable.get key (w ctx) := by
  rw [BackendHandle.get, hCtx, hVTable]

section Reads
variable (tree : LawfulTree σ hashKey) {p : Bytes} {position : List ℕ} {handle : BackendHandle σ}
  {key : Bytes} {w w' : World σ}

/-- A write to the leaf of one path, and what every path reads after it. -/
theorem reads_after_call (hRoute : RoutesTo tree.node p position handle key)
    {fn : BackendVTable σ → σ → VoidResult × σ} {written : Option Bytes}
    (hCall : handle.call fn w = (.ok (), w'))
    (hLaw : ∀ {vtable s s'}, vtable.Lawful → fn vtable s = (.ok (), s') →
      vtable.get key s' = .ok written ∧
        ∀ other, other ≠ key → vtable.get other s' = vtable.get other s)
    (q : Bytes) :
    (SameKey tree.node p q → nodeGet hashKey tree.node q w' = .ok written) ∧
      (¬ SameKey tree.node p q →
        nodeGet hashKey tree.node q w' = nodeGet hashKey tree.node q w) := by
  obtain ⟨ctx, vtable, s, hCtx, hVTable, hWritten, rfl⟩ := BackendHandle.call_ok hCall
  obtain ⟨hRead, hKept⟩ := hLaw (tree.lawful hRoute.leafAt_eq hVTable) hWritten
  rcases visit_built tree.built q with ⟨position', handle', key', hRoute', hVisit⟩ |
    ⟨hNowhere, e, hVisit⟩
  · simp only [nodeGet, hVisit]
    by_cases hLeaf : position = position'
    · -- One leaf: the two keys decide.
      have hSame : handle = handle' :=
        Option.some.inj (hRoute.leafAt_eq.symm.trans (hLeaf ▸ hRoute'.leafAt_eq))
      subst hLeaf hSame
      rw [BackendHandle.get_some hCtx hVTable, BackendHandle.get_some hCtx hVTable,
        Function.update_self]
      constructor
      · rintro ⟨_, _, key'', hRead', hWrite'⟩
        obtain ⟨-, -, rfl⟩ := hRoute.unique hRead'
        obtain ⟨-, -, rfl⟩ := hRoute'.unique hWrite'
        exact hRead
      · intro hApart
        apply hKept
        rintro rfl
        exact hApart ⟨position, handle, key', hRoute, hRoute'⟩
    · constructor
      · rintro ⟨_, _, _, hRead', hWrite'⟩
        obtain ⟨rfl, -⟩ := hRoute.unique hRead'
        obtain ⟨rfl, -⟩ := hRoute'.unique hWrite'
        exact absurd rfl hLeaf
      · intro hApart
        apply BackendHandle.get_update
        intro hCtx'
        exact hLeaf (tree.distinct hRoute.leafAt_eq hRoute'.leafAt_eq hCtx hCtx')
  · have hError : ∀ w, nodeGet hashKey tree.node q w = .error e := fun w => hVisit _ _
    constructor
    · rintro ⟨position', handle', key', -, hRoute'⟩
      exact absurd hRoute' (hNowhere position' handle' key')
    · intro hApart
      rw [hError, hError]

end Reads

/-- A write that succeeds goes to the leaf that its path routes to. -/
theorem routes_of_ok {tree : LawfulTree σ hashKey} {p : Bytes} {w w' : World σ}
    {onLeaf : BackendHandle σ → Bytes → VoidResult × World σ}
    (h : visit hashKey onLeaf (fun e => (.error e, w)) tree.node p = (.ok (), w')) :
    ∃ position handle key, RoutesTo tree.node p position handle key ∧
      onLeaf handle key = (.ok (), w') := by
  rcases visit_built tree.built p with ⟨position, handle, key, hRoute, hVisit⟩ | ⟨-, e, hVisit⟩
  · rw [hVisit] at h
    exact ⟨position, handle, key, hRoute, h⟩
  · rw [hVisit] at h
    cases h

/-- Writes are read back under every path to the same key and under no other, and a path
to no leaf changes nothing. -/
theorem node_routing (tree : LawfulTree σ hashKey) (p q value : Bytes) (w w' : World σ) :
    (nodePut hashKey tree.node p value w = (.ok (), w') →
      (SameKey tree.node p q → nodeGet hashKey tree.node q w' = .ok (some value)) ∧
      (¬ SameKey tree.node p q →
        nodeGet hashKey tree.node q w' = nodeGet hashKey tree.node q w)) ∧
    (nodeDel hashKey tree.node p w = (.ok (), w') →
      (SameKey tree.node p q → nodeGet hashKey tree.node q w' = .ok none) ∧
      (¬ SameKey tree.node p q →
        nodeGet hashKey tree.node q w' = nodeGet hashKey tree.node q w)) ∧
    ((∀ position handle key, ¬ RoutesTo tree.node p position handle key) →
      ∃ e, nodeGet hashKey tree.node p w = .error e ∧
        nodePut hashKey tree.node p value w = (.error e, w) ∧
        nodeDel hashKey tree.node p w = (.error e, w)) := by
  refine ⟨?_, ?_, ?_⟩
  · intro hPut
    obtain ⟨position, handle, key, hRoute, hLeaf⟩ := routes_of_ok hPut
    exact reads_after_call tree hRoute hLeaf (fun hLaw => hLaw.get_put) q
  · intro hDel
    obtain ⟨position, handle, key, hRoute, hLeaf⟩ := routes_of_ok hDel
    exact reads_after_call tree hRoute hLeaf (fun hLaw => hLaw.get_del) q
  · intro hNowhere
    rcases visit_built tree.built p with ⟨position, handle, key, hRoute, -⟩ | ⟨-, e, hVisit⟩
    · exact absurd hRoute (hNowhere position handle key)
    · refine ⟨e, ?_, ?_, ?_⟩
      · rw [nodeGet, hVisit]
      · rw [nodePut, hVisit]
      · rw [nodeDel, hVisit]

/-! ## A tree in memory -/

/-- A backend that keeps its contents in memory and writes a batch as a whole. -/
def memory : BackendVTable Contents where
  get := fun key s => .ok (s key)
  put := fun key value s => (.ok (), Function.update s key (some value))
  del := fun key s => (.ok (), Function.update s key none)
  batch := fun ops s =>
    match applyOps ops s with
    | .error e => (.error e, s)
    | .ok s' => (.ok (), s')

theorem memory_lawful : memory.Lawful where
  get_put := by
    intro key value s s' h
    obtain rfl := (Prod.mk.inj h).2
    constructor
    · exact congrArg Except.ok (Function.update_self key (some value) s)
    · intro other hOther
      exact congrArg Except.ok (Function.update_of_ne hOther (some value) s)
  get_del := by
    intro key s s' h
    obtain rfl := (Prod.mk.inj h).2
    constructor
    · exact congrArg Except.ok (Function.update_self key none s)
    · intro other hOther
      exact congrArg Except.ok (Function.update_of_ne hOther none s)

def memoryLeaf (name : Bytes) (ctx : ℕ) : StoreNode Contents :=
  buildLeaf name ⟨some ctx, some memory⟩

/-- A scope of two tables. -/
def twoTables (hashKey : Bytes → ℕ) : StoreNode Contents :=
  buildComposite hashKey (ascii "app") [memoryLeaf (ascii "a") 0, memoryLeaf (ascii "b") 1]

theorem twoTables_leafAt {position : List ℕ} {handle : BackendHandle Contents}
    (h : leafAt (twoTables hashKey) position = some handle) :
    ∃ ctx, position = [ctx] ∧ handle = ⟨some ctx, some memory⟩ := by
  rcases position with _ | ⟨i, _ | ⟨j, position⟩⟩
  · cases h
  · rcases i with _ | _ | i
    · exact ⟨0, rfl, (Option.some.inj h).symm⟩
    · exact ⟨1, rfl, (Option.some.inj h).symm⟩
    · cases h
  · rcases i with _ | _ | i
    · cases h
    · cases h
    · cases h

def memoryTree (hashKey : Bytes → ℕ) : LawfulTree Contents hashKey where
  node := twoTables hashKey
  built := by
    apply Built.composite
    intro child hMem
    rcases List.mem_pair.mp hMem with rfl | rfl
    · exact Built.leaf _ _
    · exact Built.leaf _ _
  lawful := by
    intro position handle vtable hLeaf hVTable
    obtain ⟨ctx, -, rfl⟩ := twoTables_leafAt hLeaf
    obtain rfl := Option.some.inj hVTable
    exact memory_lawful
  distinct := by
    intro position position' handle handle' ctx hLeaf hLeaf' hCtx hCtx'
    obtain ⟨i, rfl, rfl⟩ := twoTables_leafAt hLeaf
    obtain ⟨j, rfl, rfl⟩ := twoTables_leafAt hLeaf'
    rw [Option.some.inj hCtx, Option.some.inj hCtx']

theorem memoryTree_routesTo :
    RoutesTo (memoryTree List.length).node (ascii "b:x:y") [1] ⟨some 1, some memory⟩
      (ascii "x:y") := by
  have hSegment : Segment (ascii "b:x:y") (ascii "b") (ascii "x:y") := ⟨by decide, Or.inl rfl⟩
  have hFirst : FirstChild [memoryLeaf (ascii "a") 0, memoryLeaf (ascii "b") 1] (ascii "b") 1
      (memoryLeaf (ascii "b") 1) := by
    refine ⟨rfl, rfl, ?_⟩
    intro j hj other hOther
    obtain rfl : j = 0 := by omega
    obtain rfl := Option.some.inj hOther
    decide
  exact RoutesTo.child hSegment hFirst (RoutesTo.leaf _ _ _)

def emptyWorld : World Contents := fun _ _ => none

/-- A key with a separator of its own, written to the second of two empty tables. -/
theorem node_routing_twoTables :
    nodeGet List.length (memoryTree List.length).node (ascii "b:x:y") (Function.update emptyWorld 1
      (Function.update (emptyWorld 1) (ascii "x:y") (some [7]))) = .ok (some [7]) :=
  ((node_routing (memoryTree List.length) (ascii "b:x:y") (ascii "b:x:y") [7] emptyWorld _).1
      (memoryTree_routesTo.visit_eq (memoryTree List.length).built _ _)).1
    ⟨[1], _, _, memoryTree_routesTo, memoryTree_routesTo⟩

end CelerMem
