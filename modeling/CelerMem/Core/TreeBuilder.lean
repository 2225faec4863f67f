import CelerMem.Core.Routing

/-! Building a store from its tables, and the two ways to a table: `db` and `table`, and
the routing of a path. -/
namespace CelerMem

variable {σ : Type} {hashKey : Bytes → Nat}

structure TableDescriptor where
  scope : Bytes
  table : Bytes
  deriving DecidableEq

/-- A call of the factory, and what it returned. -/
structure FactoryCall (σ : Type) where
  table : TableDescriptor
  answer : Result (BackendHandle σ)

/-- A factory may answer otherwise after the calls that came before. -/
abbrev BackendFactory (σ : Type) := List (FactoryCall σ) → TableDescriptor → Result (BackendHandle σ)

/-- `scope_map[td.scope].push_back(td.table)`. -/
def addTable : List (Bytes × List Bytes) → TableDescriptor → List (Bytes × List Bytes)
  | [], td => [(td.scope, [td.table])]
  | (scope, tables) :: rest, td =>
      if scope = td.scope then (scope, tables ++ [td.table]) :: rest
      else (scope, tables) :: addTable rest td

def groupByScope (tables : List TableDescriptor) : List (Bytes × List Bytes) :=
  tables.foldl addTable []

/-- The order in which the map of the scopes is gone through: some order of its entries. -/
structure ScopeOrder where
  order : List (Bytes × List Bytes) → List (Bytes × List Bytes)
  perm : ∀ groups, (order groups).Perm groups

/-- One leaf for each table of a scope, up to the first error. The calls are logged. -/
def buildLeaves (factory : BackendFactory σ) (scope : Bytes) :
    List Bytes → List (FactoryCall σ) → Result (List (StoreNode σ)) × List (FactoryCall σ)
  | [], calls => (.ok [], calls)
  | table :: rest, calls =>
      let answer := factory calls ⟨scope, table⟩
      let calls := calls ++ [⟨⟨scope, table⟩, answer⟩]
      match answer with
      | .error e => (.error e, calls)
      | .ok handle =>
          match buildLeaves factory scope rest calls with
          | (.error e, calls) => (.error e, calls)
          | (.ok leaves, calls) => (.ok (buildLeaf table handle :: leaves), calls)

/-- One composite for each scope, up to the first error. -/
def buildScopes (hashKey : Bytes → Nat) (factory : BackendFactory σ) :
    List (Bytes × List Bytes) → List (FactoryCall σ) →
      Result (List (StoreNode σ)) × List (FactoryCall σ)
  | [], calls => (.ok [], calls)
  | (scope, tables) :: rest, calls =>
      match buildLeaves factory scope tables calls with
      | (.error e, calls) => (.error e, calls)
      | (.ok leaves, calls) =>
          match buildScopes hashKey factory rest calls with
          | (.error e, calls) => (.error e, calls)
          | (.ok scopes, calls) => (.ok (buildComposite hashKey scope leaves :: scopes), calls)

/-- The tree, and the calls that were made of the factory. -/
def buildTree (hashKey : Bytes → Nat) (scopeOrder : ScopeOrder) (factory : BackendFactory σ)
    (tables : List TableDescriptor) : Result (StoreNode σ) × List (FactoryCall σ) :=
  match buildScopes hashKey factory (scopeOrder.order (groupByScope tables)) [] with
  | (.error e, calls) => (.error e, calls)
  | (.ok scopes, calls) => (.ok (buildComposite hashKey (ascii "root") scopes), calls)

/-! ## References -/

structure TableRef (σ : Type) where
  tableName : Bytes
  handle : BackendHandle σ

def TableRef.getRaw (ref : TableRef σ) (key : Bytes) (w : World σ) : Result (Option Bytes) :=
  ref.handle.get key w

/-- `children[*index.find(name)]`; the index of a built tree leads to a child. -/
def childNamed (hashKey : Bytes → Nat) (children : List (StoreNode σ)) (index : FlatSymbolTable)
    (name : Bytes) : Option (StoreNode σ) :=
  (index.find hashKey name).bind (children[·]?)

def DbRef.table (hashKey : Bytes → Nat) (ref : DbRef σ) (tableName : Bytes) : Result (TableRef σ) :=
  match ref.node with
  | none => .error ⟨"DbRef", "null node"⟩
  | some (.columnLeaf _ handle) => .ok ⟨tableName, handle⟩
  | some (.compositeNode _ children index) =>
      match childNamed hashKey children index tableName with
      | none => .error ⟨"TableNotFound",
          "table '" ++ text tableName ++ "' not found in scope '" ++ text ref.scopeName ++ "'"⟩
      | some (.columnLeaf _ handle) => .ok ⟨tableName, handle⟩
      | some (.compositeNode _ _ _) => .error ⟨"TableIsComposite", "expected leaf, got composite"⟩

/-- The resources that a store also owns are not looked at on the way to a table. -/
structure Store (σ : Type) where
  root : StoreNode σ

def Store.db (hashKey : Bytes → Nat) (store : Store σ) (scopeName : Bytes) : Result (DbRef σ) :=
  match store.root with
  | .columnLeaf _ _ => .error ⟨"InvalidRoot", "root is a leaf, expected composite"⟩
  | .compositeNode _ children index =>
      match childNamed hashKey children index scopeName with
      | none => .error ⟨"ScopeNotFound", "scope '" ++ text scopeName ++ "' not found"⟩
      | some child => .ok ⟨scopeName, some child⟩

/-- `db(scope)`, and `table(table)` of what it returns. -/
def Store.resolve (hashKey : Bytes → Nat) (store : Store σ) (td : TableDescriptor) :
    Result (TableRef σ) :=
  (store.db hashKey td.scope).bind fun ref => ref.table hashKey td.table

/-- The path of a key of a table. -/
def TableDescriptor.path (td : TableDescriptor) (key : Bytes) : Bytes :=
  td.scope ++ separator :: (td.table ++ separator :: key)

/-- The names hold no separator. -/
def TableDescriptor.Plain (td : TableDescriptor) : Prop :=
  separator ∉ td.scope ∧ separator ∉ td.table

/-! ## Grouping -/

/-- The tables of the groups, in their order. -/
def tablesOf (groups : List (Bytes × List Bytes)) : List TableDescriptor :=
  groups.flatMap fun (scope, tables) => tables.map (TableDescriptor.mk scope)

variable {groups : List (Bytes × List Bytes)} {td : TableDescriptor}

theorem tablesOf_addTable : (tablesOf (addTable groups td)).Perm (td :: tablesOf groups) := by
  induction groups with
  | nil => exact List.Perm.refl _
  | cons group rest ih =>
      obtain ⟨scope, tables⟩ := group
      rw [addTable]
      split
      next hScope =>
        subst hScope
        simp only [tablesOf, List.flatMap_cons, List.map_append, List.append_assoc, List.map_cons,
          List.map_nil, List.cons_append, List.nil_append]
        exact List.perm_middle
      next =>
        simp only [tablesOf, List.flatMap_cons] at ih ⊢
        exact (ih.append_left _).trans List.perm_middle

theorem addTable_scopes : (addTable groups td).map Prod.fst =
    if td.scope ∈ groups.map Prod.fst then groups.map Prod.fst
    else groups.map Prod.fst ++ [td.scope] := by
  induction groups with
  | nil => rfl
  | cons group rest ih =>
      obtain ⟨scope, tables⟩ := group
      rw [addTable]
      by_cases hScope : scope = td.scope
      · simp [hScope]
      · by_cases hIn : td.scope ∈ rest.map Prod.fst
        · rw [if_pos hIn] at ih
          have hIn' : td.scope ∈ (((scope, tables) :: rest).map Prod.fst) :=
            List.mem_cons_of_mem _ hIn
          rw [if_neg hScope, if_pos hIn', List.map_cons, ih, List.map_cons]
        · rw [if_neg hIn] at ih
          have hOut : td.scope ∉ (((scope, tables) :: rest).map Prod.fst) := by
            rw [List.map_cons, List.mem_cons, not_or]
            exact ⟨Ne.symm hScope, hIn⟩
          rw [if_neg hScope, if_neg hOut, List.map_cons, ih, List.map_cons, List.cons_append]

/-- Every table is in one group, and no scope has two. -/
theorem groupByScope_spec (tables : List TableDescriptor) :
    (tablesOf (groupByScope tables)).Perm tables ∧ ((groupByScope tables).map Prod.fst).Nodup := by
  have hFold : ∀ (tables : List TableDescriptor) (groups : List (Bytes × List Bytes)),
      (groups.map Prod.fst).Nodup →
      (tablesOf (tables.foldl addTable groups)).Perm (tables ++ tablesOf groups) ∧
        ((tables.foldl addTable groups).map Prod.fst).Nodup := by
    intro tables
    induction tables with
    | nil => exact fun groups hNodup => ⟨List.Perm.refl _, hNodup⟩
    | cons td rest ih =>
        intro groups hNodup
        have hAdded : ((addTable groups td).map Prod.fst).Nodup := by
          rw [addTable_scopes]
          split
          next => exact hNodup
          next hNew => exact List.nodup_append.mpr ⟨hNodup, List.nodup_singleton _, by grind⟩
        obtain ⟨hPerm, hScopes⟩ := ih (addTable groups td) hAdded
        refine ⟨hPerm.trans ?_, hScopes⟩
        exact (tablesOf_addTable.append_left rest).trans List.perm_middle
  have hAll := hFold tables [] List.nodup_nil
  rwa [show tablesOf [] = [] from rfl, List.append_nil] at hAll

/-! ## What is built -/

section Build
variable {factory : BackendFactory σ} {calls : List (FactoryCall σ)}

/-- The factory answers every call with a handle. -/
def BackendFactory.Succeeds (factory : BackendFactory σ) : Prop :=
  ∀ calls td, ∃ handle, factory calls td = .ok handle

/-- The leaves of a scope and the calls they come from: a leaf for each table, with the
handle that was returned for it. -/
structure LeavesOf (scope : Bytes) (tables : List Bytes) (leaves : List (StoreNode σ))
    (made : List (FactoryCall σ)) : Prop where
  names : leaves.map nodeName = tables
  called : made.map FactoryCall.table = tables.map (TableDescriptor.mk scope)
  leaf : ∀ leaf ∈ leaves, ∃ table handle, leaf = buildLeaf table handle
  returned : ∀ call ∈ made, ∃ handle, call.answer = .ok handle ∧
    buildLeaf call.table.table handle ∈ leaves

theorem buildLeaves_spec (hSucceeds : factory.Succeeds) (scope : Bytes) (tables : List Bytes)
    (calls : List (FactoryCall σ)) : ∃ leaves made,
      buildLeaves factory scope tables calls = (.ok leaves, calls ++ made) ∧
        LeavesOf scope tables leaves made := by
  induction tables generalizing calls with
  | nil =>
      refine ⟨[], [], by rw [buildLeaves, List.append_nil], rfl, rfl, ?_, ?_⟩
      · intro leaf hLeaf
        cases hLeaf
      · intro call hCall
        cases hCall
  | cons table rest ih =>
      obtain ⟨handle, hAnswer⟩ := hSucceeds calls ⟨scope, table⟩
      obtain ⟨leaves, made, hBuild, hNames, hCalled, hLeaf, hReturned⟩ :=
        ih (calls ++ [⟨⟨scope, table⟩, .ok handle⟩])
      refine ⟨buildLeaf table handle :: leaves, ⟨⟨scope, table⟩, .ok handle⟩ :: made, ?_, ?_, ?_,
        ?_, ?_⟩
      · simp only [buildLeaves, hAnswer, hBuild, List.append_assoc, List.singleton_append]
      · rw [List.map_cons, hNames]
        rfl
      · rw [List.map_cons, List.map_cons, hCalled]
      · intro leaf hMem
        rcases List.mem_cons.mp hMem with rfl | hOld
        · exact ⟨table, handle, rfl⟩
        · exact hLeaf leaf hOld
      · intro call hMem
        rcases List.mem_cons.mp hMem with rfl | hOld
        · exact ⟨handle, rfl, List.mem_cons_self⟩
        · obtain ⟨other, hOther, hIn⟩ := hReturned call hOld
          exact ⟨other, hOther, List.mem_cons_of_mem _ hIn⟩

/-- The composites of the scopes and the calls they come from. -/
structure ScopesOf (hashKey : Bytes → Nat) (groups : List (Bytes × List Bytes))
    (scopes : List (StoreNode σ)) (made : List (FactoryCall σ)) : Prop where
  names : scopes.map nodeName = groups.map Prod.fst
  called : made.map FactoryCall.table = tablesOf groups
  scope : ∀ node ∈ scopes, ∃ group ∈ groups, ∃ leaves made,
    node = buildComposite hashKey group.1 leaves ∧ LeavesOf group.1 group.2 leaves made
  returned : ∀ call ∈ made, ∃ handle leaves, call.answer = .ok handle ∧
    buildComposite hashKey call.table.scope leaves ∈ scopes ∧
    buildLeaf call.table.table handle ∈ leaves

variable (hashKey) in
theorem buildScopes_spec (hSucceeds : factory.Succeeds) (groups : List (Bytes × List Bytes))
    (calls : List (FactoryCall σ)) : ∃ scopes made,
      buildScopes hashKey factory groups calls = (.ok scopes, calls ++ made) ∧
        ScopesOf hashKey groups scopes made := by
  induction groups generalizing calls with
  | nil =>
      refine ⟨[], [], by rw [buildScopes, List.append_nil], rfl, rfl, ?_, ?_⟩
      · intro node hNode
        cases hNode
      · intro call hCall
        cases hCall
  | cons group rest ih =>
      obtain ⟨scope, tables⟩ := group
      obtain ⟨leaves, first, hLeaves, hOf⟩ := buildLeaves_spec hSucceeds scope tables calls
      obtain ⟨scopes, made, hBuild, hNames, hCalled, hScope, hReturned⟩ := ih (calls ++ first)
      refine ⟨buildComposite hashKey scope leaves :: scopes, first ++ made, ?_, ?_, ?_, ?_, ?_⟩
      · simp only [buildScopes, hLeaves, hBuild, List.append_assoc]
      · rw [List.map_cons, hNames]
        rfl
      · rw [List.map_append, hOf.called, hCalled]
        rfl
      · intro node hMem
        rcases List.mem_cons.mp hMem with rfl | hOld
        · exact ⟨(scope, tables), List.mem_cons_self, leaves, first, rfl, hOf⟩
        · obtain ⟨group, hGroup, hNode⟩ := hScope node hOld
          exact ⟨group, List.mem_cons_of_mem _ hGroup, hNode⟩
      · intro call hMem
        rcases List.mem_append.mp hMem with hFirst | hLater
        · obtain ⟨handle, hAnswer, hLeaf⟩ := hOf.returned call hFirst
          have hTable : call.table ∈ first.map FactoryCall.table := List.mem_map_of_mem hFirst
          rw [hOf.called, List.mem_map] at hTable
          obtain ⟨table, -, hEq⟩ := hTable
          have hSame : scope = call.table.scope := congrArg TableDescriptor.scope hEq
          subst hSame
          exact ⟨handle, leaves, hAnswer, List.mem_cons_self, hLeaf⟩
        · obtain ⟨handle, leaves', hAnswer, hNode, hLeaf⟩ := hReturned call hLater
          exact ⟨handle, leaves', hAnswer, List.mem_cons_of_mem _ hNode, hLeaf⟩

end Build

/-! ## Lookups in what is built -/

section Lookup
variable {children : List (StoreNode σ)} {name : Bytes}

/-- With one child of each name, a name leads to its child. -/
theorem firstChild_of_mem (hNodup : (children.map nodeName).Nodup) {child : StoreNode σ}
    (hMem : child ∈ children) : ∃ i, FirstChild children (nodeName child) i child := by
  obtain ⟨i, hLess, rfl⟩ := List.getElem_of_mem hMem
  refine ⟨i, List.getElem?_eq_getElem hLess, rfl, ?_⟩
  intro j hj other hOther hSame
  obtain ⟨hBelow, rfl⟩ := List.getElem?_eq_some_iff.mp hOther
  have hEq : (children.map nodeName)[j]? = (children.map nodeName)[i]? := by
    rw [List.getElem?_map, List.getElem?_map, hOther, List.getElem?_eq_getElem hLess]
    exact congrArg some hSame
  have hTwice : j = i := (List.getElem?_inj (by rwa [List.length_map]) hNodup).mp hEq
  omega

/-- `childNamed` finds the first child of the name, as `find_child` does. -/
theorem childNamed_of_firstChild {i : Nat} {child : StoreNode σ}
    (hFirst : FirstChild children name i child) :
    childNamed hashKey children (FlatSymbolTable.buildIndexed hashKey (children.map nodeName)) name =
      some child := by
  obtain ⟨hAt, hName, hBefore⟩ := hFirst
  obtain ⟨hLess, hChild⟩ := List.getElem?_eq_some_iff.mp hAt
  have hFound : (children.map nodeName).findIdx? (· == name) = some i := by
    rw [List.findIdx?_eq_some_iff_getElem]
    refine ⟨by rwa [List.length_map], by simp [hChild, hName], ?_⟩
    intro j hj hSame
    rw [List.getElem_map, beq_iff_eq] at hSame
    exact hBefore j hj _ (List.getElem?_eq_getElem (hj.trans hLess)) hSame
  rw [childNamed, FlatSymbolTable.find_buildIndexed, hFound]
  exact hAt

theorem childNamed_none (hOther : name ∉ children.map nodeName) :
    childNamed hashKey children (FlatSymbolTable.buildIndexed hashKey (children.map nodeName)) name =
      none := by
  have hFound : (children.map nodeName).findIdx? (· == name) = none := by
    rw [List.findIdx?_eq_none_iff]
    intro other hMem
    rw [beq_eq_false_iff_ne]
    rintro rfl
    exact hOther hMem
  rw [childNamed, FlatSymbolTable.find_buildIndexed, hFound]
  rfl

end Lookup

namespace ScopesOf
variable {groups : List (Bytes × List Bytes)} {scopes : List (StoreNode σ)}
  {made : List (FactoryCall σ)} {td : TableDescriptor}

/-- The tables of a scope that has been built. -/
theorem mem_tablesOf {group : Bytes × List Bytes} {table : Bytes} (hGroup : group ∈ groups)
    (hTable : table ∈ group.2) : ⟨group.1, table⟩ ∈ tablesOf groups :=
  List.mem_flatMap.mpr ⟨group, hGroup, List.mem_map_of_mem hTable⟩

theorem nodup_of_mem (hTables : (tablesOf groups).Nodup) {group : Bytes × List Bytes}
    (hGroup : group ∈ groups) : group.2.Nodup := by
  have hMapped := (List.nodup_flatMap.mp hTables).1 group hGroup
  exact hMapped.of_map _

/-- The way to a listed table: its scope is the first child of the root of that name, and
its leaf the first child there. -/
theorem path_of_call (hScopes : ScopesOf hashKey groups scopes made)
    (hNames : (groups.map Prod.fst).Nodup) (hTables : (tablesOf groups).Nodup)
    {handle : BackendHandle σ} (hCall : ⟨td, .ok handle⟩ ∈ made) :
    ∃ i j leaves, FirstChild scopes td.scope i (buildComposite hashKey td.scope leaves) ∧
      FirstChild leaves td.table j (buildLeaf td.table handle) := by
  obtain ⟨handle', leaves, hAnswer, hScope, hLeaf⟩ := hScopes.returned _ hCall
  obtain rfl : handle = handle' := Except.ok.inj hAnswer
  obtain ⟨group, hGroup, leaves', made', hNode, hOf⟩ := hScopes.scope _ hScope
  obtain ⟨-, rfl, -⟩ := StoreNode.compositeNode.inj hNode
  have hLeafNames : (leaves.map nodeName).Nodup := hOf.names ▸ nodup_of_mem hTables hGroup
  obtain ⟨i, hFirst⟩ := firstChild_of_mem (hScopes.names ▸ hNames) hScope
  obtain ⟨j, hFirst'⟩ := firstChild_of_mem hLeafNames hLeaf
  exact ⟨i, j, leaves, hFirst, hFirst'⟩

/-- A scope that was built holds the listed tables and no other. -/
theorem not_listed (hScopes : ScopesOf hashKey groups scopes made) (hOther : td ∉ tablesOf groups)
    {node : StoreNode σ} (hNode : node ∈ scopes) (hName : nodeName node = td.scope) :
    ∃ leaves, node = buildComposite hashKey td.scope leaves ∧ td.table ∉ leaves.map nodeName := by
  obtain ⟨group, hGroup, leaves, made', rfl, hOf⟩ := hScopes.scope node hNode
  have hScope : group.1 = td.scope := hName
  refine ⟨leaves, by rw [hScope], fun hTable => hOther ?_⟩
  rw [hOf.names] at hTable
  have hListed := mem_tablesOf hGroup hTable
  rwa [hScope] at hListed

theorem built (hScopes : ScopesOf hashKey groups scopes made) :
    Built hashKey (buildComposite hashKey (ascii "root") scopes) := by
  apply Built.composite
  intro node hNode
  obtain ⟨group, -, leaves, made', rfl, hOf⟩ := hScopes.scope node hNode
  apply Built.composite
  intro leaf hLeaf
  obtain ⟨table, handle, rfl⟩ := hOf.leaf leaf hLeaf
  exact Built.leaf table handle

end ScopesOf

namespace ScopesOf
variable {groups : List (Bytes × List Bytes)} {scopes : List (StoreNode σ)}
  {made : List (FactoryCall σ)} {td : TableDescriptor}

theorem resolve_listed (hScopes : ScopesOf hashKey groups scopes made)
    (hNames : (groups.map Prod.fst).Nodup) (hTables : (tablesOf groups).Nodup)
    {handle : BackendHandle σ} (hCall : ⟨td, .ok handle⟩ ∈ made) :
    Store.resolve hashKey ⟨buildComposite hashKey (ascii "root") scopes⟩ td =
      .ok ⟨td.table, handle⟩ := by
  obtain ⟨i, j, leaves, hScope, hLeaf⟩ := hScopes.path_of_call hNames hTables hCall
  have hDb : Store.db hashKey ⟨buildComposite hashKey (ascii "root") scopes⟩ td.scope =
      .ok ⟨td.scope, some (buildComposite hashKey td.scope leaves)⟩ := by
    simp only [Store.db, buildComposite, childNamed_of_firstChild hScope]
  rw [Store.resolve, hDb]
  show DbRef.table hashKey ⟨td.scope, some (buildComposite hashKey td.scope leaves)⟩ td.table = _
  simp only [DbRef.table, buildComposite, childNamed_of_firstChild hLeaf, buildLeaf]

theorem resolve_unlisted (hScopes : ScopesOf hashKey groups scopes made)
    (hNames : (groups.map Prod.fst).Nodup) (hOther : td ∉ tablesOf groups) :
    ∃ e, Store.resolve hashKey ⟨buildComposite hashKey (ascii "root") scopes⟩ td = .error e := by
  by_cases hScope : td.scope ∈ scopes.map nodeName
  · obtain ⟨node, hNode, hName⟩ := List.mem_map.mp hScope
    obtain ⟨leaves, rfl, hTable⟩ := hScopes.not_listed hOther hNode hName
    obtain ⟨i, hFirst⟩ := firstChild_of_mem (hScopes.names ▸ hNames) hNode
    have hDb : Store.db hashKey ⟨buildComposite hashKey (ascii "root") scopes⟩ td.scope =
        .ok ⟨td.scope, some (buildComposite hashKey td.scope leaves)⟩ := by
      simp only [Store.db, buildComposite, childNamed_of_firstChild (hName ▸ hFirst)]
    rw [Store.resolve, hDb]
    show ∃ e, DbRef.table hashKey ⟨td.scope, some (buildComposite hashKey td.scope leaves)⟩
      td.table = _
    simp only [DbRef.table, buildComposite, childNamed_none hTable]
    exact ⟨_, rfl⟩
  · rw [Store.resolve]
    simp only [Store.db, buildComposite, childNamed_none hScope]
    exact ⟨_, rfl⟩

/-- The path of a key routes to the leaf of a listed table. -/
theorem routesTo_listed (hScopes : ScopesOf hashKey groups scopes made)
    (hNames : (groups.map Prod.fst).Nodup) (hTables : (tablesOf groups).Nodup)
    {handle : BackendHandle σ} (hCall : ⟨td, .ok handle⟩ ∈ made) (hPlain : td.Plain) (key : Bytes) :
    ∃ position, RoutesTo (buildComposite hashKey (ascii "root") scopes) (td.path key) position
      handle key := by
  obtain ⟨i, j, leaves, hScope, hLeaf⟩ := hScopes.path_of_call hNames hTables hCall
  exact ⟨[i, j], .child ⟨hPlain.1, .inl rfl⟩ hScope
    (.child ⟨hPlain.2, .inl rfl⟩ hLeaf (.leaf td.table handle key))⟩

/-- The path of a key routes nowhere if the table is not listed. -/
theorem not_routesTo_unlisted (hScopes : ScopesOf hashKey groups scopes made)
    (hOther : td ∉ tablesOf groups) (hPlain : td.Plain) {key key' : Bytes} {position : List Nat}
    {handle : BackendHandle σ} :
    ¬RoutesTo (buildComposite hashKey (ascii "root") scopes) (td.path key) position handle key' := by
  intro hRoute
  cases hRoute with
  | child hSegment hFirst hBelow =>
      obtain ⟨rfl, rfl⟩ := hSegment.unique ⟨hPlain.1, .inl rfl⟩
      obtain ⟨leaves, rfl, hTable⟩ := hScopes.not_listed hOther
        (List.mem_of_getElem? hFirst.1) hFirst.2.1
      cases hBelow with
      | child hSegment' hFirst' _ =>
          obtain ⟨rfl, -⟩ := hSegment'.unique ⟨hPlain.2, .inl rfl⟩
          exact hTable (List.mem_map.mpr ⟨_, List.mem_of_getElem? hFirst'.1, hFirst'.2.1⟩)

end ScopesOf

/-- The factory is called once for each table, `db` and `table` lead to what it returned and
to no other table, and so do the paths of names without a separator. -/
theorem build_tree_faithful (scopeOrder : ScopeOrder) {factory : BackendFactory σ}
    (hSucceeds : factory.Succeeds) {tables : List TableDescriptor} (hDistinct : tables.Nodup) :
    ∃ root calls, buildTree hashKey scopeOrder factory tables = (.ok root, calls) ∧
      (calls.map FactoryCall.table).Perm tables ∧
      (∀ td ∈ tables, ∃ handle, ⟨td, .ok handle⟩ ∈ calls ∧
        Store.resolve hashKey ⟨root⟩ td = .ok ⟨td.table, handle⟩ ∧
        (td.Plain → ∀ key w, nodeGet hashKey root (td.path key) w =
          (TableRef.mk td.table handle).getRaw key w)) ∧
      ∀ td ∉ tables, (∃ e, Store.resolve hashKey ⟨root⟩ td = .error e) ∧
        (td.Plain → ∀ key w, ∃ e, nodeGet hashKey root (td.path key) w = .error e) := by
  obtain ⟨hTablesOf, hScopeNames⟩ := groupByScope_spec tables
  have hOrder := scopeOrder.perm (groupByScope tables)
  have hNames : ((scopeOrder.order (groupByScope tables)).map Prod.fst).Nodup :=
    (hOrder.map Prod.fst).nodup_iff.mpr hScopeNames
  have hPerm : (tablesOf (scopeOrder.order (groupByScope tables))).Perm tables :=
    (hOrder.flatMap_right _).trans hTablesOf
  have hTables := hPerm.nodup_iff.mpr hDistinct
  obtain ⟨scopes, made, hBuild, hScopes⟩ :=
    buildScopes_spec hashKey hSucceeds (scopeOrder.order (groupByScope tables)) []
  refine ⟨buildComposite hashKey (ascii "root") scopes, made, ?_, ?_, ?_, ?_⟩
  · rw [buildTree, hBuild, List.nil_append]
  · rw [hScopes.called]
    exact hPerm
  · intro td hListed
    have hCalled : td ∈ made.map FactoryCall.table := by
      rw [hScopes.called]
      exact hPerm.mem_iff.mpr hListed
    obtain ⟨⟨table, answer⟩, hCall, rfl⟩ := List.mem_map.mp hCalled
    obtain ⟨handle, -, hAnswer, -⟩ := hScopes.returned _ hCall
    obtain rfl : answer = .ok handle := hAnswer
    refine ⟨handle, hCall, hScopes.resolve_listed hNames hTables hCall, fun hPlain key w => ?_⟩
    obtain ⟨position, hRoute⟩ := hScopes.routesTo_listed hNames hTables hCall hPlain key
    exact hRoute.visit_eq hScopes.built _ _
  · intro td hUnlisted
    have hOther : td ∉ tablesOf (scopeOrder.order (groupByScope tables)) :=
      fun hIn => hUnlisted (hPerm.mem_iff.mp hIn)
    refine ⟨hScopes.resolve_unlisted hNames hOther, fun hPlain key w => ?_⟩
    rcases visit_built hScopes.built (td.path key) with ⟨_, _, _, hRoute, -⟩ | ⟨-, e, hVisit⟩
    · exact absurd hRoute (hScopes.not_routesTo_unlisted hOther hPlain)
    · exact ⟨e, hVisit _ _⟩

/-- Two tables of one scope and one of another, gone through from the last scope on. -/
def demoTables : List TableDescriptor :=
  [⟨ascii "a", ascii "x"⟩, ⟨ascii "b", ascii "x"⟩, ⟨ascii "a", ascii "y"⟩]

def numbered : BackendFactory Contents := fun calls _ => .ok ⟨some calls.length, some memory⟩

theorem build_tree_faithful_demo : ∃ root calls,
    buildTree List.length ⟨List.reverse, List.reverse_perm⟩ numbered demoTables = (.ok root, calls) ∧
      (calls.map FactoryCall.table).Perm demoTables := by
  have hSucceeds : numbered.Succeeds := fun calls _ => ⟨⟨some calls.length, some memory⟩, rfl⟩
  obtain ⟨root, calls, hBuild, hPerm, -⟩ :=
    @build_tree_faithful _ List.length ⟨List.reverse, List.reverse_perm⟩ _ hSucceeds demoTables
      (by decide)
  exact ⟨root, calls, hBuild, hPerm⟩

end CelerMem
