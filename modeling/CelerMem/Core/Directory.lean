import CelerMem.Core.Lifecycle
import CelerMem.Core.TypedTables

/-! What is in the store that `open` has built: the scopes with their tables, and a backend for
each table that no other table has. -/
namespace CelerMem

variable {σ τ : Type} {hashKey : Bytes → Nat}

/-! ## The tables of each scope -/

/-- In the order in which they are listed. -/
def scopeTables (tables : List TableDescriptor) (scope : Bytes) : List Bytes :=
  (tables.filter fun td => td.scope = scope).map TableDescriptor.table

theorem mem_scopeTables {tables : List TableDescriptor} {scope table : Bytes} :
    table ∈ scopeTables tables scope ↔ ⟨scope, table⟩ ∈ tables := by
  simp only [scopeTables, List.mem_map, List.mem_filter, decide_eq_true_eq]
  constructor
  · rintro ⟨⟨scope', table'⟩, ⟨hMem, rfl⟩, rfl⟩
    exact hMem
  · intro hMem
    exact ⟨⟨scope, table⟩, ⟨hMem, rfl⟩, rfl⟩

theorem lookup_addTable (groups : List (Bytes × List Bytes)) (td : TableDescriptor)
    (scope : Bytes) : ((addTable groups td).lookup scope).getD [] =
      (groups.lookup scope).getD [] ++ if td.scope = scope then [td.table] else [] := by
  induction groups with
  | nil =>
      rw [addTable, List.lookup_cons]
      by_cases hScope : td.scope = scope
      · simp [hScope]
      · simp [hScope, beq_eq_false_iff_ne.mpr (Ne.symm hScope)]
  | cons group rest ih =>
      obtain ⟨name, names⟩ := group
      rw [addTable]
      by_cases hGroup : name = td.scope
      · rw [if_pos hGroup, List.lookup_cons, List.lookup_cons]
        by_cases hScope : scope = name
        · simp [hScope, hGroup]
        · have hOther : td.scope ≠ scope := fun hSame => hScope (hSame.symm.trans hGroup.symm)
          simp [beq_eq_false_iff_ne.mpr hScope, hOther]
      · rw [if_neg hGroup, List.lookup_cons, List.lookup_cons]
        by_cases hScope : scope = name
        · have hOther : td.scope ≠ scope := fun hSame => hGroup (hScope.symm.trans hSame.symm)
          simp [hScope, Ne.symm hGroup]
        · rw [beq_eq_false_iff_ne.mpr hScope]
          exact ih

theorem lookup_groupByScope (tables : List TableDescriptor) (scope : Bytes) :
    ((groupByScope tables).lookup scope).getD [] = scopeTables tables scope := by
  have hFold : ∀ groups, ((tables.foldl addTable groups).lookup scope).getD [] =
      (groups.lookup scope).getD [] ++ scopeTables tables scope := by
    induction tables with
    | nil => exact fun groups => (List.append_nil _).symm
    | cons td tables ih =>
        intro groups
        rw [List.foldl_cons, ih, lookup_addTable, List.append_assoc]
        by_cases hScope : td.scope = scope
        · simp [scopeTables, hScope]
        · simp [scopeTables, hScope]
  exact hFold []

/-- A group has the tables of its scope, and each scope with a table has a group. -/
theorem groupByScope_groups (tables : List TableDescriptor) :
    (∀ group ∈ groupByScope tables, group.2 = scopeTables tables group.1) ∧
      ∀ td ∈ tables, td.scope ∈ (groupByScope tables).map Prod.fst := by
  obtain ⟨hTables, hNodup⟩ := groupByScope_spec tables
  constructor
  · intro group hMem
    have hLookup : (groupByScope tables).lookup group.1 = some group.2 := by
      obtain ⟨before, after, hSplit⟩ := List.append_of_mem hMem
      rw [hSplit, List.map_append, List.map_cons] at hNodup
      refine List.lookup_eq_some_iff.mpr ⟨before, after, hSplit, fun other hOther => ?_⟩
      have hApart := (List.nodup_append.mp hNodup).2.2 other.1 (List.mem_map_of_mem hOther) group.1
        List.mem_cons_self
      exact bne_iff_ne.mpr (Ne.symm hApart)
    rw [← lookup_groupByScope, hLookup, Option.getD_some]
  · intro td hMem
    have hIn := hTables.mem_iff.mpr hMem
    obtain ⟨group, hGroup, hTable⟩ := List.mem_flatMap.mp hIn
    obtain ⟨table, -, rfl⟩ := List.mem_map.mp hTable
    exact List.mem_map_of_mem hGroup

/-! ## What `open` has built -/

/-- The scopes of a store with their tables, and the backends behind them. -/
abbrev Directory (σ : Type) := List (Bytes × List (Bytes × BackendHandle σ))

/-- A tree of scopes of leaves. -/
def Directory.root (hashKey : Bytes → Nat) (scopes : Directory σ) : StoreNode σ :=
  buildComposite hashKey (ascii "root") (scopes.map fun scope => leafScope hashKey scope.1 scope.2)

def Directory.handle (scopes : Directory σ) (td : TableDescriptor) : Option (BackendHandle σ) :=
  (scopes.lookup td.scope).bind fun leaves => leaves.lookup td.table

theorem lookup_mem {β : Type} {l : List (Bytes × β)} {name : Bytes} {b : β}
    (h : l.lookup name = some b) : (name, b) ∈ l := by
  obtain ⟨before, after, rfl, -⟩ := List.lookup_eq_some_iff.mp h
  simp

/-- The backends that the factory has returned, for the tables of one scope. -/
theorem buildLeaves_ok {factory : BackendFactory σ} {scope : Bytes} {tables : List Bytes}
    {calls calls' : List (FactoryCall σ)} {nodes : List (StoreNode σ)}
    (h : buildLeaves factory scope tables calls = (.ok nodes, calls')) :
    ∃ leaves : List (Bytes × BackendHandle σ),
      nodes = leaves.map (fun leaf => buildLeaf leaf.1 leaf.2) ∧ leaves.map Prod.fst = tables ∧
        ∀ leaf ∈ leaves, ∃ calls, factory calls ⟨scope, leaf.1⟩ = .ok leaf.2 := by
  induction tables generalizing calls nodes with
  | nil =>
      obtain rfl : [] = nodes := Except.ok.inj (Prod.mk.inj h).1
      exact ⟨[], rfl, rfl, fun leaf hMem => absurd hMem List.not_mem_nil⟩
  | cons table rest ih =>
      rw [buildLeaves] at h
      cases hAnswer : factory calls ⟨scope, table⟩ with
      | error e =>
          simp only [hAnswer] at h
          cases (Prod.mk.inj h).1
      | ok handle =>
          simp only [hAnswer] at h
          cases hRest : buildLeaves factory scope rest
              (calls ++ [⟨⟨scope, table⟩, .ok handle⟩]) with
          | mk r after =>
              rw [hRest] at h
              cases r with
              | error e => cases (Prod.mk.inj h).1
              | ok later =>
                  obtain rfl := Except.ok.inj (Prod.mk.inj h).1
                  obtain rfl : after = calls' := (Prod.mk.inj h).2
                  obtain ⟨leaves, rfl, rfl, hMade⟩ := ih hRest
                  refine ⟨(table, handle) :: leaves, rfl, rfl, ?_⟩
                  exact List.forall_mem_cons.mpr ⟨⟨calls, hAnswer⟩, hMade⟩

theorem buildScopes_ok {factory : BackendFactory σ} {groups : List (Bytes × List Bytes)}
    {calls calls' : List (FactoryCall σ)} {nodes : List (StoreNode σ)}
    (h : buildScopes hashKey factory groups calls = (.ok nodes, calls')) :
    ∃ scopes : Directory σ,
      nodes = scopes.map (fun scope => leafScope hashKey scope.1 scope.2) ∧
      scopes.map (fun scope => (scope.1, scope.2.map Prod.fst)) = groups ∧
      ∀ scope ∈ scopes, ∀ leaf ∈ scope.2, ∃ calls, factory calls ⟨scope.1, leaf.1⟩ = .ok leaf.2 := by
  induction groups generalizing calls nodes with
  | nil =>
      obtain rfl : [] = nodes := Except.ok.inj (Prod.mk.inj h).1
      exact ⟨[], rfl, rfl, fun scope hMem => absurd hMem List.not_mem_nil⟩
  | cons group rest ih =>
      obtain ⟨scope, tables⟩ := group
      rw [buildScopes] at h
      cases hLeaves : buildLeaves factory scope tables calls with
      | mk r after =>
          rw [hLeaves] at h
          cases r with
          | error e => cases (Prod.mk.inj h).1
          | ok first =>
              dsimp only at h
              cases hRest : buildScopes hashKey factory rest after with
              | mk q last =>
                  rw [hRest] at h
                  cases q with
                  | error e => cases (Prod.mk.inj h).1
                  | ok later =>
                      obtain rfl := Except.ok.inj (Prod.mk.inj h).1
                      obtain rfl : last = calls' := (Prod.mk.inj h).2
                      obtain ⟨leaves, rfl, rfl, hMade⟩ := buildLeaves_ok hLeaves
                      obtain ⟨scopes, rfl, rfl, hLater⟩ := ih hRest
                      refine ⟨(scope, leaves) :: scopes, rfl, rfl, ?_⟩
                      exact List.forall_mem_cons.mpr ⟨hMade, hLater⟩

theorem nodeContexts_leafScope (name : Bytes) (leaves : List (Bytes × BackendHandle σ)) :
    nodeContexts (leafScope hashKey name leaves) =
      leaves.flatMap fun leaf => leaf.2.erased.contexts := by
  rw [leafScope, buildComposite, nodeContexts]
  induction leaves with
  | nil => rw [List.map_nil, nodesContexts, List.flatMap_nil]
  | cons leaf leaves ih =>
      rw [List.map_cons, nodesContexts, List.flatMap_cons, ih, buildLeaf, nodeContexts]

theorem nodeContexts_root (scopes : Directory σ) : nodeContexts (scopes.root hashKey) =
    scopes.flatMap fun scope => scope.2.flatMap fun leaf => leaf.2.erased.contexts := by
  rw [Directory.root, buildComposite, nodeContexts]
  induction scopes with
  | nil => rw [List.map_nil, nodesContexts, List.flatMap_nil]
  | cons scope scopes ih =>
      rw [List.map_cons, nodesContexts, List.flatMap_cons, ih, nodeContexts_leafScope]

/-- Lists without a common element have no element in two of them. -/
theorem eq_of_mem_flatMap {β γ : Type} {f : β → List γ} {l : List β} (hNodup : (l.flatMap f).Nodup)
    {a b : β} {c : γ} (ha : a ∈ l) (hb : b ∈ l) (hca : c ∈ f a) (hcb : c ∈ f b) : a = b := by
  obtain ⟨-, hApart⟩ := List.nodup_flatMap.mp hNodup
  have hSymm : Std.Symm (Function.onFun List.Disjoint f) := ⟨fun _ _ hDisjoint => hDisjoint.symm⟩
  by_contra hNe
  exact hApart.forall ha hb hNe hca hcb

/-- What is known of a store that is open. -/
structure Opened (scans : BackendHandle σ → ScanVTable σ τ) (view : σ → Contents)
    (limits : Limits) (tables : List TableDescriptor) (scopes : Directory σ) : Prop where
  names : (scopes.map Prod.fst).Nodup
  leaves : ∀ scope ∈ scopes, scope.2.map Prod.fst = scopeTables tables scope.1
  listed : ∀ td ∈ tables, td.scope ∈ scopes.map Prod.fst
  distinct : tables.Nodup
  contexts : (scopes.flatMap fun scope => scope.2.flatMap fun leaf =>
    leaf.2.erased.contexts).Nodup
  lawful : ∀ scope ∈ scopes, ∀ leaf ∈ scope.2, ∃ cell, LawfulHandle scans view limits leaf.2 cell

theorem opened_of_build {scans : BackendHandle σ → ScanVTable σ τ} {view : σ → Contents} {limits : Limits}
    {scopeOrder : ScopeOrder} {factory : BackendFactory σ} {tables : List TableDescriptor}
    (hFresh : factory.Fresh) (hDistinct : tables.Nodup)
    (hLawful : ∀ calls td handle, factory calls td = .ok handle →
      ∃ cell, LawfulHandle scans view limits handle cell)
    {root : StoreNode σ} {calls : List (FactoryCall σ)}
    (hBuild : buildTree hashKey scopeOrder factory tables = (.ok root, calls)) :
    ∃ scopes : Directory σ, root = scopes.root hashKey ∧ Opened scans view limits tables scopes ∧
      ∀ td handle, scopes.handle td = some handle → ∃ calls, factory calls td = .ok handle := by
  have hContexts : (nodeContexts root).Nodup := by
    have hGrow := @growTree_result _ hashKey scopeOrder factory tables ⟨[], false⟩
    rw [hBuild] at hGrow
    rcases growTree_sound hashKey scopeOrder hFresh tables with
      ⟨root', calls', heap, hGrown, hSound⟩ | ⟨e, calls', hGrown⟩
    · rw [hGrown] at hGrow
      obtain rfl := Except.ok.inj (Prod.mk.inj hGrow).1
      exact hSound.exclusive.nodup ()
    · rw [hGrown] at hGrow
      cases (Prod.mk.inj hGrow).1
  rw [buildTree] at hBuild
  cases hScopes : buildScopes hashKey factory (scopeOrder.order (groupByScope tables)) [] with
  | mk r after =>
      rw [hScopes] at hBuild
      cases r with
      | error e => cases (Prod.mk.inj hBuild).1
      | ok nodes =>
          obtain rfl := Except.ok.inj (Prod.mk.inj hBuild).1
          obtain ⟨scopes, rfl, hGroups, hMade⟩ := buildScopes_ok hScopes
          have hPerm := scopeOrder.perm (groupByScope tables)
          have hNames : scopes.map Prod.fst =
              (scopeOrder.order (groupByScope tables)).map Prod.fst := by
            rw [← hGroups, List.map_map]
            rfl
          obtain ⟨hIn, hListed⟩ := groupByScope_groups tables
          refine ⟨scopes, rfl, ⟨?_, ?_, ?_, hDistinct, ?_, ?_⟩, ?_⟩
          · rw [hNames]
            exact (hPerm.map Prod.fst).nodup_iff.mpr (groupByScope_spec tables).2
          · intro scope hMem
            have hGroup : (scope.1, scope.2.map Prod.fst) ∈
                scopeOrder.order (groupByScope tables) := by
              rw [← hGroups]
              exact List.mem_map_of_mem hMem
            exact hIn _ (hPerm.mem_iff.mp hGroup)
          · intro td hMem
            rw [hNames]
            exact (hPerm.map Prod.fst).mem_iff.mpr (hListed td hMem)
          · rw [← nodeContexts_root]
            exact hContexts
          · intro scope hScope leaf hLeaf
            obtain ⟨calls, hAnswer⟩ := hMade scope hScope leaf hLeaf
            exact hLawful calls _ leaf.2 hAnswer
          · intro td handle hHandle
            obtain ⟨leaves, hScope, hTable⟩ := Option.bind_eq_some_iff.mp hHandle
            exact hMade _ (lookup_mem hScope) _ (lookup_mem hTable)

/-! ## The factory is asked for the listed tables only -/

/-- A factory that refuses the tables that are not listed. -/
def BackendFactory.only (factory : BackendFactory σ) (tables : List TableDescriptor) :
    BackendFactory σ := fun calls td =>
  if td ∈ tables then factory calls td else .error ⟨"TableNotFound", "not listed"⟩

theorem BackendFactory.only_ok {factory : BackendFactory σ} {tables : List TableDescriptor}
    {calls : List (FactoryCall σ)} {td : TableDescriptor} {handle : BackendHandle σ}
    (h : factory.only tables calls td = .ok handle) :
    td ∈ tables ∧ factory calls td = .ok handle := by
  rw [only] at h
  split at h
  next hMem => exact ⟨hMem, h⟩
  next => cases h

theorem buildLeaves_congr {factory factory' : BackendFactory σ} {scope : Bytes}
    {tables : List Bytes} (h : ∀ table ∈ tables, ∀ calls,
      factory' calls ⟨scope, table⟩ = factory calls ⟨scope, table⟩)
    (calls : List (FactoryCall σ)) :
    buildLeaves factory' scope tables calls = buildLeaves factory scope tables calls := by
  induction tables generalizing calls with
  | nil => rfl
  | cons table rest ih =>
      obtain ⟨hHere, hLater⟩ := List.forall_mem_cons.mp h
      simp only [buildLeaves, hHere, ih hLater]

theorem buildScopes_congr {factory factory' : BackendFactory σ}
    {groups : List (Bytes × List Bytes)} (h : ∀ td ∈ tablesOf groups, ∀ calls,
      factory' calls td = factory calls td) (calls : List (FactoryCall σ)) :
    buildScopes hashKey factory' groups calls = buildScopes hashKey factory groups calls := by
  induction groups generalizing calls with
  | nil => rfl
  | cons group rest ih =>
      obtain ⟨scope, tables⟩ := group
      rw [tablesOf, List.flatMap_cons, List.forall_mem_append] at h
      have hScope : ∀ calls, buildLeaves factory' scope tables calls =
          buildLeaves factory scope tables calls :=
        buildLeaves_congr fun table hMem => h.1 ⟨scope, table⟩ (List.mem_map_of_mem hMem)
      simp only [buildScopes, hScope, ih h.2]

theorem buildTree_only (scopeOrder : ScopeOrder) (factory : BackendFactory σ)
    (tables : List TableDescriptor) : buildTree hashKey scopeOrder (factory.only tables) tables =
      buildTree hashKey scopeOrder factory tables := by
  have hSame : ∀ td ∈ tablesOf (scopeOrder.order (groupByScope tables)), ∀ calls,
      factory.only tables calls td = factory calls td := by
    intro td hMem calls
    have hGrouped := ((scopeOrder.perm (groupByScope tables)).flatMap_right _).mem_iff.mp hMem
    exact if_pos ((groupByScope_spec tables).1.mem_iff.mp hGrouped)
  rw [buildTree, buildTree, buildScopes_congr hSame]

/-! ## Lookups -/

section Lookup
variable {β : Type}

theorem childNamed_built (children : List (StoreNode σ)) (name : Bytes) :
    childNamed hashKey children (FlatSymbolTable.buildIndexed hashKey (children.map nodeName)) name =
      children.find? fun child => nodeName child == name := by
  rw [childNamed, FlatSymbolTable.find_buildIndexed, List.find?_eq_bind_findIdx?_getElem?,
    List.findIdx?_map]
  rfl

theorem find?_map_lookup {f : Bytes × β → StoreNode σ} (hName : ∀ x, nodeName (f x) = x.1)
    (l : List (Bytes × β)) (name : Bytes) :
    (l.map f).find? (fun child => nodeName child == name) =
      (l.lookup name).map fun b => f (name, b) := by
  induction l with
  | nil => rfl
  | cons x l ih =>
      rw [List.map_cons, List.find?_cons, List.lookup_cons, hName]
      by_cases hSame : x.1 = name
      · subst hSame
        simp
      · rw [beq_eq_false_iff_ne.mpr hSame, beq_eq_false_iff_ne.mpr (Ne.symm hSame)]
        exact ih

theorem lookup_of_mem_names {l : List (Bytes × β)} {name : Bytes} (h : name ∈ l.map Prod.fst) :
    ∃ b, l.lookup name = some b := by
  cases hLookup : l.lookup name with
  | some b => exact ⟨b, rfl⟩
  | none =>
      rw [List.lookup_eq_none_iff] at hLookup
      obtain ⟨x, hMem, rfl⟩ := List.mem_map.mp h
      exact absurd (hLookup x hMem) (by simp)

end Lookup

namespace Directory
variable (scopes : Directory σ)

theorem db_eq (scope : Bytes) : Store.db hashKey ⟨scopes.root hashKey⟩ scope =
    match scopes.lookup scope with
    | none => .error ⟨"ScopeNotFound", "scope '" ++ text scope ++ "' not found"⟩
    | some leaves => .ok ⟨scope, some (leafScope hashKey scope leaves)⟩ := by
  simp only [Store.db, root, buildComposite]
  rw [childNamed_built, find?_map_lookup (fun _ => rfl)]
  cases scopes.lookup scope with
  | none => rfl
  | some leaves => rfl

theorem table_eq (scope : Bytes) (leaves : List (Bytes × BackendHandle σ)) (table : Bytes) :
    DbRef.table hashKey ⟨scope, some (leafScope hashKey scope leaves)⟩ table =
      match leaves.lookup table with
      | none => .error ⟨"TableNotFound",
          "table '" ++ text table ++ "' not found in scope '" ++ text scope ++ "'"⟩
      | some handle => .ok ⟨table, handle⟩ := by
  simp only [DbRef.table, leafScope, buildComposite]
  rw [childNamed_built, find?_map_lookup (fun _ => rfl)]
  cases leaves.lookup table with
  | none => rfl
  | some handle => rfl

variable {scopes} in
theorem resolve_handle {td : TableDescriptor} {handle : BackendHandle σ}
    (h : scopes.handle td = some handle) :
    Store.resolve hashKey ⟨scopes.root hashKey⟩ td = .ok ⟨td.table, handle⟩ := by
  obtain ⟨leaves, hScope, hTable⟩ := Option.bind_eq_some_iff.mp h
  rw [Store.resolve, db_eq, hScope]
  show DbRef.table hashKey ⟨td.scope, some (leafScope hashKey td.scope leaves)⟩ td.table = _
  rw [table_eq, hTable]

variable {scopes} in
theorem resolve_none {td : TableDescriptor} (h : scopes.handle td = none) :
    ∃ e, Store.resolve hashKey ⟨scopes.root hashKey⟩ td = .error e := by
  rw [Store.resolve, db_eq]
  cases hScope : scopes.lookup td.scope with
  | none => exact ⟨_, rfl⟩
  | some leaves =>
      rw [handle, hScope, Option.bind_some] at h
      have hTable := @table_eq _ hashKey td.scope leaves td.table
      rw [h] at hTable
      exact ⟨_, hTable⟩

end Directory

namespace Opened
variable {scans : BackendHandle σ → ScanVTable σ τ} {view : σ → Contents} {limits : Limits}
  {tables : List TableDescriptor} {scopes : Directory σ} {td td' : TableDescriptor}
  {handle handle' : BackendHandle σ}

/-- The tables that there are are those that were listed. -/
theorem handle_some_iff (h : Opened scans view limits tables scopes) :
    (∃ handle, scopes.handle td = some handle) ↔ td ∈ tables := by
  constructor
  · rintro ⟨handle, hHandle⟩
    obtain ⟨leaves, hScope, hTable⟩ := Option.bind_eq_some_iff.mp hHandle
    have hNames := h.leaves _ (lookup_mem hScope)
    have hMem : td.table ∈ leaves.map Prod.fst := List.mem_map_of_mem (lookup_mem hTable)
    rw [hNames] at hMem
    exact mem_scopeTables.mp hMem
  · intro hListed
    obtain ⟨leaves, hScope⟩ := lookup_of_mem_names (h.listed td hListed)
    have hNames := h.leaves _ (lookup_mem hScope)
    have hMem : td.table ∈ leaves.map Prod.fst := by
      rw [hNames]
      exact mem_scopeTables.mpr hListed
    obtain ⟨handle, hTable⟩ := lookup_of_mem_names hMem
    exact ⟨handle, by rw [Directory.handle, hScope, Option.bind_some, hTable]⟩

theorem lawful_handle (h : Opened scans view limits tables scopes)
    (hHandle : scopes.handle td = some handle) : ∃ cell, LawfulHandle scans view limits handle cell := by
  obtain ⟨leaves, hScope, hTable⟩ := Option.bind_eq_some_iff.mp hHandle
  exact h.lawful _ (lookup_mem hScope) _ (lookup_mem hTable)

/-- No two tables have one backend. -/
theorem apart (h : Opened scans view limits tables scopes) {cell : ℕ}
    (hHandle : scopes.handle td = some handle) (hHandle' : scopes.handle td' = some handle')
    (hCell : cell ∈ handle.erased.contexts) (hCell' : cell ∈ handle'.erased.contexts) :
    td = td' := by
  obtain ⟨leaves, hScope, hTable⟩ := Option.bind_eq_some_iff.mp hHandle
  obtain ⟨leaves', hScope', hTable'⟩ := Option.bind_eq_some_iff.mp hHandle'
  have hScopes : (td.scope, leaves) = (td'.scope, leaves') :=
    eq_of_mem_flatMap h.contexts (lookup_mem hScope) (lookup_mem hScope')
      (List.mem_flatMap.mpr ⟨_, lookup_mem hTable, hCell⟩)
      (List.mem_flatMap.mpr ⟨_, lookup_mem hTable', hCell'⟩)
  obtain ⟨hSame, rfl⟩ := Prod.mk.inj hScopes
  have hInner := (List.nodup_flatMap.mp h.contexts).1 _ (lookup_mem hScope)
  have hTables : (td.table, handle) = (td'.table, handle') :=
    eq_of_mem_flatMap hInner (lookup_mem hTable) (lookup_mem hTable') hCell hCell'
  obtain ⟨scope, table⟩ := td
  obtain ⟨scope', table'⟩ := td'
  rw [TableDescriptor.mk.injEq]
  exact ⟨hSame, (Prod.mk.inj hTables).1⟩

end Opened

end CelerMem
