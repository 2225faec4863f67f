import CelerMem.Core.Handles
import CelerMem.Core.TreeBuilder
import Mathlib

/-! The store of the process, from `open` to `close`, and the backends that are alive meanwhile.
A backend belongs to the handle in one leaf; what is built of a tree before the factory fails
is destroyed with the vectors it stands in. -/
namespace CelerMem

open Ownership

variable {σ : Type} {hashKey : Bytes → Nat}

/-! ## Trees and their backends -/

def BackendHandle.erased (h : BackendHandle σ) : ErasedHandle (BackendVTable σ) := ⟨h.ctx, h.vtable⟩

mutual

/-- The destructor of a node. -/
def destroyNode : StoreNode σ → Heap ℕ → Heap ℕ
  | .columnLeaf _ handle, heap => handle.erased.destroy heap
  | .compositeNode _ children _, heap => destroyNodes children heap

/-- The destructor of a vector of nodes. -/
def destroyNodes : List (StoreNode σ) → Heap ℕ → Heap ℕ
  | [], heap => heap
  | node :: nodes, heap => destroyNodes nodes (destroyNode node heap)

end

mutual

/-- The backends in the leaves of a node. -/
def nodeContexts : StoreNode σ → List ℕ
  | .columnLeaf _ handle => handle.erased.contexts
  | .compositeNode _ children _ => nodesContexts children

def nodesContexts : List (StoreNode σ) → List ℕ
  | [] => []
  | node :: nodes => nodeContexts node ++ nodesContexts nodes

end

mutual

theorem destroyNode_eq (node : StoreNode σ) (heap : Heap ℕ) :
    destroyNode node heap = heap.freeAll (nodeContexts node) := by
  cases node with
  | columnLeaf name handle =>
      rw [destroyNode, nodeContexts]
      exact handle.erased.destroy_eq heap
  | compositeNode name children index =>
      rw [destroyNode, nodeContexts]
      exact destroyNodes_eq children heap

theorem destroyNodes_eq (nodes : List (StoreNode σ)) (heap : Heap ℕ) :
    destroyNodes nodes heap = heap.freeAll (nodesContexts nodes) := by
  cases nodes with
  | nil => rw [destroyNodes, nodesContexts, Heap.freeAll, List.foldl_nil]
  | cons node nodes =>
      rw [destroyNodes, nodesContexts, destroyNode_eq node heap, destroyNodes_eq nodes,
        Heap.freeAll_append]

end

theorem nodesContexts_append (first second : List (StoreNode σ)) :
    nodesContexts (first ++ second) = nodesContexts first ++ nodesContexts second := by
  induction first with
  | nil => rw [nodesContexts]; rfl
  | cons node first ih =>
      rw [List.cons_append, nodesContexts, nodesContexts, ih, List.append_assoc]

/-! ## Building -/

/-- A backend that the factory has made is alive. -/
def adopt (heap : Heap ℕ) (handle : BackendHandle σ) : Heap ℕ :=
  { heap with live := handle.erased.contexts ++ heap.live }

/-- `leaf_nodes` is destroyed where the function returns the error of the factory. -/
def fillLeaves (factory : BackendFactory σ) (scope : Bytes) :
    List Bytes → List (StoreNode σ) → List (FactoryCall σ) → Heap ℕ →
      Result (List (StoreNode σ)) × List (FactoryCall σ) × Heap ℕ
  | [], leafNodes, calls, heap => (.ok leafNodes, calls, heap)
  | table :: rest, leafNodes, calls, heap =>
      let answer := factory calls ⟨scope, table⟩
      let calls := calls ++ [⟨⟨scope, table⟩, answer⟩]
      match answer with
      | .error e => (.error e, calls, destroyNodes leafNodes heap)
      | .ok handle =>
          fillLeaves factory scope rest (leafNodes ++ [buildLeaf table handle]) calls
            (adopt heap handle)

/-- `scope_nodes` is destroyed there as well. -/
def fillScopes (hashKey : Bytes → Nat) (factory : BackendFactory σ) :
    List (Bytes × List Bytes) → List (StoreNode σ) → List (FactoryCall σ) → Heap ℕ →
      Result (List (StoreNode σ)) × List (FactoryCall σ) × Heap ℕ
  | [], scopeNodes, calls, heap => (.ok scopeNodes, calls, heap)
  | (scope, tables) :: rest, scopeNodes, calls, heap =>
      match fillLeaves factory scope tables [] calls heap with
      | (.error e, calls, heap) => (.error e, calls, destroyNodes scopeNodes heap)
      | (.ok leafNodes, calls, heap) =>
          fillScopes hashKey factory rest (scopeNodes ++ [buildComposite hashKey scope leafNodes])
            calls heap

/-- `build_tree`, with what it does to the heap. -/
def growTree (hashKey : Bytes → Nat) (scopeOrder : ScopeOrder) (factory : BackendFactory σ)
    (tables : List TableDescriptor) (heap : Heap ℕ) :
    Result (StoreNode σ) × List (FactoryCall σ) × Heap ℕ :=
  match fillScopes hashKey factory (scopeOrder.order (groupByScope tables)) [] [] heap with
  | (.error e, calls, heap) => (.error e, calls, heap)
  | (.ok scopes, calls, heap) => (.ok (buildComposite hashKey (ascii "root") scopes), calls, heap)

/-! ### The tree is the one that `build_tree` returns -/

theorem fillLeaves_result (factory : BackendFactory σ) (scope : Bytes) (tables : List Bytes)
    (leafNodes : List (StoreNode σ)) (calls : List (FactoryCall σ)) (heap : Heap ℕ) :
    ((fillLeaves factory scope tables leafNodes calls heap).1,
        (fillLeaves factory scope tables leafNodes calls heap).2.1) =
      ((buildLeaves factory scope tables calls).1.map fun leaves => leafNodes ++ leaves,
        (buildLeaves factory scope tables calls).2) := by
  induction tables generalizing leafNodes calls heap with
  | nil => simp [fillLeaves, buildLeaves, Except.map]
  | cons table rest ih =>
      rw [fillLeaves, buildLeaves]
      cases factory calls ⟨scope, table⟩ with
      | error e => rfl
      | ok handle =>
          dsimp only
          rw [ih]
          cases hRest : buildLeaves factory scope rest (calls ++ [⟨⟨scope, table⟩, .ok handle⟩]) with
          | mk r calls' =>
              cases r with
              | error e => rfl
              | ok leaves => simp [Except.map]

theorem fillScopes_result (factory : BackendFactory σ) (groups : List (Bytes × List Bytes))
    (scopeNodes : List (StoreNode σ)) (calls : List (FactoryCall σ)) (heap : Heap ℕ) :
    ((fillScopes hashKey factory groups scopeNodes calls heap).1,
        (fillScopes hashKey factory groups scopeNodes calls heap).2.1) =
      ((buildScopes hashKey factory groups calls).1.map fun scopes => scopeNodes ++ scopes,
        (buildScopes hashKey factory groups calls).2) := by
  induction groups generalizing scopeNodes calls heap with
  | nil => simp [fillScopes, buildScopes, Except.map]
  | cons group rest ih =>
      obtain ⟨scope, tables⟩ := group
      have hLeaves := fillLeaves_result factory scope tables [] calls heap
      rw [fillScopes, buildScopes]
      cases hFill : fillLeaves factory scope tables [] calls heap with
      | mk r out =>
          obtain ⟨after, heap'⟩ := out
          cases hBuild : buildLeaves factory scope tables calls with
          | mk r' after' =>
              rw [hFill, hBuild] at hLeaves
              obtain ⟨hResult, rfl⟩ := Prod.mk.inj hLeaves
              cases r' with
              | error e =>
                  obtain rfl : r = .error e := hResult
                  rfl
              | ok leaves =>
                  obtain rfl : r = .ok ([] ++ leaves) := hResult
                  dsimp only
                  rw [ih, List.nil_append]
                  cases buildScopes hashKey factory rest after with
                  | mk q last =>
                      cases q with
                      | error e => rfl
                      | ok scopes => simp [Except.map]

/-- What is returned, and which calls are made of the factory, does not depend on the heap. -/
theorem growTree_result (scopeOrder : ScopeOrder) (factory : BackendFactory σ)
    (tables : List TableDescriptor) (heap : Heap ℕ) :
    ((growTree hashKey scopeOrder factory tables heap).1,
        (growTree hashKey scopeOrder factory tables heap).2.1) =
      buildTree hashKey scopeOrder factory tables := by
  have hScopes := @fillScopes_result σ hashKey factory (scopeOrder.order (groupByScope tables)) []
    [] heap
  rw [growTree, buildTree]
  cases hFill : fillScopes hashKey factory (scopeOrder.order (groupByScope tables)) [] [] heap with
  | mk r out =>
      obtain ⟨calls, heap'⟩ := out
      cases hBuild : buildScopes hashKey factory (scopeOrder.order (groupByScope tables)) [] with
      | mk r' calls' =>
          rw [hFill, hBuild] at hScopes
          obtain ⟨hResult, rfl⟩ := Prod.mk.inj hScopes
          cases r' with
          | error e =>
              obtain rfl : r = .error e := hResult
              rfl
          | ok scopes =>
              obtain rfl : r = .ok ([] ++ scopes) := hResult
              rfl

/-! ## Fresh backends -/

/-- The backends that some calls of the factory have made. -/
def madeBy (calls : List (FactoryCall σ)) : List ℕ :=
  calls.flatMap fun call =>
    match call.answer with
    | .ok handle => handle.erased.contexts
    | .error _ => []

/-- The calls are those that the factory has answered so. -/
def BackendFactory.Answered (factory : BackendFactory σ) (calls : List (FactoryCall σ)) : Prop :=
  ∀ before call after, calls = before ++ call :: after → call.answer = factory before call.table

/-- The factory makes a new backend in each call. -/
def BackendFactory.Fresh (factory : BackendFactory σ) : Prop :=
  ∀ calls td handle, factory.Answered calls → factory calls td = .ok handle →
    ∀ ctx ∈ handle.erased.contexts, ctx ∉ madeBy calls

/-- A factory that numbers its backends by the calls made before. -/
def BackendFactory.Numbers (factory : BackendFactory σ) : Prop :=
  ∀ {calls td handle}, factory calls td = .ok handle → handle.ctx = some calls.length

theorem madeBy_lt {factory : BackendFactory σ} (hNumbers : factory.Numbers)
    {calls : List (FactoryCall σ)} (hAnswered : factory.Answered calls) {ctx : ℕ}
    (hMem : ctx ∈ madeBy calls) : ctx < calls.length := by
  obtain ⟨call, hCall, hIn⟩ := List.mem_flatMap.mp hMem
  obtain ⟨before, after, rfl⟩ := List.append_of_mem hCall
  have hAnswer := hAnswered before call after rfl
  cases hResult : call.answer with
  | error e =>
      rw [hResult] at hIn
      cases hIn
  | ok handle =>
      have hCtx := hNumbers (hAnswer.symm.trans hResult)
      rw [hResult] at hIn
      have hSame := (ErasedHandle.mem_contexts_iff.mp hIn).2
      obtain rfl : before.length = ctx := Option.some.inj (hCtx.symm.trans hSame)
      rw [List.length_append, List.length_cons]
      omega

theorem fresh_of_numbers {factory : BackendFactory σ} (hNumbers : factory.Numbers) :
    factory.Fresh := by
  intro calls td handle hAnswered hAnswer ctx hMem hMade
  have hSame := (ErasedHandle.mem_contexts_iff.mp hMem).2
  obtain rfl : calls.length = ctx := Option.some.inj ((hNumbers hAnswer).symm.trans hSame)
  exact Nat.lt_irrefl _ (madeBy_lt hNumbers hAnswered hMade)

theorem BackendFactory.Answered.append {factory : BackendFactory σ} {calls : List (FactoryCall σ)}
    (h : factory.Answered calls) (td : TableDescriptor) :
    factory.Answered (calls ++ [⟨td, factory calls td⟩]) := by
  intro before call after hSplit
  rcases List.eq_nil_or_concat after with rfl | ⟨after, last, rfl⟩
  · obtain ⟨rfl, hLast⟩ := List.append_inj' hSplit rfl
    obtain rfl : ⟨td, factory calls td⟩ = call := by simpa using hLast
    rfl
  · have hShape : calls ++ [⟨td, factory calls td⟩] = (before ++ call :: after) ++ [last] := by
      simpa using hSplit
    exact h before call after (List.append_inj' hShape rfl).1

theorem madeBy_append (first second : List (FactoryCall σ)) :
    madeBy (first ++ second) = madeBy first ++ madeBy second :=
  List.flatMap_append

/-- Where the backends are while a tree is built. -/
inductive BuildPlace where
  | leafNodes
  | scopeNodes
  deriving DecidableEq

def buildHeld (leafNodes scopeNodes : List (StoreNode σ)) : BuildPlace → List ℕ
  | .leafNodes => nodesContexts leafNodes
  | .scopeNodes => nodesContexts scopeNodes

/-- The vectors own what is alive, and that was made by the calls so far. -/
structure Building (factory : BackendFactory σ) (leafNodes scopeNodes : List (StoreNode σ))
    (calls : List (FactoryCall σ)) (heap : Heap ℕ) : Prop where
  sound : Sound (buildHeld leafNodes scopeNodes) heap
  answered : factory.Answered calls
  made : ∀ ctx ∈ heap.live, ctx ∈ madeBy calls

section Build
variable {factory : BackendFactory σ} {leafNodes scopeNodes : List (StoreNode σ)}
  {calls : List (FactoryCall σ)} {heap : Heap ℕ}

theorem nodup_contexts (h : BackendHandle σ) : h.erased.contexts.Nodup := by
  rcases h with ⟨_ | ctx, _ | vtable⟩
  · exact List.nodup_nil
  · exact List.nodup_nil
  · exact List.nodup_nil
  · exact List.nodup_singleton ctx

theorem Building.adopt (hFresh : factory.Fresh) (h : Building factory leafNodes scopeNodes calls heap)
    {td : TableDescriptor} {handle : BackendHandle σ} (hAnswer : factory calls td = .ok handle) :
    Building factory (leafNodes ++ [buildLeaf td.table handle]) scopeNodes
      (calls ++ [⟨td, .ok handle⟩]) (CelerMem.adopt heap handle) := by
  have hNew : ∀ ctx ∈ handle.erased.contexts, ctx ∉ heap.live :=
    fun ctx hMem hLive => hFresh calls td handle h.answered hAnswer ctx hMem (h.made ctx hLive)
  refine ⟨?_, ?_, ?_⟩
  · refine (h.sound.gain .leafNodes (nodup_contexts handle) hNew).perm ?_
    intro p
    cases p with
    | leafNodes =>
        rw [Function.update_self]
        simp only [buildHeld, nodesContexts_append, nodesContexts, buildLeaf, nodeContexts,
          List.append_nil]
        exact .refl _
    | scopeNodes => exact .refl _
  · have hNext := h.answered.append td
    rwa [hAnswer] at hNext
  · intro ctx hMem
    rw [madeBy_append, List.mem_append]
    rcases List.mem_append.mp hMem with hIn | hOld
    · exact .inr (by simpa [madeBy] using hIn)
    · exact .inl (h.made ctx hOld)

/-- The vector of the leaves is destroyed. -/
theorem Building.destroyLeaves (h : Building factory leafNodes scopeNodes calls heap) :
    Sound (buildHeld ([] : List (StoreNode σ)) scopeNodes) (destroyNodes leafNodes heap) := by
  rw [destroyNodes_eq]
  have hPerm : (nodesContexts leafNodes).Perm (buildHeld leafNodes scopeNodes .leafNodes) := .refl _
  refine (h.sound.drop hPerm).perm fun p => ?_
  cases p with
  | leafNodes => exact .refl _
  | scopeNodes => exact .refl _

theorem fillLeaves_building (hFresh : factory.Fresh) (scope : Bytes) (tables : List Bytes)
    (h : Building factory leafNodes scopeNodes calls heap) :
    (∃ nodes calls' heap', fillLeaves factory scope tables leafNodes calls heap =
      (.ok nodes, calls', heap') ∧ Building factory nodes scopeNodes calls' heap') ∨
    ∃ e calls' heap', fillLeaves factory scope tables leafNodes calls heap =
      (.error e, calls', heap') ∧ Sound (buildHeld ([] : List (StoreNode σ)) scopeNodes) heap' := by
  induction tables generalizing leafNodes calls heap with
  | nil => exact .inl ⟨leafNodes, calls, heap, rfl, h⟩
  | cons table rest ih =>
      rw [fillLeaves]
      cases hAnswer : factory calls ⟨scope, table⟩ with
      | error e => exact .inr ⟨e, _, _, rfl, h.destroyLeaves⟩
      | ok handle => exact ih (h.adopt hFresh hAnswer)

/-- The leaves of a scope become the children of its node. -/
theorem Building.close (h : Building factory leafNodes scopeNodes calls heap) (scope : Bytes) :
    Building factory [] (scopeNodes ++ [buildComposite hashKey scope leafNodes]) calls heap := by
  refine ⟨?_, h.answered, h.made⟩
  have hOther : BuildPlace.scopeNodes ≠ .leafNodes := by decide
  refine (h.sound.pass hOther).perm fun p => ?_
  cases p with
  | leafNodes => exact .refl _
  | scopeNodes =>
      rw [Function.update_of_ne hOther, Function.update_self]
      simp only [buildHeld, nodesContexts_append, nodesContexts, buildComposite, nodeContexts,
        List.append_nil]
      exact .refl _

variable (hashKey) in
theorem fillScopes_building (hFresh : factory.Fresh) (groups : List (Bytes × List Bytes))
    (h : Building factory [] scopeNodes calls heap) :
    (∃ nodes calls' heap', fillScopes hashKey factory groups scopeNodes calls heap =
      (.ok nodes, calls', heap') ∧ Building factory [] nodes calls' heap') ∨
    ∃ e calls' heap', fillScopes hashKey factory groups scopeNodes calls heap =
      (.error e, calls', heap') ∧ heap'.fault = false ∧ heap'.live = [] := by
  induction groups generalizing scopeNodes calls heap with
  | nil => exact .inl ⟨scopeNodes, calls, heap, rfl, h⟩
  | cons group rest ih =>
      obtain ⟨scope, tables⟩ := group
      rw [fillScopes]
      rcases fillLeaves_building hFresh scope tables h with
        ⟨nodes, calls', heap', hFill, hLeaves⟩ | ⟨e, calls', heap', hFill, hLeft⟩
      · simp only [hFill]
        exact ih (hLeaves.close scope)
      · have hPerm : (nodesContexts scopeNodes).Perm
            (buildHeld ([] : List (StoreNode σ)) scopeNodes .scopeNodes) := .refl _
        have hNone := hLeft.drop hPerm
        rw [← destroyNodes_eq] at hNone
        refine .inr ⟨e, calls', destroyNodes scopeNodes heap', ?_, hNone.noFault,
          hNone.live_eq_nil fun p => ?_⟩
        · simp only [hFill]
        · cases p with
          | leafNodes => rfl
          | scopeNodes => rfl

variable (hashKey) in
/-- A tree owns all its backends; without a tree, none is left. -/
theorem growTree_sound (scopeOrder : ScopeOrder) (hFresh : factory.Fresh)
    (tables : List TableDescriptor) :
    (∃ root calls heap, growTree hashKey scopeOrder factory tables ⟨[], false⟩ =
      (.ok root, calls, heap) ∧ Sound (fun _ : Unit => nodeContexts root) heap) ∨
    ∃ e calls, growTree hashKey scopeOrder factory tables ⟨[], false⟩ =
      (.error e, calls, ⟨[], false⟩) := by
  have hStart : Building factory [] [] [] ⟨[], false⟩ := by
    refine ⟨Sound.nothing fun p => ?_, ?_, fun ctx h => absurd h List.not_mem_nil⟩
    · cases p with
      | leafNodes => rfl
      | scopeNodes => rfl
    · intro before call after hSplit
      simp at hSplit
  rw [growTree]
  rcases fillScopes_building hashKey hFresh (scopeOrder.order (groupByScope tables)) hStart with
    ⟨nodes, calls, heap, hFill, hBuilt⟩ | ⟨e, calls, heap, hFill, hFault, hLive⟩
  · refine .inl ⟨_, calls, heap, by simp only [hFill]; rfl, ?_⟩
    refine ⟨hBuilt.sound.noFault, hBuilt.sound.nodup, ⟨fun _ => ?_, fun _ _ _ _ _ => rfl⟩, ?_⟩
    · simp only [buildComposite, nodeContexts]
      exact hBuilt.sound.exclusive.nodup .scopeNodes
    · intro ctx
      rw [hBuilt.sound.live_iff]
      simp only [buildComposite, nodeContexts]
      constructor
      · rintro ⟨p, hp⟩
        cases p with
        | leafNodes => exact absurd hp List.not_mem_nil
        | scopeNodes => exact ⟨(), hp⟩
      · rintro ⟨-, hIn⟩
        exact ⟨.scopeNodes, hIn⟩
  · obtain ⟨live, fault⟩ := heap
    dsimp only at hFault hLive
    subst hFault hLive
    exact .inr ⟨e, calls, by simp only [hFill]⟩

end Build

/-! ## The store of the process -/

/-- A store with the resources that it also owns. -/
structure OwnedStore (σ : Type) where
  root : StoreNode σ
  resources : ResourceStack

namespace OwnedStore

/-- The tree stays, and with it the backends. -/
def destroy (store : OwnedStore σ) (heap : Heap ℕ) : VoidResult × OwnedStore σ × Heap ℕ :=
  (.ok (), { store with resources := [] }, store.resources.teardown heap)

/-- The destructor: the members, the last one first. -/
def release (store : OwnedStore σ) (heap : Heap ℕ) : Heap ℕ :=
  destroyNode store.root (store.resources.teardown heap)

end OwnedStore

/-- `g_store`, and the heap of its backends. -/
structure Process (σ : Type) where
  store : Option (OwnedStore σ)
  heap : Heap ℕ

namespace Process

def start : Process σ := ⟨none, ⟨[], false⟩⟩

def openStore (hashKey : Bytes → Nat) (p : Process σ) (scopeOrder : ScopeOrder)
    (factory : BackendFactory σ) (tables : List TableDescriptor) : VoidResult × Process σ :=
  match p.store with
  | some _ => (.error ⟨"AlreadyOpen", "celer::close() before re-opening"⟩, p)
  | none =>
      match growTree hashKey scopeOrder factory tables p.heap with
      | (.error e, _, heap) => (.error e, { p with heap })
      | (.ok root, _, heap) => (.ok (), ⟨some ⟨root, []⟩, heap⟩)

def db (hashKey : Bytes → Nat) (p : Process σ) (scopeName : Bytes) : Result (DbRef σ) :=
  match p.store with
  | none => .error ⟨"NotInitialized", "celer::open() has not been called"⟩
  | some store => Store.db hashKey ⟨store.root⟩ scopeName

def close (p : Process σ) : VoidResult × Process σ :=
  match p.store with
  | none => (.ok (), p)
  | some store =>
      let (r, store, heap) := store.destroy p.heap
      (r, ⟨none, store.release heap⟩)

end Process

/-- The calls that may change the store. -/
inductive GlobalCall (σ : Type) where
  | open (scopeOrder : ScopeOrder) (factory : BackendFactory σ) (tables : List TableDescriptor)
  | close

/-- A factory makes new backends. -/
def GlobalCall.Allowed (_ : Process σ) : GlobalCall σ → Prop
  | .open _ factory _ => factory.Fresh
  | .close => True

namespace Process
variable {p p' : Process σ}

variable (hashKey) in
def step (p : Process σ) : GlobalCall σ → Option (Process σ)
  | .open scopeOrder factory tables => some (p.openStore hashKey scopeOrder factory tables).2
  | .close => some p.close.2

/-- The open store owns what is alive. -/
def Owned (p : Process σ) : Prop :=
  match p.store with
  | none => p.heap = ⟨[], false⟩
  | some store => store.resources = [] ∧ Sound (fun _ : Unit => nodeContexts store.root) p.heap

variable (hashKey) in
theorem Owned.openStore (h : p.Owned) (scopeOrder : ScopeOrder) {factory : BackendFactory σ}
    (hFresh : factory.Fresh) (tables : List TableDescriptor) :
    (p.openStore hashKey scopeOrder factory tables).2.Owned := by
  rw [Process.openStore]
  split
  next store hStore => exact h
  next hStore =>
    rw [Owned, hStore] at h
    dsimp only at h
    rw [h]
    rcases growTree_sound hashKey scopeOrder hFresh tables with
      ⟨root, calls, heap, hGrow, hSound⟩ | ⟨e, calls, hGrow⟩
    · simp only [hGrow]
      exact ⟨rfl, hSound⟩
    · simp only [hGrow, Owned, hStore]

theorem Owned.close (h : p.Owned) : p.close.2.Owned := by
  rw [Process.close]
  split
  next hStore => exact h
  next store hStore =>
    rw [Owned, hStore] at h
    obtain ⟨hResources, hSound⟩ := h
    have hNone := hSound.drop (p := ()) (.refl _)
    rw [← destroyNode_eq] at hNone
    have hHeap : destroyNode store.root p.heap = ⟨[], false⟩ := by
      have hLive := hNone.live_eq_nil fun _ => Function.update_self ..
      have hFault := hNone.noFault
      generalize destroyNode store.root p.heap = heap at hLive hFault
      obtain ⟨live, fault⟩ := heap
      dsimp only at hLive hFault
      rw [hLive, hFault]
    simp only [OwnedStore.destroy, hResources]
    exact hHeap

theorem Owned.step (h : p.Owned) {call : GlobalCall σ} (hAllowed : call.Allowed p)
    (hStep : p.step hashKey call = some p') : p'.Owned := by
  cases call with
  | «open» scopeOrder factory tables =>
      obtain rfl := Option.some.inj hStep
      exact h.openStore hashKey scopeOrder hAllowed tables
  | close =>
      obtain rfl := Option.some.inj hStep
      exact h.close

/-- Only `close` ends a store that is open. -/
theorem same_of_no_close {store : OwnedStore σ} (hStore : p.store = some store)
    (hRun : Transition.RunsWhere (fun p call => call.Allowed p ∧ call ≠ .close) (step hashKey) p p') :
    p' = p := by
  have hSame : ∀ q call q', q = p → call.Allowed q ∧ call ≠ .close →
      step hashKey q call = some q' → q' = p := by
    rintro q call q' rfl ⟨-, hCall⟩ hStep
    cases call with
    | «open» scopeOrder factory tables =>
        obtain rfl := Option.some.inj hStep
        simp only [openStore, hStore]
    | close => exact absurd rfl hCall
  have hEnd := Transition.RunsWhere.preserves hSame hRun rfl
  exact hEnd

theorem mem_nodesContexts {nodes : List (StoreNode σ)} {node : StoreNode σ} {ctx : ℕ}
    (hNode : node ∈ nodes) (hMem : ctx ∈ nodeContexts node) : ctx ∈ nodesContexts nodes := by
  induction nodes with
  | nil => cases hNode
  | cons first nodes ih =>
      rw [nodesContexts, List.mem_append]
      rcases List.mem_cons.mp hNode with rfl | hRest
      · exact .inl hMem
      · exact .inr (ih hRest)

/-- The backends that `db` leads to are those of the store. -/
theorem db_contexts {store : OwnedStore σ} {scopeName : Bytes} {ref : DbRef σ}
    (hDb : Store.db hashKey ⟨store.root⟩ scopeName = .ok ref) {node : StoreNode σ}
    (hNode : node ∈ ref.node) {ctx : ℕ} (hMem : ctx ∈ nodeContexts node) :
    ctx ∈ nodeContexts store.root := by
  rw [Store.db] at hDb
  split at hDb
  next => cases hDb
  next name children index hRoot =>
    split at hDb
    next => cases hDb
    next child hChild =>
      obtain rfl := Except.ok.inj hDb
      obtain rfl := Option.some.inj hNode
      obtain ⟨i, -, hAt⟩ := Option.bind_eq_some_iff.mp hChild
      have hRoot' : store.root = .compositeNode name children index := hRoot
      rw [hRoot', nodeContexts]
      exact mem_nodesContexts (List.mem_of_getElem? hAt) hMem

/-- However often stores are opened and closed, with factories that fail at any table: every
backend is destroyed once, by the `close` of its store or by the `open` that failed after making
it. What is alive are the backends of the open store, each in one leaf, and those that a reference
leads to stay alive until `close`. -/
theorem backends_live_while_open
    (hRun : Transition.RunsWhere (fun p call => call.Allowed p) (step hashKey) start p) :
    p.heap.fault = false ∧ (p.store = none → p.heap.live = []) ∧
    (∀ store, p.store = some store → p.heap.live.Nodup ∧
      p.heap.live.Perm (nodeContexts store.root)) ∧
    ∀ scopeName ref p', p.db hashKey scopeName = .ok ref →
      Transition.RunsWhere (fun p call => call.Allowed p ∧ call ≠ .close) (step hashKey) p p' →
      ∀ node ∈ ref.node, ∀ ctx ∈ nodeContexts node, ctx ∈ p'.heap.live := by
  have hStart : (start : Process σ).Owned := rfl
  have hOwned : p.Owned := Transition.RunsWhere.preserves
    (fun _ _ _ h hAllowed hStep => h.step hAllowed hStep) hRun hStart
  cases hStore : p.store with
  | none =>
      rw [Owned, hStore] at hOwned
      dsimp only at hOwned
      refine ⟨by rw [hOwned], fun _ => by rw [hOwned], fun store h => (by cases h), ?_⟩
      intro scopeName ref p' hDb
      simp only [db, hStore] at hDb
      cases hDb
  | some store =>
      rw [Owned, hStore] at hOwned
      obtain ⟨-, hSound⟩ := hOwned
      refine ⟨hSound.noFault, fun h => (by cases h), ?_, ?_⟩
      · intro store' h
        obtain rfl := Option.some.inj h
        refine ⟨hSound.nodup, (List.perm_ext_iff_of_nodup hSound.nodup
          (hSound.exclusive.nodup ())).mpr fun ctx => ?_⟩
        rw [hSound.live_iff]
        exact ⟨fun ⟨_, h⟩ => h, fun h => ⟨(), h⟩⟩
      · intro scopeName ref p' hDb hLater node hNode ctx hMem
        simp only [db, hStore] at hDb
        rw [same_of_no_close hStore hLater]
        exact (hSound.live_iff ctx).mpr ⟨(), db_contexts hDb hNode hMem⟩

/-- A factory that makes two backends and then fails. -/
def failing : BackendFactory Contents := fun calls td =>
  if calls.length < 2 then numbered calls td else .error ⟨"FactoryFailed", "no more backends"⟩

/-- An `open` that fails at the third table, one that succeeds, and a second one meanwhile. -/
theorem backends_live_while_open_demo : ∃ p : Process Contents, p.heap.live = [2, 1, 0] ∧
    p.heap.fault = false ∧ (p.store = none → p.heap.live = []) ∧
    (∀ store, p.store = some store → p.heap.live.Nodup ∧
      p.heap.live.Perm (nodeContexts store.root)) ∧
    ∀ scopeName ref p', p.db List.length scopeName = .ok ref →
      Transition.RunsWhere (fun p call => call.Allowed p ∧ call ≠ .close) (step List.length) p p' →
      ∀ node ∈ ref.node, ∀ ctx ∈ nodeContexts node, ctx ∈ p'.heap.live := by
  have hNumbers : numbered.Numbers := by
    intro calls td handle h
    obtain rfl := Except.ok.inj h
    rfl
  have hNumbered : numbered.Fresh := fresh_of_numbers hNumbers
  have hFailing : failing.Fresh := by
    apply fresh_of_numbers
    intro calls td handle h
    rw [failing] at h
    split at h
    · exact hNumbers h
    · cases h
  have hFailed : Transition.RunsWhere (fun p call => call.Allowed p) (step List.length)
      (start : Process Contents) _ :=
    .tail .refl (.open ⟨id, fun _ => .refl _⟩ failing demoTables) hFailing rfl
  have hOpened := hFailed.tail (.open ⟨id, fun _ => .refl _⟩ numbered demoTables) hNumbered rfl
  have hAgain := hOpened.tail (.open ⟨id, fun _ => .refl _⟩ numbered demoTables) hNumbered rfl
  exact ⟨_, rfl, backends_live_while_open hAgain⟩

end Process
end CelerMem
