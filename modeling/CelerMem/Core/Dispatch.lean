import CelerMem.Core.SymbolTable

/-! The store tree and the recursion over it. The tree never changes; what does are the
backends behind its leaves, which a `World` holds by the address in their handle. -/
namespace CelerMem

variable {σ γ : Type}

/-! ## Handles -/

abbrev World (σ : Type) := Nat → σ

/-- The entries that dispatch calls, on the state of a backend. -/
structure BackendVTable (σ : Type) where
  get : Bytes → σ → Result (Option Bytes)
  put : Bytes → Bytes → σ → VoidResult × σ
  del : Bytes → σ → VoidResult × σ
  batch : List BatchOp → σ → VoidResult × σ

structure BackendHandle (σ : Type) where
  ctx : Option Nat
  vtable : Option (BackendVTable σ)

namespace BackendHandle

def invalid : Error := ⟨"BackendHandle", "use-after-move or default-constructed"⟩

def get (h : BackendHandle σ) (key : Bytes) (w : World σ) : Result (Option Bytes) :=
  match h.ctx, h.vtable with
  | some ctx, some vtable => vtable.get key (w ctx)
  | _, _ => .error invalid

/-- A call that may change the backend. -/
def call (h : BackendHandle σ) (fn : BackendVTable σ → σ → VoidResult × σ) (w : World σ) :
    VoidResult × World σ :=
  match h.ctx, h.vtable with
  | some ctx, some vtable =>
      let (r, s) := fn vtable (w ctx)
      (r, Function.update w ctx s)
  | _, _ => (.error invalid, w)

def put (h : BackendHandle σ) (key value : Bytes) (w : World σ) : VoidResult × World σ :=
  h.call (fun vtable => vtable.put key value) w

def del (h : BackendHandle σ) (key : Bytes) (w : World σ) : VoidResult × World σ :=
  h.call (fun vtable => vtable.del key) w

def batch (h : BackendHandle σ) (ops : List BatchOp) (w : World σ) : VoidResult × World σ :=
  h.call (fun vtable => vtable.batch ops) w

end BackendHandle

/-! ## The tree -/

inductive StoreNode (σ : Type) where
  | columnLeaf (name : Bytes) (handle : BackendHandle σ)
  | compositeNode (name : Bytes) (children : List (StoreNode σ)) (index : FlatSymbolTable)

def nodeName : StoreNode σ → Bytes
  | .columnLeaf name _ => name
  | .compositeNode name _ _ => name

def buildLeaf (name : Bytes) (handle : BackendHandle σ) : StoreNode σ := .columnLeaf name handle

def buildComposite (hashKey : Bytes → Nat) (name : Bytes) (children : List (StoreNode σ)) :
    StoreNode σ :=
  .compositeNode name children (FlatSymbolTable.buildIndexed hashKey (children.map nodeName))

/-- What the two builders make, to any depth. -/
inductive Built (hashKey : Bytes → Nat) : StoreNode σ → Prop where
  | leaf (name : Bytes) (handle : BackendHandle σ) : Built hashKey (buildLeaf name handle)
  | composite (name : Bytes) {children : List (StoreNode σ)}
      (hChildren : ∀ child ∈ children, Built hashKey child) :
      Built hashKey (buildComposite hashKey name children)

/-! ## Routing -/

structure RouteResult where
  child : Bytes
  rest : Bytes
  deriving DecidableEq, Repr

def separator : Byte := 58

/-- Cut at the first separator, if there is one. -/
def routeKey (key : Bytes) : RouteResult :=
  match key.findIdx? (· == separator) with
  | some pos => ⟨key.take pos, key.drop (pos + 1)⟩
  | none => ⟨key, []⟩

def childNotFound (childName name : Bytes) : Error :=
  ⟨"ChildNotFound", "no child '" ++ text childName ++ "' in composite '" ++ text name ++ "'"⟩

/-- The index leads to a child in every built tree; outside of one, an index beyond the
children is taken for a missing child. -/
def findChild (hashKey : Bytes → Nat) (name : Bytes) (children : List (StoreNode σ))
    (index : FlatSymbolTable) (childName : Bytes) : Result {child // child ∈ children} :=
  match index.find hashKey childName with
  | none => .error (childNotFound childName name)
  | some idx =>
      if h : idx < children.length then .ok ⟨children[idx], List.getElem_mem h⟩
      else .error (childNotFound childName name)

/-- The visit that `node_get`, `node_put` and `node_del` make: down to the leaf that the
key routes to, with what is left of the key there. -/
def visit (hashKey : Bytes → Nat) (onLeaf : BackendHandle σ → Bytes → γ) (onError : Error → γ) :
    StoreNode σ → Bytes → γ
  | .columnLeaf _ handle, key => onLeaf handle key
  | .compositeNode name children index, key =>
      let route := routeKey key
      match findChild hashKey name children index route.child with
      | .error e => onError e
      | .ok child => visit hashKey onLeaf onError child.1 route.rest
termination_by node => sizeOf node
decreasing_by
  have := List.sizeOf_lt_of_mem child.2
  simp only [StoreNode.compositeNode.sizeOf_spec]
  omega

def nodeGet (hashKey : Bytes → Nat) (node : StoreNode σ) (key : Bytes) (w : World σ) :
    Result (Option Bytes) :=
  visit hashKey (fun handle rest => handle.get rest w) .error node key

def nodePut (hashKey : Bytes → Nat) (node : StoreNode σ) (key value : Bytes) (w : World σ) :
    VoidResult × World σ :=
  visit hashKey (fun handle rest => handle.put rest value w) (fun e => (.error e, w)) node key

def nodeDel (hashKey : Bytes → Nat) (node : StoreNode σ) (key : Bytes) (w : World σ) :
    VoidResult × World σ :=
  visit hashKey (fun handle rest => handle.del rest w) (fun e => (.error e, w)) node key

/-! ## Batches -/

/-- `grouped[op.cf_name].push_back(op)`. -/
def addToGroup (grouped : List (Bytes × List BatchOp)) (op : BatchOp) :
    List (Bytes × List BatchOp) :=
  match grouped with
  | [] => [(op.cfName, [op])]
  | (cf, ops) :: rest =>
      if cf = op.cfName then (cf, ops ++ [op]) :: rest else (cf, ops) :: addToGroup rest op

def groupByCf (ops : List BatchOp) : List (Bytes × List BatchOp) := ops.foldl addToGroup []

/-- The order in which a hash map is gone through: some order of its entries. -/
structure HashOrder where
  order : List (Bytes × List BatchOp) → List (Bytes × List BatchOp)
  perm : ∀ grouped, (order grouped).Perm grouped

/-- Group by group, up to the first error. -/
def runGroups (step : Bytes → List BatchOp → World σ → VoidResult × World σ) :
    List (Bytes × List BatchOp) → World σ → VoidResult × World σ
  | [], w => (.ok (), w)
  | (cf, ops) :: groups, w =>
      match step cf ops w with
      | (.error e, w) => (.error e, w)
      | (.ok (), w) => runGroups step groups w

def nodeBatch (hashKey : Bytes → Nat) (hashOrder : HashOrder) :
    StoreNode σ → List BatchOp → World σ → VoidResult × World σ
  | .columnLeaf _ handle, ops, w => handle.batch ops w
  | .compositeNode name children index, ops, w =>
      runGroups (fun cf group w =>
        match findChild hashKey name children index cf with
        | .error e => (.error e, w)
        | .ok child => nodeBatch hashKey hashOrder child.1 group w)
        (hashOrder.order (groupByCf ops)) w
termination_by node => sizeOf node
decreasing_by
  have := List.sizeOf_lt_of_mem child.2
  simp only [StoreNode.compositeNode.sizeOf_spec]
  omega

/-- A scope of the store; `node` is null for a default-constructed reference. -/
structure DbRef (σ : Type) where
  scopeName : Bytes
  node : Option (StoreNode σ)

/-- Documented as an atomic batch across the scope. -/
def DbRef.batch (hashKey : Bytes → Nat) (hashOrder : HashOrder) (ref : DbRef σ)
    (ops : List BatchOp) (w : World σ) : VoidResult × World σ :=
  match ref.node with
  | none => (.error ⟨"DbRef", "null node"⟩, w)
  | some node => nodeBatch hashKey hashOrder node ops w

end CelerMem
