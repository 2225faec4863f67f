import CelerMem.Necto.ActorSteps
import Mathlib

/-! Dynamic sub-clusters of a swarm: the clusters and their member lists, the agents
of the field, and the operations of `ClusterService` on them. Headings are
floating-point vectors drawn at random; their type and the generator stay open. -/
namespace CelerMem.Necto.Swarm

structure AgentState (Heading Quality : Type) where
  heading : Heading
  quality : Quality
  lifecycle : AgentLifecycle := .active
  cluster : ClusterId := {}
  agentId : UInt32 := 0

structure ClusterState where
  id : ClusterId
  name : String
  members : List ActorRef := []
  rootTask : UInt32
  scopePrefix : String
  active : Bool := true

structure SwarmField (Heading Quality Rng : Type) where
  agents : List (AgentState Heading Quality)
  rng : Rng
  randomUnitVector : Rng → Heading × Rng

/-- An implementation of `std::sort`: the order of equivalent elements is its own. -/
structure StdSort (α : Type) (before : α → α → Prop) where
  run : List α → List α
  perm : ∀ l, (run l).Perm l
  sorted : ∀ l, (run l).Pairwise fun a b => ¬before b a

/-- What the operations work on: the actor system, the field, and the `clusters_` and
`next_id_` of the service. A `ClusterState&` is a position in `clusters_`. -/
structure World (σ Heading Quality Rng : Type) where
  system : ActorSystem σ
  field : SwarmField Heading Quality Rng
  clusters : List ClusterState := []
  nextId : UInt32 := 0

variable {σ Heading Quality Rng : Type}

namespace SwarmField

/-- The agents that the constructor fills in, all of them dormant. -/
def makeAgents (draw : Rng → Heading × Rng) (zero : Quality) (rng : Rng) :
    Nat → List (AgentState Heading Quality) × Rng
  | 0 => ([], rng)
  | n + 1 =>
      let before := makeAgents draw zero rng n
      let drawn := draw before.2
      (before.1 ++ [{ heading := drawn.1, quality := zero, lifecycle := .dormant,
                      agentId := UInt32.ofNat n }], drawn.2)

def make (population : UInt32) (draw : Rng → Heading × Rng) (zero : Quality) (seed : Rng) :
    SwarmField Heading Quality Rng :=
  let made := makeAgents draw zero seed population.toNat
  { agents := made.1, rng := made.2, randomUnitVector := draw }

/-- The number of agents is cast to 32 bits. -/
def population (f : SwarmField Heading Quality Rng) : UInt32 := UInt32.ofNat f.agents.length

def agent? (f : SwarmField Heading Quality Rng) (ref : ActorRef) :
    Option (AgentState Heading Quality) :=
  f.agents[ref.index.toNat]?

/-- Assignments to fields of `field[ref.index]`. -/
def edit (f : SwarmField Heading Quality Rng) (ref : ActorRef)
    (g : AgentState Heading Quality → AgentState Heading Quality) :
    SwarmField Heading Quality Rng :=
  { f with agents := f.agents.modify ref.index.toNat g }

def randomizeHeadings (f : SwarmField Heading Quality Rng) (refs : List ActorRef) :
    SwarmField Heading Quality Rng :=
  refs.foldl (fun f ref =>
    if ref.index.toNat < f.agents.length then
      let drawn := f.randomUnitVector f.rng
      { f.edit ref fun a => { a with heading := drawn.1 } with rng := drawn.2 }
    else f) f

end SwarmField

namespace World

def edit (w : World σ Heading Quality Rng) (k : Nat) (f : ClusterState → ClusterState) :
    World σ Heading Quality Rng :=
  { w with clusters := w.clusters.modify k f }

def idOf (w : World σ Heading Quality Rng) (k : Nat) : ClusterId :=
  (w.clusters[k]?.map ClusterState.id).getD {}

def membersOf (w : World σ Heading Quality Rng) (k : Nat) : List ActorRef :=
  (w.clusters[k]?.map ClusterState.members).getD []

/-- The counter of identifiers has 32 bits. -/
def createCluster (w : World σ Heading Quality Rng) (name : String) (rootTask : UInt32) :
    World σ Heading Quality Rng :=
  { w with
    clusters := w.clusters ++
      [{ id := ⟨w.nextId⟩, name, rootTask, scopePrefix := "clusters/" ++ name }]
    nextId := w.nextId + 1 }

/-- One agent joins a cluster; the body of the loop in `recruit`. -/
def recruitOne (w : World σ Heading Quality Rng) (k : Nat) (ref : ActorRef) :
    World σ Heading Quality Rng :=
  let joined := w.edit k fun c => { c with members := c.members ++ [ref] }
  { joined with
    system := (w.system.setLifecycle ref .active).setCluster ref (w.idOf k)
    field := (w.field.edit ref fun a =>
      { a with lifecycle := .active, cluster := w.idOf k }).randomizeHeadings [ref] }

/-- The dormant agents of the list join in its order, `count` of them at most. -/
def recruit (w : World σ Heading Quality Rng) (k : Nat) (count : UInt32)
    (recruited : List ActorRef) :
    List (AgentState Heading Quality) → List ActorRef × World σ Heading Quality Rng
  | [] => (recruited, w)
  | a :: rest =>
      if recruited.length ≥ count.toNat then (recruited, w)
      else if a.lifecycle ≠ .dormant then recruit w k count recruited rest
      else recruit (w.recruitOne k ⟨a.agentId⟩) k count (recruited ++ [⟨a.agentId⟩]) rest

/-- `a.quality > b.quality`. -/
def better [LinearOrder Quality] (a b : AgentState Heading Quality) : Prop := a.quality > b.quality

def recruitByQuality [LinearOrder Quality] (w : World σ Heading Quality Rng)
    (sort : StdSort (AgentState Heading Quality) better) (k : Nat) (count : UInt32)
    (agents : List (AgentState Heading Quality)) :
    List ActorRef × World σ Heading Quality Rng :=
  w.recruit k count [] (sort.run agents)

/-- The body of the loop in `dismiss`: whether the agent is a member is not checked. -/
def dismissOne (w : World σ Heading Quality Rng) (k : Nat) (ref : ActorRef) :
    World σ Heading Quality Rng :=
  let left := w.edit k fun c => { c with members := c.members.filter (· ≠ ref) }
  { left with
    system := ((w.system.setLifecycle ref .dormant).setCluster ref {}).channelDrain ref
    field :=
      if ref.index < w.field.population then
        w.field.edit ref fun a => { a with lifecycle := .dormant, cluster := {} }
      else w.field }

def dismiss (w : World σ Heading Quality Rng) (k : Nat) (refs : List ActorRef) :
    World σ Heading Quality Rng :=
  refs.foldl (fun w ref => w.dismissOne k ref) w

def dismissAll (w : World σ Heading Quality Rng) (k : Nat) : World σ Heading Quality Rng :=
  w.dismiss k (w.membersOf k)

def dissolve (w : World σ Heading Quality Rng) (k : Nat) : World σ Heading Quality Rng :=
  (w.dismissAll k).edit k fun c => { c with active := false }

/-- The body of the loop in `merge`. -/
def mergeOne (w : World σ Heading Quality Rng) (target : Nat) (ref : ActorRef) :
    World σ Heading Quality Rng :=
  let joined := w.edit target fun c => { c with members := c.members ++ [ref] }
  { joined with
    system := w.system.setCluster ref (w.idOf target)
    field :=
      if ref.index < w.field.population then
        w.field.edit ref fun a => { a with cluster := w.idOf target }
      else w.field }

def merge (w : World σ Heading Quality Rng) (source target : Nat) : World σ Heading Quality Rng :=
  ((w.membersOf source).foldl (fun w ref => w.mergeOne target ref) w).edit source fun c =>
    { c with members := [], active := false }

/-- The body of the loop in `transfer`: whether the agent is a member of the source is
not checked. Source and target may be the same cluster. -/
def transferOne (w : World σ Heading Quality Rng) (source target : Nat) (ref : ActorRef) :
    World σ Heading Quality Rng :=
  let left := w.edit source fun c => { c with members := c.members.filter (· ≠ ref) }
  let joined := left.edit target fun c => { c with members := c.members ++ [ref] }
  { joined with
    system := (w.system.setCluster ref (w.idOf target)).channelDrain ref
    field :=
      if ref.index < w.field.population then
        w.field.edit ref fun a => { a with cluster := w.idOf target }
      else w.field }

def transfer (w : World σ Heading Quality Rng) (source target : Nat) (refs : List ActorRef) :
    World σ Heading Quality Rng :=
  refs.foldl (fun w ref => w.transferOne source target ref) w

end World

/-- Both ways to recruit are given the current agents of the field. -/
inductive ClusterCall where
  | createCluster (name : String) (rootTask : UInt32)
  | recruit (k : Nat) (count : UInt32)
  | recruitByQuality (k : Nat) (count : UInt32)
  | dismiss (k : Nat) (refs : List ActorRef)
  | dissolve (k : Nat)
  | merge (source target : Nat)
  | transfer (source target : Nat) (refs : List ActorRef)

namespace ClusterCall

/-- The positions of the clusters that a call is given. -/
def clusters : ClusterCall → List Nat
  | .createCluster _ _ => []
  | .recruit k _ | .recruitByQuality k _ | .dismiss k _ | .dissolve k => [k]
  | .merge source target | .transfer source target _ => [source, target]

end ClusterCall

/-- One call on existing clusters. Merging a cluster with itself is not a call. -/
def World.step [LinearOrder Quality] (sort : StdSort (AgentState Heading Quality) World.better)
    (w : World σ Heading Quality Rng) (call : ClusterCall) :
    Option (World σ Heading Quality Rng) :=
  if call.clusters.all (· < w.clusters.length) then
    match call with
    | .createCluster name rootTask => some (w.createCluster name rootTask)
    | .recruit k count => some (w.recruit k count [] w.field.agents).2
    | .recruitByQuality k count => some (w.recruitByQuality sort k count w.field.agents).2
    | .dismiss k refs => some (w.dismiss k refs)
    | .dissolve k => some (w.dissolve k)
    | .merge source target => if source = target then none else some (w.merge source target)
    | .transfer source target refs => some (w.transfer source target refs)
  else none

end CelerMem.Necto.Swarm
