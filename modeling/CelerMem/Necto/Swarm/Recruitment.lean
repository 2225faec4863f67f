import CelerMem.Necto.Swarm.MembershipRuns
import Mathlib

/-! Recruiting the best: which agents of the dormant pool join a cluster, and that nobody else
is changed. -/
namespace CelerMem.Necto.Swarm

variable {σ Heading Quality Rng : Type} {w w' w'' : World σ Heading Quality Rng} {k : Nat}
  {ref r : ActorRef}

/-! ## One agent joins -/

namespace SwarmField
variable {f : SwarmField Heading Quality Rng}

theorem agent?_randomizeHeadings (ref r : ActorRef) : (f.randomizeHeadings [ref]).agent? r =
    if r = ref then (f.agent? r).map fun a => { a with heading := (f.randomUnitVector f.rng).1 }
    else f.agent? r := by
  rw [randomizeHeadings, List.foldl_cons, List.foldl_nil]
  split
  · exact agent?_edit _
  · rename_i hOutside
    split
    · rename_i hSame
      have hNone : f.agent? r = none := by
        rw [hSame]
        exact List.getElem?_eq_none (Nat.not_lt.mp hOutside)
      rw [hNone, Option.map_none]
    · rfl

end SwarmField

/-- The listed agents have left the dormant pool for a cluster, and all others are as before. -/
structure Recruits (w : World σ Heading Quality Rng) (k : Nat) (refs : List ActorRef)
    (w' : World σ Heading Quality Rng) : Prop where
  moved : ∀ ref ∈ refs, ∃ a heading, w.field.agent? ref = some a ∧ a.lifecycle = .dormant ∧
    w'.field.agent? ref = some { a with heading, lifecycle := .active, cluster := w.idOf k }
  actors : ∀ ref ∈ refs, w'.system.handle? ref =
    (w.system.handle? ref).map fun h => { h with lifecycle := .active, cluster := w.idOf k }
  otherAgents : ∀ ref, ref ∉ refs → w'.field.agent? ref = w.field.agent? ref
  otherActors : ∀ ref, ref ∉ refs → w'.system.handle? ref = w.system.handle? ref
  clusters : w'.clusters =
    w.clusters.modify k fun c => { c with members := c.members ++ refs }

namespace Recruits

theorem nobody : Recruits w k [] w where
  moved ref hMem := absurd hMem List.not_mem_nil
  actors ref hMem := absurd hMem List.not_mem_nil
  otherAgents ref _ := rfl
  otherActors ref _ := rfl
  clusters := by
    simp only [List.append_nil]
    exact (List.modify_id k w.clusters).symm

theorem one {a : AgentState Heading Quality} (hAgent : w.field.agent? ref = some a)
    (hDormant : a.lifecycle = .dormant) : Recruits w k [ref] (w.recruitOne k ref) := by
  refine ⟨?_, ?_, ?_, ?_, rfl⟩
  · intro r hMem
    rw [List.mem_singleton.mp hMem]
    refine ⟨a, (w.field.randomUnitVector w.field.rng).1, hAgent, hDormant, ?_⟩
    rw [World.recruitOne]
    dsimp only
    rw [SwarmField.agent?_randomizeHeadings, if_pos rfl, SwarmField.agent?_edit, if_pos rfl,
      hAgent, Option.map_some, Option.map_some]
    rfl
  · intro r hMem
    rw [List.mem_singleton.mp hMem, World.recruitOne]
    dsimp only
    rw [ActorSystem.setCluster, ActorSystem.setLifecycle, ActorSystem.handle?_update_self,
      ActorSystem.handle?_update_self, Option.map_map]
    rfl
  · intro r hOther
    have hNe := List.mem_singleton.not.mp hOther
    rw [World.recruitOne]
    dsimp only
    rw [SwarmField.agent?_randomizeHeadings, if_neg hNe, SwarmField.agent?_edit, if_neg hNe]
  · intro r hOther
    have hNe := List.mem_singleton.not.mp hOther
    rw [World.recruitOne]
    dsimp only
    rw [ActorSystem.setCluster, ActorSystem.setLifecycle, ActorSystem.handle?_update_other hNe,
      ActorSystem.handle?_update_other hNe]

/-- More agents join after the first. -/
theorem cons {refs : List ActorRef} (first : Recruits w k [ref] w')
    (later : Recruits w' k refs w'') (hFresh : ref ∉ refs) (hId : w'.idOf k = w.idOf k) :
    Recruits w k (ref :: refs) w'' := by
  have hApart : ∀ r ∈ refs, r ∉ [ref] := by
    intro r hMem hSame
    exact hFresh (List.mem_singleton.mp hSame ▸ hMem)
  refine ⟨?_, ?_, ?_, ?_, ?_⟩
  · rw [List.forall_mem_cons]
    constructor
    · rw [later.otherAgents ref hFresh]
      exact first.moved ref List.mem_cons_self
    · intro r hMem
      obtain ⟨a, heading, hBefore, hDormant, hAfter⟩ := later.moved r hMem
      rw [first.otherAgents r (hApart r hMem)] at hBefore
      rw [hId] at hAfter
      exact ⟨a, heading, hBefore, hDormant, hAfter⟩
  · rw [List.forall_mem_cons]
    constructor
    · rw [later.otherActors ref hFresh]
      exact first.actors ref List.mem_cons_self
    · intro r hMem
      rw [later.actors r hMem, first.otherActors r (hApart r hMem), hId]
  · intro r hOther
    rw [List.mem_cons, not_or] at hOther
    rw [later.otherAgents r hOther.2, first.otherAgents r (List.mem_singleton.not.mpr hOther.1)]
  · intro r hOther
    rw [List.mem_cons, not_or] at hOther
    rw [later.otherActors r hOther.2, first.otherActors r (List.mem_singleton.not.mpr hOther.1)]
  · rw [later.clusters, first.clusters, List.modify_modify_eq]
    congr 1
    funext c
    simp

/-- Different agents of the dormant pool join one after the other. -/
theorem all {refs : List ActorRef} (hOnce : refs.Nodup)
    (hPool : ∀ ref ∈ refs, ∃ a, w.field.agent? ref = some a ∧ a.lifecycle = .dormant) :
    Recruits w k refs (refs.foldl (fun w ref => w.recruitOne k ref) w) := by
  induction refs generalizing w with
  | nil => exact nobody
  | cons ref refs ih =>
      obtain ⟨hFresh, hRest⟩ := List.nodup_cons.mp hOnce
      obtain ⟨a, hAgent, hDormant⟩ := hPool ref List.mem_cons_self
      have hFirst : Recruits w k [ref] (w.recruitOne k ref) := one hAgent hDormant
      refine hFirst.cons (ih hRest ?_) hFresh ((World.recruitOne_frame k ref).ids k)
      intro r hMem
      have hOther : r ∉ [ref] := fun hSame => hFresh (List.mem_singleton.mp hSame ▸ hMem)
      rw [hFirst.otherAgents r hOther]
      exact hPool r (List.mem_cons_of_mem ref hMem)

end Recruits

/-! ## Who joins -/

def AgentState.isDormant (a : AgentState Heading Quality) : Bool := a.lifecycle = .dormant

/-- The first dormant agents of a list, as many as may still join. -/
def joining (agents : List (AgentState Heading Quality)) (places : Nat) : List ActorRef :=
  ((agents.filter AgentState.isDormant).take places).map fun a => ⟨a.agentId⟩

theorem World.recruit_eq (agents : List (AgentState Heading Quality)) (count : UInt32)
    (recruited : List ActorRef) : w.recruit k count recruited agents =
      (recruited ++ joining agents (count.toNat - recruited.length),
        (joining agents (count.toNat - recruited.length)).foldl
          (fun w ref => w.recruitOne k ref) w) := by
  induction agents generalizing w recruited with
  | nil => simp [World.recruit, joining]
  | cons a agents ih =>
      rw [World.recruit]
      split
      · rename_i hFull
        simp [joining, Nat.sub_eq_zero_of_le hFull]
      · rename_i hOpen
        obtain ⟨places, hPlaces⟩ : ∃ places, count.toNat - recruited.length = places + 1 :=
          Nat.exists_eq_succ_of_ne_zero (by omega)
        split
        · rename_i hAwake
          have hSkip : joining (a :: agents) (places + 1) = joining agents (places + 1) := by
            rw [joining, List.filter_cons_of_neg (by simpa [AgentState.isDormant] using hAwake),
              joining]
          rw [ih, hPlaces, hSkip]
        · rename_i hDormant
          have hTake : joining (a :: agents) (places + 1) =
              ⟨a.agentId⟩ :: joining agents places := by
            rw [joining, List.filter_cons_of_pos
              (by simpa [AgentState.isDormant] using not_not.mp hDormant),
              List.take_succ_cons, List.map_cons, joining]
          have hLeft : count.toNat - (recruited ++ [(⟨a.agentId⟩ : ActorRef)]).length = places := by
            rw [List.length_append, List.length_singleton]
            omega
          rw [ih, hLeft, hPlaces, hTake, List.append_assoc]
          rfl

theorem length_joining (agents : List (AgentState Heading Quality)) (places : Nat) :
    (joining agents places).length = min places (agents.countP AgentState.isDormant) := by
  rw [joining, List.length_map, List.length_take, List.countP_eq_length_filter]

theorem mem_joining_iff {agents : List (AgentState Heading Quality)} {places : Nat} :
    ref ∈ joining agents places ↔
      ∃ a ∈ (agents.filter AgentState.isDormant).take places, ⟨a.agentId⟩ = ref := List.mem_map

theorem joining_nodup {agents : List (AgentState Heading Quality)} (places : Nat)
    (h : (agents.map AgentState.agentId).Nodup) : (joining agents places).Nodup := by
  have hSome : ((agents.filter AgentState.isDormant).take places).Sublist agents :=
    (List.take_sublist _ _).trans List.filter_sublist
  have hIds := h.sublist (hSome.map AgentState.agentId)
  have hRefs := hIds.map (f := ActorRef.mk) fun i j hSame => congrArg ActorRef.index hSame
  rwa [List.map_map] at hRefs

/-- Everything in front of a place of a sorted list stands before the rest. -/
theorem before_of_take {α : Type} {before : α → α → Prop} {l : List α} {n : Nat} {a b : α}
    (hSorted : l.Pairwise before) (ha : a ∈ l.take n) (hb : b ∈ l) (hLate : b ∉ l.take n) :
    before a b := by
  rw [← List.take_append_drop n l] at hSorted hb
  exact (List.pairwise_append.mp hSorted).2.2 a ha b ((List.mem_append.mp hb).resolve_left hLate)

/-- `recruit_by_quality` moves as many dormant agents as it can, and none of those that are left
is better than one of those that have joined. -/
theorem recruit_by_quality_best [LinearOrder Quality]
    (sort : StdSort (AgentState Heading Quality) World.better) (hNumbered : w.field.Numbered)
    (k : Nat) (count : UInt32) {recruited : List ActorRef}
    (h : w.recruitByQuality sort k count w.field.agents = (recruited, w')) :
    recruited.length = min count.toNat (w.field.agents.countP AgentState.isDormant) ∧
    recruited.Nodup ∧ Recruits w k recruited w' ∧
    ∀ ref ∈ recruited, ∀ other, other ∉ recruited → ∀ a b, w.field.agent? ref = some a →
      w.field.agent? other = some b → b.lifecycle = .dormant → b.quality ≤ a.quality := by
  have hPerm := sort.perm w.field.agents
  have hSorted := sort.sorted w.field.agents
  rw [World.recruitByQuality, World.recruit_eq] at h
  generalize sort.run w.field.agents = agents at hPerm hSorted h
  obtain ⟨rfl, rfl⟩ := Prod.mk.inj h
  rw [List.nil_append, List.length_nil, Nat.sub_zero]
  have hOnce := joining_nodup count.toNat ((hPerm.map AgentState.agentId).nodup_iff.mpr
    hNumbered.nodup_agentIds)
  have hAgent : ∀ ref ∈ joining agents count.toNat, ∃ a, w.field.agent? ref = some a ∧
      a.lifecycle = .dormant ∧ a ∈ (agents.filter AgentState.isDormant).take count.toNat := by
    intro ref hMem
    obtain ⟨a, hTaken, rfl⟩ := mem_joining_iff.mp hMem
    obtain ⟨hAgents, hDormant⟩ := List.mem_filter.mp (List.mem_of_mem_take hTaken)
    exact ⟨a, hNumbered.agent?_of_mem (hPerm.mem_iff.mp hAgents), of_decide_eq_true hDormant,
      hTaken⟩
  refine ⟨?_, hOnce, ?_, ?_⟩
  · rw [length_joining, hPerm.countP_eq]
  · apply Recruits.all hOnce
    intro ref hMem
    obtain ⟨a, hHere, hDormant, -⟩ := hAgent ref hMem
    exact ⟨a, hHere, hDormant⟩
  · intro ref hMem other hOther a b ha hb hDormant
    obtain ⟨a', ha', -, hTaken⟩ := hAgent ref hMem
    obtain rfl := Option.some.inj (ha.symm.trans ha')
    have hIndex : (⟨b.agentId⟩ : ActorRef) = other := by
      obtain ⟨i⟩ := other
      exact congrArg ActorRef.mk (UInt32.toNat_inj.mp (hNumbered _ b hb))
    have hPool : b ∈ agents.filter AgentState.isDormant :=
      List.mem_filter.mpr ⟨hPerm.mem_iff.mpr (List.mem_of_getElem? hb), decide_eq_true hDormant⟩
    have hLate : b ∉ (agents.filter AgentState.isDormant).take count.toNat :=
      fun hTaken => hOther (mem_joining_iff.mpr ⟨b, hTaken, hIndex⟩)
    exact not_lt.mp (before_of_take (hSorted.filter _) hTaken hPool hLate)

/-! ## Numbered fields -/

namespace SwarmField
variable {f f' : SwarmField Heading Quality Rng}

def ids (f : SwarmField Heading Quality Rng) : List UInt32 := f.agents.map AgentState.agentId

theorem Numbered.of_ids (h : f.Numbered) (hIds : f'.ids = f.ids) : f'.Numbered := by
  intro i a hi
  have hHere : f'.ids[i]? = some a.agentId := by rw [ids, List.getElem?_map, hi, Option.map_some]
  rw [hIds, ids, List.getElem?_map, Option.map_eq_some_iff] at hHere
  obtain ⟨b, hb, hSame⟩ := hHere
  rw [← hSame]
  exact h i b hb

theorem ids_edit (ref : ActorRef) {g : AgentState Heading Quality → AgentState Heading Quality}
    (hKeeps : ∀ a, (g a).agentId = a.agentId) : (f.edit ref g).ids = f.ids := by
  rw [ids, ids, edit]
  apply List.ext_getElem?
  intro i
  rw [List.getElem?_map, List.getElem?_modify, List.getElem?_map]
  cases f.agents[i]? with
  | none => rfl
  | some a =>
      rw [Option.map_eq_map, Option.map_some, Option.map_some, Option.map_some]
      split
      · rw [hKeeps a]
      · rfl

theorem ids_randomizeHeadings (refs : List ActorRef) : (f.randomizeHeadings refs).ids = f.ids := by
  induction refs generalizing f with
  | nil => rfl
  | cons ref refs ih =>
      rw [randomizeHeadings, List.foldl_cons]
      refine ih.trans ?_
      split
      · exact ids_edit ref fun _ => rfl
      · rfl

theorem make_numbered (population : UInt32) (draw : Rng → Heading × Rng) (zero : Quality)
    (seed : Rng) : (make population draw zero seed).Numbered := by
  obtain ⟨hLength, hAgents⟩ := makeAgents_dormant draw zero seed population.toNat
  intro i a hi
  have hLess : i < population.toNat := by
    rw [← hLength]
    exact (List.getElem?_eq_some_iff.mp hi).1
  rw [(hAgents i a hi).1]
  exact UInt32.toNat_ofNat_of_lt' (hLess.trans population.toNat_lt)

end SwarmField

namespace World

theorem ids_recruitOne (k : Nat) (ref : ActorRef) : (w.recruitOne k ref).field.ids = w.field.ids :=
  (SwarmField.ids_randomizeHeadings _).trans (SwarmField.ids_edit ref fun _ => rfl)

/-- The three other loops assign to the agents that are in the field. -/
theorem ids_guarded (ref : ActorRef) {g : AgentState Heading Quality → AgentState Heading Quality}
    (hKeeps : ∀ a, (g a).agentId = a.agentId) :
    (if ref.index < w.field.population then w.field.edit ref g else w.field).ids =
      w.field.ids := by
  split
  · exact SwarmField.ids_edit ref hKeeps
  · rfl

theorem ids_foldl {step : World σ Heading Quality Rng → ActorRef → World σ Heading Quality Rng}
    (hStep : ∀ w ref, (step w ref).field.ids = w.field.ids) (refs : List ActorRef) :
    (refs.foldl step w).field.ids = w.field.ids := by
  induction refs generalizing w with
  | nil => rfl
  | cons ref refs ih => exact ih.trans (hStep w ref)

theorem ids_recruit (count : UInt32) (agents : List (AgentState Heading Quality)) :
    (w.recruit k count [] agents).2.field.ids = w.field.ids := by
  rw [recruit_eq]
  exact ids_foldl (fun w ref => ids_recruitOne k ref) _

theorem ids_dismissOne (k : Nat) (ref : ActorRef) :
    (w.dismissOne k ref).field.ids = w.field.ids := by
  apply ids_guarded
  intro a
  rfl

theorem ids_mergeOne (target : Nat) (ref : ActorRef) :
    (w.mergeOne target ref).field.ids = w.field.ids := by
  apply ids_guarded
  intro a
  rfl

theorem ids_transferOne (source target : Nat) (ref : ActorRef) :
    (w.transferOne source target ref).field.ids = w.field.ids := by
  apply ids_guarded
  intro a
  rfl

theorem ids_dismiss (refs : List ActorRef) : (w.dismiss k refs).field.ids = w.field.ids :=
  ids_foldl (fun _ ref => ids_dismissOne k ref) refs

/-- No call gives an agent another number. -/
theorem ids_step [LinearOrder Quality] {sort : StdSort (AgentState Heading Quality) better}
    {call : ClusterCall} (h : w.step sort call = some w') : w'.field.ids = w.field.ids := by
  unfold World.step at h
  split at h
  · cases call with
    | createCluster name rootTask =>
        obtain rfl := Option.some.inj h
        rfl
    | recruit k count =>
        obtain rfl := Option.some.inj h
        exact ids_recruit count _
    | recruitByQuality k count =>
        obtain rfl := Option.some.inj h
        exact ids_recruit count _
    | dismiss k refs =>
        obtain rfl := Option.some.inj h
        exact ids_dismiss refs
    | dissolve k =>
        obtain rfl := Option.some.inj h
        exact ids_dismiss _
    | merge source target =>
        dsimp only at h
        split at h
        · cases h
        · obtain rfl := Option.some.inj h
          exact ids_foldl (fun _ ref => ids_mergeOne target ref) _
    | transfer source target refs =>
        obtain rfl := Option.some.inj h
        exact ids_foldl (fun _ ref => ids_transferOne source target ref) refs
  · cases h

/-- The agents stay numbered as the constructor of the field numbers them. -/
theorem numbered_of_run [LinearOrder Quality] {sort : StdSort (AgentState Heading Quality) better}
    (hStart : w.field.Numbered) (run : Transition.Runs (step sort) w w') : w'.field.Numbered := by
  have hKeeps : ∀ (s : World σ Heading Quality Rng) call t, s.field.Numbered → True →
      step sort s call = some t → t.field.Numbered :=
    fun _ _ _ hInv _ hStep => hInv.of_ids (ids_step hStep)
  have hAll := Transition.RunsWhere.preserves hKeeps run hStart
  exact hAll

end World

/-! Three agents, each of them an actor. The second is the best of the dormant ones, the first
has joined another cluster. -/
namespace Demo

/-- Inserting every agent behind those that are not worse is one of the implementations of
`std::sort`. -/
def insertionSort : StdSort (AgentState Unit ℕ) World.better where
  run l := l.insertionSort fun a b => b.quality ≤ a.quality
  perm l := List.perm_insertionSort _ l
  sorted l := by
    have hTotal : Std.Total fun a b : AgentState Unit ℕ => b.quality ≤ a.quality :=
      ⟨fun a b => Nat.le_total b.quality a.quality⟩
    have hTrans : IsTrans (AgentState Unit ℕ) fun a b => b.quality ≤ a.quality :=
      ⟨fun a b c hab hbc => hbc.trans hab⟩
    exact (List.pairwise_insertionSort _ l).imp fun hab => Nat.not_lt.mpr hab

def idle : ActorVTable Unit where
  onReceive impl _ _ _ := .done impl
  clone := id

def actors : ActorSystem Unit :=
  let spawned := [("a", ⟨0⟩), ("b", ⟨1⟩), ("c", ⟨2⟩)].foldl
    (fun (s : ActorSystem Unit) (name, ref) => (s.spawn name () idle).2.setLifecycle ref .dormant) {}
  (spawned.setLifecycle ⟨0⟩ .active).setCluster ⟨0⟩ ⟨0⟩

def pool : World Unit Unit ℕ Unit :=
  let field := SwarmField.make 3 (fun rng => ((), rng)) 0 ()
  let joined := field.edit ⟨0⟩ fun a => { a with lifecycle := .active, cluster := ⟨0⟩, quality := 12 }
  let swarm : World Unit Unit ℕ Unit :=
    { system := actors, field := joined.edit ⟨1⟩ fun a => { a with quality := 9 } }
  ((swarm.createCluster "first" 0).createCluster "second" 0).edit 0 fun c =>
    { c with members := [⟨0⟩] }

theorem pool_numbered : pool.field.Numbered := by
  apply (SwarmField.make_numbered 3 (fun rng => ((), rng)) 0 ()).of_ids
  rfl

end Demo

/-- The second cluster wants one agent and gets the better one of the two that are dormant. -/
theorem recruit_by_quality_best_pool : ∃ w',
    Demo.pool.recruitByQuality Demo.insertionSort 1 1 Demo.pool.field.agents = ([⟨1⟩], w') ∧
    w'.clusters.map ClusterState.members = [[⟨0⟩], [⟨1⟩]] ∧
    (w'.system.handle? ⟨1⟩).map (fun h => (h.lifecycle, h.cluster)) = some (.active, ⟨1⟩) ∧
    ([⟨1⟩] : List ActorRef).length =
      min 1 (Demo.pool.field.agents.countP AgentState.isDormant) ∧
    ([⟨1⟩] : List ActorRef).Nodup ∧ Recruits Demo.pool 1 [⟨1⟩] w' ∧
    ∀ ref ∈ ([⟨1⟩] : List ActorRef), ∀ other, other ∉ ([⟨1⟩] : List ActorRef) → ∀ a b,
      Demo.pool.field.agent? ref = some a → Demo.pool.field.agent? other = some b →
      b.lifecycle = .dormant → b.quality ≤ a.quality := by
  have hRecruit : Demo.pool.recruitByQuality Demo.insertionSort 1 1 Demo.pool.field.agents =
      ([⟨1⟩], _) := rfl
  exact ⟨_, hRecruit, rfl, rfl,
    recruit_by_quality_best Demo.insertionSort Demo.pool_numbered 1 1 hRecruit⟩

end CelerMem.Necto.Swarm
