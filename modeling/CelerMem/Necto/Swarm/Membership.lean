import CelerMem.Necto.Swarm.Cluster
import Mathlib

/-! Membership is stored twice, in the member lists of the clusters and in the agents
of the field. The abstract state says for each agent which cluster it is in, if any,
and the two stores represent it. -/
namespace CelerMem.Necto.Swarm
variable {σ Heading Quality Rng : Type} {w w' : World σ Heading Quality Rng}

/-- Every agent is in at most one member list, once, and the lifecycle and the cluster
that the field has for it say so. -/
structure Membership (w : World σ Heading Quality Rng) : Prop where
  once : ∀ ref, (w.clusters.flatMap ClusterState.members).count ref ≤ 1
  active : ∀ ref a, w.field.agent? ref = some a →
    (a.lifecycle = .active ↔ ∃! k : Nat, ∃ c, w.clusters[k]? = some c ∧ ref ∈ c.members)
  cluster : ∀ ref a, w.field.agent? ref = some a → ∀ c ∈ w.clusters, ref ∈ c.members →
    a.cluster = c.id
  dormant : ∀ ref a, w.field.agent? ref = some a → (a.cluster.valid = false ↔ a.lifecycle = .dormant)

/-- The cluster that an agent is in, by its position. -/
abbrev Homes := ActorRef → Option Nat

/-- What the field has for an agent in this cluster, or in the dormant pool. -/
def Housed (w : World σ Heading Quality Rng) (a : AgentState Heading Quality) : Option Nat → Prop
  | none => a.lifecycle = .dormant ∧ a.cluster = {}
  | some k => a.lifecycle = .active ∧ a.cluster = w.idOf k

theorem Housed.congr {a : AgentState Heading Quality} {place : Option Nat}
    (hHoused : Housed w a place) (hIds : ∀ k, place = some k → w'.idOf k = w.idOf k) :
    Housed w' a place := by
  cases place with
  | none => exact hHoused
  | some k => exact ⟨hHoused.1, hHoused.2.trans (hIds k rfl).symm⟩

/-- The two stores agree with the abstract state; the member lists of exempt clusters
are in the middle of an operation. -/
structure Represents (exempt : Nat → Prop) (w : World σ Heading Quality Rng) (home : Homes) :
    Prop where
  small : w.field.agents.length < uint32Size
  roster : ∀ (k : Nat) c, w.clusters[k]? = some c → ¬exempt k →
    c.members.Nodup ∧ ∀ ref, ref ∈ c.members ↔ home ref = some k
  valid : ∀ ref k, home ref = some k → k < w.clusters.length ∧ (w.idOf k).valid = true
  agents : ∀ ref a, w.field.agent? ref = some a → a.agentId = ref.index ∧ Housed w a (home ref)

/-! ### Reading the state after an edit -/

namespace World
variable {k : Nat} {f : ClusterState → ClusterState}

theorem clusters_edit (j : Nat) :
    (w.edit k f).clusters[j]? = if k = j then w.clusters[j]?.map f else w.clusters[j]? := by
  rw [edit, List.getElem?_modify]
  split <;> simp

@[simp] theorem length_edit : (w.edit k f).clusters.length = w.clusters.length := by
  simp [edit]

theorem idOf_edit (hId : ∀ c, (f c).id = c.id) (j : Nat) : (w.edit k f).idOf j = w.idOf j := by
  rw [idOf, idOf, clusters_edit]
  split
  next => simp [Option.map_map, Function.comp_def, hId]
  next => rfl

theorem idOf_of_cluster {c : ClusterState} (h : w.clusters[k]? = some c) : w.idOf k = c.id := by
  simp [idOf, h]

theorem membersOf_of_cluster {c : ClusterState} (h : w.clusters[k]? = some c) :
    w.membersOf k = c.members := by
  simp [membersOf, h]

theorem cluster_of_lt (h : k < w.clusters.length) : ∃ c, w.clusters[k]? = some c :=
  ⟨_, List.getElem?_eq_getElem h⟩

/-- The operations keep the clusters and their identifiers in place. -/
structure Frame (w w' : World σ Heading Quality Rng) : Prop where
  length : w'.clusters.length = w.clusters.length
  ids : ∀ j, w'.idOf j = w.idOf j

theorem recruitOne_frame (k : Nat) (ref : ActorRef) : Frame w (w.recruitOne k ref) where
  length := length_edit (w := w)
  ids := idOf_edit fun _ => rfl

theorem dismissOne_frame (k : Nat) (ref : ActorRef) : Frame w (w.dismissOne k ref) where
  length := length_edit (w := w)
  ids := idOf_edit fun _ => rfl

theorem mergeOne_frame (target : Nat) (ref : ActorRef) : Frame w (w.mergeOne target ref) where
  length := length_edit (w := w)
  ids := idOf_edit fun _ => rfl

theorem transferOne_frame (source target : Nat) (ref : ActorRef) :
    Frame w (w.transferOne source target ref) where
  length := by simp [transferOne]
  ids j := by
    have hLeft := idOf_edit (w := w) (k := source)
      (f := fun c => { c with members := c.members.filter (· ≠ ref) }) (fun _ => rfl) j
    exact (idOf_edit (k := target)
      (f := fun c => { c with members := c.members ++ [ref] }) (fun _ => rfl) j).trans hLeft

end World

namespace SwarmField
variable {f : SwarmField Heading Quality Rng} {ref r : ActorRef}

/-- The agents are numbered by their positions, as the constructor of the field numbers them. -/
def Numbered (f : SwarmField Heading Quality Rng) : Prop :=
  ∀ (i : Nat) a, f.agents[i]? = some a → a.agentId.toNat = i

theorem Numbered.agent?_of_mem (h : f.Numbered) {a : AgentState Heading Quality}
    (ha : a ∈ f.agents) : f.agent? ⟨a.agentId⟩ = some a := by
  obtain ⟨i, hi⟩ := List.mem_iff_getElem?.mp ha
  rw [agent?, h i a hi]
  exact hi

theorem Numbered.nodup_agentIds (h : f.Numbered) : (f.agents.map AgentState.agentId).Nodup := by
  rw [List.Nodup, List.pairwise_map, List.pairwise_iff_getElem]
  intro i j hi hj hLess hEq
  have hFirst := h i _ (List.getElem?_eq_getElem hi)
  have hSecond := h j _ (List.getElem?_eq_getElem hj)
  rw [hEq] at hFirst
  omega

theorem agent?_edit (g : AgentState Heading Quality → AgentState Heading Quality) :
    (f.edit ref g).agent? r = if r = ref then (f.agent? r).map g else f.agent? r := by
  have hIndex : ref.index.toNat = r.index.toNat ↔ r = ref := by
    constructor
    · intro hEq
      cases r
      cases ref
      simp only [ActorRef.mk.injEq]
      exact (UInt32.toNat_inj.mp hEq).symm
    · rintro rfl
      rfl
  rw [agent?, edit, List.getElem?_modify, agent?]
  simp only [hIndex]
  split <;> simp

@[simp] theorem length_edit (g : AgentState Heading Quality → AgentState Heading Quality) :
    (f.edit ref g).agents.length = f.agents.length := by
  simp [edit]

theorem agent?_edit_cases {g : AgentState Heading Quality → AgentState Heading Quality}
    {a' : AgentState Heading Quality} (h : (f.edit ref g).agent? r = some a') :
    ∃ a, f.agent? r = some a ∧ a' = if r = ref then g a else a := by
  rw [agent?_edit] at h
  split at h
  next hEq =>
    obtain ⟨a, ha, rfl⟩ := Option.map_eq_some_iff.mp h
    exact ⟨a, ha, (if_pos hEq).symm⟩
  next hNe => exact ⟨a', h, (if_neg hNe).symm⟩

/-- The bounds check before an assignment makes no difference. -/
theorem guarded_edit (hSmall : f.agents.length < uint32Size)
    (g : AgentState Heading Quality → AgentState Heading Quality) :
    (if ref.index < f.population then f.edit ref g else f) = f.edit ref g := by
  split
  next => rfl
  next hOutside =>
    have hLength : f.agents.length ≤ ref.index.toNat := by
      have hNot : ¬ref.index.toNat < (UInt32.ofNat f.agents.length).toNat := hOutside
      rw [UInt32.toNat_ofNat_of_lt' hSmall] at hNot
      exact Nat.not_lt.mp hNot
    have hSame : f.agents.modify ref.index.toNat g = f.agents := by
      refine List.ext_getElem? ?_
      intro i
      rw [List.getElem?_modify]
      split
      next hEq => simp [← hEq, List.getElem?_eq_none hLength]
      next => simp
    cases f
    simp_all [edit]

/-- New headings change nothing else. -/
theorem randomizeHeadings_frame (refs : List ActorRef) (f : SwarmField Heading Quality Rng) :
    (f.randomizeHeadings refs).agents.length = f.agents.length ∧
      ∀ r a', (f.randomizeHeadings refs).agent? r = some a' →
        ∃ a, f.agent? r = some a ∧ a'.agentId = a.agentId ∧ a'.lifecycle = a.lifecycle ∧
          a'.cluster = a.cluster := by
  induction refs generalizing f with
  | nil => exact ⟨rfl, fun r a' ha => ⟨a', ha, rfl, rfl, rfl⟩⟩
  | cons ref rest ih =>
      rw [randomizeHeadings, List.foldl_cons]
      split
      next =>
        obtain ⟨hLength, hRest⟩ := ih { f.edit ref fun a =>
          { a with heading := (f.randomUnitVector f.rng).1 } with rng := (f.randomUnitVector f.rng).2 }
        refine ⟨hLength.trans (length_edit _), ?_⟩
        intro r a' ha'
        obtain ⟨b, hb, hId, hLifecycle, hCluster⟩ := hRest r a' ha'
        have hEdit : (f.edit ref fun a =>
            { a with heading := (f.randomUnitVector f.rng).1 }).agent? r = some b := hb
        rw [agent?_edit] at hEdit
        split at hEdit
        next =>
          obtain ⟨a, ha, rfl⟩ := Option.map_eq_some_iff.mp hEdit
          exact ⟨a, ha, hId, hLifecycle, hCluster⟩
        next => exact ⟨b, hEdit, hId, hLifecycle, hCluster⟩
      next => exact ih f

end SwarmField

/-! ### The stores represent the abstract state -/

namespace Represents
variable {exempt : Nat → Prop} {home : Homes} {ref : ActorRef} {k source target : Nat}

/-- One agent moves to `place`. Identifiers stay, every list changes at this agent
only, and the field has the new place for it. -/
theorem rehome (hInv : Represents exempt w home) (ref : ActorRef) (place : Option Nat)
    (hFrame : World.Frame w w')
    (hRoster : ∀ k c, w.clusters[k]? = some c → ¬exempt k → ∀ c', w'.clusters[k]? = some c' →
      c'.members.Nodup ∧ ∀ r, r ∈ c'.members ↔ if r = ref then place = some k else r ∈ c.members)
    (hPlace : ∀ k, place = some k → k < w.clusters.length ∧ (w.idOf k).valid = true)
    (hSize : w'.field.agents.length = w.field.agents.length)
    (hAgents : ∀ r a', w'.field.agent? r = some a' → ∃ a, w.field.agent? r = some a ∧
      a'.agentId = a.agentId ∧ if r = ref then Housed w a' place else
        a'.lifecycle = a.lifecycle ∧ a'.cluster = a.cluster) :
    Represents exempt w' (Function.update home ref place) where
  small := hSize ▸ hInv.small
  roster k c' hc' hOpen := by
    obtain ⟨c, hc⟩ := World.cluster_of_lt (hFrame.length ▸ (List.getElem?_eq_some_iff.mp hc').1)
    obtain ⟨hNodup, hMem⟩ := hRoster k c hc hOpen c' hc'
    refine ⟨hNodup, ?_⟩
    intro r
    rw [hMem r]
    split
    next hEq => rw [hEq, Function.update_self]
    next hNe => rw [Function.update_of_ne hNe, (hInv.roster k c hc hOpen).2 r]
  valid r k hr := by
    rw [hFrame.length, hFrame.ids]
    by_cases hEq : r = ref
    · rw [hEq, Function.update_self] at hr
      exact hPlace k hr
    · rw [Function.update_of_ne hEq] at hr
      exact hInv.valid r k hr
  agents r a' ha' := by
    obtain ⟨a, ha, hId, hHoused⟩ := hAgents r a' ha'
    obtain ⟨hOldId, hOld⟩ := hInv.agents r a ha
    refine ⟨hId.trans hOldId, ?_⟩
    by_cases hEq : r = ref
    · rw [if_pos hEq] at hHoused
      rw [hEq, Function.update_self]
      cases place with
      | none => exact hHoused
      | some k => exact ⟨hHoused.1, hHoused.2.trans (hFrame.ids k).symm⟩
    · rw [if_neg hEq] at hHoused
      rw [Function.update_of_ne hEq]
      cases hHome : home r with
      | none =>
          rw [hHome] at hOld
          exact ⟨hHoused.1.trans hOld.1, hHoused.2.trans hOld.2⟩
      | some k =>
          rw [hHome] at hOld
          exact ⟨hHoused.1.trans hOld.1, hHoused.2.trans (hOld.2.trans (hFrame.ids k).symm)⟩

/-- Appending one agent to a list, removing it from a list, or neither. -/
theorem roster_push (ref : ActorRef) {members : List ActorRef} (hNodup : members.Nodup) (hNew : ref ∉ members) :
    (members ++ [ref]).Nodup ∧ ∀ r, r ∈ members ++ [ref] ↔ if r = ref then True else r ∈ members := by
  refine ⟨hNodup.append (by simp) (by simpa using hNew), ?_⟩
  intro r
  split
  next hEq => simp [hEq]
  next hNe => simp [hNe]

theorem roster_erase (ref : ActorRef) {members : List ActorRef} (hNodup : members.Nodup) :
    (members.filter (· ≠ ref)).Nodup ∧
      ∀ r, r ∈ members.filter (· ≠ ref) ↔ if r = ref then False else r ∈ members := by
  refine ⟨hNodup.filter _, ?_⟩
  intro r
  split
  next hEq => simp [hEq]
  next hNe => simp [hNe]

theorem roster_keep {members : List ActorRef} (hNodup : members.Nodup) (hOut : ref ∉ members) :
    members.Nodup ∧ ∀ r, r ∈ members ↔ if r = ref then False else r ∈ members := by
  refine ⟨hNodup, ?_⟩
  intro r
  split
  next hEq => simpa [hEq] using hOut
  next => exact Iff.rfl

/-- An agent of the dormant pool joins a cluster that has an identifier. -/
theorem recruitOne (hInv : Represents exempt w home) (hHome : home ref = none)
    (hk : k < w.clusters.length) (hValid : (w.idOf k).valid = true) :
    Represents exempt (w.recruitOne k ref) (Function.update home ref (some k)) := by
  obtain ⟨hLength, hHeadings⟩ := SwarmField.randomizeHeadings_frame [ref]
    (w.field.edit ref fun a => { a with lifecycle := .active, cluster := w.idOf k })
  refine hInv.rehome ref (some k) (World.recruitOne_frame k ref) ?_ ?_ (hLength.trans (SwarmField.length_edit _)) ?_
  · intro j c hc hOpen c' hc'
    obtain ⟨hNodup, hMem⟩ := hInv.roster j c hc hOpen
    have hOut : ref ∉ c.members := by simp [hMem, hHome]
    have hClusters : (w.edit k fun c => { c with members := c.members ++ [ref] }).clusters[j]? =
        some c' := hc'
    rw [World.clusters_edit, hc] at hClusters
    split at hClusters
    next hEq =>
      obtain rfl := Option.some.inj hClusters
      simpa [hEq] using roster_push ref hNodup hOut
    next hNe =>
      obtain rfl := Option.some.inj hClusters
      simpa [hNe] using roster_keep hNodup hOut
  · rintro j hj
    obtain rfl := Option.some.inj hj
    exact ⟨hk, hValid⟩
  · intro r a' ha'
    obtain ⟨b, hb, hId, hLifecycle, hCluster⟩ := hHeadings r a' ha'
    obtain ⟨a, ha, rfl⟩ := SwarmField.agent?_edit_cases hb
    refine ⟨a, ha, ?_⟩
    split at hId
    next hEq =>
      rw [if_pos hEq] at hLifecycle hCluster ⊢
      exact ⟨hId, hLifecycle, hCluster⟩
    next hNe =>
      rw [if_neg hNe] at hLifecycle hCluster ⊢
      exact ⟨hId, hLifecycle, hCluster⟩

/-- An agent that is in this cluster, or in none, goes back to the dormant pool. -/
theorem dismissOne (hInv : Represents exempt w home) (hHome : ∀ j, home ref = some j → j = k) :
    Represents exempt (w.dismissOne k ref) (Function.update home ref none) := by
  have hField : (w.dismissOne k ref).field =
      w.field.edit ref fun a => { a with lifecycle := .dormant, cluster := {} } :=
    SwarmField.guarded_edit hInv.small _
  refine hInv.rehome ref none (World.dismissOne_frame k ref) ?_ ?_ (by rw [hField, SwarmField.length_edit]) ?_
  · intro j c hc hOpen c' hc'
    obtain ⟨hNodup, hMem⟩ := hInv.roster j c hc hOpen
    have hClusters : (w.edit k fun c =>
        { c with members := c.members.filter (· ≠ ref) }).clusters[j]? = some c' := hc'
    rw [World.clusters_edit, hc] at hClusters
    split at hClusters
    next hEq =>
      obtain rfl := Option.some.inj hClusters
      simpa using roster_erase ref hNodup
    next hNe =>
      obtain rfl := Option.some.inj hClusters
      have hOut : ref ∉ c.members := fun hIn => hNe (hHome j ((hMem ref).mp hIn)).symm
      simpa using roster_keep hNodup hOut
  · intro j hj
    cases hj
  · intro r a' ha'
    rw [hField] at ha'
    obtain ⟨a, ha, rfl⟩ := SwarmField.agent?_edit_cases ha'
    refine ⟨a, ha, ?_⟩
    split
    next => exact ⟨rfl, rfl, rfl⟩
    next => exact ⟨rfl, rfl, rfl⟩

/-- An agent that leaves one cluster for another stays active. -/
theorem agents_joining (hInv : Represents exempt w home) (hHome : home ref = some source)
    {r : ActorRef} {a' : AgentState Heading Quality}
    (ha' : (w.field.edit ref fun a => { a with cluster := w.idOf target }).agent? r = some a') :
    ∃ a, w.field.agent? r = some a ∧ a'.agentId = a.agentId ∧
      if r = ref then Housed w a' (some target) else
        a'.lifecycle = a.lifecycle ∧ a'.cluster = a.cluster := by
  obtain ⟨a, ha, rfl⟩ := SwarmField.agent?_edit_cases ha'
  refine ⟨a, ha, ?_⟩
  split
  next hEq =>
    subst hEq
    obtain ⟨-, hHoused⟩ := hInv.agents r a ha
    rw [hHome] at hHoused
    exact ⟨rfl, hHoused.1, rfl⟩
  next => exact ⟨rfl, rfl, rfl⟩

/-- A member of an exempt cluster joins another one, which keeps it in both lists. -/
theorem mergeOne (hInv : Represents (· = source) w home) (hHome : home ref = some source)
    (hk : target < w.clusters.length)
    (hValid : (w.idOf target).valid = true) :
    Represents (· = source) (w.mergeOne target ref) (Function.update home ref (some target)) := by
  have hField : (w.mergeOne target ref).field =
      w.field.edit ref fun a => { a with cluster := w.idOf target } :=
    SwarmField.guarded_edit hInv.small _
  refine hInv.rehome ref (some target) (World.mergeOne_frame target ref) ?_ ?_ (by rw [hField, SwarmField.length_edit]) ?_
  · intro j c hc hOpen c' hc'
    obtain ⟨hNodup, hMem⟩ := hInv.roster j c hc hOpen
    have hOut : ref ∉ c.members := by
      rw [hMem, hHome]
      exact fun hEq => hOpen (Option.some.inj hEq).symm
    have hClusters : (w.edit target fun c =>
        { c with members := c.members ++ [ref] }).clusters[j]? = some c' := hc'
    rw [World.clusters_edit, hc] at hClusters
    split at hClusters
    next hEq =>
      obtain rfl := Option.some.inj hClusters
      simpa [hEq] using roster_push ref hNodup hOut
    next hOther =>
      obtain rfl := Option.some.inj hClusters
      simpa [hOther] using roster_keep hNodup hOut
  · rintro j hj
    obtain rfl := Option.some.inj hj
    exact ⟨hk, hValid⟩
  · intro r a' ha'
    rw [hField] at ha'
    exact hInv.agents_joining hHome ha'

/-- A member of the source joins the target, which may be the source itself. -/
theorem transferOne (hInv : Represents exempt w home) (hHome : home ref = some source)
    (hk : target < w.clusters.length) (hValid : (w.idOf target).valid = true) :
    Represents exempt (w.transferOne source target ref)
      (Function.update home ref (some target)) := by
  have hField : (w.transferOne source target ref).field =
      w.field.edit ref fun a => { a with cluster := w.idOf target } :=
    SwarmField.guarded_edit hInv.small _
  refine hInv.rehome ref (some target) (World.transferOne_frame source target ref) ?_ ?_
    (by rw [hField, SwarmField.length_edit]) ?_
  · intro j c hc hOpen c' hc'
    obtain ⟨hNodup, hMem⟩ := hInv.roster j c hc hOpen
    have hClusters : ((w.edit source fun c =>
        { c with members := c.members.filter (· ≠ ref) }).edit target fun c =>
        { c with members := c.members ++ [ref] }).clusters[j]? = some c' := hc'
    rw [World.clusters_edit, World.clusters_edit, hc] at hClusters
    have hOut : source ≠ j → ref ∉ c.members := by
      intro hNe hIn
      exact hNe (Option.some.inj (hHome.symm.trans ((hMem ref).mp hIn)))
    by_cases hSource : source = j
    · obtain ⟨hNodup', hMem'⟩ := roster_erase ref hNodup
      by_cases hTarget : target = j
      · simp only [hSource, hTarget, if_true, Option.map_some] at hClusters
        obtain rfl := Option.some.inj hClusters
        obtain ⟨hNodup'', hMem''⟩ := roster_push ref hNodup' (by simp)
        refine ⟨hNodup'', ?_⟩
        intro r
        rw [hMem'' r, hMem' r]
        by_cases hEq : r = ref
        · simp [hEq, hTarget]
        · simp [hEq]
      · simp only [hSource, hTarget, if_true, if_false, Option.map_some] at hClusters
        obtain rfl := Option.some.inj hClusters
        simpa [hTarget] using roster_erase ref hNodup
    · by_cases hTarget : target = j
      · simp only [hSource, hTarget, if_true, if_false, Option.map_some] at hClusters
        obtain rfl := Option.some.inj hClusters
        simpa [hTarget] using roster_push ref hNodup (hOut hSource)
      · simp only [hSource, hTarget, if_false] at hClusters
        obtain rfl := Option.some.inj hClusters
        simpa [hTarget] using roster_keep hNodup (hOut hSource)
  · rintro j hj
    obtain rfl := Option.some.inj hj
    exact ⟨hk, hValid⟩
  · intro r a' ha'
    rw [hField] at ha'
    exact hInv.agents_joining hHome ha'

end Represents
end CelerMem.Necto.Swarm
