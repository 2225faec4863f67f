import CelerMem.Necto.Swarm.Membership

/-! The membership invariant over whole runs of `ClusterService`. Creating and
dissolving clusters always keeps it. Dismissing and transferring do not check that
the agents are members of the cluster they are given, so there it depends on the call. -/
namespace CelerMem.Necto.Swarm
variable {σ Heading Quality Rng : Type} {w w' : World σ Heading Quality Rng}

/-- The calls that keep the invariant: nobody is dismissed from a cluster he is not
in while he is in another one, only members are transferred, to another cluster once,
and nobody joins the cluster that got the invalid identifier. -/
def Allowed (w : World σ Heading Quality Rng) : ClusterCall → Prop
  | .createCluster _ _ => True
  | .recruit k count | .recruitByQuality k count =>
      (w.idOf k).valid = true ∨ count = 0 ∨ ∀ a ∈ w.field.agents, a.lifecycle ≠ .dormant
  | .dismiss k refs => ∀ ref ∈ refs, ∀ j, j ≠ k → ref ∉ w.membersOf j
  | .dissolve _ => True
  | .merge source target => (w.idOf target).valid = true ∨ w.membersOf source = []
  | .transfer source target refs =>
      (∀ ref ∈ refs, ref ∈ w.membersOf source) ∧
        (source ≠ target → refs.Nodup ∧ ((w.idOf target).valid = true ∨ refs = []))

/-- No operation is under way. -/
def Consistent (w : World σ Heading Quality Rng) : Prop :=
  ∃ home, Represents (fun _ => False) w home

namespace Represents
variable {exempt : Nat → Prop} {home : Homes} {k source target : Nat}

theorem mem_membersOf (hInv : Represents (fun _ => False) w home) (k : Nat) (ref : ActorRef) :
    ref ∈ w.membersOf k ↔ home ref = some k := by
  by_cases hk : k < w.clusters.length
  · obtain ⟨c, hc⟩ := World.cluster_of_lt hk
    rw [World.membersOf_of_cluster hc]
    exact (hInv.roster k c hc id).2 ref
  · have hNone : w.clusters[k]? = none := List.getElem?_eq_none (Nat.not_lt.mp hk)
    have hAway : home ref ≠ some k := fun hHome => hk (hInv.valid ref k hHome).1
    simp [World.membersOf, hNone, hAway]

/-! ### The loops -/

theorem recruit (agents : List (AgentState Heading Quality)) (count : UInt32)
    (recruited : List ActorRef) (hInv : Represents exempt w home) (hk : k < w.clusters.length)
    (hValid : (w.idOf k).valid = true)
    (hPool : ∀ a ∈ agents, a.lifecycle = .dormant → home ⟨a.agentId⟩ = none)
    (hNodup : (agents.map AgentState.agentId).Nodup) :
    ∃ home', Represents exempt (w.recruit k count recruited agents).2 home' := by
  induction agents generalizing w home recruited with
  | nil => exact ⟨home, hInv⟩
  | cons a rest ih =>
      obtain ⟨hFresh, hRest⟩ := List.nodup_cons.mp hNodup
      have hPoolRest : ∀ b ∈ rest, b.lifecycle = .dormant → home ⟨b.agentId⟩ = none :=
        fun b hb => hPool b (List.mem_cons_of_mem a hb)
      unfold World.recruit
      split
      next => exact ⟨home, hInv⟩
      next =>
        split
        next => exact ih recruited hInv hk hValid hPoolRest hRest
        next hDormant =>
          have hHome := hPool a List.mem_cons_self (not_not.mp hDormant)
          refine ih _ (hInv.recruitOne hHome hk hValid) ?_ ?_ ?_ hRest
          · exact hk.trans_eq (World.recruitOne_frame k _).length.symm
          · exact ((World.recruitOne_frame k _).ids k).symm ▸ hValid
          · intro b hb hDormantB
            have hNe : (⟨b.agentId⟩ : ActorRef) ≠ ⟨a.agentId⟩ := by
              intro hEq
              exact hFresh (List.mem_map.mpr ⟨b, hb, congrArg ActorRef.index hEq⟩)
            rw [Function.update_of_ne hNe]
            exact hPoolRest b hb hDormantB

theorem dismiss (refs : List ActorRef) (hInv : Represents exempt w home)
    (hHome : ∀ ref ∈ refs, ∀ j, home ref = some j → j = k) :
    ∃ home', Represents exempt (w.dismiss k refs) home' := by
  induction refs generalizing w home with
  | nil => exact ⟨home, hInv⟩
  | cons ref rest ih =>
      refine ih (hInv.dismissOne (hHome ref List.mem_cons_self)) ?_
      intro r hr j hj
      by_cases hEq : r = ref
      · rw [hEq, Function.update_self] at hj
        cases hj
      · rw [Function.update_of_ne hEq] at hj
        exact hHome r (List.mem_cons_of_mem ref hr) j hj

/-- Until the source is emptied its members are in both lists. -/
theorem mergeAll (refs : List ActorRef) (hInv : Represents (· = source) w home)
    (hHome : ∀ ref ∈ refs, home ref = some source) (hNodup : refs.Nodup)
    (hk : target < w.clusters.length) (hValid : (w.idOf target).valid = true) :
    Represents (· = source) (refs.foldl (fun w ref => w.mergeOne target ref) w)
      fun r => if r ∈ refs then some target else home r := by
  induction refs generalizing w home with
  | nil => simpa using hInv
  | cons ref rest ih =>
      obtain ⟨hFresh, hRest⟩ := List.nodup_cons.mp hNodup
      have hOne := hInv.mergeOne (hHome ref List.mem_cons_self) hk hValid
      have hAll := ih hOne ?_ hRest ?_ ?_
      · have hSame : (fun r => if r ∈ ref :: rest then some target else home r) =
            fun r => if r ∈ rest then some target else Function.update home ref (some target) r := by
          funext r
          by_cases hEq : r = ref
          · simp [hEq]
          · simp [hEq]
        rw [hSame]
        exact hAll
      · intro r hr
        have hNe : r ≠ ref := fun hEq => hFresh (hEq ▸ hr)
        rw [Function.update_of_ne hNe]
        exact hHome r (List.mem_cons_of_mem ref hr)
      · exact hk.trans_eq (World.mergeOne_frame target ref).length.symm
      · exact ((World.mergeOne_frame target ref).ids target).symm ▸ hValid

theorem merge (hInv : Represents (fun _ => False) w home) (hNe : source ≠ target)
    (hk : target < w.clusters.length)
    (hValid : (w.idOf target).valid = true ∨ w.membersOf source = []) :
    ∃ home', Represents (fun _ => False) (w.merge source target) home' := by
  set refs := w.membersOf source with hRefs
  have hMembers : ∀ ref, ref ∈ refs ↔ home ref = some source := hInv.mem_membersOf source
  have hOpen : Represents (· = source) w home :=
    { hInv with roster := fun k c hc _ => hInv.roster k c hc id }
  have hMerged : Represents (· = source) (refs.foldl (fun w ref => w.mergeOne target ref) w)
      fun r => if r ∈ refs then some target else home r := by
    rcases hValid with hValid | hNone
    · refine hOpen.mergeAll refs (fun ref hRef => (hMembers ref).mp hRef) ?_ hk hValid
      cases hc : w.clusters[source]? with
      | none => simp [hRefs, World.membersOf, hc]
      | some c =>
          rw [hRefs, World.membersOf_of_cluster hc]
          exact (hInv.roster source c hc id).1
    · simpa [hNone] using hOpen
  have hIds : ∀ j, (w.merge source target).idOf j =
      (refs.foldl (fun w ref => w.mergeOne target ref) w).idOf j :=
    World.idOf_edit fun _ => rfl
  refine ⟨fun r => if r ∈ refs then some target else home r, hMerged.small, ?_, ?_, ?_⟩
  · intro j c' hc' _
    have hCleared : ((refs.foldl (fun w ref => w.mergeOne target ref) w).edit source fun c =>
        { c with members := [], active := false }).clusters[j]? = some c' := hc'
    rw [World.clusters_edit] at hCleared
    split at hCleared
    next hEq =>
      obtain ⟨c, -, rfl⟩ := Option.map_eq_some_iff.mp hCleared
      refine ⟨List.nodup_nil, ?_⟩
      intro r
      subst hEq
      -- every former member of the source has moved on
      by_cases hMem : r ∈ refs
      · simp [hMem, Ne.symm hNe]
      · simpa [hMem] using fun hHome => hMem ((hMembers r).mpr hHome)
    next hOther => exact hMerged.roster j c' hCleared (Ne.symm hOther)
  · intro ref j hHome
    obtain ⟨hLess, hId⟩ := hMerged.valid ref j hHome
    exact ⟨hLess.trans_eq World.length_edit.symm, (hIds j).symm ▸ hId⟩
  · intro ref a ha
    obtain ⟨hId, hHoused⟩ := hMerged.agents ref a ha
    exact ⟨hId, hHoused.congr fun j _ => hIds j⟩

theorem transfer (refs : List ActorRef) (hInv : Represents exempt w home)
    (hHome : ∀ ref ∈ refs, home ref = some source) (hOnce : source ≠ target → refs.Nodup)
    (hk : target < w.clusters.length) (hValid : refs ≠ [] → (w.idOf target).valid = true) :
    ∃ home', Represents exempt (w.transfer source target refs) home' := by
  induction refs generalizing w home with
  | nil => exact ⟨home, hInv⟩
  | cons ref rest ih =>
      have hTarget := hValid (List.cons_ne_nil ref rest)
      have hFrame := World.transferOne_frame (w := w) source target ref
      have hOne := hInv.transferOne (hHome ref List.mem_cons_self) hk hTarget
      refine ih hOne ?_ ?_ ?_ ?_
      · intro r hr
        by_cases hEq : r = ref
        · rw [hEq, Function.update_self]
          by_cases hSame : source = target
          · rw [hSame]
          · exact absurd (hEq ▸ hr) (List.nodup_cons.mp (hOnce hSame)).1
        · rw [Function.update_of_ne hEq]
          exact hHome r (List.mem_cons_of_mem ref hr)
      · exact fun hNe => (List.nodup_cons.mp (hOnce hNe)).2
      · exact hk.trans_eq hFrame.length.symm
      · intro _
        rw [hFrame.ids]
        exact hTarget

/-- The flag of a cluster is not part of the membership. -/
theorem deactivate (hInv : Represents exempt w home) (k : Nat) :
    Represents exempt (w.edit k fun c => { c with active := false }) home := by
  have hIds : ∀ j, (w.edit k fun c => { c with active := false }).idOf j = w.idOf j :=
    World.idOf_edit fun _ => rfl
  refine ⟨hInv.small, ?_, ?_, ?_⟩
  · intro j c' hc' hOpen
    rw [World.clusters_edit] at hc'
    split at hc'
    next =>
      obtain ⟨c, hc, rfl⟩ := Option.map_eq_some_iff.mp hc'
      exact hInv.roster j c hc hOpen
    next => exact hInv.roster j c' hc' hOpen
  · intro ref j hHome
    obtain ⟨hLess, hId⟩ := hInv.valid ref j hHome
    exact ⟨hLess.trans_eq World.length_edit.symm, (hIds j).symm ▸ hId⟩
  · intro ref a ha
    obtain ⟨hId, hHoused⟩ := hInv.agents ref a ha
    exact ⟨hId, hHoused.congr fun j _ => hIds j⟩

theorem createCluster (hInv : Represents exempt w home) (name : String) (rootTask : UInt32) :
    Represents exempt (w.createCluster name rootTask) home := by
  have hOld : ∀ j, j < w.clusters.length →
      (w.createCluster name rootTask).clusters[j]? = w.clusters[j]? :=
    fun j hj => List.getElem?_append_left hj
  have hIds : ∀ j, j < w.clusters.length →
      (w.createCluster name rootTask).idOf j = w.idOf j := by
    intro j hj
    rw [World.idOf, hOld j hj, World.idOf]
  have hLength : (w.createCluster name rootTask).clusters.length = w.clusters.length + 1 := by
    simp [World.createCluster]
  refine ⟨hInv.small, ?_, ?_, ?_⟩
  · intro j c hc hOpen
    by_cases hj : j < w.clusters.length
    · exact hInv.roster j c (hOld j hj ▸ hc) hOpen
    · have hLast : j = w.clusters.length := by
        have := (List.getElem?_eq_some_iff.mp hc).1
        omega
      have hNew : c.members = [] := by
        simp only [World.createCluster, hLast, List.getElem?_concat_length] at hc
        rw [← Option.some.inj hc]
      refine ⟨hNew ▸ List.nodup_nil, ?_⟩
      intro ref
      have hAway : home ref ≠ some j := fun hHome => hj (hInv.valid ref j hHome).1
      simp [hNew, hAway]
  · intro ref j hHome
    obtain ⟨hj, hId⟩ := hInv.valid ref j hHome
    exact ⟨by omega, (hIds j hj).symm ▸ hId⟩
  · intro ref a ha
    obtain ⟨hId, hHoused⟩ := hInv.agents ref a ha
    exact ⟨hId, hHoused.congr fun j hHome => hIds j (hInv.valid ref j hHome).1⟩

/-- The entries of the field are the agents that their own identifiers name. -/
theorem numbered (hInv : Represents exempt w home) : w.field.Numbered := by
  intro i a hi
  have hLess : i < uint32Size := (List.getElem?_eq_some_iff.mp hi).1.trans hInv.small
  have hIndex : (UInt32.ofNat i).toNat = i := UInt32.toNat_ofNat_of_lt' hLess
  have hAgent : w.field.agent? ⟨UInt32.ofNat i⟩ = some a := by
    rw [SwarmField.agent?, hIndex]
    exact hi
  rw [(hInv.agents _ a hAgent).1]
  exact hIndex

/-- The dormant agents of the field are in no cluster. -/
theorem pool (hInv : Represents exempt w home) {a : AgentState Heading Quality}
    (ha : a ∈ w.field.agents) (hDormant : a.lifecycle = .dormant) : home ⟨a.agentId⟩ = none := by
  have hHoused := (hInv.agents _ a (hInv.numbered.agent?_of_mem ha)).2
  cases hHome : home ⟨a.agentId⟩ with
  | none => rfl
  | some k =>
      rw [hHome] at hHoused
      exact absurd (hDormant.symm.trans hHoused.1) (by decide)

end Represents

/-- Recruiting nobody. -/
theorem World.recruit_nobody (agents : List (AgentState Heading Quality)) (k : Nat) (count : UInt32)
    (h : count = 0 ∨ ∀ a ∈ agents, a.lifecycle ≠ .dormant) : (w.recruit k count [] agents).2 = w := by
  induction agents with
  | nil => rfl
  | cons a rest ih =>
      rcases h with rfl | hAwake
      · simp [recruit]
      · have hHead := hAwake a List.mem_cons_self
        have hTail := ih (.inr fun b hb => hAwake b (List.mem_cons_of_mem a hb))
        unfold recruit
        split
        next => rfl
        next => exact hTail

/-- The list that is recruited from holds the agents of the field in any order. -/
theorem Consistent.recruit (hInv : Consistent w) {agents : List (AgentState Heading Quality)}
    (hPerm : agents.Perm w.field.agents) {k : Nat} (hk : k < w.clusters.length) {count : UInt32}
    (h : (w.idOf k).valid = true ∨ count = 0 ∨ ∀ a ∈ w.field.agents, a.lifecycle ≠ .dormant) :
    Consistent (w.recruit k count [] agents).2 := by
  obtain ⟨home, hInv⟩ := hInv
  rcases h with hValid | hNobody
  · refine hInv.recruit agents count [] hk hValid ?_ ?_
    · exact fun a ha hDormant => hInv.pool (hPerm.mem_iff.mp ha) hDormant
    · exact (hPerm.map _).nodup_iff.mpr hInv.numbered.nodup_agentIds
  · rw [World.recruit_nobody agents k count
      (hNobody.imp_right fun hAwake a ha => hAwake a (hPerm.mem_iff.mp ha))]
    exact ⟨home, hInv⟩

/-- An allowed call keeps the invariant. -/
theorem Consistent.step [LinearOrder Quality] {sort : StdSort (AgentState Heading Quality) World.better}
    {call : ClusterCall} (hInv : Consistent w) (hAllowed : Allowed w call)
    (h : w.step sort call = some w') : Consistent w' := by
  unfold World.step at h
  split at h
  next hPositions =>
    cases call with
    | createCluster name rootTask =>
        obtain rfl := Option.some.inj h
        obtain ⟨home, hInv⟩ := hInv
        exact ⟨home, hInv.createCluster name rootTask⟩
    | recruit k count =>
        obtain rfl := Option.some.inj h
        exact hInv.recruit (List.Perm.refl _) (by simpa [ClusterCall.clusters] using hPositions)
          hAllowed
    | recruitByQuality k count =>
        obtain rfl := Option.some.inj h
        exact hInv.recruit (sort.perm _) (by simpa [ClusterCall.clusters] using hPositions) hAllowed
    | dismiss k refs =>
        obtain rfl := Option.some.inj h
        obtain ⟨home, hInv⟩ := hInv
        refine hInv.dismiss refs ?_
        intro ref hRef j hHome
        by_contra hNe
        exact hAllowed ref hRef j hNe ((hInv.mem_membersOf j ref).mpr hHome)
    | dissolve k =>
        obtain rfl := Option.some.inj h
        obtain ⟨home, hInv⟩ := hInv
        obtain ⟨home', hDismissed⟩ := hInv.dismiss (k := k) (w.membersOf k) (by
          intro ref hRef j hHome
          exact Option.some.inj (hHome.symm.trans ((hInv.mem_membersOf k ref).mp hRef)))
        exact ⟨home', hDismissed.deactivate k⟩
    | merge source target =>
        simp only at h
        split at h
        next => cases h
        next hNe =>
          obtain rfl := Option.some.inj h
          obtain ⟨home, hInv⟩ := hInv
          have hBoth : source < w.clusters.length ∧ target < w.clusters.length := by
            simpa [ClusterCall.clusters] using hPositions
          exact hInv.merge hNe hBoth.2 hAllowed
    | transfer source target refs =>
        obtain rfl := Option.some.inj h
        obtain ⟨home, hInv⟩ := hInv
        obtain ⟨hMembers, hOnce⟩ := hAllowed
        have hBoth : source < w.clusters.length ∧ target < w.clusters.length := by
          simpa [ClusterCall.clusters] using hPositions
        have hHome : ∀ ref ∈ refs, home ref = some source :=
          fun ref hRef => (hInv.mem_membersOf source ref).mp (hMembers ref hRef)
        refine hInv.transfer refs hHome (fun hNe => (hOnce hNe).1) hBoth.2 ?_
        intro hSome
        by_cases hSame : source = target
        · obtain ⟨ref, hRef⟩ := List.exists_mem_of_ne_nil refs hSome
          exact (hInv.valid ref target (hSame ▸ hHome ref hRef)).2
        · exact (hOnce hSame).2.resolve_right hSome
  next => cases h

/-- The abstract state is what the claim about both stores says. -/
theorem Consistent.membership (hInv : Consistent w) : Membership w := by
  obtain ⟨home, hInv⟩ := hInv
  have hRoster : ∀ (k : Nat) ref, (∃ c, w.clusters[k]? = some c ∧ ref ∈ c.members) ↔
      home ref = some k := by
    intro k ref
    constructor
    · rintro ⟨c, hc, hMem⟩
      exact ((hInv.roster k c hc id).2 ref).mp hMem
    · intro hHome
      obtain ⟨c, hc⟩ := World.cluster_of_lt (hInv.valid ref k hHome).1
      exact ⟨c, hc, ((hInv.roster k c hc id).2 ref).mpr hHome⟩
  refine ⟨?_, ?_, ?_, ?_⟩
  · intro ref
    refine List.nodup_iff_count_le_one.mp ?_ ref
    rw [List.nodup_flatMap]
    constructor
    · intro c hc
      obtain ⟨k, hk⟩ := List.mem_iff_getElem?.mp hc
      exact (hInv.roster k c hk id).1
    · rw [List.pairwise_iff_getElem]
      intro i j hi hj hLess ref hFirst hSecond
      have hHome := (hRoster i ref).mp ⟨_, List.getElem?_eq_getElem hi, hFirst⟩
      have hOther := (hRoster j ref).mp ⟨_, List.getElem?_eq_getElem hj, hSecond⟩
      have hEq : i = j := Option.some.inj (hHome.symm.trans hOther)
      omega
  · intro ref a ha
    have hHoused := (hInv.agents ref a ha).2
    simp only [hRoster]
    cases hHome : home ref with
    | none =>
        rw [hHome] at hHoused
        simp [hHoused.1, ExistsUnique]
    | some k =>
        rw [hHome] at hHoused
        simp [hHoused.1]
  · intro ref a ha c hc hMem
    obtain ⟨k, hk⟩ := List.mem_iff_getElem?.mp hc
    have hHoused := (hInv.agents ref a ha).2
    rw [(hRoster k ref).mp ⟨c, hk, hMem⟩] at hHoused
    exact hHoused.2.trans (World.idOf_of_cluster hk)
  · intro ref a ha
    have hHoused := (hInv.agents ref a ha).2
    cases hHome : home ref with
    | none =>
        rw [hHome] at hHoused
        simp [hHoused.1, hHoused.2, ClusterId.valid]
    | some k =>
        have hValid := (hInv.valid ref k hHome).2
        rw [hHome] at hHoused
        simp [hHoused.1, hHoused.2, hValid]

/-- No clusters, and all agents dormant in a field that numbers them. -/
structure World.Initial (w : World σ Heading Quality Rng) : Prop where
  clusters : w.clusters = []
  small : w.field.agents.length < uint32Size
  agents : ∀ ref a, w.field.agent? ref = some a →
    a.agentId = ref.index ∧ a.lifecycle = .dormant ∧ a.cluster = {}

theorem SwarmField.makeAgents_dormant (draw : Rng → Heading × Rng) (zero : Quality) (rng : Rng)
    (n : Nat) : (makeAgents draw zero rng n).1.length = n ∧
      ∀ (i : Nat) a, (makeAgents draw zero rng n).1[i]? = some a →
        a.agentId = UInt32.ofNat i ∧ a.lifecycle = .dormant ∧ a.cluster = {} := by
  induction n with
  | zero => exact ⟨rfl, fun i a hi => by simp [makeAgents] at hi⟩
  | succ n ih =>
      obtain ⟨hLength, hAgents⟩ := ih
      refine ⟨by simp [makeAgents, hLength], ?_⟩
      intro i a hi
      simp only [makeAgents, List.getElem?_append, hLength] at hi
      split at hi
      next => exact hAgents i a hi
      next hLess =>
        have hLast : i - n = 0 := by
          have := (List.getElem?_eq_some_iff.mp hi).1
          simp only [List.length_singleton] at this
          omega
        have hIndex : i = n := by omega
        rw [hLast, List.getElem?_cons_zero] at hi
        obtain rfl := Option.some.inj hi
        exact ⟨by rw [hIndex], rfl, rfl⟩

/-- What the constructor of the field builds. -/
theorem SwarmField.make_initial (system : ActorSystem σ) (population : UInt32)
    (draw : Rng → Heading × Rng) (zero : Quality) (seed : Rng) :
    World.Initial { system, field := SwarmField.make population draw zero seed } where
  clusters := rfl
  small := by
    rw [make, (makeAgents_dormant draw zero seed _).1]
    exact population.toNat_lt
  agents ref a ha := by
    obtain ⟨hId, hRest⟩ := (makeAgents_dormant draw zero seed population.toNat).2 _ a ha
    exact ⟨hId.trans UInt32.ofNat_toNat, hRest⟩

theorem World.Initial.consistent (h : w.Initial) : Consistent w := by
  refine ⟨fun _ => none, h.small, ?_, ?_, ?_⟩
  · intro k c hc
    simp [h.clusters] at hc
  · intro ref k hHome
    cases hHome
  · exact fun ref a ha => h.agents ref a ha

/-! Two clusters and two agents, of which the first one is recruited to cluster 0. -/
namespace Demo

/-- A stable sort is one of the implementations of `std::sort`. -/
def stableSort : StdSort (AgentState Unit ℕ) World.better where
  run l := l.mergeSort fun a b => decide (b.quality ≤ a.quality)
  perm l := List.mergeSort_perm l _
  sorted l := by
    refine (List.pairwise_mergeSort ?_ ?_ l).imp ?_
    · intro a b c hab hbc
      simp only [decide_eq_true_eq] at hab hbc ⊢
      exact hbc.trans hab
    · intro a b
      simp only [Bool.or_eq_true, decide_eq_true_eq]
      exact Nat.le_total b.quality a.quality
    · intro a b hab
      simp only [decide_eq_true_eq] at hab
      exact Nat.not_lt.mpr hab

def start : World Unit Unit ℕ Unit :=
  { system := {}, field := SwarmField.make 2 (fun rng => ((), rng)) 0 () }

def created : World Unit Unit ℕ Unit := (start.createCluster "left" 0).createCluster "right" 0

def recruited : World Unit Unit ℕ Unit := (created.recruit 0 1 [] created.field.agents).2

theorem created_run : Transition.RunsWhere Allowed (World.step stableSort) start created :=
  (Transition.RunsWhere.refl.tail (.createCluster "left" 0) trivial rfl).tail
    (.createCluster "right" 0) trivial rfl

theorem recruited_run : Transition.RunsWhere Allowed (World.step stableSort) start recruited :=
  created_run.tail (.recruit 0 1) (.inl rfl) rfl

end Demo

end CelerMem.Necto.Swarm
