import CelerMem.Library.Sweep
import CelerMem.Necto.Swarm.Cluster
import Mathlib

/-! `align_cluster`, the Vicsek update of a cluster. It writes the agents one after the other
into the array that it reads the headings of the neighbours from. -/
namespace CelerMem.Necto.Swarm

variable {Heading Quality Rng : Type}

/-! ## The agents of a field -/

/-- The agents of a field by their position. -/
abbrev Cells (Heading Quality : Type) := ℕ → Option (AgentState Heading Quality)

def SwarmField.cells (f : SwarmField Heading Quality Rng) : Cells Heading Quality :=
  fun i => f.agents[i]?

def positions (members : List ActorRef) : List ℕ := members.map fun ref => ref.index.toNat

section Cells
variable {f f' : SwarmField Heading Quality Rng}

theorem agents_eq_of_cells (h : f.cells = f'.cells) : f.agents = f'.agents :=
  List.ext_getElem? fun i => congrFun h i

theorem cells_edit (ref : ActorRef)
    (g : AgentState Heading Quality → AgentState Heading Quality) : (f.edit ref g).cells =
      Function.update f.cells ref.index.toNat ((f.agent? ref).map g) := by
  funext i
  rw [SwarmField.cells, SwarmField.edit, List.getElem?_modify]
  by_cases hSame : i = ref.index.toNat
  · subst hSame
    rw [Function.update_self, SwarmField.agent?]
    simp
  · rw [Function.update_of_ne hSame]
    simp [SwarmField.cells, Ne.symm hSame]

end Cells

/-! ## The update in place -/

/-- What the update does with vectors: whether their cosine distance is below the radius, the
normalisation, and a Gaussian vector scaled by the noise. -/
structure Vicsek (Heading Rng : Type) where
  near : Heading → Heading → Bool
  normalize : Heading → Heading
  sampleGaussian : Rng → Heading × Rng

section Update
variable [AddCommMonoid Heading]

namespace SwarmField

/-- The loop over the neighbours, which are counted in 32 bits. -/
def sumNear (m : Vicsek Heading Rng) (f : SwarmField Heading Quality Rng) (heading : Heading) :
    List ActorRef → Heading → UInt32 → Heading × UInt32
  | [], weightedSum, count => (weightedSum, count)
  | nref :: members, weightedSum, count =>
      match f.agent? nref with
      | none => sumNear m f heading members weightedSum count
      | some neighbor =>
          if neighbor.lifecycle = .dormant then sumNear m f heading members weightedSum count
          else if m.near heading neighbor.heading then
            sumNear m f heading members (weightedSum + neighbor.heading) (count + 1)
          else sumNear m f heading members weightedSum count

/-- The body of the loop over the members. -/
def alignMember (m : Vicsek Heading Rng) (members : List ActorRef)
    (f : SwarmField Heading Quality Rng) (ref : ActorRef) : SwarmField Heading Quality Rng :=
  match f.agent? ref with
  | none => f
  | some agent =>
      if agent.lifecycle = .dormant then f
      else
        let (weightedSum, count) := f.sumNear m agent.heading members 0 0
        if count > 0 then
          let (noise, rng) := m.sampleGaussian f.rng
          { f.edit ref fun a => { a with heading := m.normalize (weightedSum + noise) } with rng }
        else f

def alignCluster (m : Vicsek Heading Rng) (f : SwarmField Heading Quality Rng)
    (cluster : ClusterState) : SwarmField Heading Quality Rng :=
  cluster.members.foldl (alignMember m cluster.members) f

end SwarmField

end Update

/-! ## The update rule -/

/-- The headings of the active members that are near to one. -/
def nearHeadings (m : Vicsek Heading Rng) (cells : Cells Heading Quality)
    (members : List ActorRef) (heading : Heading) : List Heading :=
  members.filterMap fun nref =>
    match cells nref.index.toNat with
    | none => none
    | some neighbor =>
        if neighbor.lifecycle = .dormant then none
        else if m.near heading neighbor.heading then some neighbor.heading
        else none

/-- An agent moves if it is active. -/
def turned (next : Heading → Heading) (a : AgentState Heading Quality) :
    AgentState Heading Quality :=
  if a.lifecycle = .dormant then a else { a with heading := next a.heading }

section Rule
variable [AddCommMonoid Heading]

/-- `v_i(t+1)` of an active member. -/
def vicsekHeading (m : Vicsek Heading Rng) (cells : Cells Heading Quality)
    (members : List ActorRef) (heading : Heading) : Heading :=
  m.normalize (nearHeadings m cells members heading).sum

/-- What the loop makes of a heading without noise: one without neighbours, as far as 32 bits
count them, stays. -/
def loopHeading (m : Vicsek Heading Rng) (cells : Cells Heading Quality)
    (members : List ActorRef) (heading : Heading) : Heading :=
  if UInt32.ofNat (nearHeadings m cells members heading).length > 0 then
    vicsekHeading m cells members heading
  else heading

def loopRule (m : Vicsek Heading Rng) (members : List ActorRef) (cells : Cells Heading Quality)
    (i : ℕ) : Option (AgentState Heading Quality) :=
  (cells i).map (turned (loopHeading m cells members))

/-- The agent at a position after the update rule. -/
def vicsekGoal (m : Vicsek Heading Rng) (members : List ActorRef) (cells : Cells Heading Quality)
    (i : ℕ) : Option (AgentState Heading Quality) :=
  (cells i).map (turned (vicsekHeading m cells members))

/-- Every active member has moved as the headings before say, and nobody else. -/
def Synchronous (m : Vicsek Heading Rng) (f : SwarmField Heading Quality Rng)
    (members : List ActorRef) (f' : SwarmField Heading Quality Rng) : Prop :=
  f'.cells = Sweep.reached (vicsekGoal m members f.cells) (positions members) f.cells

/-- The rule turns an agent to another heading. -/
def Turns (m : Vicsek Heading Rng) (members : List ActorRef) (cells : Cells Heading Quality)
    (a : AgentState Heading Quality) : Prop :=
  a.lifecycle ≠ .dormant ∧ vicsekHeading m cells members a.heading ≠ a.heading

/-- If the rule turns the agent at `i`, then `j` is the position of another one, which is not
active or near to neither heading. -/
def Unseen (m : Vicsek Heading Rng) (members : List ActorRef) (cells : Cells Heading Quality)
    (i j : ℕ) : Prop :=
  ∀ a, cells i = some a → Turns m members cells a → i ≠ j ∧
    ∀ b, cells j = some b → b.lifecycle ≠ .dormant → m.near b.heading a.heading = false ∧
      m.near b.heading (vicsekHeading m cells members a.heading) = false

/-- A member that the rule turns has neighbours, as far as 32 bits count them, and the members
after it do not see it. -/
structure Undisturbed (m : Vicsek Heading Rng) (f : SwarmField Heading Quality Rng)
    (members : List ActorRef) : Prop where
  counted : ∀ i ∈ positions members, ∀ a, f.cells i = some a → Turns m members f.cells a →
    (nearHeadings m f.cells members a.heading).length % 2 ^ 32 ≠ 0
  unseen : (positions members).Pairwise (Unseen m members f.cells)

/-! ## The loop follows the rule -/

section Align
variable {m : Vicsek Heading Rng} {f f' : SwarmField Heading Quality Rng}

theorem sumNear_eq (heading : Heading) (members : List ActorRef) (weightedSum : Heading)
    (count : UInt32) : f.sumNear m heading members weightedSum count =
      (weightedSum + (nearHeadings m f.cells members heading).sum,
        count + UInt32.ofNat (nearHeadings m f.cells members heading).length) := by
  induction members generalizing weightedSum count with
  | nil => simp [SwarmField.sumNear, nearHeadings]
  | cons nref members ih =>
      rw [SwarmField.sumNear, nearHeadings, List.filterMap_cons]
      have hCell : f.cells nref.index.toNat = f.agent? nref := rfl
      rw [hCell]
      cases f.agent? nref with
      | none => exact ih weightedSum count
      | some neighbor =>
          dsimp only
          by_cases hDormant : neighbor.lifecycle = .dormant
          · rw [if_pos hDormant, if_pos hDormant]
            exact ih weightedSum count
          · rw [if_neg hDormant, if_neg hDormant]
            by_cases hNear : m.near heading neighbor.heading = true
            · rw [if_pos hNear, if_pos hNear, ih]
              dsimp only
              rw [List.sum_cons, List.length_cons, Nat.add_comm, UInt32.ofNat_add, add_assoc,
                add_assoc]
              rfl
            · rw [if_neg hNear, if_neg hNear]
              exact ih weightedSum count

/-- One turn of the loop rewrites the position of its member. -/
theorem cells_alignMember (hNoise : ∀ rng, (m.sampleGaussian rng).1 = 0) (members : List ActorRef)
    (ref : ActorRef) : (f.alignMember m members ref).cells =
      Function.update f.cells ref.index.toNat (loopRule m members f.cells ref.index.toNat) := by
  have hStays : ∀ {a}, f.agent? ref = some a → turned (loopHeading m f.cells members) a = a →
      Function.update f.cells ref.index.toNat (loopRule m members f.cells ref.index.toNat) =
        f.cells := by
    intro a hAgent hSame
    have hCell : f.cells ref.index.toNat = some a := hAgent
    rw [loopRule, hCell, Option.map_some, hSame, ← hCell, Function.update_eq_self]
  rw [SwarmField.alignMember]
  cases hAgent : f.agent? ref with
  | none =>
      have hNone : loopRule m members f.cells ref.index.toNat = f.cells ref.index.toNat := by
        have hCell : f.cells ref.index.toNat = none := hAgent
        rw [loopRule, hCell, Option.map_none]
      rw [hNone, Function.update_eq_self]
  | some a =>
      dsimp only
      by_cases hDormant : a.lifecycle = .dormant
      · rw [if_pos hDormant]
        exact (hStays hAgent (if_pos hDormant)).symm
      · rw [if_neg hDormant, sumNear_eq, zero_add, UInt32.zero_add]
        dsimp only
        by_cases hCount : UInt32.ofNat (nearHeadings m f.cells members a.heading).length > 0
        · have hNext : loopHeading m f.cells members a.heading =
              m.normalize (nearHeadings m f.cells members a.heading).sum := if_pos hCount
          have hCell : f.cells ref.index.toNat = some a := hAgent
          rw [if_pos hCount, hNoise, add_zero, loopRule, hCell, Option.map_some, turned,
            if_neg hDormant, hNext]
          exact (cells_edit ref _).trans (by rw [hAgent, Option.map_some])
        · have hNext : loopHeading m f.cells members a.heading = a.heading := if_neg hCount
          rw [if_neg hCount]
          refine (hStays hAgent ?_).symm
          rw [turned, if_neg hDormant, hNext]

theorem cells_alignCluster (hNoise : ∀ rng, (m.sampleGaussian rng).1 = 0)
    (cluster : ClusterState) : (f.alignCluster m cluster).cells =
      Sweep.inPlace (loopRule m cluster.members) (positions cluster.members) f.cells := by
  have hFold : ∀ (refs : List ActorRef) (f : SwarmField Heading Quality Rng),
      (refs.foldl (SwarmField.alignMember m cluster.members) f).cells =
        Sweep.inPlace (loopRule m cluster.members) (positions refs) f.cells := by
    intro refs
    induction refs with
    | nil => exact fun f => rfl
    | cons ref refs ih =>
        intro f
        rw [List.foldl_cons, ih, cells_alignMember hNoise]
        rfl
  exact hFold cluster.members f

theorem positions_nodup {members : List ActorRef} (h : members.Nodup) :
    (positions members).Nodup := by
  refine h.map ?_
  rintro ⟨i⟩ ⟨j⟩ hSame
  exact congrArg ActorRef.mk (UInt32.toNat_inj.mp hSame)

/-- The order of the members does not matter to the rule. -/
theorem vicsekGoal_perm {members members' : List ActorRef} (h : members.Perm members')
    (cells : Cells Heading Quality) : vicsekGoal m members cells = vicsekGoal m members' cells := by
  have hHeading : vicsekHeading m cells members = vicsekHeading m cells members' := by
    funext heading
    exact congrArg m.normalize (h.filterMap _).sum_eq
  funext i
  rw [vicsekGoal, vicsekGoal, hHeading]

/-- Without repetitions, the alignment is synchronous only if the loop follows the rule at every
single turn. -/
theorem synchronous_iff_steady (hNoise : ∀ rng, (m.sampleGaussian rng).1 = 0)
    {cluster : ClusterState} (hOnce : cluster.members.Nodup) :
    Synchronous m f cluster.members (f.alignCluster m cluster) ↔
      Sweep.Steady (loopRule m cluster.members) (vicsekGoal m cluster.members f.cells)
        (positions cluster.members) f.cells := by
  rw [Synchronous, cells_alignCluster hNoise]
  exact Sweep.inPlace_eq_reached_iff (positions_nodup hOnce)

/-- One that the rule does not turn is the same after it. -/
theorem turned_of_not_turns {members : List ActorRef} {cells : Cells Heading Quality}
    {a : AgentState Heading Quality} (h : ¬ Turns m members cells a) :
    turned (vicsekHeading m cells members) a = a := by
  rw [turned]
  by_cases hDormant : a.lifecycle = .dormant
  · exact if_pos hDormant
  · have hSame : vicsekHeading m cells members a.heading = a.heading :=
      not_not.mp fun hTurn => h ⟨hDormant, hTurn⟩
    rw [if_neg hDormant, hSame]

/-- One that sees nobody turn has the same neighbours while the others are turned. -/
theorem nearHeadings_reached {members : List ActorRef} {cells : Cells Heading Quality}
    {before : List ℕ} {i : ℕ} {b : AgentState Heading Quality} (hCell : cells i = some b)
    (hActive : b.lifecycle ≠ .dormant) (hUnseen : ∀ j ∈ before, Unseen m members cells j i) :
    nearHeadings m (Sweep.reached (vicsekGoal m members cells) before cells) members b.heading =
      nearHeadings m cells members b.heading := by
  refine List.filterMap_congr fun nref _ => ?_
  rw [Sweep.reached]
  by_cases hBefore : nref.index.toNat ∈ before
  · rw [if_pos hBefore, vicsekGoal]
    cases hNeighbor : cells nref.index.toNat with
    | none => rfl
    | some a =>
        rw [Option.map_some]
        by_cases hTurns : Turns m members cells a
        · obtain ⟨-, hApart⟩ := hUnseen _ hBefore a hNeighbor hTurns
          obtain ⟨hOld, hNew⟩ := hApart b hCell hActive
          simp only [turned, if_neg hTurns.1, hOld, hNew, Bool.false_eq_true, if_false]
        · rw [turned_of_not_turns hTurns]
  · rw [if_neg hBefore]

theorem steady_of_undisturbed {members : List ActorRef} (h : Undisturbed m f members) :
    Sweep.Steady (loopRule m members) (vicsekGoal m members f.cells) (positions members)
      f.cells := by
  intro before i after hSplit
  have hMember : i ∈ positions members := hSplit ▸ List.mem_append_right before List.mem_cons_self
  have hUnseen : ∀ j ∈ before, Unseen m members f.cells j i := by
    intro j hBefore
    have hPairs := h.unseen
    rw [hSplit, List.pairwise_append] at hPairs
    exact hPairs.2.2 j hBefore i List.mem_cons_self
  -- a member that comes up again has not been turned the first time
  have hHere : Sweep.reached (vicsekGoal m members f.cells) before f.cells i = f.cells i := by
    rw [Sweep.reached]
    by_cases hBefore : i ∈ before
    · rw [if_pos hBefore, vicsekGoal]
      cases hCell : f.cells i with
      | none => rfl
      | some a =>
          have hStays : ¬ Turns m members f.cells a :=
            fun hTurns => (hUnseen i hBefore a hCell hTurns).1 rfl
          rw [Option.map_some, turned_of_not_turns hStays]
    · exact if_neg hBefore
  rw [loopRule, hHere, vicsekGoal]
  cases hCell : f.cells i with
  | none => rfl
  | some b =>
      rw [Option.map_some, Option.map_some]
      by_cases hDormant : b.lifecycle = .dormant
      · rw [turned, turned, if_pos hDormant, if_pos hDormant]
      · have hNear := nearHeadings_reached hCell hDormant hUnseen
        have hRule : vicsekHeading m (Sweep.reached (vicsekGoal m members f.cells) before f.cells)
            members b.heading = vicsekHeading m f.cells members b.heading := by
          rw [vicsekHeading, hNear, vicsekHeading]
        have hHeading : loopHeading m (Sweep.reached (vicsekGoal m members f.cells) before f.cells)
            members b.heading = vicsekHeading m f.cells members b.heading := by
          rw [loopHeading, hNear, hRule]
          by_cases hTurns : Turns m members f.cells b
          · have hCount := h.counted i hMember b hCell hTurns
            refine if_pos (UInt32.pos_iff_ne_zero.mpr fun hZero => hCount ?_)
            simpa using congrArg UInt32.toNat hZero
          · have hStays : vicsekHeading m f.cells members b.heading = b.heading :=
              not_not.mp fun hTurn => hTurns ⟨hDormant, hTurn⟩
            rw [hStays, ite_self]
        rw [turned, turned, if_neg hDormant, if_neg hDormant, hHeading]

/-- Without noise, the alignment of a cluster is synchronous if its members are undisturbed.
Lists that are so in any order give the same agents. -/
theorem align_synchronous_of_undisturbed (hNoise : ∀ rng, (m.sampleGaussian rng).1 = 0)
    (f : SwarmField Heading Quality Rng) (cluster : ClusterState)
    (hUndisturbed : Undisturbed m f cluster.members) :
    Synchronous m f cluster.members (f.alignCluster m cluster) ∧
    ∀ cluster' : ClusterState, cluster'.members.Perm cluster.members →
      Undisturbed m f cluster'.members →
      (f.alignCluster m cluster').agents = (f.alignCluster m cluster).agents := by
  have hSteady := steady_of_undisturbed hUndisturbed
  refine ⟨?_, ?_⟩
  · rw [Synchronous, cells_alignCluster hNoise]
    exact Sweep.inPlace_eq_reached hSteady
  · intro cluster' hPerm hUndisturbed'
    apply agents_eq_of_cells
    rw [cells_alignCluster hNoise, cells_alignCluster hNoise, Sweep.inPlace_eq_reached hSteady,
      Sweep.inPlace_eq_reached (steady_of_undisturbed hUndisturbed'), vicsekGoal_perm hPerm]
    exact Sweep.reached_perm (hPerm.map _)

end Align
end Rule

/-! ## Two agents on a line -/

/-- In one dimension, the vectors that are not zero point to one side or the other. -/
def cosineDistance (a b : ℤ) : ℤ := if a = 0 ∨ b = 0 then 1 else 1 - a.sign * b.sign

def line (radius : ℤ) : Vicsek ℤ Unit where
  near := fun a b => decide (cosineDistance a b < radius)
  normalize := Int.sign
  sampleGaussian := fun rng => (0, rng)

/-- Two agents that head for opposite sides. -/
def opposite : SwarmField ℤ Unit Unit where
  agents := [{ heading := 1, quality := () }, { heading := -1, quality := (), agentId := 1 }]
  rng := ()
  randomUnitVector := fun rng => (1, rng)

def pairOfAgents (members : List ActorRef) : ClusterState :=
  { id := ⟨0⟩, name := "pair", members, rootTask := 0, scopePrefix := "clusters/pair" }

/-- Both head for opposite sides, and the first is not normalised yet. -/
def unequal : SwarmField ℤ Unit Unit where
  agents := [{ heading := 2, quality := () }, { heading := -1, quality := (), agentId := 1 }]
  rng := ()
  randomUnitVector := fun rng => (1, rng)

theorem undisturbed_unequal : Undisturbed (line 1) unequal [⟨0⟩, ⟨1⟩] := by
  refine ⟨?_, List.pairwise_pair.mpr ?_⟩
  · intro i hMember a hCell _
    rcases List.mem_pair.mp hMember with rfl | rfl <;> cases Option.some.inj hCell <;> decide
  · intro a hCell _
    cases Option.some.inj hCell
    refine ⟨by decide, fun b hNext _ => ?_⟩
    cases Option.some.inj hNext
    decide

theorem undisturbed_unequal_swapped : Undisturbed (line 1) unequal [⟨1⟩, ⟨0⟩] := by
  refine ⟨?_, List.pairwise_pair.mpr ?_⟩
  · intro i hMember a hCell _
    rcases List.mem_pair.mp hMember with rfl | rfl <;> cases Option.some.inj hCell <;> decide
  · intro a hCell hTurns
    cases Option.some.inj hCell
    exact absurd (by decide) hTurns.2

/-- Within a radius of one, an agent has no neighbour but itself; the first one turns. -/
theorem align_synchronous_of_undisturbed_unequal :
    Synchronous (line 1) unequal [⟨0⟩, ⟨1⟩]
        (unequal.alignCluster (line 1) (pairOfAgents [⟨0⟩, ⟨1⟩])) ∧
      (unequal.alignCluster (line 1) (pairOfAgents [⟨1⟩, ⟨0⟩])).agents =
        (unequal.alignCluster (line 1) (pairOfAgents [⟨0⟩, ⟨1⟩])).agents ∧
      (unequal.alignCluster (line 1) (pairOfAgents [⟨0⟩, ⟨1⟩])).agents.map (·.heading) =
        [1, -1] := by
  obtain ⟨hRule, hOrder⟩ := align_synchronous_of_undisturbed (m := line 1) (fun _ => rfl) unequal
    (pairOfAgents [⟨0⟩, ⟨1⟩]) undisturbed_unequal
  exact ⟨hRule, hOrder (pairOfAgents [⟨1⟩, ⟨0⟩]) (List.Perm.swap _ _ _)
    undisturbed_unequal_swapped, by decide⟩

/-- Within a radius of three, the second agent sees the new heading of the first. -/
theorem alignment_not_synchronous :
    ¬ Synchronous (line 3) opposite [⟨0⟩, ⟨1⟩]
      (opposite.alignCluster (line 3) (pairOfAgents [⟨0⟩, ⟨1⟩])) := by
  intro hSame
  have hSecond := congrArg (Option.map AgentState.heading) (congrFun hSame 1)
  exact absurd hSecond (by decide)

end CelerMem.Necto.Swarm
