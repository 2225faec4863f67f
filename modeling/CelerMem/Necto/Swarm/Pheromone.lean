import CelerMem.Library.Decay
import CelerMem.Library.Stretch
import Mathlib

/-! The pheromone graph of a cluster: edges that evaporate, that agents deposit pheromone on,
and that are pruned. The strengths are exact here, in any ordered field. -/
namespace CelerMem.Necto.Swarm

structure TaskNodeId where
  id : UInt32 := 0
  deriving DecidableEq, Repr

structure PheromoneEdge (K : Type) where
  «from» : TaskNodeId
  «to» : TaskNodeId
  tau : K
  heuristicEta : K
  age : UInt32
  deriving DecidableEq, Repr

/-- Of the parameters, those of the deposits and of the evaporation. -/
structure PheromoneGraph (K : Type) where
  edges : List (PheromoneEdge K)
  rho : K
  Q : K

/-- From one node of a path to the next. -/
abbrev Hop := TaskNodeId × TaskNodeId

def PheromoneEdge.hop {K : Type} (e : PheromoneEdge K) : Hop := (e.from, e.to)

variable {K : Type}

namespace PheromoneGraph

def make (rho Q : K) : PheromoneGraph K := ⟨[], rho, Q⟩

def findEdge (g : PheromoneGraph K) («from» «to» : TaskNodeId) : Option (PheromoneEdge K) :=
  g.edges.find? fun e => e.from = «from» ∧ e.to = «to»

/-- What is assigned through the pointer that `find_edge` returns, if it returns one. -/
def updateEdge («from» «to» : TaskNodeId) (f : PheromoneEdge K → PheromoneEdge K) :
    List (PheromoneEdge K) → List (PheromoneEdge K)
  | [] => []
  | e :: edges =>
      if e.from = «from» ∧ e.to = «to» then f e :: edges
      else e :: updateEdge «from» «to» f edges

section Edges
variable {g : PheromoneGraph K} {edges : List (PheromoneEdge K)} {hop : Hop}

theorem hop_eq_iff {e : PheromoneEdge K} : (e.from = hop.1 ∧ e.to = hop.2) ↔ e.hop = hop := by
  rw [Prod.ext_iff]
  rfl

theorem findEdge_isNone_iff :
    (g.findEdge hop.1 hop.2).isNone = true ↔ hop ∉ g.edges.map PheromoneEdge.hop := by
  rw [Option.isNone_iff_eq_none, findEdge, List.find?_eq_none, List.mem_map]
  constructor
  · rintro hNone ⟨e, hMem, rfl⟩
    exact hNone e hMem (decide_eq_true ⟨rfl, rfl⟩)
  · intro hNone e hMem hFound
    obtain ⟨hFrom, hTo⟩ := of_decide_eq_true hFound
    exact hNone ⟨e, hMem, Prod.ext hFrom hTo⟩

/-- With one edge for a pair, the first is the only one. -/
theorem updateEdge_eq (hOnce : (edges.map PheromoneEdge.hop).Nodup)
    (f : PheromoneEdge K → PheromoneEdge K) : updateEdge hop.1 hop.2 f edges =
      edges.map fun e => if e.hop = hop then f e else e := by
  induction edges with
  | nil => rfl
  | cons e edges ih =>
      obtain ⟨hFirst, hRest⟩ := List.nodup_cons.mp hOnce
      rw [updateEdge, List.map_cons]
      simp only [hop_eq_iff]
      split
      · rename_i hHere
        have hOthers : (edges.map fun e => if e.hop = hop then f e else e) = edges := by
          have hSame : ∀ other ∈ edges, (if other.hop = hop then f other else other) = other := by
            intro other hMem
            apply if_neg
            intro hAgain
            exact hFirst (List.mem_map.mpr ⟨other, hMem, hAgain.trans hHere.symm⟩)
          rw [List.map_congr_left hSame, List.map_id']
        rw [hOthers]
      · rw [ih hRest]

/-- The calls leave the parameters as they are. -/
structure SameParameters (g g' : PheromoneGraph K) : Prop where
  rho : g'.rho = g.rho
  Q : g'.Q = g.Q

theorem SameParameters.refl : SameParameters g g := ⟨rfl, rfl⟩

theorem SameParameters.trans {g' g'' : PheromoneGraph K} (first : SameParameters g g')
    (second : SameParameters g' g'') : SameParameters g g'' :=
  ⟨second.rho.trans first.rho, second.Q.trans first.Q⟩

end Edges

variable [Field K]

def ensureEdge (g : PheromoneGraph K) («from» «to» : TaskNodeId) : PheromoneGraph K :=
  if (g.findEdge «from» «to»).isNone then
    { g with edges := g.edges ++ [⟨«from», «to», 1, 1, 0⟩] }
  else g

/-- The body of the loop in `deposit`. -/
def depositHop (deltaTau : K) (g : PheromoneGraph K) (hop : Hop) : PheromoneGraph K :=
  let ensured := g.ensureEdge hop.1 hop.2
  let deposited (e : PheromoneEdge K) := { e with tau := e.tau + deltaTau, age := 0 }
  { ensured with edges := updateEdge hop.1 hop.2 deposited ensured.edges }

section Parameters
variable {g : PheromoneGraph K}

theorem ensureEdge_parameters («from» «to» : TaskNodeId) :
    SameParameters g (g.ensureEdge «from» «to») := by
  rw [ensureEdge]
  split
  · exact ⟨rfl, rfl⟩
  · exact .refl

theorem depositHops_parameters (deltaTau : K) (hops : List Hop) :
    SameParameters g (hops.foldl (depositHop deltaTau) g) := by
  induction hops generalizing g with
  | nil => exact .refl
  | cons hop hops ih =>
      have hHere := ensureEdge_parameters (g := g) hop.1 hop.2
      have hFirst : SameParameters g (g.depositHop deltaTau hop) := ⟨hHere.rho, hHere.Q⟩
      exact hFirst.trans ih

end Parameters

variable [LinearOrder K]

def deposit (g : PheromoneGraph K) (path : List TaskNodeId) (quality : K) : PheromoneGraph K :=
  if path.length < 2 ∨ quality ≤ 0 then g
  else (path.zip path.tail).foldl (depositHop (g.Q / (1 / quality))) g

def evaporate (g : PheromoneGraph K) : PheromoneGraph K :=
  { g with edges := g.edges.map fun e => { e with tau := e.tau * (1 - g.rho), age := e.age + 1 } }

/-- The number of edges that are gone is cast to 32 bits. -/
def prune (g : PheromoneGraph K) (minTau : K) : UInt32 × PheromoneGraph K :=
  let kept := g.edges.filter fun e => ¬ e.tau < minTau
  (UInt32.ofNat (g.edges.length - kept.length), { g with edges := kept })

end PheromoneGraph

/-! ## Runs -/

variable [Field K] [LinearOrder K]

inductive GraphCall (K : Type) where
  | ensureEdge («from» «to» : TaskNodeId)
  | deposit (path : List TaskNodeId) (quality : K)
  | evaporate
  | prune (minTau : K)

namespace GraphCall

def isEvaporation : GraphCall K → Bool
  | .evaporate => true
  | _ => false

/-- The pairs of a path that something is deposited on. -/
def hops : GraphCall K → List Hop
  | .deposit path quality => if 0 < quality then path.zip path.tail else []
  | _ => []

end GraphCall

namespace PheromoneGraph

def call (g : PheromoneGraph K) : GraphCall K → PheromoneGraph K
  | .ensureEdge «from» «to» => g.ensureEdge «from» «to»
  | .deposit path quality => g.deposit path quality
  | .evaporate => g.evaporate
  | .prune minTau => (g.prune minTau).2

def run (g : PheromoneGraph K) (calls : List (GraphCall K)) : PheromoneGraph K :=
  calls.foldl call g

end PheromoneGraph

/-- While nothing evaporates, each pair occurs `m` times at most in the paths. -/
def DepositsWithin (m : ℕ) (calls : List (GraphCall K)) : Prop :=
  ∀ before stretch after, calls = before ++ stretch ++ after →
    (∀ c ∈ stretch, c.isEvaporation = false) → ∀ hop, (stretch.flatMap GraphCall.hops).count hop ≤ m

/-! ## Ceilings -/

/-- Every pair has one edge at most, whose strength is not negative and not above the ceiling
of the pair. -/
structure Bounded (ceiling : Hop → K) (edges : List (PheromoneEdge K)) : Prop where
  once : (edges.map PheromoneEdge.hop).Nodup
  low : ∀ e ∈ edges, 0 ≤ e.tau
  high : ∀ e ∈ edges, e.tau ≤ ceiling e.hop

namespace Bounded
variable {g : PheromoneGraph K} {edges : List (PheromoneEdge K)} {ceiling ceiling' : Hop → K}
  {hop : Hop} {deltaTau : K}

theorem mono (h : Bounded ceiling edges) (hUp : ∀ hop, ceiling hop ≤ ceiling' hop) :
    Bounded ceiling' edges :=
  ⟨h.once, h.low, fun e hMem => (h.high e hMem).trans (hUp e.hop)⟩

theorem prune (h : Bounded ceiling g.edges) (minTau : K) :
    Bounded ceiling (g.prune minTau).2.edges := by
  have hKept : (g.prune minTau).2.edges.Sublist g.edges := List.filter_sublist
  exact ⟨h.once.sublist (hKept.map _), fun e hMem => h.low e (hKept.subset hMem),
    fun e hMem => h.high e (hKept.subset hMem)⟩

variable [IsStrictOrderedRing K]

/-- A new edge starts at one. -/
theorem ensureEdge (h : Bounded ceiling g.edges) (hOne : 1 ≤ ceiling hop) :
    Bounded ceiling (g.ensureEdge hop.1 hop.2).edges := by
  rw [PheromoneGraph.ensureEdge]
  split
  · rename_i hNone
    have hNew := PheromoneGraph.findEdge_isNone_iff.mp hNone
    refine ⟨?_, ?_, ?_⟩
    · rw [List.map_append]
      exact List.Nodup.append h.once (List.nodup_singleton hop) (List.disjoint_singleton.mpr hNew)
    · rw [List.forall_mem_append, List.forall_mem_singleton]
      exact ⟨h.low, zero_le_one⟩
    · rw [List.forall_mem_append, List.forall_mem_singleton]
      exact ⟨h.high, hOne⟩
  · exact h

/-- A deposit on a pair raises the ceiling of this pair only. -/
theorem depositHop (h : Bounded ceiling g.edges) (hOne : 1 ≤ ceiling hop) (hDelta : 0 ≤ deltaTau) :
    Bounded (fun other => ceiling other + if other = hop then deltaTau else 0)
      (g.depositHop deltaTau hop).edges := by
  have hEnsured := h.ensureEdge hOne
  rw [PheromoneGraph.depositHop]
  dsimp only
  rw [PheromoneGraph.updateEdge_eq hEnsured.once]
  refine ⟨?_, ?_, ?_⟩
  · have hHops : ((g.ensureEdge hop.1 hop.2).edges.map fun e => if e.hop = hop then
        { e with tau := e.tau + deltaTau, age := 0 } else e).map PheromoneEdge.hop =
        (g.ensureEdge hop.1 hop.2).edges.map PheromoneEdge.hop := by
      rw [List.map_map]
      apply List.map_congr_left
      intro e hMem
      rw [Function.comp_apply]
      split
      · rfl
      · rfl
    rw [hHops]
    exact hEnsured.once
  · rw [List.forall_mem_map]
    intro e hMem
    split
    · exact add_nonneg (hEnsured.low e hMem) hDelta
    · exact hEnsured.low e hMem
  · rw [List.forall_mem_map]
    intro e hMem
    split
    · rename_i hHere
      have hHigh := hEnsured.high e hMem
      rw [show PheromoneEdge.hop { e with tau := e.tau + deltaTau, age := 0 } = e.hop from rfl,
        if_pos hHere]
      exact add_le_add_left hHigh deltaTau
    · rw [add_zero]
      exact hEnsured.high e hMem

theorem depositHops (hops : List Hop) (h : Bounded ceiling g.edges)
    (hOne : ∀ hop, 1 ≤ ceiling hop) (hDelta : 0 ≤ deltaTau) :
    Bounded (fun hop => ceiling hop + hops.count hop * deltaTau)
      (hops.foldl (PheromoneGraph.depositHop deltaTau) g).edges := by
  induction hops generalizing g ceiling with
  | nil => simpa using h
  | cons hop hops ih =>
      have hRaised : ∀ other, 1 ≤ ceiling other + if other = hop then deltaTau else 0 := by
        intro other
        refine (hOne other).trans (le_add_of_nonneg_right ?_)
        split
        · exact hDelta
        · exact le_rfl
      refine (ih (h.depositHop (hOne hop) hDelta) hRaised).mono ?_
      intro other
      rw [List.count_cons]
      by_cases hSame : other = hop
      · simp only [hSame, if_true, beq_self_eq_true, Nat.cast_add, Nat.cast_one]
        linarith
      · have hNot : (hop == other) = false := by simpa using Ne.symm hSame
        simp [hSame, hNot]

theorem deposit (path : List TaskNodeId) {quality : K} (h : Bounded ceiling g.edges)
    (hOne : ∀ hop, 1 ≤ ceiling hop) (hQ : 0 ≤ g.Q) (hQuality : quality ≤ 1) :
    Bounded (fun hop => ceiling hop + (GraphCall.deposit path quality).hops.count hop * g.Q)
      (g.deposit path quality).edges := by
  rw [PheromoneGraph.deposit]
  split
  · rename_i hNothing
    refine h.mono ?_
    intro hop
    exact le_add_of_nonneg_right (mul_nonneg (Nat.cast_nonneg _) hQ)
  · rename_i hSome
    obtain ⟨-, hPositive⟩ := not_or.mp hSome
    have hPos := not_le.mp hPositive
    have hDelta : g.Q / (1 / quality) = g.Q * quality := by rw [one_div, div_inv_eq_mul]
    rw [hDelta, GraphCall.hops, if_pos hPos]
    refine (h.depositHops _ hOne (mul_nonneg hQ hPos.le)).mono ?_
    intro hop
    have hLess : g.Q * quality ≤ g.Q := mul_le_of_le_one_right hQ hQuality
    exact add_le_add_right (mul_le_mul_of_nonneg_left hLess (Nat.cast_nonneg _)) _

theorem evaporate (h : Bounded ceiling g.edges) (hLeft : g.rho ≤ 1)
    (hDown : ∀ hop x, x ≤ ceiling hop → x * (1 - g.rho) ≤ ceiling' hop) :
    Bounded ceiling' g.evaporate.edges := by
  rw [PheromoneGraph.evaporate]
  refine ⟨?_, ?_, ?_⟩
  · rw [List.map_map]
    exact h.once
  · rw [List.forall_mem_map]
    intro e hMem
    exact mul_nonneg (h.low e hMem) (sub_nonneg.mpr hLeft)
  · rw [List.forall_mem_map]
    intro e hMem
    exact hDown e.hop e.tau (h.high e hMem)

end Bounded

/-! ## Whole runs -/

namespace PheromoneGraph
variable {g : PheromoneGraph K}

theorem call_parameters (c : GraphCall K) : SameParameters g (g.call c) := by
  cases c with
  | ensureEdge «from» «to» => exact ensureEdge_parameters «from» «to»
  | deposit path quality =>
      rw [call, deposit]
      split
      · exact .refl
      · exact depositHops_parameters _ _
  | evaporate => exact ⟨rfl, rfl⟩
  | prune minTau => exact ⟨rfl, rfl⟩

theorem run_append_singleton (calls : List (GraphCall K)) (c : GraphCall K) :
    g.run (calls ++ [c]) = (g.run calls).call c := List.foldl_append

theorem run_parameters (calls : List (GraphCall K)) : SameParameters g (g.run calls) := by
  induction calls using List.reverseRecOn with
  | nil => exact .refl
  | append_singleton calls c ih =>
      rw [run_append_singleton]
      exact ih.trans (call_parameters c)

end PheromoneGraph

section Pheromone
variable {rho Q : K} {m : ℕ} {calls : List (GraphCall K)}

/-- How often a pair has occurred since the last evaporation. -/
def deposits (calls : List (GraphCall K)) (hop : Hop) : ℕ :=
  Stretch.since (fun c : GraphCall K => c.isEvaporation = true) (fun c => c.hops.count hop) calls

theorem deposits_append_singleton (calls : List (GraphCall K)) (c : GraphCall K) (hop : Hop) :
    deposits (calls ++ [c]) hop =
      if c.isEvaporation = true then 0 else deposits calls hop + c.hops.count hop :=
  Stretch.since_append_singleton calls c

theorem DepositsWithin.deposits_le (h : DepositsWithin m calls) (hop : Hop) :
    deposits calls hop ≤ m := by
  obtain ⟨before, stretch, hSplit, hStretch, hSum⟩ : ∃ before stretch, calls = before ++ stretch ∧
      (∀ c ∈ stretch, ¬ c.isEvaporation = true) ∧
      deposits calls hop = (stretch.map fun c => c.hops.count hop).sum :=
    Stretch.exists_stretch calls
  have hCount : (stretch.flatMap GraphCall.hops).count hop = deposits calls hop :=
    List.count_flatMap.trans hSum.symm
  rw [← hCount]
  refine h before stretch [] ?_ ?_ hop
  · rw [List.append_nil, hSplit]
  · intro c hMem
    exact Bool.eq_false_iff.mpr (hStretch c hMem)

theorem DepositsWithin.of_append {later : List (GraphCall K)}
    (h : DepositsWithin m (calls ++ later)) : DepositsWithin m calls := by
  intro before stretch after hSplit
  refine h before stretch (after ++ later) ?_
  rw [hSplit, List.append_assoc]

/-- Every run has such a number, that of all its deposits. -/
theorem depositsWithin_length (calls : List (GraphCall K)) :
    DepositsWithin (calls.flatMap GraphCall.hops).length calls := by
  rintro before stretch after rfl - hop
  refine List.count_le_length.trans ?_
  rw [List.flatMap_append, List.flatMap_append, List.length_append, List.length_append]
  omega

/-- What the deposits since the last evaporation add to the level after it. -/
def ceiling (rho Q : K) (m : ℕ) (calls : List (GraphCall K)) (hop : Hop) : K :=
  Decay.level rho (m * Q) 1 + deposits calls hop * Q

/-- A call that is not an evaporation raises the ceilings by what it deposits. -/
theorem ceiling_append_singleton {c : GraphCall K} (hStays : c.isEvaporation = false) (hop : Hop) :
    ceiling rho Q m (calls ++ [c]) hop = ceiling rho Q m calls hop + c.hops.count hop * Q := by
  rw [ceiling, deposits_append_singleton, hStays, if_neg Bool.false_ne_true, Nat.cast_add,
    add_mul, ← add_assoc, ceiling]

variable [IsStrictOrderedRing K]

theorem one_le_ceiling (hQ : 0 ≤ Q) (hop : Hop) : 1 ≤ ceiling rho Q m calls hop :=
  Decay.start_le_level.trans (le_add_of_nonneg_right (mul_nonneg (Nat.cast_nonneg _) hQ))

theorem ceiling_le (hQ : 0 ≤ Q) (h : DepositsWithin m calls) (hop : Hop) :
    ceiling rho Q m calls hop ≤ Decay.level rho (m * Q) 1 + m * Q := by
  have hFew : (deposits calls hop : K) ≤ m := Nat.cast_le.mpr (h.deposits_le hop)
  exact add_le_add_right (mul_le_mul_of_nonneg_right hFew hQ) _

theorem bounded_run (hRho : 0 < rho) (hLeft : rho < 1) (hQ : 0 ≤ Q)
    (hQuality : ∀ path quality, GraphCall.deposit path quality ∈ calls → quality ≤ 1)
    (hFew : DepositsWithin m calls) :
    Bounded (ceiling rho Q m calls) ((PheromoneGraph.make rho Q).run calls).edges := by
  induction calls using List.reverseRecOn with
  | nil => exact ⟨List.nodup_nil, fun e hMem => absurd hMem List.not_mem_nil,
      fun e hMem => absurd hMem List.not_mem_nil⟩
  | append_singleton calls c ih =>
      have hHere := ih
        (fun path quality hMem => hQuality path quality (List.mem_append_left _ hMem))
        hFew.of_append
      have hSame := PheromoneGraph.run_parameters (g := PheromoneGraph.make rho Q) calls
      have hOne : ∀ hop, 1 ≤ ceiling rho Q m calls hop := one_le_ceiling hQ
      rw [PheromoneGraph.run_append_singleton]
      cases c with
      | ensureEdge «from» «to» =>
          refine (hHere.ensureEdge (hOne («from», «to»))).mono ?_
          intro hop
          rw [ceiling_append_singleton rfl]
          exact le_add_of_nonneg_right (mul_nonneg (Nat.cast_nonneg _) hQ)
      | deposit path quality =>
          have hUnit := hQuality path quality (List.mem_append_right _ List.mem_cons_self)
          refine (hHere.deposit path hOne (hSame.Q ▸ hQ) hUnit).mono ?_
          intro hop
          rw [ceiling_append_singleton rfl, hSame.Q]
          exact le_rfl
      | evaporate =>
          refine hHere.evaporate (hSame.rho ▸ hLeft.le) ?_
          intro hop x hx
          have hGained := hx.trans (ceiling_le hQ hFew.of_append hop)
          rw [hSame.rho]
          refine (Decay.decayed_le hRho hLeft.le hGained).trans ?_
          exact le_add_of_nonneg_right (mul_nonneg (Nat.cast_nonneg _) hQ)
      | prune minTau =>
          refine (hHere.prune minTau).mono ?_
          intro hop
          rw [ceiling_append_singleton rfl]
          exact le_add_of_nonneg_right (mul_nonneg (Nat.cast_nonneg _) hQ)

/-- At any time of a run in which every pair occurs `m` times at most between evaporations,
a pair has one edge at most, and the strengths are bounded. -/
theorem pheromone_bounded (hRho : 0 < rho) (hLeft : rho < 1) (hQ : 0 ≤ Q)
    (hQuality : ∀ path quality, GraphCall.deposit path quality ∈ calls → quality ≤ 1)
    (hFew : DepositsWithin m calls) (n : ℕ) :
    (((PheromoneGraph.make rho Q).run (calls.take n)).edges.map PheromoneEdge.hop).Nodup ∧
    ∀ e ∈ ((PheromoneGraph.make rho Q).run (calls.take n)).edges,
      0 ≤ e.tau ∧ e.tau ≤ max 1 ((1 - rho) * m * Q / rho) + m * Q := by
  rw [← List.take_append_drop n calls] at hFew
  have hBounded := bounded_run hRho hLeft hQ
    (fun path quality hMem => hQuality path quality (List.mem_of_mem_take hMem)) hFew.of_append
  refine ⟨hBounded.once, ?_⟩
  intro e hMem
  refine ⟨hBounded.low e hMem, (hBounded.high e hMem).trans ?_⟩
  rw [mul_assoc]
  exact ceiling_le hQ hFew.of_append e.hop

end Pheromone

/-- The second deposit falls on an edge that has evaporated once. -/
def twoDeposits : List (GraphCall ℚ) :=
  [.deposit [⟨1⟩, ⟨2⟩] 1, .evaporate, .deposit [⟨1⟩, ⟨2⟩] 1]

theorem pheromone_bounded_twoDeposits :
    (((PheromoneGraph.make (1 / 2) 1).run (twoDeposits.take 3)).edges.map
      PheromoneEdge.hop).Nodup ∧
    ∀ e ∈ ((PheromoneGraph.make (1 / 2) 1).run (twoDeposits.take 3)).edges,
      0 ≤ e.tau ∧ e.tau ≤ max (1 : ℚ) ((1 - 1 / 2) * (2 : ℕ) * 1 / (1 / 2)) + (2 : ℕ) * 1 := by
  have hLength : (twoDeposits.flatMap GraphCall.hops).length = 2 := by
    simp [twoDeposits, GraphCall.hops]
  have hFew := depositsWithin_length twoDeposits
  rw [hLength] at hFew
  have hRho : (0 : ℚ) < 1 / 2 := by norm_num
  refine pheromone_bounded hRho (by norm_num) zero_le_one ?_ hFew 3
  intro path quality hMem
  have hQuality : quality = 1 := by
    simp only [twoDeposits, List.mem_cons, GraphCall.deposit.injEq, reduceCtorEq,
      List.not_mem_nil, or_false, false_or] at hMem
    rcases hMem with hMem | hMem
    · exact hMem.2
    · exact hMem.2
  exact hQuality.le

end CelerMem.Necto.Swarm
