import CelerMem.Library.Stretch
import CelerMem.Necto.Swarm.Cluster
import Mathlib

/-! When a cluster counts as converged. The counter of the rounds in which the order parameter
and the quality were high enough belongs to the cluster, and both ways to run it go on with it. -/
namespace CelerMem.Necto.Swarm

/-! ## Rounds -/

/-- What the end of a round is judged by. -/
structure Reading (Phi Quality : Type) where
  phi : Phi
  quality : Quality

/-- The rest of `ClusterState`. The readings of all rounds are history that no function reads. -/
structure TrackedCluster (Phi Quality : Type) extends ClusterState where
  phi : Phi
  sustainCount : UInt32 := 0
  readings : List (Reading Phi Quality) := []

structure SwarmConfig (Phi Quality : Type) where
  convergencePhi : Phi
  sustainWindow : UInt32 := 50
  maxRounds : UInt32 := 10000
  prematureQuality : Quality

/-- The field, the scheduler, the graphs and the actors: what the phases of a round make of
them and what is read off them afterwards, which may be anything. -/
structure SwarmParts (Env Phi Quality : Type) where
  hasSystem : Bool
  hasGraph : Env → ClusterState → Bool
  evaluateCluster : ClusterState → Env → Env
  tickMembers : ClusterState → Env → Env
  evaporate : ClusterState → Env → Env
  alignCluster : ClusterState → Env → Env
  orderParameterCluster : Env → ClusterState → Phi
  meanQualityCluster : Env → ClusterState → Quality
  bestQualityCluster : Env → ClusterState → Quality
  injectNoiseCluster : ClusterState → Env → Env

/-- Of the result, what does not come out of the graph or the scheduler. -/
structure SwarmResult (Phi Quality : Type) where
  rounds : UInt32
  phaseTransitions : UInt32
  finalPhi : Phi
  bestQuality : Quality
  clusterId : ClusterId

structure SwarmState (Env Phi Quality : Type) where
  env : Env
  clusters : List (TrackedCluster Phi Quality)
  tickCount : UInt32 := 0

variable {Env Phi Quality : Type} [LT Phi] [DecidableLT Phi] [LT Quality] [DecidableLT Quality]

/-! ## Good rounds -/

/-- Above the one threshold and above the other. -/
def Sustains (cfg : SwarmConfig Phi Quality) (r : Reading Phi Quality) : Prop :=
  r.phi > cfg.convergencePhi ∧ r.quality > cfg.prematureQuality

instance (cfg : SwarmConfig Phi Quality) (r : Reading Phi Quality) : Decidable (Sustains cfg r) :=
  inferInstanceAs (Decidable (_ ∧ _))

/-- How many rounds at the end were good, where that many had been good before. -/
def sustainedFrom (cfg : SwarmConfig Phi Quality) (count : ℕ)
    (readings : List (Reading Phi Quality)) : ℕ :=
  Stretch.countFrom (fun r => ¬ Sustains cfg r) (fun _ => 1) count readings

def sustained (cfg : SwarmConfig Phi Quality) (readings : List (Reading Phi Quality)) : ℕ :=
  sustainedFrom cfg 0 readings

/-- The last rounds, as many as the window is long, were good. -/
def WindowSustained (cfg : SwarmConfig Phi Quality) (readings : List (Reading Phi Quality)) :
    Prop :=
  cfg.sustainWindow.toNat ≤ readings.length ∧
    ∀ r ∈ readings.drop (readings.length - cfg.sustainWindow.toNat), Sustains cfg r

theorem windowSustained_iff {cfg : SwarmConfig Phi Quality}
    {readings : List (Reading Phi Quality)} :
    WindowSustained cfg readings ↔ cfg.sustainWindow.toNat ≤ sustained cfg readings := by
  have h : cfg.sustainWindow.toNat ≤ sustained cfg readings ↔ _ :=
    Stretch.le_since_iff (n := cfg.sustainWindow.toNat) readings
  simp only [not_not] at h
  exact h.symm

/-- The end of a round enters the history. -/
def TrackedCluster.record (c : TrackedCluster Phi Quality) (quality : Quality) :
    TrackedCluster Phi Quality :=
  { c with readings := c.readings ++ [⟨c.phi, quality⟩] }

/-- The counter has 32 bits, so it may be behind, but it counts no round too many. -/
def TrackedCluster.Counted (cfg : SwarmConfig Phi Quality) (c : TrackedCluster Phi Quality) :
    Prop :=
  c.sustainCount.toNat ≤ sustained cfg c.readings

/-- A cluster has gone through some rounds. -/
structure Observed (cfg : SwarmConfig Phi Quality) (own : List (Reading Phi Quality))
    (c c' : TrackedCluster Phi Quality) : Prop where
  readings : c'.readings = c.readings ++ own
  count : c'.sustainCount.toNat ≤ sustainedFrom cfg c.sustainCount.toNat own

namespace Observed
variable {cfg : SwarmConfig Phi Quality} {c c' c'' : TrackedCluster Phi Quality}
  {own first second : List (Reading Phi Quality)} {quality : Quality}

theorem refl : Observed cfg [] c c := ⟨(List.append_nil _).symm, le_rfl⟩

theorem trans (h : Observed cfg first c c') (h' : Observed cfg second c' c'') :
    Observed cfg (first ++ second) c c'' := by
  constructor
  · rw [h'.readings, h.readings, List.append_assoc]
  · rw [sustainedFrom, Stretch.countFrom_append]
    exact h'.count.trans (Stretch.countFrom_mono h.count second)

theorem counted (h : Observed cfg own c c') (hCounted : c.Counted cfg) : c'.Counted cfg := by
  rw [TrackedCluster.Counted, sustained, sustainedFrom, h.readings, Stretch.countFrom_append]
  exact h.count.trans (Stretch.countFrom_mono hCounted own)

theorem good (h : Observed cfg [] c c') (hGood : Sustains cfg ⟨c'.phi, quality⟩) :
    Observed cfg [⟨c'.phi, quality⟩] c
      { c'.record quality with sustainCount := c'.sustainCount + 1 } := by
  refine h.trans ⟨rfl, ?_⟩
  have hLe : (c'.sustainCount + 1).toNat ≤ c'.sustainCount.toNat + 1 := by
    rw [UInt32.toNat_add]
    exact Nat.mod_le _ _
  simpa [sustainedFrom, Stretch.countFrom, hGood] using hLe

theorem reset (h : Observed cfg [] c c') :
    Observed cfg [⟨c'.phi, quality⟩] c { c'.record quality with sustainCount := 0 } :=
  h.trans ⟨rfl, Nat.zero_le _⟩

end Observed

namespace SwarmState
variable {cfg : SwarmConfig Phi Quality} {s : SwarmState Env Phi Quality}

/-- As after `create_cluster`. -/
def New (s : SwarmState Env Phi Quality) : Prop :=
  ∀ c ∈ s.clusters, c.sustainCount = 0 ∧ c.readings = []

def Counted (cfg : SwarmConfig Phi Quality) (s : SwarmState Env Phi Quality) : Prop :=
  ∀ c ∈ s.clusters, c.Counted cfg

theorem Counted.set {own : List (Reading Phi Quality)} {c c' : TrackedCluster Phi Quality} {k : ℕ}
    {env : Env} (h : s.Counted cfg) (hAt : s.clusters[k]? = some c) (hOwn : Observed cfg own c c') :
    ({ s with env, clusters := s.clusters.set k c' } : SwarmState Env Phi Quality).Counted cfg := by
  intro d hMem
  rcases List.mem_or_eq_of_mem_set hMem with hOld | rfl
  · exact h d hOld
  · exact hOwn.counted (h c (List.mem_of_getElem? hAt))

theorem New.counted (h : s.New) : s.Counted cfg := by
  intro c hMem
  rw [TrackedCluster.Counted, (h c hMem).1]
  exact Nat.zero_le _

end SwarmState

/-- What a call says of the rounds it went through, the first of which has a number. -/
structure RoundsSpec (cfg : SwarmConfig Phi Quality) (round : ℕ) (own : List (Reading Phi Quality))
    (c : TrackedCluster Phi Quality)
    (out : SwarmResult Phi Quality × Env × TrackedCluster Phi Quality) : Prop where
  observed : Observed cfg own c out.2.2
  converged : out.1.rounds < cfg.maxRounds →
    cfg.sustainWindow ≤ out.2.2.sustainCount ∧ round + own.length = out.1.rounds.toNat + 1

theorem RoundsSpec.cons {cfg : SwarmConfig Phi Quality} {r : Reading Phi Quality} {n : ℕ}
    {c c' : TrackedCluster Phi Quality}
    {out : SwarmResult Phi Quality × Env × TrackedCluster Phi Quality}
    (hFirst : Observed cfg [r] c c') (h : ∃ own, RoundsSpec cfg (n + 1) own c' out) :
    ∃ own, RoundsSpec cfg n own c out := by
  obtain ⟨own, hOwn⟩ := h
  refine ⟨r :: own, hFirst.trans hOwn.observed, fun hLess => ?_⟩
  obtain ⟨hWindow, hLength⟩ := hOwn.converged hLess
  exact ⟨hWindow, by rw [List.length_cons]; omega⟩

/-! ## The loops -/

namespace SwarmParts
variable (parts : SwarmParts Env Phi Quality) (cfg : SwarmConfig Phi Quality)

/-- The five phases. A cluster that is not active or has no graph keeps the order parameter it
has. -/
def tickCluster (env : Env) (c : TrackedCluster Phi Quality) :
    Env × TrackedCluster Phi Quality :=
  if !c.active || !parts.hasSystem || !parts.hasGraph env c.toClusterState then (env, c)
  else
    let env := parts.evaluateCluster c.toClusterState env
    let env := parts.tickMembers c.toClusterState env
    let env := parts.evaporate c.toClusterState env
    let env := parts.alignCluster c.toClusterState env
    (env, { c with phi := parts.orderParameterCluster env c.toClusterState })

theorem tickCluster_observed (env : Env) (c : TrackedCluster Phi Quality) :
    Observed cfg [] c (parts.tickCluster env c).2 := by
  rw [tickCluster]
  split
  · exact .refl
  · exact ⟨(List.append_nil _).symm, le_rfl⟩

variable [LE Quality] [DecidableLE Quality]

def checkConvergence (env : Env) (c : TrackedCluster Phi Quality) :
    Env × TrackedCluster Phi Quality :=
  let avgQ := parts.meanQualityCluster env c.toClusterState
  let above := decide (c.phi > cfg.convergencePhi)
  let c := c.record avgQ
  if above && avgQ ≤ cfg.prematureQuality then
    (parts.injectNoiseCluster c.toClusterState env, { c with sustainCount := 0 })
  else if above && avgQ > cfg.prematureQuality then
    (env, { c with sustainCount := c.sustainCount + 1 })
  else (env, { c with sustainCount := 0 })

def buildResult (env : Env) (c : TrackedCluster Phi Quality) (rounds transitions : UInt32) :
    SwarmResult Phi Quality where
  rounds := rounds
  phaseTransitions := transitions
  finalPhi := c.phi
  bestQuality := parts.bestQualityCluster env c.toClusterState
  clusterId := c.id

/-- The loop of `run_cluster_to_convergence`, with the number of rounds that are left. -/
def runRounds : ℕ → UInt32 → Bool → UInt32 → Env → TrackedCluster Phi Quality →
    SwarmResult Phi Quality × Env × TrackedCluster Phi Quality
  | 0, _, _, localTransitions, env, c =>
      (parts.buildResult env c cfg.maxRounds localTransitions, env, c)
  | left + 1, round, prevAbove, localTransitions, env, c =>
      let (env, c) := parts.tickCluster env c
      let avgQ := parts.meanQualityCluster env c.toClusterState
      let above := decide (c.phi > cfg.convergencePhi)
      let c := c.record avgQ
      if above && avgQ > cfg.prematureQuality then
        let c := { c with sustainCount := c.sustainCount + 1 }
        if c.sustainCount ≥ cfg.sustainWindow then
          (parts.buildResult env c round localTransitions, env, c)
        else runRounds left (round + 1) above localTransitions env c
      else if above && avgQ ≤ cfg.prematureQuality then
        runRounds left (round + 1) above localTransitions
          (parts.injectNoiseCluster c.toClusterState env) { c with sustainCount := 0 }
      else
        runRounds left (round + 1) above
          (if prevAbove then localTransitions + 1 else localTransitions) env
          { c with sustainCount := 0 }

def runClusterToConvergence (env : Env) (c : TrackedCluster Phi Quality) :
    SwarmResult Phi Quality × Env × TrackedCluster Phi Quality :=
  parts.runRounds cfg cfg.maxRounds.toNat 0 false 0 env c

end SwarmParts

variable [LE Quality] [DecidableLE Quality]

/-! ## The swarm -/

/-- Both take a cluster by its position. -/
inductive SwarmCall where
  | tickAllClusters
  | runClusterToConvergence (k : ℕ)

namespace SwarmState
variable (parts : SwarmParts Env Phi Quality) (cfg : SwarmConfig Phi Quality)

/-- One turn of the loop over the active clusters. -/
def tickAndCheck (s : SwarmState Env Phi Quality) (k : ℕ) : SwarmState Env Phi Quality :=
  match s.clusters[k]? with
  | none => s
  | some c =>
      let (env, c) := parts.tickCluster s.env c
      let (env, c) := parts.checkConvergence cfg env c
      { s with env, clusters := s.clusters.set k c }

def activeClusters (s : SwarmState Env Phi Quality) : List ℕ :=
  (List.range s.clusters.length).filter fun k => (s.clusters[k]?.map (·.active)).getD false

def tickAllClusters (s : SwarmState Env Phi Quality) : SwarmState Env Phi Quality :=
  let ticked := s.activeClusters.foldl (tickAndCheck parts cfg) s
  { ticked with tickCount := ticked.tickCount + 1 }

def call (s : SwarmState Env Phi Quality) : SwarmCall → SwarmState Env Phi Quality
  | .tickAllClusters => s.tickAllClusters parts cfg
  | .runClusterToConvergence k =>
      match s.clusters[k]? with
      | none => s
      | some c =>
          let (_, env, c) := parts.runClusterToConvergence cfg s.env c
          { s with env, clusters := s.clusters.set k c }

def run (s : SwarmState Env Phi Quality) (calls : List SwarmCall) : SwarmState Env Phi Quality :=
  calls.foldl (call parts cfg) s

end SwarmState

/-! ## What the loops do to the counter -/

section Loops
variable {cfg : SwarmConfig Phi Quality} {parts : SwarmParts Env Phi Quality}
  {c c' : TrackedCluster Phi Quality} {env : Env} {own : List (Reading Phi Quality)}
  {round transitions : UInt32} {prevAbove : Bool} {left : ℕ}

theorem SwarmParts.checkConvergence_observed :
    ∃ own, Observed cfg own c (parts.checkConvergence cfg env c).2 := by
  refine ⟨[⟨c.phi, parts.meanQualityCluster env c.toClusterState⟩], ?_⟩
  rw [checkConvergence]
  split
  · exact Observed.refl.reset
  · split
    · rename_i hGood
      exact Observed.refl.good (by simpa [Sustains] using hGood)
    · exact Observed.refl.reset

theorem SwarmParts.runRounds_spec (h : round.toNat + left = cfg.maxRounds.toNat) :
    ∃ own, RoundsSpec cfg round.toNat own c
      (parts.runRounds cfg left round prevAbove transitions env c) := by
  induction left generalizing round prevAbove transitions env c with
  | zero => exact ⟨[], .refl, fun hLess => absurd hLess (UInt32.lt_irrefl _)⟩
  | succ left ih =>
      have hRound : (round + 1).toNat = round.toNat + 1 := by
        have := cfg.maxRounds.toNat_lt
        rw [UInt32.toNat_add, UInt32.toNat_one, Nat.mod_eq_of_lt (by omega)]
      have hLeft : (round + 1).toNat + left = cfg.maxRounds.toNat := by omega
      have hTick := parts.tickCluster_observed cfg env c
      rw [runRounds]
      generalize parts.tickCluster env c = ticked at hTick ⊢
      obtain ⟨env, c'⟩ := ticked
      dsimp only
      split
      · rename_i hAbove
        have hGood := hTick.good (by simpa [Sustains] using hAbove)
        split
        · rename_i hWindow
          exact ⟨_, hGood, fun _ => ⟨hWindow, rfl⟩⟩
        · exact RoundsSpec.cons hGood (hRound ▸ ih hLeft)
      · split
        · exact RoundsSpec.cons hTick.reset (hRound ▸ ih hLeft)
        · exact RoundsSpec.cons hTick.reset (hRound ▸ ih hLeft)

theorem SwarmParts.runClusterToConvergence_spec :
    ∃ own, RoundsSpec cfg 0 own c (parts.runClusterToConvergence cfg env c) := by
  have h : (0 : UInt32).toNat + cfg.maxRounds.toNat = cfg.maxRounds.toNat := Nat.zero_add _
  exact parts.runRounds_spec h

end Loops

section Runs
variable {cfg : SwarmConfig Phi Quality} {parts : SwarmParts Env Phi Quality}
  {s : SwarmState Env Phi Quality}

namespace SwarmState

theorem tickAndCheck_counted (k : ℕ) (h : s.Counted cfg) :
    (s.tickAndCheck parts cfg k).Counted cfg := by
  rw [tickAndCheck]
  split
  · exact h
  · rename_i hAt
    obtain ⟨own, hOwn⟩ := parts.checkConvergence_observed
    exact h.set hAt ((parts.tickCluster_observed cfg _ _).trans hOwn)

theorem tickAllClusters_counted (h : s.Counted cfg) : (s.tickAllClusters parts cfg).Counted cfg :=
  List.foldlRecOn _ _ h fun _ hAcc k _ => tickAndCheck_counted k hAcc

theorem call_counted (c : SwarmCall) (h : s.Counted cfg) : (s.call parts cfg c).Counted cfg := by
  cases c with
  | tickAllClusters => exact tickAllClusters_counted h
  | runClusterToConvergence k =>
      rw [call]
      split
      · exact h
      · rename_i hAt
        obtain ⟨own, hOwn⟩ := parts.runClusterToConvergence_spec
        exact h.set hAt hOwn.observed

theorem run_counted (calls : List SwarmCall) (h : s.Counted cfg) :
    (s.run parts cfg calls).Counted cfg :=
  List.foldlRecOn _ _ h fun _ hAcc c _ => call_counted c hAcc

end SwarmState

/-- A call that reports convergence ends a window of good rounds of the cluster. Where the count
began with this call, they are all its own. -/
theorem convergence_sustained (parts : SwarmParts Env Phi Quality) (cfg : SwarmConfig Phi Quality)
    (start : SwarmState Env Phi Quality) (hNew : start.New) (calls : List SwarmCall)
    {k : ℕ} {c : TrackedCluster Phi Quality}
    (hAt : (start.run parts cfg calls).clusters[k]? = some c) :
    let out := parts.runClusterToConvergence cfg (start.run parts cfg calls).env c
    ∃ own, out.2.2.readings = c.readings ++ own ∧ (out.1.rounds < cfg.maxRounds →
      own.length = out.1.rounds.toNat + 1 ∧ WindowSustained cfg (c.readings ++ own) ∧
      (c.sustainCount = 0 ∨ (∃ r ∈ own, ¬ Sustains cfg r) → WindowSustained cfg own)) := by
  intro out
  obtain ⟨own, hOwn⟩ : ∃ own, RoundsSpec cfg 0 own c out := parts.runClusterToConvergence_spec
  refine ⟨own, hOwn.observed.readings, fun hLess => ?_⟩
  obtain ⟨hWindow, hLength⟩ := hOwn.converged hLess
  have hCounted : c.Counted cfg :=
    SwarmState.run_counted calls hNew.counted c (List.mem_of_getElem? hAt)
  rw [Nat.zero_add] at hLength
  refine ⟨hLength, windowSustained_iff.mpr ?_, fun hAnew => windowSustained_iff.mpr ?_⟩
  · rw [← hOwn.observed.readings]
    exact (UInt32.le_iff_toNat_le.mp hWindow).trans (hOwn.observed.counted hCounted)
  · have hSince : sustainedFrom cfg c.sustainCount.toNat own = sustained cfg own := by
      refine Stretch.countFrom_eq_since (hAnew.imp_left ?_)
      intro hZero
      rw [hZero, UInt32.toNat_zero]
    rw [← hSince]
    exact (UInt32.le_iff_toNat_le.mp hWindow).trans hOwn.observed.count

/-- The rounds of the call itself make up the window. -/
def OwnWindowSustained (parts : SwarmParts Env Phi Quality) (cfg : SwarmConfig Phi Quality)
    (start : SwarmState Env Phi Quality) (calls : List SwarmCall) (k : ℕ) : Prop :=
  ∀ c, (start.run parts cfg calls).clusters[k]? = some c →
    let out := parts.runClusterToConvergence cfg (start.run parts cfg calls).env c
    ∀ own, out.2.2.readings = c.readings ++ own → out.1.rounds < cfg.maxRounds →
      WindowSustained cfg own

/-- All agents point the same way and are of the best quality. -/
def orderlyParts : SwarmParts Unit ℕ ℕ where
  hasSystem := true
  hasGraph := fun _ _ => true
  evaluateCluster := fun _ env => env
  tickMembers := fun _ env => env
  evaporate := fun _ env => env
  alignCluster := fun _ env => env
  orderParameterCluster := fun _ _ => 1
  meanQualityCluster := fun _ _ => 1
  bestQualityCluster := fun _ _ => 1
  injectNoiseCluster := fun _ env => env

def twoRounds : SwarmConfig ℕ ℕ := ⟨0, 2, 10, 0⟩

def newCluster : TrackedCluster ℕ ℕ :=
  { id := ⟨0⟩, name := "", rootTask := 0, scopePrefix := "", phi := 0 }

def oneCluster : SwarmState Unit ℕ ℕ := ⟨(), [newCluster], 0⟩

def convergedCluster : TrackedCluster ℕ ℕ :=
  { newCluster with phi := 1, sustainCount := 2, readings := [⟨1, 1⟩, ⟨1, 1⟩] }

theorem oneCluster_new : oneCluster.New := by
  simp [SwarmState.New, oneCluster, newCluster]

theorem convergence_sustained_again :
    let out := orderlyParts.runClusterToConvergence twoRounds () convergedCluster
    ∃ own, out.2.2.readings = convergedCluster.readings ++ own ∧ own.length = 1 ∧
      WindowSustained twoRounds (convergedCluster.readings ++ own) := by
  obtain ⟨own, hReadings, hConverged⟩ := convergence_sustained orderlyParts twoRounds oneCluster
    oneCluster_new [.runClusterToConvergence 0] (k := 0) (c := convergedCluster) rfl
  obtain ⟨hLength, hWindow, -⟩ := hConverged (by decide)
  exact ⟨own, hReadings, hLength, hWindow⟩

/-- Called again, the call reports convergence after one round of its own. -/
theorem own_window_not_sustained : oneCluster.New ∧ 1 ≤ twoRounds.sustainWindow ∧
    ¬ OwnWindowSustained orderlyParts twoRounds oneCluster [.runClusterToConvergence 0] 0 := by
  refine ⟨oneCluster_new, by decide, fun hOwn => ?_⟩
  have hWindow := hOwn convergedCluster rfl [⟨1, 1⟩] rfl (by decide)
  exact absurd hWindow.1 (by decide)

end Runs
end CelerMem.Necto.Swarm
