import CelerMem.Materialization.StoreRef

/-! Strategy selection for cross-store joins. -/
namespace CelerMem.Materialization

inductive JoinKind where
  | inner
  | leftOuter
  | rightOuter
  | fullOuter
  | semiLeft
  | antiLeft
  deriving DecidableEq, Repr

inductive JoinStrategy where
  | auto
  | batchIndexNestedLoop
  | indexNestedLoop
  | hashJoin
  | mergeJoin
  | nestedLoop
  deriving DecidableEq, Repr

/-- A zero batch size, build cap or limit means the default, none and none. -/
structure JoinOptions where
  kind : JoinKind := .inner
  forceStrategy : JoinStrategy := .auto
  batchSize : Nat := 0
  hashBuildCap : Nat := 0
  limit : Nat := 0
  deriving DecidableEq, Repr

structure JoinPlan where
  strategy : JoinStrategy
  batchSize : Nat
  rationale : String
  deriving DecidableEq, Repr

structure PlannerInputs where
  leftCaps : StoreCapabilities
  rightCaps : StoreCapabilities
  opts : JoinOptions

namespace JoinPlanner

/-- The batch size asked for, or the default of the strategy. -/
def batchSizeOr (opts : JoinOptions) (default : Nat) : Nat :=
  if 0 < opts.batchSize then opts.batchSize else default

def plan (inputs : PlannerInputs) : JoinPlan :=
  let opts := inputs.opts
  if opts.forceStrategy ≠ .auto then
    ⟨opts.forceStrategy, batchSizeOr opts 1024, "user-pinned strategy"⟩
  else
    let rightLocal := inputs.rightCaps.costTier == .local || inputs.rightCaps.costTier == .embedded
    let rightNetwork := inputs.rightCaps.costTier == .network
    if inputs.rightCaps.nativeBatchGet && rightLocal then
      ⟨.batchIndexNestedLoop, batchSizeOr opts 1024,
        "right side has native batch get; local cost tier"⟩
    else if inputs.rightCaps.nativeBatchGet && rightNetwork then
      ⟨.batchIndexNestedLoop, batchSizeOr opts 256,
        "right side has native batch get; network round-trip dominates"⟩
    else if rightLocal && inputs.leftCaps.costTier == .local && decide (0 < opts.hashBuildCap) then
      ⟨.hashJoin, batchSizeOr opts 1024, "both sides local with bounded hash build cap"⟩
    else
      -- The branch on two ordered scans has an empty body in the source.
      ⟨.indexNestedLoop, 1, "no batch get available; per-row probe"⟩

theorem plan_pinned (inputs : PlannerInputs) (h : inputs.opts.forceStrategy ≠ .auto) :
    (plan inputs).strategy = inputs.opts.forceStrategy ∧
      (plan inputs).batchSize = batchSizeOr inputs.opts 1024 := by
  simp [plan, h]

/-- Whatever is planned, a batch is never empty. -/
theorem plan_batchSize_pos (inputs : PlannerInputs) : 0 < (plan inputs).batchSize := by
  have hDefault : ∀ d, 0 < d → 0 < batchSizeOr inputs.opts d := by
    intro d hd
    unfold batchSizeOr
    split <;> assumption
  dsimp only [plan]
  split_ifs
  · exact hDefault 1024 (by decide)
  · exact hDefault 1024 (by decide)
  · exact hDefault 256 (by decide)
  · exact hDefault 1024 (by decide)
  · exact Nat.one_pos

end JoinPlanner
end CelerMem.Materialization
