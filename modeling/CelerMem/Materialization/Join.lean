import CelerMem.Materialization.Planner

/-! The join executors of `join.hpp`. The three of them hold the same output
queue and drain it by the same `pull`; each has its own way to refill it. -/
namespace CelerMem.Materialization

variable {L R : Type}

/-- `right` is absent for a left row without a match. -/
structure Joined (L R : Type) where
  key : Bytes
  left : L
  right : Option R
  deriving DecidableEq, Repr

def shouldEmit : JoinKind → Bool → Bool
  | .inner, rightPresent => rightPresent
  | .leftOuter, _ => true
  | .semiLeft, rightPresent => rightPresent
  | .antiLeft, rightPresent => !rightPresent
  | .rightOuter, rightPresent => rightPresent
  | .fullOuter, _ => true

/-! ## The output queue -/

/-- The fields that the three executors share. -/
structure JoinOutput (L R : Type) where
  kind : JoinKind
  limitRemaining : Nat
  hasLimit : Bool
  pendingOut : List (Joined L R)
  outCursor : Nat
  upstreamDone : Bool
  deriving DecidableEq, Repr

namespace JoinOutput

def initial (kind : JoinKind) (limit : Nat) : JoinOutput L R :=
  ⟨kind, limit, 0 < limit, [], 0, false⟩

/-- One row of a probe loop: what is emitted under the kind, and whether the
limit breaks the loop. Reaching the limit also suppresses further left pulls. -/
def emitRow (out : JoinOutput L R) (key : Bytes) (left : L) (found : Option R) :
    JoinOutput L R × Bool :=
  if shouldEmit out.kind found.isSome then
    let out := { out with pendingOut := out.pendingOut ++ [⟨key, left, found⟩] }
    if out.hasLimit && out.limitRemaining ≤ out.pendingOut.length then
      ({ out with upstreamDone := true }, true)
    else (out, false)
  else (out, false)

end JoinOutput

/-- An executor: its source side and the output queue. -/
structure JoinImpl (Side L R : Type) where
  side : Side
  out : JoinOutput L R

namespace JoinImpl
variable {Side : Type}

/-- The part of `pull` after the loop: drain `pending_out` as one chunk. -/
def drain (s : JoinImpl Side L R) : Pulled (Joined L R) × JoinImpl Side L R :=
  let out := s.out
  let drained := out.pendingOut.drop out.outCursor
  let out := { out with outCursor := out.pendingOut.length }
  if out.hasLimit then
    let drained := if out.limitRemaining < drained.length then drained.take out.limitRemaining
      else drained
    let limitRemaining := out.limitRemaining - drained.length
    let out := { out with limitRemaining, upstreamDone := out.upstreamDone || limitRemaining == 0 }
    (.ok (some (Chunk.from drained)), { s with out })
  else (.ok (some (Chunk.from drained)), { s with out })

/-- One pass of the loop in `pull`, around the `refill` of the executor. -/
def turn (refill : JoinImpl Side L R → Option (VoidResult × JoinImpl Side L R))
    (s : JoinImpl Side L R) :
    Option (Loop.Turn (JoinImpl Side L R) (Pulled (Joined L R) × JoinImpl Side L R)) :=
  if s.out.pendingOut.length ≤ s.out.outCursor then
    if s.out.upstreamDone && s.out.pendingOut.isEmpty then some (.leave (.ok none, s))
    else do
      let (r, s) ← refill { s with out := { s.out with pendingOut := [], outCursor := 0 } }
      match r with
      | .error e => some (.leave (.error e, s))
      | .ok () =>
          if s.out.pendingOut.isEmpty && s.out.upstreamDone then some (.leave (.ok none, s))
          else some (.again s)
  else some (.leave s.drain)

def pullWith (refill : JoinImpl Side L R → Option (VoidResult × JoinImpl Side L R))
    (s : JoinImpl Side L R) : Option (Pulled (Joined L R) × JoinImpl Side L R) :=
  Loop.run (turn refill) s

end JoinImpl

/-! ## BatchIndexNestedLoop -/

structure BatchIndexNLSide (L R : Type) where
  leftSrc : StreamHandle (Record L)
  right : BackendReads
  extract : Record L → Result Bytes
  batchSize : Nat
  leftover : Chunk (Record L)
  leftoverIdx : Nat

abbrev BatchIndexNLImpl (L R : Type) := JoinImpl (BatchIndexNLSide L R) L R

namespace BatchIndexNLImpl

/-- One pass of the loop that fills `left_batch`: first what is left over of the
last chunk, then the next chunk of the left source. -/
def batchTurn : BatchIndexNLImpl L R × List (Record L) →
    Option (Loop.Turn (BatchIndexNLImpl L R × List (Record L))
      (Result (List (Record L)) × BatchIndexNLImpl L R))
  | (s, leftBatch) =>
      if leftBatch.length < s.side.batchSize then
        match s.side.leftover.toList[s.side.leftoverIdx]? with
        | some rec =>
            let side := { s.side with leftoverIdx := s.side.leftoverIdx + 1 }
            some (.again ({ s with side }, leftBatch ++ [rec]))
        | none =>
            if s.out.upstreamDone then some (.leave (.ok leftBatch, s))
            else do
              let (r, leftSrc) ← s.side.leftSrc.pull
              let s := { s with side := { s.side with leftSrc } }
              match r with
              | .error e => some (.leave (.error e, s))
              | .ok none =>
                  some (.leave (.ok leftBatch, { s with out := { s.out with upstreamDone := true } }))
              | .ok (some chunk) =>
                  let side := { s.side with leftover := chunk, leftoverIdx := 0 }
                  some (.again ({ s with side }, leftBatch))
      else some (.leave (.ok leftBatch, s))

/-- The vectors built while deriving the right keys. `dedupe` maps the bytes of a
key to its slot in `uniqueStorage`. -/
structure DerivedKeys where
  rowKeys : List Bytes := []
  uniqueIdx : List Nat := []
  dedupe : List (Bytes × Nat) := []
  uniqueStorage : List Bytes := []
  deriving DecidableEq, Repr

/-- `try_emplace` into `dedupe`, with what it is used for. -/
def DerivedKeys.add (d : DerivedKeys) (key : Bytes) : DerivedKeys :=
  match d.dedupe.lookup key with
  | some slot =>
      { d with rowKeys := d.rowKeys ++ [key], uniqueIdx := d.uniqueIdx ++ [slot] }
  | none =>
      let slot := d.uniqueStorage.length
      { rowKeys := d.rowKeys ++ [key]
        uniqueIdx := d.uniqueIdx ++ [slot]
        dedupe := d.dedupe ++ [(key, slot)]
        uniqueStorage := d.uniqueStorage ++ [key] }

def deriveKeys (extract : Record L → Result Bytes) :
    List (Record L) → DerivedKeys → Result DerivedKeys
  | [], d => .ok d
  | rec :: recs, d =>
      match extract rec with
      | .error e => .error e
      | .ok key => deriveKeys extract recs (d.add key)

/-- The probe loop over the batch, its row keys and their slots. A slot is always
inside `fetched` when the store answers every key. -/
def probe (fetched : List (Bytes × Option R)) :
    List (Record L) → List Bytes → List Nat → JoinOutput L R → JoinOutput L R
  | rec :: recs, key :: keys, slot :: slots, out =>
      match out.emitRow key rec.value (fetched[slot]?.bind Prod.snd) with
      | (out, true) => out
      | (out, false) => probe fetched recs keys slots out
  | _, _, _, out => out

/-- The part of `refill` behind the `reserve`. -/
def fillBatch [Codec R] (s : BatchIndexNLImpl L R) : Option (VoidResult × BatchIndexNLImpl L R) := do
  let (r, s) ← Loop.run batchTurn (s, [])
  match r with
  | .error e => some (.error e, s)
  | .ok leftBatch =>
      if leftBatch.isEmpty then some (.ok (), s)
      else
        match deriveKeys s.side.extract leftBatch {} with
        | .error e => some (.error e, s)
        | .ok d =>
            match StoreRef.getMany (T := R) s.side.right d.uniqueStorage with
            | .error e => some (.error e, s)
            | .ok fetched =>
                some (.ok (), { s with out := probe fetched leftBatch d.rowKeys d.uniqueIdx s.out })

/-- `left_batch` gets room for `batch_size` rows before any row is there. -/
def refill [Allocation] [Codec R] (s : BatchIndexNLImpl L R) :
    Option (VoidResult × BatchIndexNLImpl L R) :=
  match reserve (Record L) s.side.batchSize with
  | .error e => some (.error e, s)
  | .ok () => fillBatch s

def pull [Allocation] [Codec R] (s : BatchIndexNLImpl L R) :
    Option (Pulled (Joined L R) × BatchIndexNLImpl L R) :=
  JoinImpl.pullWith refill s

end BatchIndexNLImpl

instance [Allocation] [Codec R] : StreamImpl (BatchIndexNLImpl L R) (Joined L R) where
  pull := BatchIndexNLImpl.pull
  copy s := { s with side := { s.side with leftSrc := s.side.leftSrc.clone } }

/-! ## HashJoin and NestedLoop -/

/-- The row loop of both: derive the key, look it up, emit. -/
def emitRows (extract : Record L → Result Bytes) (find : Bytes → Option R) :
    List (Record L) → JoinOutput L R → VoidResult × JoinOutput L R
  | [], out => (.ok (), out)
  | rec :: recs, out =>
      match extract rec with
      | .error e => (.error e, out)
      | .ok key =>
          match out.emitRow key rec.value (find key) with
          | (out, true) => (.ok (), out)
          | (out, false) => emitRows extract find recs out

/-- The refill of both: one chunk of the left source. -/
def refillFromChunk {Side : Type} (leftSrc : Side → StreamHandle (Record L))
    (withSrc : Side → StreamHandle (Record L) → Side) (extract : Side → Record L → Result Bytes)
    (find : Side → Bytes → Option R) (s : JoinImpl Side L R) :
    Option (VoidResult × JoinImpl Side L R) := do
  let (r, src) ← (leftSrc s.side).pull
  let s := { s with side := withSrc s.side src }
  match r with
  | .error e => some (.error e, s)
  | .ok none => some (.ok (), { s with out := { s.out with upstreamDone := true } })
  | .ok (some chunk) =>
      let (r, out) := emitRows (extract s.side) (find s.side) chunk.toList s.out
      some (r, { s with out })

/-- `DenseMap<Key, V>`. Keys compare by hash and bytes, and the hash is a function
of the bytes, so equal bytes is all there is to it. -/
abbrev DenseMap (V : Type) := List (Bytes × V)

/-- An existing entry is kept. -/
def DenseMap.tryEmplace {V : Type} (m : DenseMap V) (key : Bytes) (value : V) : DenseMap V :=
  if (m.lookup key).isSome then m else m ++ [(key, value)]

structure HashJoinSide (L R : Type) where
  leftSrc : StreamHandle (Record L)
  rightIndex : DenseMap R
  extract : Record L → Result Bytes

abbrev HashJoinImpl (L R : Type) := JoinImpl (HashJoinSide L R) L R

namespace HashJoinImpl

def refill (s : HashJoinImpl L R) : Option (VoidResult × HashJoinImpl L R) :=
  refillFromChunk (·.leftSrc) (fun side leftSrc => { side with leftSrc }) (·.extract)
    (fun side key => side.rightIndex.lookup key) s

def pull (s : HashJoinImpl L R) : Option (Pulled (Joined L R) × HashJoinImpl L R) :=
  JoinImpl.pullWith refill s

end HashJoinImpl

instance : StreamImpl (HashJoinImpl L R) (Joined L R) where
  pull := HashJoinImpl.pull
  copy s := { s with side := { s.side with leftSrc := s.side.leftSrc.clone } }

structure NestedLoopSide (L R : Type) where
  leftSrc : StreamHandle (Record L)
  rightAll : List (Record R)
  extract : Record L → Result Bytes

abbrev NestedLoopImpl (L R : Type) := JoinImpl (NestedLoopSide L R) L R

namespace NestedLoopImpl

/-- The inner loop stops at the first record with the sought key. -/
def findFirst (rightAll : List (Record R)) (sought : Bytes) : Option R :=
  (rightAll.find? fun rr => rr.key == sought).map Record.value

def refill (s : NestedLoopImpl L R) : Option (VoidResult × NestedLoopImpl L R) :=
  refillFromChunk (·.leftSrc) (fun side leftSrc => { side with leftSrc }) (·.extract)
    (fun side sought => findFirst side.rightAll sought) s

def pull (s : NestedLoopImpl L R) : Option (Pulled (Joined L R) × NestedLoopImpl L R) :=
  JoinImpl.pullWith refill s

end NestedLoopImpl

instance : StreamImpl (NestedLoopImpl L R) (Joined L R) where
  pull := NestedLoopImpl.pull
  copy s := { s with side := { s.side with leftSrc := s.side.leftSrc.clone } }

/-! ## join -/

structure WrapAsRecordImpl (L R : Type) where
  src : StreamHandle (Joined L R)

def WrapAsRecordImpl.pull (s : WrapAsRecordImpl L R) :
    Option (Pulled (Record (Joined L R)) × WrapAsRecordImpl L R) := do
  let (r, src) ← s.src.pull
  let s := ⟨src⟩
  match r with
  | .error e => some (.error e, s)
  | .ok none => some (.ok none, s)
  | .ok (some chunk) =>
      some (.ok (some (Chunk.from (chunk.toList.map fun j => ⟨j.key, j⟩))), s)

theorem WrapAsRecordImpl.pull_source {s t : WrapAsRecordImpl L R}
    {r : Pulled (Record (Joined L R))} (hPull : s.pull = some (r, t)) :
    ∃ q, s.src.pull = some (q, t.src) ∧ (r = .ok none → q = .ok none) := by
  obtain ⟨⟨q, source⟩, hNext, hRest⟩ := Option.bind_eq_some_iff.mp hPull
  rcases q with e | _ | chunk
  · obtain ⟨rfl, rfl⟩ := Prod.mk.inj (Option.some.inj hRest)
    exact ⟨_, hNext, fun hDone => by cases hDone⟩
  · obtain ⟨rfl, rfl⟩ := Prod.mk.inj (Option.some.inj hRest)
    exact ⟨_, hNext, fun _ => rfl⟩
  · obtain ⟨rfl, rfl⟩ := Prod.mk.inj (Option.some.inj hRest)
    exact ⟨_, hNext, fun hDone => by cases hDone⟩

instance : StreamImpl (WrapAsRecordImpl L R) (Record (Joined L R)) where
  pull := WrapAsRecordImpl.pull
  copy s := ⟨s.src.clone⟩

def wrapAsRecord (src : StreamHandle (Joined L R)) : StreamHandle (Record (Joined L R)) :=
  makeStreamHandle (⟨src⟩ : WrapAsRecordImpl L R)

/-- The rows of one chunk go into the index until the cap is reached. -/
def buildRows (cap : Nat) : List (Record R) → DenseMap R → Result (DenseMap R)
  | [], idx => .ok idx
  | rec :: recs, idx =>
      let idx := idx.tryEmplace rec.key rec.value
      if 0 < cap ∧ cap ≤ idx.length then .error ⟨"HashJoinBuild", "hash_build_cap exceeded"⟩
      else buildRows cap recs idx

def buildTurn (cap : Nat) : StreamHandle (Record R) × DenseMap R →
    Option (Loop.Turn (StreamHandle (Record R) × DenseMap R) (Result (DenseMap R)))
  | (s, idx) => do
      let (pr, s) ← s.pull
      match pr with
      | .error e => some (.leave (.error e))
      | .ok none => some (.leave (.ok idx))
      | .ok (some chunk) =>
          match buildRows cap chunk.toList idx with
          | .error e => some (.leave (.error e))
          | .ok idx => some (.again (s, idx))

/-- Builds the right index by scanning the entire right side. -/
def buildIndex (cap : Nat) (rs : StreamHandle (Record R)) : Option (Result (DenseMap R)) :=
  Loop.run (buildTurn cap) (rs, [])

/-- `join`. The result is `none` when scanning the right side never ends. -/
def join [Allocation] [Codec R] (left : StreamHandle (Record L)) (right : StoreRef R)
    (extractor : Record L → Result Bytes) (opts : JoinOptions) :
    Option (Result (StreamHandle (Record (Joined L R)))) :=
  let inputs : PlannerInputs :=
    { leftCaps := { costTier := .computed }
      rightCaps := { right.capabilities with costTier := .local }
      opts }
  match right.handle with
  | none => some (.error ⟨"Join", "right StoreRef is null"⟩)
  | some handle =>
      let plan := JoinPlanner.plan inputs
      let out : JoinOutput L R := JoinOutput.initial opts.kind opts.limit
      if plan.strategy = .batchIndexNestedLoop ∨ plan.strategy = .indexNestedLoop then
        let bs := if plan.strategy = .indexNestedLoop then 1 else plan.batchSize
        let impl : BatchIndexNLImpl L R := ⟨⟨left, handle, extractor, bs, Chunk.none, 0⟩, out⟩
        some (.ok (wrapAsRecord (makeStreamHandle impl)))
      else
        match StoreRef.streamAll (T := R) handle with
        | .error e => some (.error e)
        | .ok rs =>
            if plan.strategy = .hashJoin then do
              match ← buildIndex opts.hashBuildCap rs with
              | .error e => some (.error e)
              | .ok idx =>
                  let impl : HashJoinImpl L R := ⟨⟨left, idx, extractor⟩, out⟩
                  some (.ok (wrapAsRecord (makeStreamHandle impl)))
            else do
              -- The loop that fills `right_all` is the one of `collect`.
              match ← Stream.collect rs with
              | .error e => some (.error e)
              | .ok rightAll =>
                  let impl : NestedLoopImpl L R := ⟨⟨left, rightAll, extractor⟩, out⟩
                  some (.ok (wrapAsRecord (makeStreamHandle impl)))

end CelerMem.Materialization
