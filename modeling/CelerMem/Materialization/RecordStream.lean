import CelerMem.Core.CloneSafe
import CelerMem.Materialization.StoreRef

/-! The combinators of `RecordStream<T>`. Three of them are those of `stream.hpp` again,
at records. -/
namespace CelerMem.Materialization

variable {T U : Type}

namespace RecordStream

abbrev WhereImpl (T : Type) := Stream.FilterImpl (Record T)

def «where» (source : StreamHandle (Record T)) (pred : Record T → Bool) :
    StreamHandle (Record T) :=
  makeStreamHandle (⟨source, pred⟩ : WhereImpl T)

abbrev MapImpl (T U : Type) := Stream.MapImpl (Record T) (Record U)

/-- The key is kept. -/
def map (source : StreamHandle (Record T)) (fn : T → U) : StreamHandle (Record U) :=
  makeStreamHandle (⟨source, fun rec => ⟨rec.key, fn rec.value⟩⟩ : MapImpl T U)

abbrev TakeImpl (T : Type) := Stream.TakeImpl (Record T)

def take (source : StreamHandle (Record T)) (n : Nat) : StreamHandle (Record T) :=
  makeStreamHandle (⟨source, n⟩ : TakeImpl T)

/-! ## inspect -/

/-- `fn` is run for its effect, which is all on what it captured. -/
structure InspectImpl (T Captured : Type) where
  source : StreamHandle (Record T)
  fn : Captured → Record T → Captured
  captured : Captured

def InspectImpl.pull {Captured : Type} (s : InspectImpl T Captured) :
    Option (Pulled (Record T) × InspectImpl T Captured) := do
  let (r, source) ← s.source.pull
  let s := { s with source }
  match r with
  | .error e => some (.error e, s)
  | .ok none => some (.ok none, s)
  | .ok (some chunk) =>
      some (.ok (some chunk), { s with captured := chunk.toList.foldl s.fn s.captured })

theorem InspectImpl.pull_source {Captured : Type} {s t : InspectImpl T Captured}
    {r : Pulled (Record T)} (hPull : s.pull = some (r, t)) :
    ∃ q, s.source.pull = some (q, t.source) ∧ (r = .ok none → q = .ok none) := by
  obtain ⟨⟨q, source⟩, hNext, hRest⟩ := Option.bind_eq_some_iff.mp hPull
  rcases q with e | _ | chunk
  · obtain ⟨rfl, rfl⟩ := Prod.mk.inj (Option.some.inj hRest)
    exact ⟨_, hNext, fun hDone => by cases hDone⟩
  · obtain ⟨rfl, rfl⟩ := Prod.mk.inj (Option.some.inj hRest)
    exact ⟨_, hNext, fun _ => rfl⟩
  · obtain ⟨rfl, rfl⟩ := Prod.mk.inj (Option.some.inj hRest)
    exact ⟨_, hNext, fun hDone => by cases hDone⟩

instance {Captured : Type} : StreamImpl (InspectImpl T Captured) (Record T) where
  pull := InspectImpl.pull
  copy s := ⟨s.source.clone, s.fn, s.captured⟩

def inspect {Captured : Type} (source : StreamHandle (Record T))
    (fn : Captured → Record T → Captured) (captured : Captured) : StreamHandle (Record T) :=
  makeStreamHandle (⟨source, fn, captured⟩ : InspectImpl T Captured)

/-! ## batch -/

structure BatchImpl (T : Type) where
  source : StreamHandle (Record T)
  batchSize : Nat
  buffer : List (Record T)
  upstreamDone : Bool

/-- One pass of the loop that fills the buffer. -/
def BatchImpl.fillTurn (s : BatchImpl T) :
    Option (Loop.Turn (BatchImpl T) (VoidResult × BatchImpl T)) :=
  if s.buffer.length < s.batchSize && !s.upstreamDone then do
    let (r, source) ← s.source.pull
    let s := { s with source }
    match r with
    | .error e => some (.leave (.error e, s))
    | .ok none => some (.leave (.ok (), { s with upstreamDone := true }))
    | .ok (some chunk) => some (.again { s with buffer := s.buffer ++ chunk.toList })
  else some (.leave (.ok (), s))

def BatchImpl.pull (s : BatchImpl T) : Option (Pulled (Record T) × BatchImpl T) := do
  let (r, s) ← Loop.run fillTurn s
  match r with
  | .error e => some (.error e, s)
  | .ok () =>
      if s.buffer.isEmpty then some (.ok none, s)
      else
        let takeN := min s.batchSize s.buffer.length
        let out := s.buffer.take takeN
        some (.ok (some (Chunk.from out)), { s with buffer := s.buffer.drop takeN })

instance : StreamImpl (BatchImpl T) (Record T) where
  pull := BatchImpl.pull
  copy s := ⟨s.source.clone, s.batchSize, s.buffer, s.upstreamDone⟩

def batch (source : StreamHandle (Record T)) (n : Nat) : StreamHandle (Record T) :=
  makeStreamHandle (⟨source, n, [], false⟩ : BatchImpl T)

/-! ## collect -/

/-- The loop is that of `stream.hpp`. -/
abbrev collect (stream : StreamHandle (Record T)) : Option (Result (List (Record T))) :=
  Stream.collect stream

/-! ## Clones -/

variable {source : StreamHandle (Record T)}

theorem where_cloneSafe (hSource : CloneSafe source) (pred : Record T → Bool) :
    CloneSafe («where» source pred) := Stream.filter_cloneSafe hSource pred

theorem map_cloneSafe (hSource : CloneSafe source) (fn : T → U) : CloneSafe (map source fn) :=
  Stream.map_cloneSafe hSource fun rec => (⟨rec.key, fn rec.value⟩ : Record U)

theorem take_cloneSafe (hSource : CloneSafe source) (n : ℕ) : CloneSafe (take source n) :=
  Stream.take_cloneSafe hSource n

theorem batch_cloneSafe (hSource : CloneSafe source) (n : ℕ) : CloneSafe (batch source n) := by
  apply CloneSafe.make (motive := fun s : BatchImpl T => CloneSafe s.source) _ _ hSource
  · intro s hs
    show BatchImpl.mk s.source.clone s.batchSize s.buffer s.upstreamDone = s
    rw [hs.clone_eq]
  · intro s r t hs hPull
    obtain ⟨⟨q, filled⟩, hRun, hRest⟩ := Option.bind_eq_some_iff.mp hPull
    have hFilled : CloneSafe filled.source := by
      apply Loop.run_holds (fun s : BatchImpl T => CloneSafe s.source)
        (fun p : VoidResult × BatchImpl T => CloneSafe p.2.source) _ hs hRun
      intro s turn hs hTurn
      rw [BatchImpl.fillTurn] at hTurn
      split at hTurn
      · obtain ⟨⟨q, source⟩, hNext, hRest⟩ := Option.bind_eq_some_iff.mp hTurn
        have hSafe := hs.pull hNext
        cases q with
        | error e =>
            obtain rfl := Option.some.inj hRest
            exact hSafe
        | ok chunk =>
            cases chunk with
            | none =>
                obtain rfl := Option.some.inj hRest
                exact hSafe
            | some chunk =>
                obtain rfl := Option.some.inj hRest
                exact hSafe
      · obtain rfl := Option.some.inj hTurn
        exact hs
    cases q with
    | error e =>
        obtain ⟨-, rfl⟩ := Prod.mk.inj (Option.some.inj hRest)
        exact hFilled
    | ok u =>
        simp only at hRest
        split at hRest
        · obtain ⟨-, rfl⟩ := Prod.mk.inj (Option.some.inj hRest)
          exact hFilled
        · obtain ⟨-, rfl⟩ := Prod.mk.inj (Option.some.inj hRest)
          exact hFilled

end RecordStream
end CelerMem.Materialization
