import CelerMem.Core.Stream

/-! The stream combinators of `stream.hpp`. Each `pull` is the body of the member
function; the `while (true)` loops run through `Loop.run`. -/
namespace CelerMem.Stream

variable {α β : Type}

/-! ## map -/

structure MapImpl (α β : Type) where
  source : StreamHandle α
  fn : α → β

def MapImpl.pull (s : MapImpl α β) : Option (Pulled β × MapImpl α β) := do
  let (r, source) ← s.source.pull
  let s := { s with source }
  match r with
  | .error e => some (.error e, s)
  | .ok none => some (.ok none, s)
  | .ok (some chunk) =>
      let mapped := Chunk.build chunk.size (chunk.toList.map s.fn) (by simp) chunk.size_lt
      some (.ok (some mapped), s)

/-- A pull goes through to the source, and only brings Done when that does. -/
theorem MapImpl.pull_source {s t : MapImpl α β} {r : Pulled β} (hPull : s.pull = some (r, t)) :
    ∃ q, s.source.pull = some (q, t.source) ∧ (r = .ok none → q = .ok none) := by
  obtain ⟨⟨q, source⟩, hNext, hRest⟩ := Option.bind_eq_some_iff.mp hPull
  rcases q with e | _ | chunk
  · obtain ⟨rfl, rfl⟩ := Prod.mk.inj (Option.some.inj hRest)
    exact ⟨_, hNext, fun hDone => by cases hDone⟩
  · obtain ⟨rfl, rfl⟩ := Prod.mk.inj (Option.some.inj hRest)
    exact ⟨_, hNext, fun _ => rfl⟩
  · obtain ⟨rfl, rfl⟩ := Prod.mk.inj (Option.some.inj hRest)
    exact ⟨_, hNext, fun hDone => by cases hDone⟩

instance : StreamImpl (MapImpl α β) β where
  pull := MapImpl.pull
  copy s := ⟨s.source.clone, s.fn⟩

def map (source : StreamHandle α) (fn : α → β) : StreamHandle β :=
  makeStreamHandle (⟨source, fn⟩ : MapImpl α β)

/-! ## filter -/

structure FilterImpl (α : Type) where
  source : StreamHandle α
  pred : α → Bool

/-- One pass; a chunk without a kept element sends the loop round again. -/
def FilterImpl.turn (s : FilterImpl α) :
    Option (Loop.Turn (FilterImpl α) (Pulled α × FilterImpl α)) := do
  let (r, source) ← s.source.pull
  let s := { s with source }
  match r with
  | .error e => some (.leave (.error e, s))
  | .ok none => some (.leave (.ok none, s))
  | .ok (some chunk) =>
      let filtered := Chunk.build chunk.size (chunk.toList.filter s.pred)
        (by simpa using List.length_filter_le s.pred chunk.toList) chunk.size_lt
      if filtered.empty then some (.again s) else some (.leave (.ok (some filtered), s))

theorem FilterImpl.turn_source {s : FilterImpl α}
    {turn : Loop.Turn (FilterImpl α) (Pulled α × FilterImpl α)} (hTurn : s.turn = some turn) :
    ∃ q source, s.source.pull = some (q, source) ∧ turn.Holds (fun t => t.source = source)
      fun p => p.2.source = source ∧ (p.1 = .ok none → q = .ok none) := by
  obtain ⟨⟨q, source⟩, hNext, hRest⟩ := Option.bind_eq_some_iff.mp hTurn
  refine ⟨q, source, hNext, ?_⟩
  rcases q with e | _ | chunk
  · obtain rfl := Option.some.inj hRest
    exact ⟨rfl, fun hDone => by cases hDone⟩
  · obtain rfl := Option.some.inj hRest
    exact ⟨rfl, fun _ => rfl⟩
  · simp only at hRest
    split at hRest
    · obtain rfl := Option.some.inj hRest
      exact rfl
    · obtain rfl := Option.some.inj hRest
      exact ⟨rfl, fun hDone => by cases hDone⟩

def FilterImpl.pull (s : FilterImpl α) : Option (Pulled α × FilterImpl α) :=
  Loop.run FilterImpl.turn s

instance : StreamImpl (FilterImpl α) α where
  pull := FilterImpl.pull
  copy s := ⟨s.source.clone, s.pred⟩

def filter (source : StreamHandle α) (pred : α → Bool) : StreamHandle α :=
  makeStreamHandle (⟨source, pred⟩ : FilterImpl α)

/-! ## take -/

structure TakeImpl (α : Type) where
  source : StreamHandle α
  remaining : Nat

def TakeImpl.pull (s : TakeImpl α) : Option (Pulled α × TakeImpl α) :=
  if s.remaining = 0 then some (.ok none, s)
  else do
    let (r, source) ← s.source.pull
    let s := { s with source }
    match r with
    | .error e => some (.error e, s)
    | .ok none => some (.ok none, s)
    | .ok (some chunk) =>
        if chunk.size ≤ s.remaining then
          some (r, { s with remaining := s.remaining - chunk.size })
        else
          let sliced := chunk.slice 0 s.remaining
          some (.ok (some sliced), { s with remaining := 0 })

/-- Once the limit is used up the source is left alone. -/
theorem TakeImpl.pull_source {s t : TakeImpl α} {r : Pulled α} (hPull : s.pull = some (r, t)) :
    s.remaining = 0 ∧ t = s ∨
      ∃ q, s.source.pull = some (q, t.source) ∧ (r = .ok none → q = .ok none) := by
  by_cases hNone : s.remaining = 0
  · rw [TakeImpl.pull, if_pos hNone] at hPull
    obtain ⟨-, rfl⟩ := Prod.mk.inj (Option.some.inj hPull)
    exact Or.inl ⟨hNone, rfl⟩
  · rw [TakeImpl.pull, if_neg hNone] at hPull
    obtain ⟨⟨q, source⟩, hNext, hRest⟩ := Option.bind_eq_some_iff.mp hPull
    right
    rcases q with e | _ | chunk
    · obtain ⟨rfl, rfl⟩ := Prod.mk.inj (Option.some.inj hRest)
      exact ⟨_, hNext, fun hDone => by cases hDone⟩
    · obtain ⟨rfl, rfl⟩ := Prod.mk.inj (Option.some.inj hRest)
      exact ⟨_, hNext, fun _ => rfl⟩
    · simp only at hRest
      split at hRest
      · obtain ⟨rfl, rfl⟩ := Prod.mk.inj (Option.some.inj hRest)
        exact ⟨_, hNext, fun hDone => by cases hDone⟩
      · obtain ⟨rfl, rfl⟩ := Prod.mk.inj (Option.some.inj hRest)
        exact ⟨_, hNext, fun hDone => by cases hDone⟩

instance : StreamImpl (TakeImpl α) α where
  pull := TakeImpl.pull
  copy s := ⟨s.source.clone, s.remaining⟩

def take (source : StreamHandle α) (n : Nat) : StreamHandle α :=
  makeStreamHandle (⟨source, n⟩ : TakeImpl α)

/-! ## flat_map -/

structure FlatMapImpl (α β : Type) where
  source : StreamHandle α
  fn : α → StreamHandle β
  currentSub : Option (StreamHandle β)
  pending : List α

/-- The part of a pass that runs without an active sub-stream. -/
def FlatMapImpl.advance (s : FlatMapImpl α β) :
    Option (Loop.Turn (FlatMapImpl α β) (Pulled β × FlatMapImpl α β)) :=
  match s.pending with
  | elem :: pending => some (.again { s with currentSub := some (s.fn elem), pending })
  | [] => do
      let (r, source) ← s.source.pull
      let s := { s with source }
      match r with
      | .error e => some (.leave (.error e, s))
      | .ok none => some (.leave (.ok none, s))
      | .ok (some chunk) =>
          match chunk.toList with
          | [] => some (.again s)
          -- `pending_` is empty here, so assigning only from two elements on is no different.
          | first :: rest => some (.again { s with currentSub := some (s.fn first), pending := rest })

def FlatMapImpl.turn (s : FlatMapImpl α β) :
    Option (Loop.Turn (FlatMapImpl α β) (Pulled β × FlatMapImpl α β)) :=
  match s.currentSub with
  | none => s.advance
  | some sub => do
      let (r, sub) ← sub.pull
      match r with
      | .error e => some (.leave (.error e, { s with currentSub := some sub }))
      | .ok (some chunk) => some (.leave (.ok (some chunk), { s with currentSub := some sub }))
      | .ok none => FlatMapImpl.advance { s with currentSub := none }

def FlatMapImpl.pull (s : FlatMapImpl α β) : Option (Pulled β × FlatMapImpl α β) :=
  Loop.run FlatMapImpl.turn s

instance : StreamImpl (FlatMapImpl α β) β where
  pull := FlatMapImpl.pull
  copy s := ⟨s.source.clone, s.fn, s.currentSub.map StreamHandle.clone, s.pending⟩

def flatMap (source : StreamHandle α) (fn : α → StreamHandle β) : StreamHandle β :=
  makeStreamHandle (⟨source, fn, none, []⟩ : FlatMapImpl α β)

end CelerMem.Stream
