import CelerMem.Core.Combinators

/-! Clones of synchronous streams. A copy constructor that clones the sources and copies
every other field makes a state that cannot be told from the one it copies, as long as
the sources are cloned that well. -/
namespace CelerMem

variable {α β Impl : Type}

/-- The stream after some calls. -/
def StreamHandle.after (calls : List StreamCall) (h : StreamHandle α) : StreamHandle α :=
  ⟨fun more => h.observe (calls ++ more)⟩

/-- A clone, whenever it is taken, answers as the original does. -/
def CloneSafe (h : StreamHandle α) : Prop :=
  ∀ before after, h.observe (before ++ .clone :: after) = h.observe (before ++ after)

namespace CloneSafe

theorem clone_eq {h : StreamHandle α} (hSafe : CloneSafe h) : h.clone = h := by
  show StreamHandle.mk _ = h
  congr 1
  funext calls
  exact hSafe [] calls

theorem after {h : StreamHandle α} (hSafe : CloneSafe h) (calls : List StreamCall) :
    CloneSafe (h.after calls) := by
  intro before more
  have hHere := hSafe (calls ++ before) more
  rwa [List.append_assoc, List.append_assoc] at hHere

theorem pull {h h' : StreamHandle α} {r : Pulled α} (hSafe : CloneSafe h)
    (hPull : h.pull = some (r, h')) : CloneSafe h' := by
  obtain ⟨answer, -, hSame⟩ := Option.map_eq_some_iff.mp hPull
  obtain ⟨-, rfl⟩ := Prod.mk.inj hSame
  exact hSafe.after [.pull]

/-- States that their copies equal, on and on. -/
theorem make [StreamImpl Impl α] {motive : Impl → Prop}
    (hCopy : ∀ s, motive s → StreamImpl.copy s = s)
    (hPull : ∀ s r t, motive s → StreamImpl.pull s = some (r, t) → motive t)
    {s : Impl} (hs : motive s) : CloneSafe (makeStreamHandle s) := by
  intro before more
  show observeFrom s _ = observeFrom s _
  induction before generalizing s with
  | nil => rw [List.nil_append, List.nil_append, observeFrom, hCopy s hs]
  | cons call before ih =>
      rw [List.cons_append, List.cons_append]
      cases call with
      | pull =>
          cases hNext : StreamImpl.pull s with
          | none => rw [observeFrom, observeFrom, hNext]
          | some p =>
              rw [observeFrom, observeFrom, hNext]
              exact ih (hPull s p.1 p.2 hs hNext)
      | clone =>
          rw [observeFrom, observeFrom, hCopy s hs]
          exact ih hs

end CloneSafe

namespace Stream

/-! ## Sources -/

theorem empty_cloneSafe : CloneSafe (empty : StreamHandle α) := by
  apply CloneSafe.make (motive := fun _ => True) _ _ trivial
  · intro s _
    rfl
  · intro s r t _ _
    trivial

theorem singleton_cloneSafe (value : α) : CloneSafe (singleton value) := by
  apply CloneSafe.make (motive := fun _ => True) _ _ trivial
  · intro s _
    rfl
  · intro s r t _ _
    trivial

theorem fromVector_cloneSafe (data : List α) : CloneSafe (fromVector data) := by
  apply CloneSafe.make (motive := fun _ => True) _ _ trivial
  · intro s _
    rfl
  · intro s r t _ _
    trivial

/-! ## Combinators -/

theorem map_cloneSafe {source : StreamHandle α} (hSource : CloneSafe source) (fn : α → β) :
    CloneSafe (map source fn) := by
  apply CloneSafe.make (motive := fun s : MapImpl α β => CloneSafe s.source) _ _ hSource
  · intro s hs
    show MapImpl.mk s.source.clone s.fn = s
    rw [hs.clone_eq]
  · intro s r t hs hPull
    obtain ⟨q, hNext, -⟩ := MapImpl.pull_source hPull
    exact hs.pull hNext

theorem filter_cloneSafe {source : StreamHandle α} (hSource : CloneSafe source) (pred : α → Bool) :
    CloneSafe (filter source pred) := by
  apply CloneSafe.make (motive := fun s : FilterImpl α => CloneSafe s.source) _ _ hSource
  · intro s hs
    show FilterImpl.mk s.source.clone s.pred = s
    rw [hs.clone_eq]
  · intro s r t hs hPull
    apply Loop.run_holds (fun s : FilterImpl α => CloneSafe s.source)
      (fun p => CloneSafe p.2.source) _ hs hPull
    intro s turn hs hTurn
    obtain ⟨q, source, hNext, hLeft⟩ := FilterImpl.turn_source hTurn
    have hSafe := hs.pull hNext
    exact hLeft.imp (fun t hSame => hSame ▸ hSafe) fun p hSame => hSame.1 ▸ hSafe

theorem take_cloneSafe {source : StreamHandle α} (hSource : CloneSafe source) (n : ℕ) :
    CloneSafe (take source n) := by
  apply CloneSafe.make (motive := fun s : TakeImpl α => CloneSafe s.source) _ _ hSource
  · intro s hs
    show TakeImpl.mk s.source.clone s.remaining = s
    rw [hs.clone_eq]
  · intro s r t hs hPull
    rcases TakeImpl.pull_source hPull with ⟨-, rfl⟩ | ⟨q, hNext, -⟩
    · exact hs
    · exact hs.pull hNext

/-- The sources of a `flat_map` state: its source, its sub-stream and those to come. -/
structure FlatMapImpl.Safe (s : FlatMapImpl α β) : Prop where
  source : CloneSafe s.source
  fn : ∀ x, CloneSafe (s.fn x)
  currentSub : ∀ sub ∈ s.currentSub, CloneSafe sub

theorem FlatMapImpl.Safe.advance {s : FlatMapImpl α β} (hs : s.Safe)
    {turn : Loop.Turn (FlatMapImpl α β) (Pulled β × FlatMapImpl α β)}
    (hTurn : s.advance = some turn) : turn.Holds Safe fun p => p.2.Safe := by
  cases hPending : s.pending with
  | cons elem pending =>
      rw [FlatMapImpl.advance, hPending] at hTurn
      obtain rfl := Option.some.inj hTurn
      exact ⟨hs.source, hs.fn, fun sub hSub => Option.mem_some.mp hSub ▸ hs.fn elem⟩
  | nil =>
      rw [FlatMapImpl.advance, hPending] at hTurn
      obtain ⟨⟨q, source⟩, hNext, hRest⟩ := Option.bind_eq_some_iff.mp hTurn
      have hSafe := hs.source.pull hNext
      cases q with
      | error e =>
          obtain rfl := Option.some.inj hRest
          exact ⟨hSafe, hs.fn, hs.currentSub⟩
      | ok chunk =>
          cases chunk with
          | none =>
              obtain rfl := Option.some.inj hRest
              exact ⟨hSafe, hs.fn, hs.currentSub⟩
          | some chunk =>
              simp only at hRest
              split at hRest
              · obtain rfl := Option.some.inj hRest
                exact ⟨hSafe, hs.fn, hs.currentSub⟩
              · obtain rfl := Option.some.inj hRest
                exact ⟨hSafe, hs.fn, fun sub hSub => Option.mem_some.mp hSub ▸ hs.fn _⟩

theorem FlatMapImpl.Safe.turn {s : FlatMapImpl α β} (hs : s.Safe)
    {turn : Loop.Turn (FlatMapImpl α β) (Pulled β × FlatMapImpl α β)}
    (hTurn : s.turn = some turn) : turn.Holds Safe fun p => p.2.Safe := by
  cases hSub : s.currentSub with
  | none =>
      rw [FlatMapImpl.turn, hSub] at hTurn
      exact hs.advance hTurn
  | some sub =>
      rw [FlatMapImpl.turn, hSub] at hTurn
      obtain ⟨⟨q, next⟩, hNext, hRest⟩ := Option.bind_eq_some_iff.mp hTurn
      have hSafe := (hs.currentSub sub hSub).pull hNext
      have hGoes : ∀ sub ∈ some next, CloneSafe sub := fun sub hSub => Option.mem_some.mp hSub ▸ hSafe
      cases q with
      | error e =>
          obtain rfl := Option.some.inj hRest
          exact ⟨hs.source, hs.fn, hGoes⟩
      | ok chunk =>
          cases chunk with
          | none =>
              have hCleared : FlatMapImpl.Safe { s with currentSub := none } :=
                ⟨hs.source, hs.fn, by simp⟩
              exact hCleared.advance hRest
          | some chunk =>
              obtain rfl := Option.some.inj hRest
              exact ⟨hs.source, hs.fn, hGoes⟩

theorem flatMap_cloneSafe {source : StreamHandle α} {fn : α → StreamHandle β}
    (hSource : CloneSafe source) (hFn : ∀ x, CloneSafe (fn x)) : CloneSafe (flatMap source fn) := by
  apply CloneSafe.make (motive := FlatMapImpl.Safe) _ _ ⟨hSource, hFn, by simp⟩
  · intro s hs
    show FlatMapImpl.mk s.source.clone s.fn (s.currentSub.map StreamHandle.clone) s.pending = s
    rw [hs.source.clone_eq]
    cases hSub : s.currentSub with
    | none => rw [Option.map_none, ← hSub]
    | some sub => rw [Option.map_some, (hs.currentSub sub hSub).clone_eq, ← hSub]
  · intro s r t hs hPull
    apply Loop.run_holds FlatMapImpl.Safe (fun p => p.2.Safe) _ hs hPull
    intro s turn hs hTurn
    exact hs.turn hTurn

end Stream
end CelerMem
