import CelerMem.Core.Combinators
import Mathlib

/-! The contract of `stream.hpp` on the end of a stream: after a pull has returned
`nullopt`, all later ones do. A combinator keeps it when the state that answers Done, down
to its source, answers Done again. -/
namespace CelerMem

variable {α β Impl : Type}

/-- Once a pull has answered Done, every later one does. -/
def DoneFinal (h : StreamHandle α) : Prop :=
  ∀ n m, h.observe (List.replicate n .pull) = some (.ok none) →
    h.observe (List.replicate (n + m) .pull) = some (.ok none)

/-- Every pull answers Done. -/
def Over (h : StreamHandle α) : Prop :=
  ∀ n, h.observe (List.replicate n .pull) = some (.ok none)

theorem StreamHandle.observe_pull {h h' : StreamHandle α} {r : Pulled α}
    (hPull : h.pull = some (r, h')) (n : ℕ) :
    h'.observe (List.replicate n .pull) = h.observe (List.replicate (n + 1) .pull) := by
  obtain ⟨answer, -, hSame⟩ := Option.map_eq_some_iff.mp hPull
  obtain ⟨-, rfl⟩ := Prod.mk.inj hSame
  rfl

theorem Over.pull {h : StreamHandle α} (hOver : Over h) :
    ∃ h', h.pull = some (.ok none, h') ∧ Over h' := by
  have hFirst : h.observe [] = some (.ok none) := hOver 0
  have hPull : h.pull = some (.ok none, ⟨fun calls => h.observe (.pull :: calls)⟩) := by
    rw [StreamHandle.pull, hFirst]
    rfl
  exact ⟨_, hPull, fun n => hOver (n + 1)⟩

namespace DoneFinal

theorem pull {h h' : StreamHandle α} {r : Pulled α} (hFinal : DoneFinal h)
    (hPull : h.pull = some (r, h')) : DoneFinal h' := by
  intro n m hDone
  rw [StreamHandle.observe_pull hPull] at hDone ⊢
  have hLater := hFinal (n + 1) m hDone
  rwa [Nat.add_right_comm] at hLater

theorem over_of_done {h h' : StreamHandle α} (hFinal : DoneFinal h)
    (hPull : h.pull = some (.ok none, h')) : Over h' := by
  have hFirst : h.observe (List.replicate 0 .pull) = some (.ok none) := by
    obtain ⟨answer, hAnswer, hSame⟩ := Option.map_eq_some_iff.mp hPull
    obtain ⟨rfl, -⟩ := Prod.mk.inj hSame
    exact hAnswer
  intro n
  rw [StreamHandle.observe_pull hPull]
  have hLater := hFinal 0 (n + 1) hFirst
  rwa [Nat.zero_add] at hLater

/-- A pull of a source, and what it leaves of the source. -/
theorem pulled {h h' : StreamHandle α} {r : Pulled α} (hFinal : DoneFinal h)
    (hPull : h.pull = some (r, h')) : DoneFinal h' ∧ (r = .ok none → Over h') := by
  refine ⟨hFinal.pull hPull, ?_⟩
  rintro rfl
  exact hFinal.over_of_done hPull

/-- States from which Done is answered, and answered again. -/
theorem make [StreamImpl Impl α] (Kept Ended : Impl → Prop)
    (hPull : ∀ s r t, Kept s → StreamImpl.pull s = some (r, t) →
      Kept t ∧ (r = .ok none → Ended t))
    (hEnded : ∀ s, Ended s → ∃ t, StreamImpl.pull s = some (.ok none, t) ∧ Ended t)
    {s : Impl} (hs : Kept s) : DoneFinal (makeStreamHandle s) := by
  have hOver : ∀ n s, Ended s → observeFrom s (List.replicate n .pull) = some (.ok none) := by
    intro n
    induction n with
    | zero =>
        intro s hDone
        obtain ⟨t, hNext, -⟩ := hEnded s hDone
        rw [List.replicate_zero, observeFrom, hNext]
        rfl
    | succ n ih =>
        intro s hDone
        obtain ⟨t, hNext, hAgain⟩ := hEnded s hDone
        rw [List.replicate_succ, observeFrom, hNext]
        exact ih t hAgain
  intro n m hDone
  show observeFrom s (List.replicate (n + m) .pull) = some (.ok none)
  have hHere : observeFrom s (List.replicate n .pull) = some (.ok none) := hDone
  clear hDone
  induction n generalizing s with
  | zero =>
      rw [List.replicate_zero, observeFrom] at hHere
      obtain ⟨⟨r, t⟩, hNext, rfl⟩ := Option.map_eq_some_iff.mp hHere
      rw [Nat.zero_add]
      cases m with
      | zero => exact hHere
      | succ m =>
          rw [List.replicate_succ, observeFrom, hNext]
          exact hOver m t ((hPull s _ t hs hNext).2 rfl)
  | succ n ih =>
      rw [List.replicate_succ, observeFrom] at hHere
      cases hNext : StreamImpl.pull s with
      | none => simp [hNext] at hHere
      | some p =>
          rw [hNext] at hHere
          rw [Nat.add_right_comm, List.replicate_succ, observeFrom, hNext]
          exact ih (hPull s p.1 p.2 hs hNext).1 hHere

end DoneFinal

namespace Stream

/-! ## Sources -/

theorem fromVector_doneFinal (data : List α) : DoneFinal (fromVector data) := by
  apply DoneFinal.make (fun _ : FromVectorImpl α => True)
    (fun s => s.data = none ∨ s.data = some []) _ _ trivial
  · intro s r t _ hPull
    refine ⟨trivial, ?_⟩
    rintro rfl
    have hBody : s.pull = some (.ok none, t) := hPull
    obtain ⟨_ | _ | ⟨first, rest⟩⟩ := s
    · obtain ⟨-, rfl⟩ := Prod.mk.inj (Option.some.inj hBody)
      exact Or.inl rfl
    · obtain ⟨-, rfl⟩ := Prod.mk.inj (Option.some.inj hBody)
      exact Or.inr rfl
    · cases hBody
  · rintro ⟨data⟩ (rfl | rfl)
    · exact ⟨_, rfl, Or.inl rfl⟩
    · exact ⟨_, rfl, Or.inr rfl⟩

/-! ## Combinators -/

variable {source : StreamHandle α}

theorem map_doneFinal (hSource : DoneFinal source) (fn : α → β) : DoneFinal (map source fn) := by
  apply DoneFinal.make (fun s : MapImpl α β => DoneFinal s.source)
    (fun s => Over s.source) _ _ hSource
  · intro s r t hs hPull
    obtain ⟨q, hNext, hDone⟩ := MapImpl.pull_source hPull
    obtain ⟨hFinal, hOver⟩ := hs.pulled hNext
    exact ⟨hFinal, fun hNone => hOver (hDone hNone)⟩
  · intro s hOver
    obtain ⟨next, hNext, hStill⟩ := hOver.pull
    exact ⟨{ s with source := next }, by simp [StreamImpl.pull, MapImpl.pull, hNext], hStill⟩

theorem filter_doneFinal (hSource : DoneFinal source) (pred : α → Bool) :
    DoneFinal (filter source pred) := by
  apply DoneFinal.make (fun s : FilterImpl α => DoneFinal s.source)
    (fun s => Over s.source) _ _ hSource
  · intro s r t hs hPull
    apply Loop.run_holds (fun s : FilterImpl α => DoneFinal s.source)
      (fun p => DoneFinal p.2.source ∧ (p.1 = .ok none → Over p.2.source)) _ hs hPull
    intro s turn hs hTurn
    obtain ⟨q, source, hNext, hLeft⟩ := FilterImpl.turn_source hTurn
    obtain ⟨hFinal, hOver⟩ := hs.pulled hNext
    refine hLeft.imp (fun t hSame => hSame ▸ hFinal) ?_
    rintro p ⟨hSame, hDone⟩
    rw [hSame]
    exact ⟨hFinal, fun hNone => hOver (hDone hNone)⟩
  · intro s hOver
    obtain ⟨next, hNext, hStill⟩ := hOver.pull
    have hTurn : FilterImpl.turn s = some (.leave (.ok none, { s with source := next })) := by
      simp [FilterImpl.turn, hNext]
    exact ⟨{ s with source := next }, Loop.run_leave hTurn, hStill⟩

theorem take_doneFinal (hSource : DoneFinal source) (n : ℕ) : DoneFinal (take source n) := by
  apply DoneFinal.make (fun s : TakeImpl α => DoneFinal s.source)
    (fun s => s.remaining = 0 ∨ Over s.source) _ _ hSource
  · intro s r t hs hPull
    rcases TakeImpl.pull_source hPull with ⟨hNone, rfl⟩ | ⟨q, hNext, hDone⟩
    · exact ⟨hs, fun _ => Or.inl hNone⟩
    · obtain ⟨hFinal, hOver⟩ := hs.pulled hNext
      exact ⟨hFinal, fun hNone => Or.inr (hOver (hDone hNone))⟩
  · intro s hEnded
    by_cases hNone : s.remaining = 0
    · exact ⟨s, by simp [StreamImpl.pull, TakeImpl.pull, hNone], Or.inl hNone⟩
    · obtain ⟨next, hNext, hStill⟩ := (hEnded.resolve_left hNone).pull
      exact ⟨{ s with source := next }, by simp [StreamImpl.pull, TakeImpl.pull, hNone, hNext],
        Or.inr hStill⟩

/-! ## flat_map -/

/-- No sub-stream, nothing buffered and nothing to come. -/
structure FlatMapImpl.Ended (s : FlatMapImpl α β) : Prop where
  currentSub : s.currentSub = none
  pending : s.pending = []
  source : Over s.source

theorem FlatMapImpl.advance_final {s : FlatMapImpl α β} (hs : DoneFinal s.source)
    (hSub : s.currentSub = none)
    {turn : Loop.Turn (FlatMapImpl α β) (Pulled β × FlatMapImpl α β)}
    (hTurn : s.advance = some turn) :
    turn.Holds (fun t => DoneFinal t.source)
      fun p => DoneFinal p.2.source ∧ (p.1 = .ok none → p.2.Ended) := by
  cases hPending : s.pending with
  | cons elem pending =>
      rw [FlatMapImpl.advance, hPending] at hTurn
      obtain rfl := Option.some.inj hTurn
      exact hs
  | nil =>
      rw [FlatMapImpl.advance, hPending] at hTurn
      obtain ⟨⟨q, source⟩, hNext, hRest⟩ := Option.bind_eq_some_iff.mp hTurn
      obtain ⟨hFinal, hOver⟩ := hs.pulled hNext
      rcases q with e | _ | chunk
      · obtain rfl := Option.some.inj hRest
        exact ⟨hFinal, fun hDone => by cases hDone⟩
      · obtain rfl := Option.some.inj hRest
        exact ⟨hFinal, fun _ => ⟨hSub, rfl, hOver rfl⟩⟩
      · simp only at hRest
        split at hRest
        · obtain rfl := Option.some.inj hRest
          exact hFinal
        · obtain rfl := Option.some.inj hRest
          exact hFinal

theorem FlatMapImpl.turn_final {s : FlatMapImpl α β} (hs : DoneFinal s.source)
    {turn : Loop.Turn (FlatMapImpl α β) (Pulled β × FlatMapImpl α β)}
    (hTurn : s.turn = some turn) :
    turn.Holds (fun t => DoneFinal t.source)
      fun p => DoneFinal p.2.source ∧ (p.1 = .ok none → p.2.Ended) := by
  cases hSub : s.currentSub with
  | none =>
      rw [FlatMapImpl.turn, hSub] at hTurn
      exact advance_final hs hSub hTurn
  | some sub =>
      rw [FlatMapImpl.turn, hSub] at hTurn
      obtain ⟨⟨q, next⟩, -, hRest⟩ := Option.bind_eq_some_iff.mp hTurn
      rcases q with e | _ | chunk
      · obtain rfl := Option.some.inj hRest
        exact ⟨hs, fun hDone => by cases hDone⟩
      · have hCleared : DoneFinal ({ s with currentSub := none } : FlatMapImpl α β).source := hs
        exact advance_final hCleared rfl hRest
      · obtain rfl := Option.some.inj hRest
        exact ⟨hs, fun hDone => by cases hDone⟩

/-- The sub-streams are dropped with their Done, so only the source matters. -/
theorem flatMap_doneFinal (hSource : DoneFinal source) (fn : α → StreamHandle β) :
    DoneFinal (flatMap source fn) := by
  apply DoneFinal.make (fun s : FlatMapImpl α β => DoneFinal s.source) FlatMapImpl.Ended _ _ hSource
  · intro s r t hs hPull
    exact Loop.run_holds (fun s : FlatMapImpl α β => DoneFinal s.source)
      (fun p => DoneFinal p.2.source ∧ (p.1 = .ok none → p.2.Ended))
      (fun s turn hs hTurn => FlatMapImpl.turn_final hs hTurn) hs hPull
  · rintro ⟨source, fn, _, _⟩ ⟨rfl, rfl, hOver⟩
    obtain ⟨next, hNext, hStill⟩ := hOver.pull
    have hTurn : FlatMapImpl.turn ⟨source, fn, none, []⟩ =
        some (.leave (.ok none, ⟨next, fn, none, []⟩)) := by
      simp [FlatMapImpl.turn, FlatMapImpl.advance, hNext]
    exact ⟨_, Loop.run_leave hTurn, rfl, rfl, hStill⟩

end Stream
end CelerMem
