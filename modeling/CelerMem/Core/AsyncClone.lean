import CelerMem.Core.CloneSafe
import CelerMem.Core.ParEvalRing
import Mathlib

/-! Clones of async streams, taken at any point between polls. `concat_map` leaves its
active child out of the copy and `par_eval` its rotation index, so a clone goes on as the
original only where neither of them matters. -/
namespace CelerMem.Async

variable {α β : Type}

/-! ## Points between polls -/

inductive Later : AsyncStreamHandle α → AsyncStreamHandle α → Prop where
  | refl (h : AsyncStreamHandle α) : Later h h
  | poll {h h' k : AsyncStreamHandle α} {budget : StreamBudget} {cx : TaskContext}
      {r : PollResult α} (hPoll : h.poll budget cx = some (r, h')) (rest : Later h' k) : Later h k

/-- Clones taken at any point agree with the stream they were taken of. -/
def Resumes (lvl : Level) (h : AsyncStreamHandle α) : Prop :=
  ∀ k, Later h k → Agree lvl k.clone k

inductive LaterPull : StreamHandle α → StreamHandle α → Prop where
  | refl (h : StreamHandle α) : LaterPull h h
  | pull {h h' k : StreamHandle α} {r : Pulled α} (hPull : h.pull = some (r, h'))
      (rest : LaterPull h' k) : LaterPull h k

def SyncResumes (lvl : Level) (h : StreamHandle α) : Prop :=
  ∀ k, LaterPull h k → SyncAgree lvl k.clone k

variable {lvl : Level}

theorem Resumes.poll {h h' : AsyncStreamHandle α} {budget : StreamBudget} {cx : TaskContext}
    {r : PollResult α} (hResumes : Resumes lvl h) (hPoll : h.poll budget cx = some (r, h')) :
    Resumes lvl h' :=
  fun k hLater => hResumes k (.poll hPoll hLater)

theorem SyncResumes.pull {h h' : StreamHandle α} {r : Pulled α} (hResumes : SyncResumes lvl h)
    (hPull : h.pull = some (r, h')) : SyncResumes lvl h' :=
  fun k hLater => hResumes k (.pull hPull hLater)

/-- A stream built by the combinators, in any state, over sources whose clones emit the
items that the sources still emit themselves. -/
inductive Built : {α : Type} → AsyncStreamHandle α → Prop where
  | source {α : Type} {h : AsyncStreamHandle α} (hSource : Resumes .items h) : Built h
  | toAsync {α : Type} {source : StreamHandle α} {done : Bool} (hSource : SyncResumes .items source) :
      Built (makeAsyncStreamHandle (⟨source, done⟩ : SyncBridgeImpl α))
  | parMap {α β : Type} {source : AsyncStreamHandle α} {fn : α → β} {sourceDone : Bool}
      (hSource : Built source) :
      Built (makeAsyncStreamHandle (⟨source, fn, sourceDone⟩ : ParMapImpl α β))
  | parEval {α : Type} {slots : List (AsyncStreamHandle α × Bool)} {nextIdx : ℕ}
      (hSlots : ∀ slot ∈ slots, Built slot.1) :
      Built (makeAsyncStreamHandle (⟨slots, nextIdx⟩ : ParEvalImpl α))
  | concatMap {α β : Type} {source : AsyncStreamHandle α} {fn : α → AsyncStreamHandle β}
      {activeChild : Option (AsyncStreamHandle β)} {sourceDone : Bool} (hSource : Built source)
      (hFn : ∀ x, Built (fn x)) (hChild : ∀ child ∈ activeChild, Built child) :
      Built (makeAsyncStreamHandle (⟨source, fn, activeChild, sourceDone⟩ : ConcatMapImpl α β))
  | mergeMap {α β : Type} {source : AsyncStreamHandle α} {fn : α → AsyncStreamHandle β}
      {activeChildren : List (AsyncStreamHandle β)} {maxConcurrent : ℕ} {sourceDone : Bool}
      (hSource : Built source) (hFn : ∀ x, Built (fn x))
      (hChildren : ∀ child ∈ activeChildren, Built child) :
      Built (makeAsyncStreamHandle
        (⟨source, fn, activeChildren, maxConcurrent, sourceDone⟩ : MergeMapImpl α β))

/-! ## Polls leave a built stream -/

/-- Built now and after any polls. -/
def Stays (h : AsyncStreamHandle α) : Prop := ∀ k, Later h k → Built k

theorem Stays.built {h : AsyncStreamHandle α} (hStays : Stays h) : Built h := hStays h (.refl h)

theorem Stays.poll {h h' : AsyncStreamHandle α} {budget : StreamBudget} {cx : TaskContext}
    {r : PollResult α} (hStays : Stays h) (hPoll : h.poll budget cx = some (r, h')) : Stays h' :=
  fun k hLater => hStays k (.poll hPoll hLater)

theorem Stays.make {Impl : Type} [AsyncImpl Impl α] {motive : Impl → Prop}
    (hBuilt : ∀ s, motive s → Built (makeAsyncStreamHandle s))
    (hPoll : ∀ s budget cx r t, motive s → AsyncImpl.poll budget cx s = some (r, t) → motive t)
    {s : Impl} (hs : motive s) : Stays (makeAsyncStreamHandle s) := by
  intro k hLater
  generalize hStart : makeAsyncStreamHandle s = start at hLater
  induction hLater generalizing s with
  | refl h =>
      subst hStart
      exact hBuilt s hs
  | poll hNext _ ih =>
      subst hStart
      obtain ⟨t, hState, rfl⟩ := make_poll_inv hNext
      exact ih (hPoll s _ _ _ t hs hState) rfl

theorem SyncBridgeImpl.resumes_of_poll {budget : StreamBudget} {cx : TaskContext}
    {s t : SyncBridgeImpl α} {r : PollResult α} (hSource : SyncResumes lvl s.source)
    (hPoll : AsyncImpl.poll budget cx s = some (r, t)) : SyncResumes lvl t.source := by
  obtain ⟨source, done⟩ := s
  cases done with
  | true =>
      obtain ⟨-, rfl⟩ := Prod.mk.inj (Option.some.inj hPoll)
      exact hSource
  | false =>
      obtain ⟨⟨q, next⟩, hPull, hRest⟩ := Option.bind_eq_some_iff.mp hPoll
      have hNext := hSource.pull hPull
      rcases q with e | _ | chunk
      · obtain ⟨-, rfl⟩ := Prod.mk.inj (Option.some.inj hRest)
        exact hNext
      · obtain ⟨-, rfl⟩ := Prod.mk.inj (Option.some.inj hRest)
        exact hNext
      · obtain ⟨-, rfl⟩ := Prod.mk.inj (Option.some.inj hRest)
        exact hNext

theorem ParMapImpl.stays_of_poll {budget : StreamBudget} {cx : TaskContext} {s t : ParMapImpl α β}
    {r : PollResult β} (hSource : Stays s.source)
    (hPoll : AsyncImpl.poll budget cx s = some (r, t)) : Stays t.source := by
  obtain ⟨source, fn, sourceDone⟩ := s
  cases sourceDone with
  | true =>
      obtain ⟨-, rfl⟩ := Prod.mk.inj (Option.some.inj hPoll)
      exact hSource
  | false =>
      obtain ⟨⟨q, next⟩, hSourcePoll, hRest⟩ := Option.bind_eq_some_iff.mp hPoll
      have hNext := hSource.poll hSourcePoll
      cases q with
      | emit chunk =>
          obtain ⟨-, rfl⟩ := Prod.mk.inj (Option.some.inj hRest)
          exact hNext
      | pending =>
          obtain ⟨-, rfl⟩ := Prod.mk.inj (Option.some.inj hRest)
          exact hNext
      | yield =>
          obtain ⟨-, rfl⟩ := Prod.mk.inj (Option.some.inj hRest)
          exact hNext
      | done =>
          obtain ⟨-, rfl⟩ := Prod.mk.inj (Option.some.inj hRest)
          exact hNext
      | error e =>
          obtain ⟨-, rfl⟩ := Prod.mk.inj (Option.some.inj hRest)
          exact hNext

namespace ParEvalImpl

theorem stays_set {slots : List (AsyncStreamHandle α × Bool)} (h : ∀ slot ∈ slots, Stays slot.1)
    {source : AsyncStreamHandle α} (hSource : Stays source) (i : ℕ) (flag : Bool) :
    ∀ slot ∈ slots.set i (source, flag), Stays slot.1 := by
  intro slot hMem
  rcases List.mem_or_eq_of_mem_set hMem with hOld | rfl
  · exact h slot hOld
  · exact hSource

theorem stays_of_scan {budget : StreamBudget} {cx : TaskContext} (left : ℕ) {s t : ParEvalImpl α}
    {r : PollResult α} (h : ∀ slot ∈ s.slots, Stays slot.1)
    (hScan : scan budget cx left s = some (r, t)) : ∀ slot ∈ t.slots, Stays slot.1 := by
  induction left generalizing s with
  | zero =>
      obtain ⟨-, rfl⟩ := Prod.mk.inj (Option.some.inj hScan)
      exact h
  | succ left ih =>
      rw [scan] at hScan
      dsimp only at hScan
      cases hAt : s.slots[s.nextIdx % s.slots.length]? with
      | none => simp [hAt] at hScan
      | some slot =>
          obtain ⟨source, flag⟩ := slot
          rw [hAt] at hScan
          cases flag with
          | true => exact ih (s := { s with nextIdx := s.nextIdx + 1 }) h hScan
          | false =>
              obtain ⟨⟨q, next⟩, hPoll, hRest⟩ := Option.bind_eq_some_iff.mp hScan
              have hNext := (h _ (List.mem_of_getElem? hAt)).poll hPoll
              have hSet := stays_set h hNext (s.nextIdx % s.slots.length) false
              cases q with
              | emit chunk =>
                  obtain ⟨-, rfl⟩ := Prod.mk.inj (Option.some.inj hRest)
                  exact hSet
              | pending => exact ih hSet hRest
              | yield => exact ih hSet hRest
              | done => exact ih (stays_set hSet hNext _ true) hRest
              | error e =>
                  obtain ⟨-, rfl⟩ := Prod.mk.inj (Option.some.inj hRest)
                  exact hSet

theorem stays_of_poll {budget : StreamBudget} {cx : TaskContext} {s t : ParEvalImpl α}
    {r : PollResult α} (h : ∀ slot ∈ s.slots, Stays slot.1)
    (hPoll : AsyncImpl.poll budget cx s = some (r, t)) : ∀ slot ∈ t.slots, Stays slot.1 := by
  change poll budget cx s = some (r, t) at hPoll
  unfold poll at hPoll
  split at hPoll
  · obtain ⟨-, rfl⟩ := Prod.mk.inj (Option.some.inj hPoll)
    exact h
  · exact stays_of_scan _ h hPoll

end ParEvalImpl

namespace ConcatMapImpl

structure AllStay (s : ConcatMapImpl α β) : Prop where
  source : Stays s.source
  fn : ∀ x, Stays (s.fn x)
  child : ∀ child ∈ s.activeChild, Stays child

theorem allStay_of_advance {budget : StreamBudget} {cx : TaskContext} {s : ConcatMapImpl α β}
    {turn : Loop.Turn (ConcatMapImpl α β) (PollResult β × ConcatMapImpl α β)} (h : AllStay s)
    (hTurn : advance budget cx s = some turn) : turn.Holds AllStay fun p => AllStay p.2 := by
  obtain ⟨source, fn, child, done⟩ := s
  cases done with
  | true =>
      obtain rfl := Option.some.inj hTurn
      exact h
  | false =>
      obtain ⟨⟨q, next⟩, hPoll, hRest⟩ := Option.bind_eq_some_iff.mp hTurn
      have hNext : Stays next := Stays.poll h.source hPoll
      cases q with
      | emit chunk =>
          dsimp only at hRest
          cases hList : chunk.toList with
          | nil =>
              rw [hList] at hRest
              obtain rfl := Option.some.inj hRest
              exact ⟨hNext, h.fn, h.child⟩
          | cons elem others =>
              rw [hList] at hRest
              obtain rfl := Option.some.inj hRest
              refine ⟨hNext, h.fn, ?_⟩
              intro child hMem
              obtain rfl := Option.some.inj hMem
              exact h.fn elem
      | pending =>
          obtain rfl := Option.some.inj hRest
          exact ⟨hNext, h.fn, h.child⟩
      | yield =>
          obtain rfl := Option.some.inj hRest
          exact ⟨hNext, h.fn, h.child⟩
      | done =>
          obtain rfl := Option.some.inj hRest
          exact ⟨hNext, h.fn, h.child⟩
      | error e =>
          obtain rfl := Option.some.inj hRest
          exact ⟨hNext, h.fn, h.child⟩

theorem allStay_of_turn {budget : StreamBudget} {cx : TaskContext} {s : ConcatMapImpl α β}
    {next : Loop.Turn (ConcatMapImpl α β) (PollResult β × ConcatMapImpl α β)} (h : AllStay s)
    (hTurn : turn budget cx s = some next) : next.Holds AllStay fun p => AllStay p.2 := by
  obtain ⟨source, fn, activeChild, done⟩ := s
  cases activeChild with
  | none => exact allStay_of_advance h hTurn
  | some child =>
      obtain ⟨⟨q, child'⟩, hPoll, -⟩ := Option.bind_eq_some_iff.mp hTurn
      have hChild : Stays child' := Stays.poll (h.child child rfl) hPoll
      by_cases hDone : q = .done
      · subst hDone
        rw [turn_child_done hPoll] at hTurn
        have hReset : AllStay (⟨source, fn, none, done⟩ : ConcatMapImpl α β) :=
          ⟨h.source, h.fn, fun child hMem => by cases hMem⟩
        exact allStay_of_advance hReset hTurn
      · rw [turn_child_answer hPoll hDone] at hTurn
        obtain rfl := Option.some.inj hTurn
        refine ⟨h.source, h.fn, ?_⟩
        intro kept hMem
        obtain rfl := Option.some.inj hMem
        exact hChild

theorem allStay_of_poll {budget : StreamBudget} {cx : TaskContext} {s t : ConcatMapImpl α β}
    {r : PollResult β} (h : AllStay s) (hPoll : AsyncImpl.poll budget cx s = some (r, t)) :
    AllStay t :=
  Loop.run_holds AllStay (fun p => AllStay p.2) (fun _ _ h hTurn => allStay_of_turn h hTurn) h hPoll

end ConcatMapImpl

namespace MergeMapImpl

structure AllStay (s : MergeMapImpl α β) : Prop where
  source : Stays s.source
  fn : ∀ x, Stays (s.fn x)
  children : ∀ child ∈ s.activeChildren, Stays child

theorem stays_of_pushChildren {fn : α → AsyncStreamHandle β} (hFn : ∀ x, Stays (fn x))
    (maxConcurrent : ℕ) (elems : List α) {active : List (AsyncStreamHandle β)}
    (h : ∀ child ∈ active, Stays child) :
    ∀ child ∈ pushChildren fn maxConcurrent elems active, Stays child := by
  induction elems generalizing active with
  | nil => exact h
  | cons elem elems ih =>
      have hPushed : ∀ child ∈ active ++ [fn elem], Stays child := by
        intro child hMem
        rcases List.mem_append.mp hMem with hOld | hNew
        · exact h child hOld
        · rw [List.mem_singleton.mp hNew]
          exact hFn elem
      rw [pushChildren]
      split
      · exact hPushed
      · exact ih hPushed

theorem allStay_of_activateTurn {budget : StreamBudget} {cx : TaskContext} {s : MergeMapImpl α β}
    {next : Loop.Turn (MergeMapImpl α β) (VoidResult × MergeMapImpl α β)} (h : AllStay s)
    (hTurn : activateTurn budget cx s = some next) : next.Holds AllStay fun p => AllStay p.2 := by
  unfold activateTurn at hTurn
  split at hTurn
  · obtain ⟨⟨q, source⟩, hPoll, hRest⟩ := Option.bind_eq_some_iff.mp hTurn
    have hNext := h.source.poll hPoll
    cases q with
    | emit chunk =>
        obtain rfl := Option.some.inj hRest
        exact ⟨hNext, h.fn, stays_of_pushChildren h.fn _ _ h.children⟩
    | pending =>
        obtain rfl := Option.some.inj hRest
        exact ⟨hNext, h.fn, h.children⟩
    | yield =>
        obtain rfl := Option.some.inj hRest
        exact ⟨hNext, h.fn, h.children⟩
    | done =>
        obtain rfl := Option.some.inj hRest
        exact ⟨hNext, h.fn, h.children⟩
    | error e =>
        obtain rfl := Option.some.inj hRest
        exact ⟨hNext, h.fn, h.children⟩
  · obtain rfl := Option.some.inj hTurn
    exact h

theorem stays_of_pollChildren {budget : StreamBudget} {cx : TaskContext}
    {children left : List (AsyncStreamHandle β)} {r : Option (PollResult β)}
    (h : ∀ child ∈ children, Stays child)
    (hPoll : pollChildren budget cx children = some (r, left)) : ∀ child ∈ left, Stays child := by
  induction children generalizing left r with
  | nil =>
      obtain ⟨-, rfl⟩ := Prod.mk.inj (Option.some.inj hPoll)
      exact h
  | cons child rest ih =>
      obtain ⟨⟨q, next⟩, hChild, hRest⟩ := Option.bind_eq_some_iff.mp hPoll
      have hNext := (h child List.mem_cons_self).poll hChild
      have hOthers : ∀ child ∈ rest, Stays child :=
        fun child hMem => h child (List.mem_cons_of_mem _ hMem)
      cases q with
      | emit chunk =>
          obtain ⟨-, rfl⟩ := Prod.mk.inj (Option.some.inj hRest)
          exact List.forall_mem_cons.mpr ⟨hNext, hOthers⟩
      | pending =>
          obtain ⟨⟨q, others⟩, hPolled, hSame⟩ := Option.bind_eq_some_iff.mp hRest
          obtain ⟨-, rfl⟩ := Prod.mk.inj (Option.some.inj hSame)
          exact List.forall_mem_cons.mpr ⟨hNext, ih hOthers hPolled⟩
      | yield =>
          obtain ⟨⟨q, others⟩, hPolled, hSame⟩ := Option.bind_eq_some_iff.mp hRest
          obtain ⟨-, rfl⟩ := Prod.mk.inj (Option.some.inj hSame)
          exact List.forall_mem_cons.mpr ⟨hNext, ih hOthers hPolled⟩
      | done => exact ih hOthers hRest
      | error e =>
          obtain ⟨-, rfl⟩ := Prod.mk.inj (Option.some.inj hRest)
          exact List.forall_mem_cons.mpr ⟨hNext, hOthers⟩

theorem allStay_of_poll {budget : StreamBudget} {cx : TaskContext} {s t : MergeMapImpl α β}
    {r : PollResult β} (h : AllStay s) (hPoll : AsyncImpl.poll budget cx s = some (r, t)) :
    AllStay t := by
  obtain ⟨⟨q, active⟩, hActivate, hRest⟩ := Option.bind_eq_some_iff.mp hPoll
  have hActive : AllStay active :=
    Loop.run_holds AllStay (fun p => AllStay p.2) (fun _ _ h hTurn => allStay_of_activateTurn h hTurn)
      h hActivate
  cases q with
  | error e =>
      obtain ⟨-, rfl⟩ := Prod.mk.inj (Option.some.inj hRest)
      exact hActive
  | ok =>
      obtain ⟨⟨q, left⟩, hPolled, hSame⟩ := Option.bind_eq_some_iff.mp hRest
      have hLeft := stays_of_pollChildren hActive.children hPolled
      cases q with
      | none =>
          obtain ⟨-, rfl⟩ := Prod.mk.inj (Option.some.inj hSame)
          exact ⟨hActive.source, hActive.fn, hLeft⟩
      | some q =>
          obtain ⟨-, rfl⟩ := Prod.mk.inj (Option.some.inj hSame)
          exact ⟨hActive.source, hActive.fn, hLeft⟩

end MergeMapImpl

/-- Whatever is polled, the stream stays one over sources with such clones. -/
theorem Built.stays {h : AsyncStreamHandle α} (hBuilt : Built h) : Stays h := by
  induction hBuilt with
  | source hSource =>
      intro k hLater
      induction hLater with
      | refl h => exact .source hSource
      | poll hPoll _ ih => exact ih (hSource.poll hPoll)
  | toAsync hSource =>
      apply Stays.make (motive := fun s : SyncBridgeImpl _ => SyncResumes .items s.source) _ _ hSource
      · intro s hs
        exact .toAsync hs
      · intro s budget cx r t hs hPoll
        exact SyncBridgeImpl.resumes_of_poll hs hPoll
  | parMap _ ih =>
      apply Stays.make (motive := fun s : ParMapImpl _ _ => Stays s.source) _ _ ih
      · intro s hs
        exact .parMap hs.built
      · intro s budget cx r t hs hPoll
        exact ParMapImpl.stays_of_poll hs hPoll
  | parEval _ ih =>
      apply Stays.make (motive := fun s : ParEvalImpl _ => ∀ slot ∈ s.slots, Stays slot.1) _ _ ih
      · intro s hs
        exact .parEval fun slot hMem => (hs slot hMem).built
      · intro s budget cx r t hs hPoll
        exact ParEvalImpl.stays_of_poll hs hPoll
  | concatMap _ _ _ ihSource ihFn ihChild =>
      apply Stays.make (motive := ConcatMapImpl.AllStay) _ _ ⟨ihSource, ihFn, ihChild⟩
      · intro s hs
        exact .concatMap hs.source.built (fun x => (hs.fn x).built)
          fun child hMem => (hs.child child hMem).built
      · intro s budget cx r t hs hPoll
        exact ConcatMapImpl.allStay_of_poll hs hPoll
  | mergeMap _ _ _ ihSource ihFn ihChildren =>
      apply Stays.make (motive := MergeMapImpl.AllStay) _ _ ⟨ihSource, ihFn, ihChildren⟩
      · intro s hs
        exact .mergeMap hs.source.built (fun x => (hs.fn x).built)
          fun child hMem => (hs.children child hMem).built
      · intro s budget cx r t hs hPoll
        exact MergeMapImpl.allStay_of_poll hs hPoll

/-! ## States whose copies lose nothing -/

/-- Where a clone goes on as the original. No `concat_map` has an active child with
anything left, and the sources of a `par_eval` that are not done are on one side of its
rotation index. Sources below a combinator are cloned as well as its own order needs. -/
inductive Settled : Level → {α : Type} → AsyncStreamHandle α → Prop where
  | source {lvl : Level} {α : Type} {h : AsyncStreamHandle α} (hSource : Resumes lvl h) :
      Settled lvl h
  | toAsync {lvl : Level} {α : Type} {source : StreamHandle α} {done : Bool}
      (hSource : done = false → SyncResumes lvl source) :
      Settled lvl (makeAsyncStreamHandle (⟨source, done⟩ : SyncBridgeImpl α))
  | parMap {lvl : Level} {α β : Type} {source : AsyncStreamHandle α} {fn : α → β}
      {sourceDone : Bool} (hSource : sourceDone = false → Settled lvl source) :
      Settled lvl (makeAsyncStreamHandle (⟨source, fn, sourceDone⟩ : ParMapImpl α β))
  | parEval {α : Type} {slots : List (AsyncStreamHandle α × Bool)} {nextIdx : ℕ}
      (hTurn : (∀ slot ∈ slots.take (nextIdx % slots.length), slot.2 = true) ∨
        ∀ slot ∈ slots.drop (nextIdx % slots.length), slot.2 = true)
      (hSlots : ∀ slot ∈ slots, slot.2 = false → Settled .polls slot.1) :
      Settled .polls (makeAsyncStreamHandle (⟨slots, nextIdx⟩ : ParEvalImpl α))
  | concatMap {α β : Type} {source : AsyncStreamHandle α} {fn : α → AsyncStreamHandle β}
      {sourceDone : Bool} (hSource : sourceDone = false → Settled .polls source) :
      Settled .polls (makeAsyncStreamHandle
        (⟨source, fn, none, sourceDone⟩ : ConcatMapImpl α β))
  | concatMapChunks {α β : Type} {source : AsyncStreamHandle α} {fn : α → AsyncStreamHandle β}
      {sourceDone : Bool} (hSource : sourceDone = false → Settled .chunks source) :
      Settled .chunks (makeAsyncStreamHandle
        (⟨source, fn, none, sourceDone⟩ : ConcatMapImpl α β))
  | drained {α β : Type} {source : AsyncStreamHandle α} {fn : α → AsyncStreamHandle β}
      {child : AsyncStreamHandle β} {sourceDone : Bool}
      (hChild : ∀ budget cx, Emits budget cx child [] .done)
      (hSource : sourceDone = false → Settled .chunks source) :
      Settled .chunks (makeAsyncStreamHandle
        (⟨source, fn, some child, sourceDone⟩ : ConcatMapImpl α β))
  | mergeMap {α β : Type} {source : AsyncStreamHandle α} {fn : α → AsyncStreamHandle β}
      {activeChildren : List (AsyncStreamHandle β)} {maxConcurrent : ℕ} {sourceDone : Bool}
      (hSource : sourceDone = false → Settled .polls source)
      (hChildren : ∀ child ∈ activeChildren, Settled .polls child) :
      Settled .polls (makeAsyncStreamHandle
        (⟨source, fn, activeChildren, maxConcurrent, sourceDone⟩ : MergeMapImpl α β))
  | chunks {α : Type} {h : AsyncStreamHandle α} (hPolls : Settled .polls h) : Settled .chunks h
  | items {α : Type} {h : AsyncStreamHandle α} (hChunks : Settled .chunks h) : Settled .items h

theorem eq_true_or {done : Bool} {p : Prop} (h : done = false → p) : done = true ∨ p := by
  cases done with
  | true => exact Or.inl rfl
  | false => exact Or.inr (h rfl)

theorem Settled.agree {h : AsyncStreamHandle α} (hSettled : Settled lvl h) :
    Agree lvl h.clone h := by
  induction hSettled with
  | source hSource => exact hSource _ (.refl _)
  | toAsync hSource => exact syncBridge_agree (eq_true_or fun hOpen => hSource hOpen _ (.refl _))
  | parMap _ ih => exact parMap_agree (eq_true_or ih)
  | parEval hTurn _ ih => exact ParEvalImpl.samePolls_copy hTurn ih
  | concatMap _ ih => exact ConcatMapImpl.samePolls ⟨rfl, rfl, eq_true_or ih, .none⟩
  | concatMapChunks _ ih => exact ConcatMapImpl.agree_chunks (eq_true_or ih)
  | drained hChild _ ih =>
      intro budget cx gs
      exact (ConcatMapImpl.agree_chunks (eq_true_or ih) budget cx gs).trans
        (ConcatMapImpl.agree_drained hChild budget cx gs)
  | mergeMap _ _ ihSource ihChildren =>
      apply MergeMapImpl.samePolls
      refine ⟨rfl, rfl, rfl, eq_true_or ihSource, ?_⟩
      exact List.forall₂_map_left_iff.mpr (List.forall₂_same.mpr ihChildren)
  | chunks _ ih => exact ih.chunks_of_polls
  | items _ ih => exact ih.items_of_chunks

/-- At any point between polls, a clone of a settled state emits the items that the
original still emits. -/
theorem clone_resumes {h₀ h : AsyncStreamHandle α} (hStart : Built h₀) (hLater : Later h₀ h) :
    Built h ∧ (Settled .items h → ∀ budget cx l,
      Denotes budget cx h.clone l .done ↔ Denotes budget cx h l .done) :=
  ⟨hStart.stays h hLater, fun hSettled => hSettled.agree⟩

section OnePoll
variable {source next : AsyncStreamHandle α} {fn : α → AsyncStreamHandle β}
  {child : AsyncStreamHandle β} {budget : StreamBudget} {cx : TaskContext} {x : α} {c : Chunk β}

/-- The first poll makes a child of the first element and emits what it emits. -/
theorem concatMap_first
    (hSource : source.poll budget cx = some (.emit (Chunk.singleton x), next))
    (hChild : (fn x).poll budget cx = some (.emit c, child)) :
    (concatMap source fn).poll budget cx = some (.emit c,
      makeAsyncStreamHandle (⟨next, fn, some child, false⟩ : ConcatMapImpl α β)) := by
  have hMakes : ConcatMapImpl.turn budget cx (⟨source, fn, none, false⟩ : ConcatMapImpl α β) =
      some (.again ⟨next, fn, some (fn x), false⟩) := by
    simp [ConcatMapImpl.turn, ConcatMapImpl.advance, hSource]
  have hEmits : ConcatMapImpl.turn budget cx ⟨next, fn, some (fn x), false⟩ =
      some (.leave (.emit c, ⟨next, fn, some child, false⟩)) :=
    ConcatMapImpl.turn_child_answer hChild (by simp)
  apply make_poll
  exact (Loop.run_again hMakes).trans (Loop.run_leave hEmits)

theorem toAsync_ofChunks_poll (c : Chunk α) (cs : List (Chunk α)) :
    (toAsync (Stream.ofChunks (c :: cs) .done)).poll budget cx =
      some (.emit c, toAsync (Stream.ofChunks cs .done)) := by
  apply make_poll
  simp [AsyncImpl.poll, SyncBridgeImpl.poll, Stream.ofChunks, StreamImpl.pull,
    Stream.ChunksImpl.pull]

end OnePoll

theorem ofChunks_syncResumes (cs : List (Chunk α)) : SyncResumes lvl (Stream.ofChunks cs .done) := by
  have hSafe : CloneSafe (Stream.ofChunks cs .done) := by
    apply CloneSafe.make (motive := fun _ => True) _ _ trivial
    · intro s _
      rfl
    · intro s r t _ _
      trivial
  have hKept : ∀ h k, LaterPull h k → CloneSafe h → CloneSafe (k : StreamHandle α) := by
    intro h k hLater
    induction hLater with
    | refl h => exact id
    | pull hPull _ ih => exact fun hSafe => ih (hSafe.pull hPull)
  intro k hLater
  rw [(hKept _ k hLater hSafe).clone_eq]
  cases lvl with
  | polls => exact fun n => rfl
  | chunks => exact fun gs => Iff.rfl
  | items => exact fun l => Iff.rfl

theorem ofChunks_built (cs : List (Chunk α)) : Built (toAsync (Stream.ofChunks cs .done)) :=
  .toAsync (ofChunks_syncResumes cs)

/-- What a `concat_map` over lists of chunks still brings, in any state. -/
theorem concatMap_ofChunks_denotes (f : α → List (Chunk β)) (ss : List (Chunk α))
    (child : Option (List (Chunk β))) (budget : StreamBudget) (cx : TaskContext) :
    Denotes budget cx (makeAsyncStreamHandle
      (⟨toAsync (Stream.ofChunks ss .done), fun x => toAsync (Stream.ofChunks (f x) .done),
        child.map fun cs => toAsync (Stream.ofChunks cs .done), false⟩ : ConcatMapImpl α β))
      (chunkElems (child.getD [] ++ (heads (fullChunks ss)).flatMap f)) .done := by
  have hChild : ∀ cs : List (Chunk β),
      Emits budget cx (toAsync (Stream.ofChunks cs .done)) (fullChunks cs) .done :=
    fun cs => toAsync_emits (Stream.ofChunks_emits cs .done)
  have hRest : ConcatMapImpl.Rest budget cx (fun x => toAsync (Stream.ofChunks (f x) .done))
      (toAsync (Stream.ofChunks ss .done)) false (fullChunks ((heads (fullChunks ss)).flatMap f)) := by
    refine ⟨fullChunks ss, (heads (fullChunks ss)).map fun x => fullChunks (f x),
      toAsync_emits (Stream.ofChunks_emits ss .done), ?_, ?_⟩
    · exact List.forall₂_map_right_iff.mpr (List.forall₂_same.mpr fun x _ => hChild (f x))
    · simp [fullChunks, List.flatMap, List.filter_flatten, List.map_flatten, Function.comp_def]
  rw [← flatten_fullChunks]
  refine ⟨_, ConcatMapImpl.emits_iff_drains.mpr ?_, rfl⟩
  cases child with
  | none => exact hRest
  | some cs =>
      exact ⟨fullChunks cs, _, hChild cs, hRest, by simp [fullChunks]⟩

/-- After the first of two children, which has nothing left. -/
theorem clone_resumes_betweenChildren : ∃ h, Later
    (concatMap (toAsync (Stream.ofChunks [Chunk.singleton 1, Chunk.singleton 2] .done))
      fun x : ℕ => toAsync (Stream.ofChunks [Chunk.singleton x] .done)) h ∧
    ∀ budget cx, Denotes budget cx h [2] .done ∧ Denotes budget cx h.clone [2] .done := by
  let fn : ℕ → AsyncStreamHandle ℕ := fun x => toAsync (Stream.ofChunks [Chunk.singleton x] .done)
  have hPoll : (concatMap (toAsync (Stream.ofChunks [Chunk.singleton 1, Chunk.singleton 2] .done))
      fn).poll .unbounded ⟨0⟩ = some (.emit (Chunk.singleton 1), _) :=
    concatMap_first (toAsync_ofChunks_poll _ _) (toAsync_ofChunks_poll _ _)
  have hLater := Later.poll hPoll (.refl _)
  have hBuilt : Built (concatMap
      (toAsync (Stream.ofChunks [Chunk.singleton 1, Chunk.singleton 2] .done)) fn) := by
    apply Built.concatMap (ofChunks_built _) fun x => ofChunks_built _
    simp
  have hDrained : ∀ budget cx, Emits budget cx
      (toAsync (Stream.ofChunks ([] : List (Chunk ℕ)) .done)) [] .done :=
    fun budget cx => toAsync_emits (Stream.ofChunks_emits [] .done)
  have hSource : Settled .chunks (toAsync (Stream.ofChunks [Chunk.singleton 2] .done)) :=
    .toAsync fun _ => ofChunks_syncResumes [Chunk.singleton 2]
  have hSame := (clone_resumes hBuilt hLater).2 (.items (.drained hDrained fun _ => hSource))
  refine ⟨_, hLater, fun budget cx => ?_⟩
  have hOriginal := concatMap_ofChunks_denotes (fun x : ℕ => [Chunk.singleton x])
    [Chunk.singleton 2] (some []) budget cx
  exact ⟨hOriginal, (hSame budget cx [2]).mpr hOriginal⟩

/-- In the middle of a child, a clone loses what the child still has. -/
theorem clone_drops_activeChild : ∃ h₀ h : AsyncStreamHandle ℕ, Built h₀ ∧ Later h₀ h ∧
    ¬ ∀ l, Denotes .unbounded ⟨0⟩ h.clone l .done ↔ Denotes .unbounded ⟨0⟩ h l .done := by
  let f : ℕ → List (Chunk ℕ) := fun x => [Chunk.singleton x, Chunk.singleton (x + 1)]
  have hPoll : (concatMap (toAsync (Stream.ofChunks [Chunk.singleton 1] .done)) fun x =>
      toAsync (Stream.ofChunks (f x) .done)).poll .unbounded ⟨0⟩ =
        some (.emit (Chunk.singleton 1), _) :=
    concatMap_first (toAsync_ofChunks_poll _ _) (toAsync_ofChunks_poll _ _)
  refine ⟨_, _, ?_, .poll hPoll (.refl _), ?_⟩
  · apply Built.concatMap (ofChunks_built _) fun x => ofChunks_built _
    simp
  · intro hSame
    have hOriginal := concatMap_ofChunks_denotes f [] (some [Chunk.singleton 2]) .unbounded ⟨0⟩
    have hClone := concatMap_ofChunks_denotes f [] none .unbounded ⟨0⟩
    have hBoth := (hSame [2]).mpr hOriginal
    have hNone : [2] = [] := (hBoth.unique hClone).1
    cases hNone

end CelerMem.Async
