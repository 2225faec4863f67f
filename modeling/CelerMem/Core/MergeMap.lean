import CelerMem.Core.AsyncBridge
import CelerMem.Library.Interleaving

/-! `merge_map` up to Done: an interleaving of what the admitted children emit. A chunk
that does not fit into the free slots loses its last elements. -/
namespace CelerMem.Async

open Interleaving Relation

variable {α β : Type} {budget : StreamBudget} {cx : TaskContext}

/-! ## One step of a stream that reaches Done -/

theorem Denotes.of_done {h h' : AsyncStreamHandle α}
    (hPoll : h.poll budget cx = some (.done, h')) : Denotes budget cx h [] .done :=
  ⟨[], ⟨0, .final hPoll rfl⟩, rfl⟩

theorem Denotes.of_more {h h' : AsyncStreamHandle α} {r : PollResult α} {l : List α} {e : Ending}
    (hPoll : h.poll budget cx = some (r, h')) (hMore : r.ending = none)
    (rest : Denotes budget cx h' l e) : Denotes budget cx h (r.groups.flatten ++ l) e := by
  obtain ⟨gs, ⟨n, hRest⟩, rfl⟩ := rest
  exact ⟨r.groups ++ gs, ⟨n + 1, .more hPoll hMore hRest⟩, List.flatten_append⟩

namespace MergeMapImpl

variable (budget cx) in
/-- Polls of the merged stream. -/
def Polled : MergeMapImpl α β → MergeMapImpl α β → Prop :=
  ReflTransGen fun s t => ∃ r, AsyncImpl.poll budget cx s = some (r, t)

variable (budget cx) in
/-- Passes of the activation loop within one poll. -/
def Activates : MergeMapImpl α β → MergeMapImpl α β → Prop :=
  ReflTransGen fun s t => activateTurn budget cx s = some (.again t)

/-- Whether another child may be activated. -/
def hasRoom (s : MergeMapImpl α β) : Bool :=
  !s.sourceDone && s.activeChildren.length < s.maxConcurrent

variable (budget cx) in
/-- The elements of the chunk that this pass brings, if it brings one, that are beyond the
free slots. -/
def overflow (s : MergeMapImpl α β) : List α :=
  if s.hasRoom then
    match s.source.poll budget cx with
    | some (.emit chunk, _) => chunk.toList.drop (s.maxConcurrent - s.activeChildren.length)
    | _ => []
  else []

variable (budget cx) in
/-- In the poll that starts here, only silent children are beyond the free slots. -/
def Roomy (s : MergeMapImpl α β) : Prop :=
  ∀ t, Activates budget cx s t → ∀ x ∈ t.overflow budget cx, Silent budget cx (t.fn x)

variable (budget cx) in
def AlwaysRoomy (s : MergeMapImpl α β) : Prop := ∀ t, Polled budget cx s t → Roomy budget cx t

/-! ## Activation -/

/-- As many children as there are free slots. -/
theorem pushChildren_eq (fn : α → AsyncStreamHandle β) {maxConcurrent : ℕ} (elems : List α)
    {active : List (AsyncStreamHandle β)} (hRoom : active.length < maxConcurrent) :
    pushChildren fn maxConcurrent elems active =
      active ++ (elems.take (maxConcurrent - active.length)).map fn := by
  induction elems generalizing active with
  | nil => simp [pushChildren]
  | cons elem elems ih =>
      obtain ⟨slots, hSlots⟩ : ∃ slots, maxConcurrent - active.length = slots + 1 :=
        ⟨maxConcurrent - active.length - 1, by omega⟩
      have hLength : (active ++ [fn elem]).length = active.length + 1 := by simp
      rw [pushChildren, hSlots, List.take_succ_cons, List.map_cons]
      by_cases hFull : maxConcurrent ≤ (active ++ [fn elem]).length
      · have hLast : slots = 0 := by omega
        rw [if_pos hFull, hLast]
        simp
      · have hRest : maxConcurrent - (active ++ [fn elem]).length = slots := by omega
        rw [if_neg hFull, ih (not_le.mp hFull), hRest]
        simp

theorem activateTurn_emit {s : MergeMapImpl α β} {chunk : Chunk α} {source : AsyncStreamHandle α}
    (hRoom : s.hasRoom = true) (hPoll : s.source.poll budget cx = some (.emit chunk, source)) :
    activateTurn budget cx s = some (.again { s with
      source
      activeChildren := s.activeChildren ++
        (chunk.toList.take (s.maxConcurrent - s.activeChildren.length)).map s.fn }) := by
  have hFree : s.activeChildren.length < s.maxConcurrent := by
    simpa using (Bool.and_eq_true_iff.mp hRoom).2
  have hTurn : activateTurn budget cx s = some (.again { s with
      source
      activeChildren := pushChildren s.fn s.maxConcurrent chunk.toList s.activeChildren }) := by
    unfold hasRoom at hRoom
    simp [activateTurn, hRoom, hPoll]
  rw [hTurn, pushChildren_eq s.fn chunk.toList hFree]

/-- Another pass follows only on a chunk. -/
theorem activateTurn_again {s t : MergeMapImpl α β}
    (hTurn : activateTurn budget cx s = some (.again t)) :
    s.hasRoom = true ∧ ∃ chunk source, s.source.poll budget cx = some (.emit chunk, source) ∧
      t = { s with
        source
        activeChildren := s.activeChildren ++
          (chunk.toList.take (s.maxConcurrent - s.activeChildren.length)).map s.fn } := by
  cases hRoom : s.hasRoom with
  | false =>
      unfold hasRoom at hRoom
      simp [activateTurn, hRoom] at hTurn
  | true =>
      cases hPoll : s.source.poll budget cx with
      | none =>
          unfold hasRoom at hRoom
          simp [activateTurn, hRoom, hPoll] at hTurn
      | some p =>
          obtain ⟨r, source⟩ := p
          cases r with
          | emit chunk =>
              rw [activateTurn_emit hRoom hPoll, Option.some.injEq, Loop.Turn.again.injEq] at hTurn
              exact ⟨rfl, chunk, source, rfl, hTurn.symm⟩
          | _ =>
              unfold hasRoom at hRoom
              simp [activateTurn, hRoom, hPoll] at hTurn

/-- What the state is when the activation loop ends without an error. -/
theorem activateTurn_leave {s t : MergeMapImpl α β}
    (hTurn : activateTurn budget cx s = some (.leave (.ok (), t))) :
    (s.hasRoom = false ∧ t = s) ∨
      s.hasRoom = true ∧ ∃ r source, s.source.poll budget cx = some (r, source) ∧
        (r.ending = none ∧ r.groups = [] ∧ t = { s with source } ∨
          r.ending = some .done ∧ t = { s with source, sourceDone := true }) := by
  cases hRoom : s.hasRoom with
  | false =>
      unfold hasRoom at hRoom
      simp [activateTurn, hRoom] at hTurn
      exact Or.inl ⟨rfl, hTurn.symm⟩
  | true =>
      cases hPoll : s.source.poll budget cx with
      | none =>
          unfold hasRoom at hRoom
          simp [activateTurn, hRoom, hPoll] at hTurn
      | some p =>
          obtain ⟨r, source⟩ := p
          unfold hasRoom at hRoom
          cases r with
          | emit chunk => simp [activateTurn, hRoom, hPoll] at hTurn
          | pending =>
              have hSame : { s with source } = t := by
                simpa [activateTurn, hRoom, hPoll] using hTurn
              exact Or.inr ⟨rfl, .pending, source, rfl, Or.inl ⟨rfl, rfl, hSame.symm⟩⟩
          | yield =>
              have hSame : { s with source } = t := by
                simpa [activateTurn, hRoom, hPoll] using hTurn
              exact Or.inr ⟨rfl, .yield, source, rfl, Or.inl ⟨rfl, rfl, hSame.symm⟩⟩
          | done =>
              have hSame : { s with source, sourceDone := true } = t := by
                simpa [activateTurn, hRoom, hPoll] using hTurn
              exact Or.inr ⟨rfl, .done, source, rfl, Or.inr ⟨rfl, hSame.symm⟩⟩
          | error e => simp [activateTurn, hRoom, hPoll] at hTurn

theorem overflow_leave {s : MergeMapImpl α β} {p : VoidResult × MergeMapImpl α β}
    (hTurn : activateTurn budget cx s = some (.leave p)) : s.overflow budget cx = [] := by
  cases hRoom : s.hasRoom with
  | false => simp [overflow, hRoom]
  | true =>
      cases hPoll : s.source.poll budget cx with
      | none => simp [overflow, hRoom, hPoll]
      | some q =>
          obtain ⟨r, source⟩ := q
          cases r with
          | emit chunk =>
              rw [activateTurn_emit hRoom hPoll] at hTurn
              simp at hTurn
          | _ => simp [overflow, hRoom, hPoll]

theorem roomy_leave {s : MergeMapImpl α β} {p : VoidResult × MergeMapImpl α β}
    (hTurn : activateTurn budget cx s = some (.leave p)) : Roomy budget cx s := by
  intro t hActivates x hx
  rcases ReflTransGen.cases_head hActivates with rfl | ⟨middle, hFirst, -⟩
  · rw [overflow_leave hTurn] at hx
    cases hx
  · rw [hTurn] at hFirst
    cases hFirst

theorem roomy_again {s t : MergeMapImpl α β}
    (hTurn : activateTurn budget cx s = some (.again t)) :
    Roomy budget cx s ↔
      (∀ x ∈ s.overflow budget cx, Silent budget cx (s.fn x)) ∧ Roomy budget cx t := by
  constructor
  · intro hRoomy
    exact ⟨hRoomy s .refl, fun u hActivates => hRoomy u (.head hTurn hActivates)⟩
  · rintro ⟨hHere, hThere⟩ u hActivates
    rcases ReflTransGen.cases_head hActivates with rfl | ⟨middle, hFirst, hRest⟩
    · exact hHere
    · rw [hTurn, Option.some.injEq, Loop.Turn.again.injEq] at hFirst
      subst hFirst
      exact hThere u hRest

theorem alwaysRoomy_poll {s t : MergeMapImpl α β} {r : PollResult β}
    (hPoll : AsyncImpl.poll budget cx s = some (r, t)) :
    AlwaysRoomy budget cx s ↔ Roomy budget cx s ∧ AlwaysRoomy budget cx t := by
  constructor
  · intro hAlways
    exact ⟨hAlways s .refl, fun u hPolled => hAlways u (.head ⟨r, hPoll⟩ hPolled)⟩
  · rintro ⟨hHere, hThere⟩ u hPolled
    rcases ReflTransGen.cases_head hPolled with rfl | ⟨middle, ⟨r', hFirst⟩, hRest⟩
    · exact hHere
    · rw [hPoll, Option.some.injEq, Prod.mk.injEq] at hFirst
      obtain ⟨-, rfl⟩ := hFirst
      exact hThere u hRest

/-! ## The children -/

/-- The items of an answer, if there is one. -/
def answered : Option (PollResult β) → List β
  | none => []
  | some r => r.groups.flatten

/-- The loop over the children only answers with a chunk or an error. -/
theorem pollChildren_answer {active active' : List (AsyncStreamHandle β)} {r : PollResult β}
    (hPoll : pollChildren budget cx active = some (some r, active')) :
    (∃ chunk, r = .emit chunk) ∨ ∃ e, r = .error e := by
  induction active generalizing active' with
  | nil => simp [pollChildren] at hPoll
  | cons child rest ih =>
      cases hChild : child.poll budget cx with
      | none => simp [pollChildren, hChild] at hPoll
      | some p =>
          obtain ⟨q, next⟩ := p
          cases q with
          | emit chunk =>
              simp only [pollChildren, hChild, Option.bind_eq_bind, Option.bind_some,
                Option.some.injEq, Prod.mk.injEq] at hPoll
              exact Or.inl ⟨chunk, hPoll.1.symm⟩
          | pending =>
              cases hRest : pollChildren budget cx rest with
              | none => simp [pollChildren, hChild, hRest] at hPoll
              | some p =>
                  simp only [pollChildren, hChild, hRest, Option.bind_eq_bind, Option.bind_some,
                    Option.some.injEq, Prod.mk.injEq] at hPoll
                  exact ih (hRest.trans (congrArg some (Prod.ext hPoll.1 rfl)))
          | yield =>
              cases hRest : pollChildren budget cx rest with
              | none => simp [pollChildren, hChild, hRest] at hPoll
              | some p =>
                  simp only [pollChildren, hChild, hRest, Option.bind_eq_bind, Option.bind_some,
                    Option.some.injEq, Prod.mk.injEq] at hPoll
                  exact ih (hRest.trans (congrArg some (Prod.ext hPoll.1 rfl)))
          | done =>
              simp only [pollChildren, hChild, Option.bind_eq_bind, Option.bind_some] at hPoll
              exact ih hPoll
          | error e =>
              simp only [pollChildren, hChild, Option.bind_eq_bind, Option.bind_some,
                Option.some.injEq, Prod.mk.injEq] at hPoll
              exact Or.inr ⟨e, hPoll.1.symm⟩

/-- The answer comes in front of what the children still emit. -/
theorem interleaves_of_pollChildren {active active' : List (AsyncStreamHandle β)}
    {r : Option (PollResult β)} {pre post outs' : List (List β)} {out : List β}
    (hPoll : pollChildren budget cx active = some (r, active')) (hFine : ∀ e, r ≠ some (.error e))
    (hOuts : List.Forall₂ (fun c l => Denotes budget cx c l .done) active' outs')
    (hMerged : Interleaves (pre ++ outs' ++ post) out) :
    ∃ outs, List.Forall₂ (fun c l => Denotes budget cx c l .done) active outs ∧
      Interleaves (pre ++ outs ++ post) (answered r ++ out) := by
  induction active generalizing active' pre outs' with
  | nil =>
      obtain ⟨rfl, rfl⟩ : none = r ∧ [] = active' := by simpa [pollChildren] using hPoll
      exact ⟨outs', hOuts, hMerged⟩
  | cons child rest ih =>
      cases hChild : child.poll budget cx with
      | none => simp [pollChildren, hChild] at hPoll
      | some p =>
          obtain ⟨q, next⟩ := p
          -- A child that idles stays where it is, in front of the others.
          have hIdle : q.ending = none → q.groups = [] →
              (∃ p, pollChildren budget cx rest = some p ∧ p.1 = r ∧ next :: p.2 = active') →
              ∃ outs, List.Forall₂ (fun c l => Denotes budget cx c l .done) (child :: rest) outs ∧
                Interleaves (pre ++ outs ++ post) (answered r ++ out) := by
            rintro hMore hNone ⟨⟨r', rest'⟩, hRest, rfl, rfl⟩
            cases hOuts with
            | @cons _ first _ others hFirst hOthers =>
                have hSplit : Interleaves ((pre ++ [first]) ++ others ++ post) out := by
                  simpa using hMerged
                obtain ⟨outs, hAll, hInter⟩ := ih hRest hOthers hSplit
                have hWhole := Denotes.of_more hChild hMore hFirst
                rw [hNone, List.flatten_nil, List.nil_append] at hWhole
                exact ⟨first :: outs, .cons hWhole hAll, by simpa using hInter⟩
          cases q with
          | emit chunk =>
              simp only [pollChildren, hChild, Option.bind_eq_bind, Option.bind_some,
                Option.some.injEq, Prod.mk.injEq] at hPoll
              obtain ⟨rfl, rfl⟩ := hPoll
              cases hOuts with
              | @cons _ first _ others hFirst hOthers =>
                  have hSplit : Interleaves (pre ++ first :: (others ++ post)) out := by
                    simpa using hMerged
                  have hChunk := hSplit.prepend (PollResult.emit chunk).groups.flatten
                  exact ⟨_ :: others, .cons (Denotes.of_more hChild rfl hFirst) hOthers,
                    by simpa [answered] using hChunk⟩
          | pending =>
              apply hIdle rfl rfl
              cases hRest : pollChildren budget cx rest with
              | none => simp [pollChildren, hChild, hRest] at hPoll
              | some p =>
                  simp only [pollChildren, hChild, hRest, Option.bind_eq_bind, Option.bind_some,
                    Option.some.injEq, Prod.mk.injEq] at hPoll
                  exact ⟨p, rfl, hPoll⟩
          | yield =>
              apply hIdle rfl rfl
              cases hRest : pollChildren budget cx rest with
              | none => simp [pollChildren, hChild, hRest] at hPoll
              | some p =>
                  simp only [pollChildren, hChild, hRest, Option.bind_eq_bind, Option.bind_some,
                    Option.some.injEq, Prod.mk.injEq] at hPoll
                  exact ⟨p, rfl, hPoll⟩
          | done =>
              simp only [pollChildren, hChild, Option.bind_eq_bind, Option.bind_some] at hPoll
              have hSplit : Interleaves ((pre ++ [[]]) ++ outs' ++ post) out := by
                rw [List.append_assoc] at hMerged
                simpa using hMerged.insert_nil
              obtain ⟨outs, hAll, hInter⟩ := ih hPoll hOuts hSplit
              exact ⟨[] :: outs, .cons (Denotes.of_done hChild) hAll, by simpa using hInter⟩
          | error e =>
              simp only [pollChildren, hChild, Option.bind_eq_bind, Option.bind_some,
                Option.some.injEq, Prod.mk.injEq] at hPoll
              exact absurd hPoll.1.symm (hFine e)

/-! ## Which elements get a child -/

/-- Elements with what their child emits up to Done, or `none` if they get no child. -/
abbrev Fates (α β : Type) := List (α × Option (List β))

/-- What the elements contribute to the merge. -/
def Fates.outs (fates : Fates α β) : List (List β) := fates.map fun f => f.2.getD []

variable (budget cx) in
/-- What a state still emits up to Done: an interleaving of what the active children and
those of the elements to come still emit. `room` says that no dropped element matters. -/
def Merging (room : Prop) (s : MergeMapImpl α β) (out : List β) : Prop :=
  ∃ (outs : List (List β)) (ss : List (List α)) (fates : Fates α β),
    List.Forall₂ (fun c l => Denotes budget cx c l .done) s.activeChildren outs ∧
    (if s.sourceDone then ss = [] else Emits budget cx s.source ss .done) ∧
    fates.map Prod.fst = ss.flatten ∧
    (∀ x l, (x, some l) ∈ fates → Denotes budget cx (s.fn x) l .done) ∧
    Interleaves (outs ++ fates.outs) out ∧
    (room ↔ ∀ x, (x, none) ∈ fates → Silent budget cx (s.fn x))

theorem Merging.congr {room room' : Prop} {s : MergeMapImpl α β} {out : List β}
    (h : Merging budget cx room s out) (hSame : room' ↔ room) : Merging budget cx room' s out := by
  obtain ⟨outs, ss, fates, hOuts, hSource, hElems, hFates, hInter, hRoom⟩ := h
  exact ⟨outs, ss, fates, hOuts, hSource, hElems, hFates, hInter, hSame.trans hRoom⟩

/-- The fates of elements that all get a child. -/
theorem exists_fates {R : α → List β → Prop} {elems : List α} {outs : List (List β)}
    (h : List.Forall₂ R elems outs) :
    ∃ fates : Fates α β, fates.map Prod.fst = elems ∧ fates.outs = outs ∧
      (∀ x l, (x, some l) ∈ fates → R x l) ∧ ∀ x, (x, none) ∉ fates := by
  induction h with
  | nil => exact ⟨[], rfl, rfl, by simp, by simp⟩
  | @cons x l elems outs hFirst _ ih =>
      obtain ⟨fates, rfl, rfl, hSome, hNone⟩ := ih
      refine ⟨(x, some l) :: fates, rfl, rfl, ?_, ?_⟩
      · intro y m hMem
        rcases List.mem_cons.mp hMem with hHere | hMem
        · obtain ⟨rfl, hOut⟩ := Prod.mk.inj hHere
          obtain rfl := Option.some.inj hOut
          exact hFirst
        · exact hSome y m hMem
      · intro y hMem
        rcases List.mem_cons.mp hMem with hHere | hMem
        · cases hHere
        · exact hNone y hMem

theorem merging_again {s t : MergeMapImpl α β} {room : Prop} {out : List β}
    (hTurn : activateTurn budget cx s = some (.again t)) (h : Merging budget cx room t out) :
    Merging budget cx ((∀ x ∈ s.overflow budget cx, Silent budget cx (s.fn x)) ∧ room) s out := by
  obtain ⟨hRoomHere, chunk, source, hPoll, rfl⟩ := activateTurn_again hTurn
  have hOpen : s.sourceDone = false := by
    simpa using (Bool.and_eq_true_iff.mp hRoomHere).1
  obtain ⟨outs, ss, fates, hOuts, hSource, hElems, hFates, hInter, hRoom⟩ := h
  simp only [hOpen, Bool.false_eq_true, if_false] at hSource
  obtain ⟨before, new, rfl, hBefore, hNew⟩ := forall₂_append_left hOuts
  rw [List.forall₂_map_left_iff] at hNew
  obtain ⟨fresh, hFresh, rfl, hSome, hNone⟩ := exists_fates hNew
  obtain ⟨n, hSource⟩ := hSource
  have hDropped : s.overflow budget cx =
      chunk.toList.drop (s.maxConcurrent - s.activeChildren.length) := by
    simp [overflow, hRoomHere, hPoll]
  generalize s.maxConcurrent - s.activeChildren.length = slots at hFresh hDropped
  refine ⟨before, (PollResult.emit chunk).groups ++ ss,
    fresh ++ ((chunk.toList.drop slots).map fun x => (x, none)) ++ fates, hBefore, ?_, ?_, ?_, ?_, ?_⟩
  · simp only [hOpen, Bool.false_eq_true, if_false]
    exact ⟨n + 1, .more hPoll rfl hSource⟩
  · rw [List.flatten_append, PollResult.flatten_groups_emit, List.map_append, List.map_append,
      hFresh, hElems, List.map_map]
    have hSame : (chunk.toList.drop slots).map (Prod.fst ∘ fun x => (x, (none : Option (List β)))) =
        chunk.toList.drop slots := List.map_id _
    rw [hSame, List.take_append_drop]
  · intro x l hMem
    rcases List.mem_append.mp hMem with hMem | hMem
    · rcases List.mem_append.mp hMem with hMem | hMem
      · exact hSome x l hMem
      · obtain ⟨y, -, hSame⟩ := List.mem_map.mp hMem
        cases hSame
    · exact hFates x l hMem
  · have hEmpty : ∀ l ∈ Fates.outs ((chunk.toList.drop slots).map fun x => (x, none)),
        l = ([] : List β) := by
      intro l hl
      simp only [Fates.outs, List.map_map, List.mem_map] at hl
      obtain ⟨x, -, rfl⟩ := hl
      rfl
    have hMerged := hInter.insert_empties hEmpty
    simpa [Fates.outs] using hMerged
  · rw [hDropped, hRoom]
    constructor
    · rintro ⟨hHere, hLater⟩ x hMem
      rcases List.mem_append.mp hMem with hMem | hMem
      · rcases List.mem_append.mp hMem with hMem | hMem
        · exact absurd hMem (hNone x)
        · obtain ⟨y, hy, hSame⟩ := List.mem_map.mp hMem
          obtain rfl := congrArg Prod.fst hSame
          exact hHere y hy
      · exact hLater x hMem
    · intro hAll
      constructor
      · intro x hx
        apply hAll x
        exact List.mem_append_left _ (List.mem_append_right _ (List.mem_map.mpr ⟨x, hx, rfl⟩))
      · intro x hMem
        exact hAll x (List.mem_append_right _ hMem)

theorem merging_leave {s t : MergeMapImpl α β} {room : Prop} {out : List β}
    (hTurn : activateTurn budget cx s = some (.leave (.ok (), t)))
    (h : Merging budget cx room t out) : Merging budget cx room s out := by
  rcases activateTurn_leave hTurn with ⟨-, rfl⟩ | ⟨hRoomHere, r, source, hPoll, hCase⟩
  · exact h
  · have hOpen : s.sourceDone = false := by
      simpa using (Bool.and_eq_true_iff.mp hRoomHere).1
    obtain ⟨outs, ss, fates, hOuts, hSource, hElems, hFates, hInter, hRoom⟩ := h
    rcases hCase with ⟨hMore, hNone, rfl⟩ | ⟨hEnd, rfl⟩
    · simp only [hOpen, Bool.false_eq_true, if_false] at hSource
      obtain ⟨n, hSource⟩ := hSource
      have hBefore := EmitsIn.more hPoll hMore hSource
      rw [hNone, List.nil_append] at hBefore
      exact ⟨outs, ss, fates, hOuts, by simpa [hOpen] using ⟨n + 1, hBefore⟩, hElems, hFates,
        hInter, hRoom⟩
    · obtain rfl : ss = [] := by simpa using hSource
      have hLast : Emits budget cx s.source [] .done := ⟨0, .final hPoll hEnd⟩
      exact ⟨outs, [], fates, hOuts, by simpa [hOpen] using hLast, hElems, hFates, hInter, hRoom⟩

theorem merging_activation {s : MergeMapImpl α β} {p : VoidResult × MergeMapImpl α β}
    (hRun : Loop.run (activateTurn budget cx) s = some p) (hFine : p.1 = .ok ()) {room : Prop}
    {out : List β} (h : Merging budget cx room p.2 out) :
    Merging budget cx (Roomy budget cx s ∧ room) s out := by
  apply Loop.run_induction
    (motive := fun s p => p.1 = .ok () → Merging budget cx room p.2 out →
      Merging budget cx (Roomy budget cx s ∧ room) s out) _ _ hRun hFine h
  · intro s t p hTurn ih hFine h
    apply (merging_again hTurn (ih hFine h)).congr
    rw [roomy_again hTurn, and_assoc]
  · intro s p hTurn hFine h
    obtain ⟨r, t⟩ := p
    subst hFine
    apply (merging_leave hTurn h).congr
    exact and_iff_right (roomy_leave hTurn)

/-! ## A whole poll -/

/-- A poll without error: activation, the children, and the answer. -/
theorem poll_cases {s t : MergeMapImpl α β} {r : PollResult β}
    (hPoll : AsyncImpl.poll budget cx s = some (r, t)) :
    (∃ e, r = .error e ∧ Loop.run (activateTurn budget cx) s = some (.error e, t)) ∨
    ∃ middle q active,
      Loop.run (activateTurn budget cx) s = some (.ok (), middle) ∧
      pollChildren budget cx middle.activeChildren = some (q, active) ∧
      t = { middle with activeChildren := active } ∧
      (q = some r ∨ q = none ∧ r = if active.isEmpty && middle.sourceDone then .done else .pending) := by
  have hBody : MergeMapImpl.poll budget cx s = some (r, t) := hPoll
  cases hRun : Loop.run (activateTurn budget cx) s with
  | none => simp [MergeMapImpl.poll, hRun] at hBody
  | some p =>
      obtain ⟨v, middle⟩ := p
      cases v with
      | error e =>
          obtain ⟨rfl, rfl⟩ : .error e = r ∧ middle = t := by
            simpa [MergeMapImpl.poll, hRun] using hBody
          exact Or.inl ⟨e, rfl, rfl⟩
      | ok u =>
          cases hChildren : pollChildren budget cx middle.activeChildren with
          | none => simp [MergeMapImpl.poll, hRun, hChildren] at hBody
          | some c =>
              obtain ⟨q, active⟩ := c
              right
              refine ⟨middle, q, active, rfl, hChildren, ?_⟩
              cases q with
              | none =>
                  obtain ⟨rfl, rfl⟩ : (if active.isEmpty && middle.sourceDone then .done
                      else .pending) = r ∧ { middle with activeChildren := active } = t := by
                    simpa [MergeMapImpl.poll, hRun, hChildren] using hBody
                  exact ⟨rfl, Or.inr ⟨rfl, rfl⟩⟩
              | some q =>
                  obtain ⟨rfl, rfl⟩ : q = r ∧ { middle with activeChildren := active } = t := by
                    simpa [MergeMapImpl.poll, hRun, hChildren] using hBody
                  exact ⟨rfl, Or.inl rfl⟩

theorem merging_poll {s t : MergeMapImpl α β} {r : PollResult β} {out : List β}
    (hPoll : AsyncImpl.poll budget cx s = some (r, t)) (hFine : ∀ e, r ≠ .error e)
    (h : Merging budget cx (AlwaysRoomy budget cx t) t out) :
    Merging budget cx (AlwaysRoomy budget cx s) s (r.groups.flatten ++ out) := by
  rcases poll_cases hPoll with ⟨e, hError, -⟩ | ⟨middle, q, active, hRun, hChildren, rfl, hAnswer⟩
  · exact absurd hError (hFine e)
  · obtain ⟨outs, ss, fates, hOuts, hSource, hElems, hFates, hInter, hRoom⟩ := h
    have hQuiet : ∀ e, q ≠ some (.error e) := by
      rintro e rfl
      rcases hAnswer with hSame | ⟨hNone, -⟩
      · exact hFine e (Option.some.inj hSame).symm
      · cases hNone
    have hItems : answered q = r.groups.flatten := by
      rcases hAnswer with rfl | ⟨rfl, rfl⟩
      · rfl
      · split <;> rfl
    have hSplit : Interleaves ([] ++ outs ++ fates.outs) out := hInter
    obtain ⟨all, hAll, hMerged⟩ := interleaves_of_pollChildren hChildren hQuiet hOuts hSplit
    rw [hItems] at hMerged
    have hMiddle : Merging budget cx (AlwaysRoomy budget cx { middle with activeChildren := active })
        middle (r.groups.flatten ++ out) :=
      ⟨all, ss, fates, hAll, hSource, hElems, hFates, hMerged, hRoom⟩
    exact (merging_activation hRun rfl hMiddle).congr (alwaysRoomy_poll hPoll)

/-- Once everything is over, further polls change nothing. -/
theorem alwaysRoomy_over {s : MergeMapImpl α β} (hDone : s.sourceDone = true)
    (hEmpty : s.activeChildren = []) : AlwaysRoomy budget cx s := by
  have hTurn : activateTurn budget cx s = some (.leave (.ok (), s)) := by
    simp [activateTurn, hDone]
  have hPoll : AsyncImpl.poll budget cx s = some (.done, s) := by
    have hRun := Loop.run_leave hTurn
    obtain ⟨source, fn, active, maxConcurrent, sourceDone⟩ := s
    subst hDone
    subst hEmpty
    show MergeMapImpl.poll budget cx _ = _
    simp [MergeMapImpl.poll, hRun, pollChildren]
  intro t hPolled
  have hSame : t = s := by
    induction hPolled with
    | refl => rfl
    | tail _ hLast ih =>
        obtain ⟨r, hLast⟩ := hLast
        rw [ih, hPoll, Option.some.injEq, Prod.mk.injEq] at hLast
        exact hLast.2.symm
  rw [hSame]
  exact roomy_leave hTurn

theorem merging_done {s t : MergeMapImpl α β} {r : PollResult β}
    (hPoll : AsyncImpl.poll budget cx s = some (r, t)) (hEnd : r.ending = some .done) :
    Merging budget cx (AlwaysRoomy budget cx s) s [] := by
  have hDone : r = .done := by
    cases r <;> simp_all [PollResult.ending]
  subst hDone
  have hOver : Merging budget cx (AlwaysRoomy budget cx t) t [] := by
    rcases poll_cases hPoll with ⟨e, hError, -⟩ | ⟨middle, q, active, -, hChildren, rfl, hAnswer⟩
    · cases hError
    · rcases hAnswer with rfl | ⟨-, hSame⟩
      · rcases pollChildren_answer hChildren with ⟨chunk, hChunk⟩ | ⟨e, hError⟩
        · cases hChunk
        · cases hError
      · have hBoth : (active.isEmpty && middle.sourceDone) = true := by
          by_contra hNot
          rw [if_neg hNot] at hSame
          cases hSame
        rw [Bool.and_eq_true, List.isEmpty_iff] at hBoth
        obtain ⟨rfl, hSourceDone⟩ := hBoth
        refine ⟨[], [], [], .nil, by simp [hSourceDone], rfl, by simp, .nil (by simp [Fates.outs]), ?_⟩
        exact iff_of_true (alwaysRoomy_over hSourceDone rfl) (by simp)
  exact merging_poll hPoll (by simp) hOver

theorem merging_of_emits {s : MergeMapImpl α β} {gs : List (List β)} {e : Ending}
    (h : Emits budget cx (makeAsyncStreamHandle s) gs e) (hDone : e = .done) :
    Merging budget cx (AlwaysRoomy budget cx s) s gs.flatten := by
  obtain ⟨n, h⟩ := h
  apply EmitsIn.make_induction
    (motive := fun _ (s : MergeMapImpl α β) gs e => e = .done →
      Merging budget cx (AlwaysRoomy budget cx s) s gs.flatten) _ _ h hDone
  · intro s s' r e hPoll hEnd hDone
    exact merging_done hPoll (hDone ▸ hEnd)
  · intro n s s' r gs e hPoll hMore ih hDone
    rw [List.flatten_append]
    apply merging_poll hPoll _ (ih hDone)
    rintro err rfl
    cases hMore

/-! ## The bound -/

/-- At most `n` active children, out of `n` allowed ones. -/
def Bounded (n : ℕ) (s : MergeMapImpl α β) : Prop :=
  s.maxConcurrent = n ∧ s.activeChildren.length ≤ n

theorem bounded_again {n : ℕ} {s t : MergeMapImpl α β} (h : Bounded n s)
    (hTurn : activateTurn budget cx s = some (.again t)) : Bounded n t := by
  obtain ⟨-, chunk, source, -, rfl⟩ := activateTurn_again hTurn
  obtain ⟨hMax, hLength⟩ := h
  refine ⟨hMax, ?_⟩
  simp only [List.length_append, List.length_map, List.length_take]
  omega

theorem bounded_leave {n : ℕ} {s : MergeMapImpl α β} {p : VoidResult × MergeMapImpl α β}
    (h : Bounded n s) (hTurn : activateTurn budget cx s = some (.leave p)) : Bounded n p.2 := by
  cases hRoom : (!s.sourceDone && decide (s.activeChildren.length < s.maxConcurrent)) with
  | false =>
      obtain rfl : (.ok (), s) = p := by simpa [activateTurn, hRoom] using hTurn
      exact h
  | true =>
      cases hPoll : s.source.poll budget cx with
      | none => simp [activateTurn, hRoom, hPoll] at hTurn
      | some q =>
          obtain ⟨r, source⟩ := q
          cases r with
          | emit chunk => simp [activateTurn, hRoom, hPoll] at hTurn
          | pending =>
              obtain rfl : (.ok (), { s with source }) = p := by
                simpa [activateTurn, hRoom, hPoll] using hTurn
              exact h
          | yield =>
              obtain rfl : (.ok (), { s with source }) = p := by
                simpa [activateTurn, hRoom, hPoll] using hTurn
              exact h
          | done =>
              obtain rfl : (.ok (), { s with source, sourceDone := true }) = p := by
                simpa [activateTurn, hRoom, hPoll] using hTurn
              exact h
          | error e =>
              obtain rfl : (.error e, { s with source }) = p := by
                simpa [activateTurn, hRoom, hPoll] using hTurn
              exact h

theorem length_pollChildren_le {active active' : List (AsyncStreamHandle β)}
    {r : Option (PollResult β)} (hPoll : pollChildren budget cx active = some (r, active')) :
    active'.length ≤ active.length := by
  induction active generalizing r active' with
  | nil => simp_all [pollChildren]
  | cons child rest ih =>
      cases hChild : child.poll budget cx with
      | none => simp [pollChildren, hChild] at hPoll
      | some p =>
          obtain ⟨q, next⟩ := p
          cases q with
          | emit chunk =>
              obtain ⟨-, rfl⟩ : some (.emit chunk) = r ∧ next :: rest = active' := by
                simpa [pollChildren, hChild] using hPoll
              exact Nat.le_refl _
          | pending =>
              cases hRest : pollChildren budget cx rest with
              | none => simp [pollChildren, hChild, hRest] at hPoll
              | some p =>
                  obtain ⟨-, rfl⟩ : p.1 = r ∧ next :: p.2 = active' := by
                    simpa [pollChildren, hChild, hRest] using hPoll
                  exact Nat.succ_le_succ (ih hRest)
          | yield =>
              cases hRest : pollChildren budget cx rest with
              | none => simp [pollChildren, hChild, hRest] at hPoll
              | some p =>
                  obtain ⟨-, rfl⟩ : p.1 = r ∧ next :: p.2 = active' := by
                    simpa [pollChildren, hChild, hRest] using hPoll
                  exact Nat.succ_le_succ (ih hRest)
          | done =>
              have hRest : pollChildren budget cx rest = some (r, active') := by
                simpa [pollChildren, hChild] using hPoll
              exact (ih hRest).trans (Nat.le_succ _)
          | error e =>
              obtain ⟨-, rfl⟩ : some (.error e) = r ∧ next :: rest = active' := by
                simpa [pollChildren, hChild] using hPoll
              exact Nat.le_refl _

theorem bounded_poll {n : ℕ} {s t : MergeMapImpl α β} {r : PollResult β} (h : Bounded n s)
    (hPoll : AsyncImpl.poll budget cx s = some (r, t)) : Bounded n t := by
  have hLoop : ∀ p, Loop.run (activateTurn budget cx) s = some p → Bounded n p.2 := by
    intro p hRun
    apply Loop.run_induction
      (motive := fun (s : MergeMapImpl α β) p => Bounded n s → Bounded n p.2) _ _ hRun h
    · intro s t p hTurn ih hs
      exact ih (bounded_again hs hTurn)
    · intro s p hTurn hs
      exact bounded_leave hs hTurn
  rcases poll_cases hPoll with ⟨e, -, hRun⟩ | ⟨middle, q, active, hRun, hChildren, rfl, -⟩
  · exact hLoop _ hRun
  · obtain ⟨hMax, hLength⟩ := hLoop _ hRun
    exact ⟨hMax, (length_pollChildren_le hChildren).trans hLength⟩

theorem bounded_polled {n : ℕ} {s t u : MergeMapImpl α β} (h : Bounded n s)
    (hPolled : Polled budget cx s t) (hActivates : Activates budget cx t u) : Bounded n u := by
  have hBetween : Bounded n t := by
    clear hActivates
    induction hPolled with
    | refl => exact h
    | tail _ hLast ih =>
        obtain ⟨r, hLast⟩ := hLast
        exact bounded_poll ih hLast
  induction hActivates with
  | refl => exact hBetween
  | tail _ hLast ih => exact bounded_again ih hLast

end MergeMapImpl
end CelerMem.Async
