import CelerMem.Core.AsyncAgree
import CelerMem.Core.ParEval
import CelerMem.Library.RoundRobin
import Mathlib

/-! `par_eval` as a ring: the sources that are not done, in the order in which the rotation
comes to them. Only this order matters for what a state answers. -/
namespace CelerMem.Async

variable {α : Type} {budget : StreamBudget} {cx : TaskContext}

namespace ParEvalImpl

def openSources (slots : List (AsyncStreamHandle α × Bool)) : List (AsyncStreamHandle α) :=
  (slots.filter fun slot => !slot.2).map Prod.fst

theorem openSources_append (first second : List (AsyncStreamHandle α × Bool)) :
    openSources (first ++ second) = openSources first ++ openSources second := by
  rw [openSources, List.filter_append, List.map_append]
  rfl

def ring (s : ParEvalImpl α) : List (AsyncStreamHandle α) :=
  openSources (s.slots.rotate s.nextIdx)

/-- One round: the sources still to try, and those that have been tried without an item. -/
def ringScan (budget : StreamBudget) (cx : TaskContext) :
    List (AsyncStreamHandle α) → List (AsyncStreamHandle α) →
      Option (PollResult α × List (AsyncStreamHandle α))
  | [], tried => some (if tried.isEmpty then .done else .pending, tried)
  | source :: rest, tried =>
      (source.poll budget cx).bind fun p =>
        match p.1 with
        | .emit chunk => some (.emit chunk, rest ++ tried ++ [p.2])
        | .pending => ringScan budget cx rest (tried ++ [p.2])
        | .yield => ringScan budget cx rest (tried ++ [p.2])
        | .done => ringScan budget cx rest tried
        | .error e => some (.error e, rest ++ tried ++ [p.2])

theorem all_iff_openSources (slots : List (AsyncStreamHandle α × Bool)) :
    slots.all Prod.snd = (openSources slots).isEmpty := by
  induction slots with
  | nil => rfl
  | cons slot slots ih =>
      obtain ⟨source, flag⟩ := slot
      cases flag with
      | true =>
          rw [List.all_cons, Bool.true_and, ih]
          rfl
      | false => rfl

theorem openSources_rotate_isEmpty (slots : List (AsyncStreamHandle α × Bool)) (k : ℕ) :
    (openSources (slots.rotate k)).isEmpty = slots.all Prod.snd := by
  rw [← all_iff_openSources]
  exact List.Perm.all_eq (List.rotate_perm slots k)

variable (budget cx) in
/-- A round over the slots is one over the ring. -/
theorem scan_ring {s : ParEvalImpl α} {todo tried : List (AsyncStreamHandle α × Bool)}
    (h : s.slots.rotate s.nextIdx = todo ++ tried) :
    (scan budget cx todo.length s).map (fun p => (p.1, p.2.ring)) =
      ringScan budget cx (openSources todo) (openSources tried) := by
  induction todo generalizing s tried with
  | nil =>
      have hAll := openSources_rotate_isEmpty s.slots s.nextIdx
      rw [h, List.nil_append] at hAll
      rw [List.length_nil, scan, Option.map_some, ← hAll, ring, h]
      rfl
  | cons slot todo ih =>
      obtain ⟨source, flag⟩ := slot
      rw [List.cons_append] at h
      rw [List.length_cons]
      cases flag with
      | true =>
          have hSlot : s.slots[s.nextIdx % s.slots.length]? = some (source, true) :=
            RoundRobin.getElem?_of_rotate h
          have hNext : s.slots.rotate (s.nextIdx + 1) = todo ++ (tried ++ [(source, true)]) := by
            rw [RoundRobin.rotate_succ h, List.append_assoc]
          have hRest := ih (s := ⟨s.slots, s.nextIdx + 1⟩) hNext
          rw [openSources_append] at hRest
          rw [scan_flagged hSlot]
          simpa [openSources] using hRest
      | false =>
          have hSlot : s.slots[s.nextIdx % s.slots.length]? = some (source, false) :=
            RoundRobin.getElem?_of_rotate h
          have hMoved : ∀ next flag, (s.slots.set (s.nextIdx % s.slots.length) (next, flag)).rotate
              (s.nextIdx + 1) = todo ++ (tried ++ [(next, flag)]) := by
            intro next flag
            rw [RoundRobin.rotate_set h, List.append_assoc]
          have hHead : openSources ((source, false) :: todo) = source :: openSources todo := rfl
          rw [hHead, ringScan]
          cases hPoll : source.poll budget cx with
          | none => simp [scan, hSlot, hPoll]
          | some p =>
              obtain ⟨r, next⟩ := p
              have hAnswer : openSources ((s.slots.set (s.nextIdx % s.slots.length)
                  (next, false)).rotate (s.nextIdx + 1)) =
                    openSources todo ++ openSources tried ++ [next] := by
                rw [hMoved, openSources_append, openSources_append, List.append_assoc]
                rfl
              have hOn : ∀ flag, openSources (tried ++ [(next, flag)]) =
                  openSources tried ++ openSources [(next, flag)] :=
                fun flag => openSources_append tried _
              cases r with
              | emit chunk =>
                  rw [scan_answered hSlot hPoll (.inl ⟨chunk, rfl⟩), Option.map_some, ring, hAnswer]
                  rfl
              | pending =>
                  have hRest := ih (s := ⟨s.slots.set (s.nextIdx % s.slots.length) (next, false),
                    s.nextIdx + 1⟩) (hMoved next false)
                  rw [hOn] at hRest
                  rw [scan_idle hSlot hPoll (.inl rfl)]
                  exact hRest
              | yield =>
                  have hRest := ih (s := ⟨s.slots.set (s.nextIdx % s.slots.length) (next, false),
                    s.nextIdx + 1⟩) (hMoved next false)
                  rw [hOn] at hRest
                  rw [scan_idle hSlot hPoll (.inr rfl)]
                  exact hRest
              | done =>
                  have hRest := ih (s := ⟨s.slots.set (s.nextIdx % s.slots.length) (next, true),
                    s.nextIdx + 1⟩) (hMoved next true)
                  have hFlagged : openSources [(next, true)] = [] := rfl
                  rw [hOn, hFlagged, List.append_nil] at hRest
                  rw [scan_finished hSlot hPoll]
                  exact hRest
              | error e =>
                  rw [scan_answered hSlot hPoll (.inr ⟨e, rfl⟩), Option.map_some, ring, hAnswer]
                  rfl

theorem poll_ring (s : ParEvalImpl α) : (AsyncImpl.poll budget cx s).map (fun p => (p.1, p.2.ring)) =
    ringScan budget cx s.ring [] := by
  show (poll budget cx s).map _ = _
  unfold poll
  have hRound : (scan budget cx s.slots.length s).map (fun p => (p.1, p.2.ring)) =
      ringScan budget cx s.ring [] := by
    have hStart : s.slots.rotate s.nextIdx = s.slots.rotate s.nextIdx ++ [] :=
      (List.append_nil _).symm
    have hScan := scan_ring budget cx hStart
    rw [List.length_rotate] at hScan
    exact hScan
  cases hSlots : s.slots with
  | nil => simp [ring, hSlots, openSources, ringScan]
  | cons slot slots =>
      rw [hSlots] at hRound
      exact hRound

/-! ## Rings that answer alike -/

variable (budget cx) in
theorem ringScan_alike {todo todo' tried tried' : List (AsyncStreamHandle α)}
    (hTodo : List.Forall₂ SamePolls todo todo') (hTried : List.Forall₂ SamePolls tried tried') :
    Option.Rel (fun p q => p.1 = q.1 ∧ List.Forall₂ SamePolls p.2 q.2)
      (ringScan budget cx todo tried) (ringScan budget cx todo' tried') := by
  induction hTodo generalizing tried tried' with
  | nil =>
      have hEmpty : tried.isEmpty = tried'.isEmpty := by
        cases hTried <;> rfl
      rw [ringScan, ringScan, hEmpty]
      exact .some ⟨rfl, hTried⟩
  | cons hSource hRest ih =>
      rw [ringScan, ringScan]
      apply Loop.rel_bind (hSource.poll budget cx)
      rintro ⟨r, next⟩ ⟨_, next'⟩ ⟨rfl, hNext⟩
      have hMoved := List.rel_append hTried (.cons hNext .nil)
      cases r with
      | emit chunk =>
          refine .some ⟨rfl, ?_⟩
          rw [List.append_assoc, List.append_assoc]
          exact List.rel_append hRest hMoved
      | pending => exact ih hMoved
      | yield => exact ih hMoved
      | done => exact ih hTried
      | error e =>
          refine .some ⟨rfl, ?_⟩
          rw [List.append_assoc, List.append_assoc]
          exact List.rel_append hRest hMoved

theorem samePolls {s t : ParEvalImpl α} (h : List.Forall₂ SamePolls s.ring t.ring) :
    SamePolls (makeAsyncStreamHandle s) (makeAsyncStreamHandle t) := by
  apply SamePolls.make (R := fun s t : ParEvalImpl α => List.Forall₂ SamePolls s.ring t.ring) _ h
  intro s t hRing budget cx
  have hRel := ringScan_alike budget cx hRing .nil
  rw [← poll_ring, ← poll_ring] at hRel
  exact Loop.rel_of_map hRel

/-- A clone starts the rotation again. It comes to the same sources in the same order when
those that are not done are all on one side of the index. -/
theorem ring_copy {s : ParEvalImpl α}
    (hTurn : (∀ slot ∈ s.slots.take (s.nextIdx % s.slots.length), slot.2 = true) ∨
      ∀ slot ∈ s.slots.drop (s.nextIdx % s.slots.length), slot.2 = true) :
    (AsyncImpl.copy s).ring = s.ring.map AsyncStreamHandle.clone := by
  have hOrder : openSources (s.slots.rotate s.nextIdx) = openSources s.slots := by
    apply congrArg (List.map Prod.fst)
    apply RoundRobin.filter_rotate
    rcases hTurn with hTurn | hTurn
    · exact Or.inl fun slot hMem => by rw [hTurn slot hMem]; rfl
    · exact Or.inr fun slot hMem => by rw [hTurn slot hMem]; rfl
  show openSources ((s.slots.map fun slot => (slot.1.clone, slot.2)).rotate 0) = _
  rw [List.rotate_zero, ring, hOrder, openSources, List.filter_map, List.map_map, openSources,
    List.map_map]
  rfl

theorem samePolls_copy {s : ParEvalImpl α}
    (hTurn : (∀ slot ∈ s.slots.take (s.nextIdx % s.slots.length), slot.2 = true) ∨
      ∀ slot ∈ s.slots.drop (s.nextIdx % s.slots.length), slot.2 = true)
    (hSources : ∀ slot ∈ s.slots, slot.2 = false → SamePolls slot.1.clone slot.1) :
    SamePolls (makeAsyncStreamHandle (AsyncImpl.copy s)) (makeAsyncStreamHandle s) := by
  apply samePolls
  rw [ring_copy hTurn, List.forall₂_map_left_iff, List.forall₂_same]
  intro source hMem
  obtain ⟨slot, hSlot, rfl⟩ := List.mem_map.mp hMem
  obtain ⟨hIn, hOpen⟩ := List.mem_filter.mp hSlot
  exact hSources slot (List.mem_rotate.mp hIn) (by simpa using hOpen)

end ParEvalImpl
end CelerMem.Async
