import CelerMem.Core.MergeMap

/-! The limit of `merge_map`: no more children than it allows, Done after finitely many
polls, and the exact condition under which no item is lost. -/
namespace CelerMem.Async

open Interleaving Relation

variable {α β : Type} {budget : StreamBudget} {cx : TaskContext}

namespace MergeMapImpl

/-! ## Done is reached -/

/-- The polls that active children need up to their Done. -/
def childrenCost (ns : List ℕ) : ℕ := (ns.map (· + 1)).sum

variable (budget cx) in
/-- The source needs `n` polls in all, its own and those of the children it brings. -/
def SourceCost (cost : α → ℕ) (fn : α → AsyncStreamHandle β) (n : ℕ)
    (source : AsyncStreamHandle α) : Prop :=
  ∃ m ss, EmitsIn budget cx m source ss .done ∧
    (∀ x ∈ ss.flatten, DoneIn budget cx (cost x) (fn x)) ∧
    n = m + 1 + childrenCost (ss.flatten.map cost)

variable (budget cx) in
/-- Everything that is still to be polled is over after `k` polls. -/
def Affordable (cost : α → ℕ) (k : ℕ) (s : MergeMapImpl α β) : Prop :=
  0 < s.maxConcurrent ∧ ∃ ns n,
    List.Forall₂ (fun child n => DoneIn budget cx n child) s.activeChildren ns ∧
    (if s.sourceDone then n = 0 else SourceCost budget cx cost s.fn n s.source) ∧
    k = n + childrenCost ns

theorem childrenCost_cons (n : ℕ) (ns : List ℕ) :
    childrenCost (n :: ns) = n + 1 + childrenCost ns := by
  simp [childrenCost]

theorem childrenCost_append (ns ms : List ℕ) :
    childrenCost (ns ++ ms) = childrenCost ns + childrenCost ms := by
  simp [childrenCost]

theorem childrenCost_take_le (ns : List ℕ) (n : ℕ) :
    childrenCost (ns.take n) ≤ childrenCost ns := by
  calc childrenCost (ns.take n)
      ≤ childrenCost (ns.take n) + childrenCost (ns.drop n) := Nat.le_add_right _ _
    _ = childrenCost ns := by rw [← childrenCost_append, List.take_append_drop]

/-- One pass of the activation costs a poll of the source. -/
theorem affordable_turn {cost : α → ℕ} {k : ℕ} {s : MergeMapImpl α β}
    (h : Affordable budget cx cost k s) (hRoom : s.hasRoom = true) :
    ∃ j < k, (∃ t, activateTurn budget cx s = some (.again t) ∧ Affordable budget cx cost j t) ∨
      ∃ t, activateTurn budget cx s = some (.leave (.ok (), t)) ∧ Affordable budget cx cost j t := by
  obtain ⟨hMax, ns, n, hActive, hSource, rfl⟩ := h
  have hOpen : s.sourceDone = false := by
    simpa using (Bool.and_eq_true_iff.mp hRoom).1
  simp only [hOpen, Bool.false_eq_true, if_false] at hSource
  obtain ⟨m, ss, hRun, hCost, rfl⟩ := hSource
  generalize hLast : Ending.done = e at hRun
  cases hRun with
  | @final _ source r _ hPoll hEnd =>
      subst hLast
      cases r with
      | done =>
          refine ⟨childrenCost ns, by omega, Or.inr ⟨{ s with source, sourceDone := true }, ?_, ?_⟩⟩
          · unfold hasRoom at hRoom
            simp [activateTurn, hRoom, hPoll]
          · exact ⟨hMax, ns, 0, hActive, by simp, by simp⟩
      | _ => cases hEnd
  | @more m _ source r ss _ hPoll hMore hRest =>
      subst hLast
      have hLater : ∀ x ∈ ss.flatten, DoneIn budget cx (cost x) (s.fn x) := by
        intro x hx
        apply hCost x
        rw [List.flatten_append]
        exact List.mem_append_right _ hx
      cases r with
      | emit chunk =>
          rw [List.flatten_append, PollResult.flatten_groups_emit] at hCost
          have hAgain := activateTurn_emit hRoom hPoll
          generalize s.maxConcurrent - s.activeChildren.length = slots at hAgain
          have hNew : List.Forall₂ (fun child n => DoneIn budget cx n child)
              ((chunk.toList.take slots).map s.fn) ((chunk.toList.take slots).map cost) := by
            rw [List.forall₂_map_left_iff, List.forall₂_map_right_iff, List.forall₂_same]
            intro x hx
            exact hCost x (List.mem_append_left _ (List.mem_of_mem_take hx))
          have hLess := childrenCost_take_le (chunk.toList.map cost) slots
          rw [← List.map_take] at hLess
          refine ⟨_, ?_, Or.inl ⟨_, hAgain, hMax, ns ++ (chunk.toList.take slots).map cost,
            m + 1 + childrenCost (ss.flatten.map cost), List.rel_append hActive hNew, ?_, rfl⟩⟩
          · rw [List.flatten_append, PollResult.flatten_groups_emit, List.map_append,
              childrenCost_append, childrenCost_append]
            omega
          · simp only [hOpen, Bool.false_eq_true, if_false]
            exact ⟨m, ss, hRest, hLater, rfl⟩
      | pending =>
          refine ⟨m + 1 + childrenCost (ss.flatten.map cost) + childrenCost ns, ?_,
            Or.inr ⟨{ s with source }, ?_, hMax, ns, _, hActive, ?_, rfl⟩⟩
          · simp only [PollResult.groups, List.nil_append]
            omega
          · unfold hasRoom at hRoom
            simp [activateTurn, hRoom, hPoll]
          · simp only [hOpen, Bool.false_eq_true, if_false]
            exact ⟨m, ss, hRest, hLater, rfl⟩
      | yield =>
          refine ⟨m + 1 + childrenCost (ss.flatten.map cost) + childrenCost ns, ?_,
            Or.inr ⟨{ s with source }, ?_, hMax, ns, _, hActive, ?_, rfl⟩⟩
          · simp only [PollResult.groups, List.nil_append]
            omega
          · unfold hasRoom at hRoom
            simp [activateTurn, hRoom, hPoll]
          · simp only [hOpen, Bool.false_eq_true, if_false]
            exact ⟨m, ss, hRest, hLater, rfl⟩
      | done => cases hMore
      | error err => cases hMore

/-- The activation ends, after polls of the source unless there is no room. -/
theorem affordable_activation {cost : α → ℕ} {k : ℕ} {s : MergeMapImpl α β}
    (h : Affordable budget cx cost k s) :
    ∃ t j, Loop.run (activateTurn budget cx) s = some (.ok (), t) ∧
      Affordable budget cx cost j t ∧ (j < k ∨ j = k ∧ t = s ∧ s.hasRoom = false) := by
  induction k using Nat.strongRecOn generalizing s with
  | ind k ih =>
      cases hRoom : s.hasRoom with
      | false =>
          have hTurn : activateTurn budget cx s = some (.leave (.ok (), s)) := by
            unfold hasRoom at hRoom
            simp [activateTurn, hRoom]
          exact ⟨s, k, Loop.run_leave hTurn, h, Or.inr ⟨rfl, rfl, rfl⟩⟩
      | true =>
          obtain ⟨j, hLess, ⟨t, hTurn, hNext⟩ | ⟨t, hTurn, hNext⟩⟩ := affordable_turn h hRoom
          · obtain ⟨u, i, hRun, hLast, hMore⟩ := ih j hLess hNext
            rw [Loop.run_again hTurn]
            refine ⟨u, i, hRun, hLast, Or.inl ?_⟩
            rcases hMore with hMore | ⟨rfl, -, -⟩
            · exact hMore.trans hLess
            · exact hLess
          · exact ⟨t, j, Loop.run_leave hTurn, hNext, Or.inl hLess⟩

/-- Whoever is polled gets nearer to its end. -/
theorem affordable_children {active : List (AsyncStreamHandle β)} {ns : List ℕ}
    (h : List.Forall₂ (fun child n => DoneIn budget cx n child) active ns) :
    ∃ q active' ms, pollChildren budget cx active = some (q, active') ∧
      List.Forall₂ (fun child n => DoneIn budget cx n child) active' ms ∧
      (∀ e, q ≠ some (.error e)) ∧ childrenCost ms ≤ childrenCost ns ∧
      (active ≠ [] → childrenCost ms < childrenCost ns) := by
  induction h with
  | nil => exact ⟨none, [], [], rfl, .nil, by simp, Nat.le_refl _, by simp⟩
  | @cons child n rest ns hChild hRest ih =>
      obtain ⟨q, rest', ms, hPollRest, hRest', hQuiet, hLess, -⟩ := ih
      rcases doneIn_cases hChild with ⟨rfl, child', hPoll⟩ | ⟨m, r, child', rfl, hPoll, hMore, hChild'⟩
      · have hDrop : childrenCost ms < childrenCost (0 :: ns) := by
          rw [childrenCost_cons]
          omega
        exact ⟨q, rest', ms, by simpa [pollChildren, hPoll] using hPollRest, hRest', hQuiet,
          hDrop.le, fun _ => hDrop⟩
      · have hDrop : ∀ ms, childrenCost ms ≤ childrenCost ns →
            childrenCost (m :: ms) < childrenCost ((m + 1) :: ns) := by
          intro ms hLess
          rw [childrenCost_cons, childrenCost_cons]
          omega
        cases r with
        | emit chunk =>
            have hHere := hDrop ns (Nat.le_refl _)
            exact ⟨some (.emit chunk), child' :: rest, m :: ns, by simp [pollChildren, hPoll],
              .cons hChild' hRest, by simp, hHere.le, fun _ => hHere⟩
        | pending =>
            exact ⟨q, child' :: rest', m :: ms, by simp [pollChildren, hPoll, hPollRest],
              .cons hChild' hRest', hQuiet, (hDrop ms hLess).le, fun _ => hDrop ms hLess⟩
        | yield =>
            exact ⟨q, child' :: rest', m :: ms, by simp [pollChildren, hPoll, hPollRest],
              .cons hChild' hRest', hQuiet, (hDrop ms hLess).le, fun _ => hDrop ms hLess⟩
        | done => cases hMore
        | error e => cases hMore

/-- A poll is Done or leaves less to poll. -/
theorem affordable_poll {cost : α → ℕ} {k : ℕ} {s : MergeMapImpl α β}
    (h : Affordable budget cx cost k s) :
    ∃ r t, AsyncImpl.poll budget cx s = some (r, t) ∧
      (r.ending = some .done ∨ r.ending = none ∧ ∃ j < k, Affordable budget cx cost j t) := by
  obtain ⟨middle, j, hRun, hMiddle, hLess⟩ := affordable_activation h
  obtain ⟨hMax, ns, n, hActive, hSource, rfl⟩ := hMiddle
  obtain ⟨q, active, ms, hChildren, hActive', hQuiet, hCost, hDrop⟩ := affordable_children hActive
  have hNext : Affordable budget cx cost (n + childrenCost ms)
      { middle with activeChildren := active } := ⟨hMax, ms, n, hActive', hSource, rfl⟩
  -- Without a child to poll and without room, all is over.
  have hCheaper : (q = none → (active.isEmpty && middle.sourceDone) = false) →
      n + childrenCost ms < k := by
    intro hGoesOn
    by_cases hNone : middle.activeChildren = []
    · rcases hLess with hLess | ⟨-, rfl, hFull⟩
      · omega
      · have hDone : middle.sourceDone = true := by
          simpa [hasRoom, hNone, hMax] using hFull
        rw [hNone, pollChildren, Option.some.injEq, Prod.mk.injEq] at hChildren
        obtain ⟨rfl, rfl⟩ := hChildren
        simp [hDone] at hGoesOn
    · have hHere := hDrop hNone
      rcases hLess with hLess | ⟨hSame, -, -⟩
      · omega
      · omega
  cases q with
  | some q =>
      have hPoll : AsyncImpl.poll budget cx s = some (q, { middle with activeChildren := active }) := by
        show MergeMapImpl.poll budget cx s = _
        simp [MergeMapImpl.poll, hRun, hChildren]
      refine ⟨q, _, hPoll, Or.inr ⟨?_, _, hCheaper (by simp), hNext⟩⟩
      rcases pollChildren_answer hChildren with ⟨chunk, rfl⟩ | ⟨e, rfl⟩
      · rfl
      · exact absurd rfl (hQuiet e)
  | none =>
      have hPoll : AsyncImpl.poll budget cx s =
          some (if active.isEmpty && middle.sourceDone then .done else .pending,
            { middle with activeChildren := active }) := by
        show MergeMapImpl.poll budget cx s = _
        simp [MergeMapImpl.poll, hRun, hChildren]
      cases hOver : active.isEmpty && middle.sourceDone with
      | true =>
          rw [hOver, if_pos rfl] at hPoll
          exact ⟨.done, _, hPoll, Or.inl rfl⟩
      | false =>
          rw [hOver, if_neg Bool.false_ne_true] at hPoll
          exact ⟨.pending, _, hPoll, Or.inr ⟨rfl, _, hCheaper fun _ => hOver, hNext⟩⟩

theorem emits_of_affordable {cost : α → ℕ} {k : ℕ} {s : MergeMapImpl α β}
    (h : Affordable budget cx cost k s) :
    ∃ gs, Emits budget cx (makeAsyncStreamHandle s) gs .done := by
  induction k using Nat.strongRecOn generalizing s with
  | ind k ih =>
      obtain ⟨r, t, hPoll, hEnd | ⟨hMore, j, hLess, hNext⟩⟩ := affordable_poll h
      · exact ⟨[], Emits.make_final hPoll hEnd⟩
      · obtain ⟨gs, hRest⟩ := ih j hLess hNext
        exact ⟨r.groups ++ gs, Emits.make_more hPoll hMore hRest⟩

/-! ## Nothing is lost -/

variable {fn : α → AsyncStreamHandle β} {fates : Fates α β}

/-- What comes out of the children that are active is part of what all of them emit. -/
theorem length_outs_le {outs : List (List β)}
    (hFates : ∀ x l, (x, some l) ∈ fates → Denotes budget cx (fn x) l .done)
    (hOuts : List.Forall₂ (fun x l => Everything budget cx (fn x) l) (fates.map Prod.fst) outs) :
    fates.outs.flatten.length ≤ outs.flatten.length ∧
      (fates.outs.flatten.length = outs.flatten.length →
        ∀ x, (x, none) ∈ fates → Silent budget cx (fn x)) := by
  induction fates generalizing outs with
  | nil =>
      cases hOuts
      exact ⟨Nat.le_refl _, by simp⟩
  | cons fate fates ih =>
      obtain ⟨x, fate⟩ := fate
      cases hOuts with
      | @cons _ first _ outs hFirst hOthers =>
          obtain ⟨hLess, hSame⟩ :=
            ih (fun y l hy => hFates y l (List.mem_cons_of_mem _ hy)) hOthers
          cases fate with
          | some l =>
              have hHere := (hFates x l List.mem_cons_self).eq_of_everything hFirst
              subst hHere
              simp only [Fates.outs, List.map_cons, Option.getD_some, List.flatten_cons,
                List.length_append] at hLess hSame ⊢
              constructor
              · omega
              · intro hLength y hy
                apply hSame (by omega) y
                simpa using hy
          | none =>
              simp only [Fates.outs, List.map_cons, Option.getD_none, List.flatten_cons,
                List.nil_append, List.length_append] at hLess hSame ⊢
              constructor
              · omega
              · intro hLength y hy
                rcases List.mem_cons.mp hy with hHere | hy
                · obtain rfl := congrArg Prod.fst hHere
                  have hNone : first = [] := List.eq_nil_of_length_eq_zero (by omega)
                  rw [hNone] at hFirst
                  exact silent_iff_everything.mpr hFirst
                · exact hSame (by omega) y hy

theorem everything_of_fates
    (hFates : ∀ x l, (x, some l) ∈ fates → Denotes budget cx (fn x) l .done)
    (hSilent : ∀ x, (x, none) ∈ fates → Silent budget cx (fn x)) :
    List.Forall₂ (fun x l => Everything budget cx (fn x) l) (fates.map Prod.fst) fates.outs := by
  rw [Fates.outs, List.forall₂_map_left_iff, List.forall₂_map_right_iff, List.forall₂_same]
  rintro ⟨x, fate⟩ hMem
  cases fate with
  | some l => exact (hFates x l hMem).everything
  | none => exact silent_iff_everything.mp (hSilent x hMem)

end MergeMapImpl

variable (budget cx) in
/-- `out` is an interleaving of everything that the children of the elements emit. -/
def IsMerge (fn : α → AsyncStreamHandle β) (elems : List α) (out : List β) : Prop :=
  ∃ outs, List.Forall₂ (fun x l => Everything budget cx (fn x) l) elems outs ∧ Interleaves outs out

open MergeMapImpl in
/-- Up to Done, `merge_map` emits an interleaving of what all children emit exactly if in
every poll only silent children are beyond the free slots. It never has more active
children than it allows, and reaches Done where the source and the children do. -/
theorem mergeMap_merges_iff (budget : StreamBudget) (cx : TaskContext)
    (source : AsyncStreamHandle α) (fn : α → AsyncStreamHandle β) (maxConcurrent : ℕ) :
    (∀ out, Denotes budget cx (mergeMap source fn maxConcurrent) out .done →
      ∃ elems, Denotes budget cx source elems .done ∧
        (IsMerge budget cx fn elems out ↔
          AlwaysRoomy budget cx ⟨source, fn, [], maxConcurrent, false⟩)) ∧
    (∀ s t, Polled budget cx ⟨source, fn, [], maxConcurrent, false⟩ s →
      Activates budget cx s t → t.activeChildren.length ≤ maxConcurrent) ∧
    ∀ elems outs, 0 < maxConcurrent → Denotes budget cx source elems .done →
      List.Forall₂ (fun x l => Denotes budget cx (fn x) l .done) elems outs →
        ∃ out, Denotes budget cx (mergeMap source fn maxConcurrent) out .done := by
  refine ⟨?_, ?_, ?_⟩
  · rintro out ⟨gs, hEmits, rfl⟩
    obtain ⟨outs, ss, fates, hOuts, hSource, hElems, hFates, hInter, hRoom⟩ :=
      merging_of_emits hEmits rfl
    cases hOuts
    refine ⟨ss.flatten, ⟨ss, by simpa using hSource, rfl⟩, ?_⟩
    rw [hRoom, ← hElems]
    rw [List.nil_append] at hInter
    constructor
    · rintro ⟨outs, hOuts, hMerge⟩
      apply (length_outs_le hFates hOuts).2
      exact hInter.length_eq.symm.trans hMerge.length_eq
    · intro hSilent
      exact ⟨fates.outs, everything_of_fates hFates hSilent, hInter⟩
  · intro s t hPolled hActivates
    exact (bounded_polled ⟨rfl, Nat.zero_le _⟩ hPolled hActivates).2
  · rintro elems outs hMax ⟨ss, ⟨m, hSource⟩, rfl⟩ hOuts
    have hEach : ∀ x, ∃ n, x ∈ ss.flatten → DoneIn budget cx n (fn x) := by
      intro x
      by_cases hx : x ∈ ss.flatten
      · obtain ⟨l, hChild⟩ := exists_of_forall₂ hOuts hx
        obtain ⟨n, hDone⟩ := hChild.doneIn
        exact ⟨n, fun _ => hDone⟩
      · exact ⟨0, fun h => absurd h hx⟩
    choose cost hCost using hEach
    have hStart : Affordable budget cx cost (m + 1 + childrenCost (ss.flatten.map cost))
        ⟨source, fn, [], maxConcurrent, false⟩ :=
      ⟨hMax, [], _, .nil, ⟨m, ss, hSource, hCost, rfl⟩, rfl⟩
    obtain ⟨gs, hEmits⟩ := emits_of_affordable hStart
    exact ⟨gs.flatten, gs, hEmits, rfl⟩

/-- A chunk of two elements and one free slot: the second element is lost. -/
theorem mergeMap_drops_overflow :
    Denotes .unbounded ⟨0⟩ (toAsync (Stream.fromVector [1, 2])) [1, 2] .done ∧
    Denotes .unbounded ⟨0⟩
      (mergeMap (toAsync (Stream.fromVector [1, 2])) (fun x => toAsync (Stream.singleton x)) 1)
      [1] .done ∧
    ¬ IsMerge .unbounded ⟨0⟩ (fun x => toAsync (Stream.singleton x)) [1, 2] [1] := by
  have hChild : ∀ x : ℕ, Denotes .unbounded ⟨0⟩ (toAsync (Stream.singleton x)) [x] .done :=
    fun x => toAsync_denotes (Stream.singleton_denotes x)
  refine ⟨toAsync_denotes (.chunk (c := Chunk.from [1, 2]) rfl (.done rfl)), ?_, ?_⟩
  · let source := (toAsync (Stream.fromVector [1, 2])).after (.poll .unbounded ⟨0⟩)
    let child := (toAsync (Stream.singleton 1)).after (.poll .unbounded ⟨0⟩)
    let fn := fun x : ℕ => toAsync (Stream.singleton x)
    -- The child of 1 is activated and answers, then it is erased, then the source is over.
    have hFirst : AsyncImpl.poll .unbounded ⟨0⟩
        (⟨toAsync (Stream.fromVector [1, 2]), fn, [], 1, false⟩ : MergeMapImpl ℕ ℕ) =
          some (.emit (Chunk.singleton 1), ⟨source, fn, [child], 1, false⟩) := by
      have hAgain : MergeMapImpl.activateTurn .unbounded ⟨0⟩
          ⟨toAsync (Stream.fromVector [1, 2]), fn, [], 1, false⟩ =
            some (.again ⟨source, fn, [fn 1], 1, false⟩) := rfl
      have hLeave : MergeMapImpl.activateTurn .unbounded ⟨0⟩ ⟨source, fn, [fn 1], 1, false⟩ =
          some (.leave (.ok (), ⟨source, fn, [fn 1], 1, false⟩)) := rfl
      show MergeMapImpl.poll _ _ _ = _
      rw [MergeMapImpl.poll, Loop.run_again hAgain, Loop.run_leave hLeave]
      rfl
    have hSecond : AsyncImpl.poll .unbounded ⟨0⟩
        (⟨source, fn, [child], 1, false⟩ : MergeMapImpl ℕ ℕ) =
          some (.pending, ⟨source, fn, [], 1, false⟩) := by
      have hLeave : MergeMapImpl.activateTurn .unbounded ⟨0⟩ ⟨source, fn, [child], 1, false⟩ =
          some (.leave (.ok (), ⟨source, fn, [child], 1, false⟩)) := rfl
      show MergeMapImpl.poll _ _ _ = _
      rw [MergeMapImpl.poll, Loop.run_leave hLeave]
      rfl
    have hThird : ∃ s, AsyncImpl.poll .unbounded ⟨0⟩
        (⟨source, fn, [], 1, false⟩ : MergeMapImpl ℕ ℕ) = some (.done, s) := by
      have hLeave : MergeMapImpl.activateTurn .unbounded ⟨0⟩ ⟨source, fn, [], 1, false⟩ =
          some (.leave (.ok (), ⟨source.after (.poll .unbounded ⟨0⟩), fn, [], 1, true⟩)) := rfl
      refine ⟨⟨source.after (.poll .unbounded ⟨0⟩), fn, [], 1, true⟩, ?_⟩
      show MergeMapImpl.poll _ _ _ = _
      rw [MergeMapImpl.poll, Loop.run_leave hLeave]
      rfl
    obtain ⟨s, hThird⟩ := hThird
    have hEmits := Emits.make_more hFirst rfl
      (Emits.make_more hSecond rfl (Emits.make_final hThird rfl))
    exact ⟨_, hEmits, rfl⟩
  · rintro ⟨outs, _ | ⟨hFirst, _ | ⟨hSecond, _⟩⟩, hMerge⟩
    rw [(hChild 1).eq_of_everything hFirst, (hChild 2).eq_of_everything hSecond] at hMerge
    have hLength := hMerge.length_eq
    cases hLength

end CelerMem.Async
