import CelerMem.Core.MergeMap

/-! `par_eval` up to Done: an interleaving of what the sources emit up to their Done. -/
namespace CelerMem.Async

open Interleaving Relation

variable {α : Type} {budget : StreamBudget} {cx : TaskContext}

variable (budget cx) in
/-- Polls, whatever they answer. -/
def Polls : AsyncStreamHandle α → AsyncStreamHandle α → Prop :=
  ReflTransGen fun h h' => ∃ r, h.poll budget cx = some (r, h')

namespace ParEvalImpl

/-! ## One source of a round -/

section Turns
variable {left : ℕ} {s : ParEvalImpl α} {source next : AsyncStreamHandle α} {q : PollResult α}

theorem scan_flagged (hSlot : s.slots[s.nextIdx % s.slots.length]? = some (source, true)) :
    scan budget cx (left + 1) s = scan budget cx left ⟨s.slots, s.nextIdx + 1⟩ := by
  simp [scan, hSlot]

theorem scan_finished (hSlot : s.slots[s.nextIdx % s.slots.length]? = some (source, false))
    (hPoll : source.poll budget cx = some (.done, next)) :
    scan budget cx (left + 1) s = scan budget cx left
      ⟨s.slots.set (s.nextIdx % s.slots.length) (next, true), s.nextIdx + 1⟩ := by
  simp [scan, hSlot, hPoll]

theorem scan_idle (hSlot : s.slots[s.nextIdx % s.slots.length]? = some (source, false))
    (hPoll : source.poll budget cx = some (q, next)) (hIdle : q = .pending ∨ q = .yield) :
    scan budget cx (left + 1) s = scan budget cx left
      ⟨s.slots.set (s.nextIdx % s.slots.length) (next, false), s.nextIdx + 1⟩ := by
  rcases hIdle with rfl | rfl
  · simp [scan, hSlot, hPoll]
  · simp [scan, hSlot, hPoll]

theorem scan_answered (hSlot : s.slots[s.nextIdx % s.slots.length]? = some (source, false))
    (hPoll : source.poll budget cx = some (q, next))
    (hAnswer : (∃ chunk, q = .emit chunk) ∨ ∃ e, q = .error e) :
    scan budget cx (left + 1) s =
      some (q, ⟨s.slots.set (s.nextIdx % s.slots.length) (next, false), s.nextIdx + 1⟩) := by
  rcases hAnswer with ⟨chunk, rfl⟩ | ⟨e, rfl⟩
  · simp [scan, hSlot, hPoll]
  · simp [scan, hSlot, hPoll]

end Turns

/-- What trying one source makes of the rest of a round: its slot was flagged already, or the
source answers for all, has nothing now, or is done and flagged. -/
inductive Tries (budget : StreamBudget) (cx : TaskContext) (left : ℕ) (s : ParEvalImpl α)
    (r : PollResult α) (t : ParEvalImpl α) : Prop where
  | flagged {source : AsyncStreamHandle α}
      (hSlot : s.slots[s.nextIdx % s.slots.length]? = some (source, true))
      (hRest : scan budget cx left ⟨s.slots, s.nextIdx + 1⟩ = some (r, t)) :
      Tries budget cx left s r t
  | answered {source next : AsyncStreamHandle α}
      (hSlot : s.slots[s.nextIdx % s.slots.length]? = some (source, false))
      (hPoll : source.poll budget cx = some (r, next)) (hAnswer : r ≠ .done)
      (hLast : t = ⟨s.slots.set (s.nextIdx % s.slots.length) (next, false), s.nextIdx + 1⟩) :
      Tries budget cx left s r t
  | idle {source next : AsyncStreamHandle α} {q : PollResult α}
      (hSlot : s.slots[s.nextIdx % s.slots.length]? = some (source, false))
      (hPoll : source.poll budget cx = some (q, next)) (hMore : q.ending = none)
      (hNone : q.groups = [])
      (hRest : scan budget cx left
        ⟨s.slots.set (s.nextIdx % s.slots.length) (next, false), s.nextIdx + 1⟩ = some (r, t)) :
      Tries budget cx left s r t
  | done {source next : AsyncStreamHandle α}
      (hSlot : s.slots[s.nextIdx % s.slots.length]? = some (source, false))
      (hPoll : source.poll budget cx = some (.done, next))
      (hRest : scan budget cx left
        ⟨s.slots.set (s.nextIdx % s.slots.length) (next, true), s.nextIdx + 1⟩ = some (r, t)) :
      Tries budget cx left s r t

theorem scan_tries {left : ℕ} {s t : ParEvalImpl α} {r : PollResult α}
    (hScan : scan budget cx (left + 1) s = some (r, t)) : Tries budget cx left s r t := by
  cases hSlot : s.slots[s.nextIdx % s.slots.length]? with
  | none => simp [scan, hSlot] at hScan
  | some slot =>
      obtain ⟨source, done⟩ := slot
      cases done with
      | true => exact .flagged hSlot (by rwa [scan_flagged hSlot] at hScan)
      | false =>
          have hAnswered : ∀ {q next}, source.poll budget cx = some (q, next) → q ≠ .done →
              ((∃ chunk, q = .emit chunk) ∨ ∃ e, q = .error e) → Tries budget cx left s r t := by
            intro q next hPoll hNotDone hAnswer
            rw [scan_answered hSlot hPoll hAnswer] at hScan
            obtain ⟨rfl, hLast⟩ := Prod.mk.inj (Option.some.inj hScan)
            exact .answered hSlot hPoll hNotDone hLast.symm
          cases hPoll : source.poll budget cx with
          | none => simp [scan, hSlot, hPoll] at hScan
          | some p =>
              obtain ⟨q, next⟩ := p
              cases q with
              | emit chunk => exact hAnswered hPoll (by simp) (Or.inl ⟨chunk, rfl⟩)
              | pending =>
                  rw [scan_idle hSlot hPoll (Or.inl rfl)] at hScan
                  exact .idle hSlot hPoll rfl rfl hScan
              | yield =>
                  rw [scan_idle hSlot hPoll (Or.inr rfl)] at hScan
                  exact .idle hSlot hPoll rfl rfl hScan
              | done => exact .done hSlot hPoll (by rwa [scan_finished hSlot hPoll] at hScan)
              | error e => exact hAnswered hPoll (by simp) (Or.inr ⟨e, rfl⟩)

/-! ## What the slots still emit -/

variable (budget cx) in
/-- A slot brings what its source brings up to Done, and nothing once it is flagged. -/
def Remains (slot : AsyncStreamHandle α × Bool) (l : List α) : Prop :=
  if slot.2 then l = [] else Denotes budget cx slot.1 l .done

variable (budget cx) in
/-- `out` is an interleaving of what the slots still bring. -/
def Merging (slots : List (AsyncStreamHandle α × Bool)) (out : List α) : Prop :=
  ∃ outs, List.Forall₂ (Remains budget cx) slots outs ∧ Interleaves outs out

/-- One slot brings some items before the merge goes on. -/
theorem merging_set {slots : List (AsyncStreamHandle α × Bool)} {i : ℕ}
    {slot next : AsyncStreamHandle α × Bool} {items out : List α} (hSlot : slots[i]? = some slot)
    (hStep : ∀ l, Remains budget cx next l → Remains budget cx slot (items ++ l))
    (h : Merging budget cx (slots.set i next) out) : Merging budget cx slots (items ++ out) := by
  obtain ⟨pre, post, rfl, hSet⟩ := exists_set_eq hSlot
  obtain ⟨outs, hOuts, hMerged⟩ := h
  rw [hSet] at hOuts
  obtain ⟨before, behind, rfl, hBefore, hBehind⟩ := forall₂_append_left hOuts
  cases hBehind with
  | @cons _ l _ behind hHere hBehind =>
      refine ⟨before ++ (items ++ l) :: behind, ?_, hMerged.prepend items⟩
      exact List.rel_append hBefore (.cons (hStep l hHere) hBehind)

theorem merging_scan {left : ℕ} {s t : ParEvalImpl α} {r : PollResult α} {out : List α}
    (hScan : scan budget cx left s = some (r, t)) (hFine : ∀ e, r ≠ .error e)
    (h : Merging budget cx t.slots out) : Merging budget cx s.slots (r.groups.flatten ++ out) := by
  induction left generalizing s with
  | zero =>
      rw [scan, Option.some.injEq, Prod.mk.injEq] at hScan
      obtain ⟨rfl, rfl⟩ := hScan
      cases hAll : s.slots.all Prod.snd with
      | true => exact h
      | false => exact h
  | succ left ih =>
      cases scan_tries hScan with
      | flagged hSlot hRest =>
          have hAll := ih hRest
          exact hAll
      | @answered source next hSlot hPoll hAnswer hLast =>
          rw [hLast] at h
          have hMore : r.ending = none := by
            cases r with
            | done => exact absurd rfl hAnswer
            | error e => exact absurd rfl (hFine e)
            | emit | pending | yield => rfl
          have hItems : ∀ l, Remains budget cx (next, false) l →
              Remains budget cx (source, false) (r.groups.flatten ++ l) := by
            intro l hNext
            exact Denotes.of_more hPoll hMore hNext
          exact merging_set hSlot hItems h
      | @idle source next q hSlot hPoll hMore hNone hRest =>
          have hIdle : ∀ l, Remains budget cx (next, false) l →
              Remains budget cx (source, false) ([] ++ l) := by
            intro l hNext
            have hWhole := Denotes.of_more hPoll hMore hNext
            rw [hNone] at hWhole
            exact hWhole
          have hHere := merging_set hSlot hIdle (ih hRest)
          exact hHere
      | @done source next hSlot hPoll hRest =>
          have hOver : ∀ l, Remains budget cx (next, true) l →
              Remains budget cx (source, false) ([] ++ l) := by
            rintro l rfl
            exact Denotes.of_done hPoll
          have hHere := merging_set hSlot hOver (ih hRest)
          exact hHere

/-- Done comes from the flags alone. -/
theorem scan_done {left : ℕ} {s t : ParEvalImpl α}
    (hScan : scan budget cx left s = some (.done, t)) : t.slots.all Prod.snd = true := by
  induction left generalizing s with
  | zero =>
      rw [scan, Option.some.injEq, Prod.mk.injEq] at hScan
      obtain ⟨hAnswer, rfl⟩ := hScan
      by_contra hNot
      rw [if_neg hNot] at hAnswer
      cases hAnswer
  | succ left ih =>
      cases scan_tries hScan with
      | flagged hSlot hRest => exact ih hRest
      | answered hSlot hPoll hAnswer hLast => exact absurd rfl hAnswer
      | idle hSlot hPoll hMore hNone hRest => exact ih hRest
      | done hSlot hPoll hRest => exact ih hRest

theorem poll_eq_scan (s : ParEvalImpl α) :
    poll budget cx s = scan budget cx s.slots.length s := by
  cases hSlots : s.slots with
  | nil => simp [poll, scan, hSlots]
  | cons slot slots => simp [poll, hSlots]

/-- Flagged slots bring nothing more. -/
theorem merging_over {slots : List (AsyncStreamHandle α × Bool)}
    (hAll : slots.all Prod.snd = true) : Merging budget cx slots [] := by
  refine ⟨slots.map fun _ => [], ?_, .nil (by simp)⟩
  rw [List.forall₂_map_right_iff, List.forall₂_same]
  intro slot hSlot
  rw [Remains, if_pos (List.all_eq_true.mp hAll slot hSlot)]

theorem merging_of_emits {s : ParEvalImpl α} {gs : List (List α)} {e : Ending}
    (h : Emits budget cx (makeAsyncStreamHandle s) gs e) (hDone : e = .done) :
    Merging budget cx s.slots gs.flatten := by
  obtain ⟨n, h⟩ := h
  apply EmitsIn.make_induction
    (motive := fun _ (s : ParEvalImpl α) gs e => e = .done →
      Merging budget cx s.slots gs.flatten) _ _ h hDone
  · intro s t r e hPoll hEnd hDone
    have hLast : r = .done := by
      cases r <;> simp_all [PollResult.ending]
    subst hLast
    have hScan : scan budget cx s.slots.length s = some (.done, t) :=
      (poll_eq_scan s).symm.trans hPoll
    have hOver : Merging budget cx t.slots [] := merging_over (scan_done hScan)
    exact merging_scan hScan (by simp) hOver
  · intro n s t r gs e hPoll hMore ih hDone
    have hScan : scan budget cx s.slots.length s = some (r, t) := (poll_eq_scan s).symm.trans hPoll
    rw [List.flatten_append]
    apply merging_scan hScan _ (ih hDone)
    rintro err rfl
    cases hMore

/-! ## Where the sources are -/

variable (budget cx) in
/-- The slot holds the source after some polls, the last of which answered Done if the
slot is flagged. -/
def Tracks (slot : AsyncStreamHandle α × Bool) (source : AsyncStreamHandle α) : Prop :=
  Polls budget cx source slot.1 ∧
    (slot.2 = true → ∃ h, Polls budget cx source h ∧ h.poll budget cx = some (.done, slot.1))

theorem tracks_set {slots : List (AsyncStreamHandle α × Bool)} {sources : List (AsyncStreamHandle α)}
    {i : ℕ} {h h' : AsyncStreamHandle α} {r : PollResult α} {done : Bool}
    (hSlots : List.Forall₂ (Tracks budget cx) slots sources) (hSlot : slots[i]? = some (h, false))
    (hPoll : h.poll budget cx = some (r, h')) (hDone : done = true → r = .done) :
    List.Forall₂ (Tracks budget cx) (slots.set i (h', done)) sources := by
  obtain ⟨pre, post, rfl, hSet⟩ := exists_set_eq hSlot
  obtain ⟨before, behind, rfl, hBefore, hBehind⟩ := forall₂_append_left hSlots
  rw [hSet]
  cases hBehind with
  | @cons _ source _ behind hHere hBehind =>
      refine List.rel_append hBefore (.cons ⟨hHere.1.tail ⟨r, hPoll⟩, ?_⟩ hBehind)
      intro hFlag
      rw [hDone hFlag] at hPoll
      exact ⟨h, hHere.1, hPoll⟩

theorem tracks_scan {left : ℕ} {s t : ParEvalImpl α} {r : PollResult α}
    {sources : List (AsyncStreamHandle α)} (hScan : scan budget cx left s = some (r, t))
    (h : List.Forall₂ (Tracks budget cx) s.slots sources) :
    List.Forall₂ (Tracks budget cx) t.slots sources := by
  induction left generalizing s with
  | zero =>
      rw [scan, Option.some.injEq, Prod.mk.injEq] at hScan
      exact hScan.2 ▸ h
  | succ left ih =>
      cases scan_tries hScan with
      | flagged hSlot hRest => exact ih hRest h
      | answered hSlot hPoll hAnswer hLast =>
          rw [hLast]
          exact tracks_set h hSlot hPoll fun hFlag => absurd hFlag Bool.false_ne_true
      | idle hSlot hPoll hMore hNone hRest =>
          exact ih hRest (tracks_set h hSlot hPoll fun hFlag => absurd hFlag Bool.false_ne_true)
      | done hSlot hPoll hRest => exact ih hRest (tracks_set h hSlot hPoll fun _ => rfl)

theorem tracks_polls {s : ParEvalImpl α} {h : AsyncStreamHandle α}
    {sources : List (AsyncStreamHandle α)} (hPolls : Polls budget cx (makeAsyncStreamHandle s) h)
    (hStart : List.Forall₂ (Tracks budget cx) s.slots sources) :
    ∃ t : ParEvalImpl α, h = makeAsyncStreamHandle t ∧
      List.Forall₂ (Tracks budget cx) t.slots sources := by
  induction hPolls with
  | refl => exact ⟨s, rfl, hStart⟩
  | tail _ hLast ih =>
      obtain ⟨t, rfl, hTracks⟩ := ih
      obtain ⟨r, hLast⟩ := hLast
      obtain ⟨u, hPoll, rfl⟩ := make_poll_inv hLast
      have hScan : scan budget cx t.slots.length t = some (r, u) := (poll_eq_scan t).symm.trans hPoll
      exact ⟨u, rfl, tracks_scan hScan hTracks⟩

/-! ## Done is reached -/

variable (budget cx) in
/-- The polls that a slot needs until it is flagged. -/
def SlotCost (slot : AsyncStreamHandle α × Bool) (n : ℕ) : Prop :=
  if slot.2 then n = 0 else ∃ m, n = m + 1 ∧ DoneIn budget cx m slot.1

theorem slotCost_set {slots : List (AsyncStreamHandle α × Bool)} {ns : List ℕ} {i : ℕ}
    {source : AsyncStreamHandle α} (h : List.Forall₂ (SlotCost budget cx) slots ns)
    (hSlot : slots[i]? = some (source, false)) :
    ∃ m, DoneIn budget cx m source ∧ ∀ next n, SlotCost budget cx next n → n ≤ m →
      ∃ ms, List.Forall₂ (SlotCost budget cx) (slots.set i next) ms ∧ ms.sum < ns.sum := by
  obtain ⟨pre, post, rfl, hSet⟩ := exists_set_eq hSlot
  obtain ⟨before, behind, rfl, hBefore, hBehind⟩ := forall₂_append_left h
  cases hBehind with
  | @cons _ cost _ behind hHere hBehind =>
      obtain ⟨m, rfl, hDone⟩ : ∃ m, cost = m + 1 ∧ DoneIn budget cx m source := hHere
      refine ⟨m, hDone, ?_⟩
      intro next n hNext hLess
      rw [hSet]
      refine ⟨before ++ n :: behind, List.rel_append hBefore (.cons hNext hBehind), ?_⟩
      simp only [List.sum_append, List.sum_cons]
      omega

/-- The slots that a round with `left` sources to try comes by are flagged. -/
def AllFlagged (left : ℕ) (s : ParEvalImpl α) : Prop :=
  ∀ i < left, ∃ source, s.slots[(s.nextIdx + i) % s.slots.length]? = some (source, true)

/-- A round brings a source nearer to its Done, unless all that it tries are flagged. -/
theorem exists_scan (left : ℕ) {s : ParEvalImpl α} {ns : List ℕ} (hSome : s.slots ≠ [])
    (h : List.Forall₂ (SlotCost budget cx) s.slots ns) :
    ∃ r t ms, scan budget cx left s = some (r, t) ∧
      List.Forall₂ (SlotCost budget cx) t.slots ms ∧
      (r.ending = some .done ∨ r.ending = none) ∧
      (ms.sum < ns.sum ∨ ms = ns ∧ AllFlagged left s ∧ t.slots = s.slots) := by
  induction left generalizing s ns with
  | zero =>
      refine ⟨_, s, ns, rfl, h, ?_, Or.inr ⟨rfl, by simp [AllFlagged], rfl⟩⟩
      cases s.slots.all Prod.snd with
      | true => exact Or.inl rfl
      | false => exact Or.inr rfl
  | succ left ih =>
      have hIdx : s.nextIdx % s.slots.length < s.slots.length :=
        Nat.mod_lt _ (List.length_pos_iff.mpr hSome)
      obtain ⟨source, done, hSlot⟩ : ∃ source done,
          s.slots[s.nextIdx % s.slots.length]? = some (source, done) :=
        ⟨_, _, List.getElem?_eq_getElem hIdx⟩
      cases done with
      | true =>
          have hNext : List.Forall₂ (SlotCost budget cx)
              ({ s with nextIdx := s.nextIdx + 1 } : ParEvalImpl α).slots ns := h
          obtain ⟨r, t, ms, hScan, hCosts, hEnd, hLess⟩ :=
            ih (s := { s with nextIdx := s.nextIdx + 1 }) hSome hNext
          refine ⟨r, t, ms, (scan_flagged hSlot).trans hScan, hCosts, hEnd, ?_⟩
          rcases hLess with hLess | ⟨hSame, hFlags, hSlots⟩
          · exact Or.inl hLess
          · refine Or.inr ⟨hSame, ?_, hSlots⟩
            intro i hi
            cases i with
            | zero => exact ⟨source, hSlot⟩
            | succ i =>
                obtain ⟨other, hOther⟩ := hFlags i (Nat.lt_of_succ_lt_succ hi)
                rw [Nat.add_assoc, Nat.add_comm 1] at hOther
                exact ⟨other, hOther⟩
      | false =>
          obtain ⟨m, hDone, hCheaper⟩ := slotCost_set h hSlot
          -- Whatever the source answers, it is cheaper afterwards.
          have hGoOn : ∀ next done n, SlotCost budget cx (next, done) n → n ≤ m →
              ∃ r t ms, scan budget cx left
                ⟨s.slots.set (s.nextIdx % s.slots.length) (next, done), s.nextIdx + 1⟩ = some (r, t) ∧
                List.Forall₂ (SlotCost budget cx) t.slots ms ∧
                (r.ending = some .done ∨ r.ending = none) ∧ ms.sum < ns.sum := by
            intro next done n hCost hLess
            obtain ⟨costs, hCosts, hSum⟩ := hCheaper (next, done) n hCost hLess
            have hStill : (⟨s.slots.set (s.nextIdx % s.slots.length) (next, done),
                s.nextIdx + 1⟩ : ParEvalImpl α).slots ≠ [] := by
              simpa using hSome
            obtain ⟨r, t, ms, hScan, hAll, hEnd, hRest⟩ := ih hStill hCosts
            refine ⟨r, t, ms, hScan, hAll, hEnd, ?_⟩
            rcases hRest with hRest | ⟨rfl, -, -⟩
            · exact hRest.trans hSum
            · exact hSum
          rcases doneIn_cases hDone with ⟨rfl, next, hPoll⟩ | ⟨n, q, next, rfl, hPoll, hMore, hNext⟩
          · obtain ⟨r, t, ms, hScan, hAll, hEnd, hSum⟩ := hGoOn next true 0 rfl (Nat.le_refl 0)
            exact ⟨r, t, ms, (scan_finished hSlot hPoll).trans hScan, hAll, hEnd, Or.inl hSum⟩
          · have hCost : SlotCost budget cx (next, false) (n + 1) := ⟨n, rfl, hNext⟩
            obtain ⟨r, t, ms, hScan, hAll, hEnd, hSum⟩ :=
              hGoOn next false (n + 1) hCost (Nat.le_refl _)
            cases q with
            | emit chunk =>
                obtain ⟨ms, hAll, hSum⟩ := hCheaper (next, false) (n + 1) hCost (Nat.le_refl _)
                exact ⟨_, _, ms, scan_answered hSlot hPoll (Or.inl ⟨chunk, rfl⟩), hAll, Or.inr rfl,
                  Or.inl hSum⟩
            | pending =>
                exact ⟨r, t, ms, (scan_idle hSlot hPoll (Or.inl rfl)).trans hScan, hAll, hEnd,
                  Or.inl hSum⟩
            | yield =>
                exact ⟨r, t, ms, (scan_idle hSlot hPoll (Or.inr rfl)).trans hScan, hAll, hEnd,
                  Or.inl hSum⟩
            | done => cases hMore
            | error e => cases hMore

/-- A whole round comes by every slot. -/
theorem all_of_allFlagged {s : ParEvalImpl α} (h : AllFlagged s.slots.length s) :
    s.slots.all Prod.snd = true := by
  rw [List.all_eq_true]
  intro slot hMem
  obtain ⟨j, hj, rfl⟩ := List.getElem_of_mem hMem
  have hIdx : s.nextIdx % s.slots.length < s.slots.length := Nat.mod_lt _ (by omega)
  -- The distance to `j`, round the end of the slots.
  generalize hDistance : (j + (s.slots.length - s.nextIdx % s.slots.length)) % s.slots.length = i
  have hi : i < s.slots.length := hDistance ▸ Nat.mod_lt _ (by omega)
  have hRound : (s.nextIdx + i) % s.slots.length = j := by
    calc (s.nextIdx + i) % s.slots.length
        = (s.nextIdx % s.slots.length +
            (j + (s.slots.length - s.nextIdx % s.slots.length))) % s.slots.length := by
          rw [← hDistance, Nat.add_mod_mod, Nat.mod_add_mod]
      _ = (j + s.slots.length) % s.slots.length := by
          congr 1
          omega
      _ = j := by rw [Nat.add_mod_right, Nat.mod_eq_of_lt hj]
  obtain ⟨source, hSlot⟩ := h i hi
  rw [hRound, List.getElem?_eq_getElem hj, Option.some.injEq] at hSlot
  rw [hSlot]

theorem scan_of_all (left : ℕ) {s : ParEvalImpl α} (hAll : s.slots.all Prod.snd = true)
    (hSome : s.slots ≠ []) : ∃ t, scan budget cx left s = some (.done, t) := by
  induction left generalizing s with
  | zero => exact ⟨s, by rw [scan, if_pos hAll]⟩
  | succ left ih =>
      have hIdx : s.nextIdx % s.slots.length < s.slots.length :=
        Nat.mod_lt _ (List.length_pos_iff.mpr hSome)
      have hFlag := List.all_eq_true.mp hAll _ (List.getElem_mem hIdx)
      obtain ⟨source, hSlot⟩ : ∃ source,
          s.slots[s.nextIdx % s.slots.length]? = some (source, true) := by
        refine ⟨s.slots[s.nextIdx % s.slots.length].1, ?_⟩
        rw [List.getElem?_eq_getElem hIdx, ← hFlag]
      obtain ⟨t, hScan⟩ := ih (s := { s with nextIdx := s.nextIdx + 1 }) hAll hSome
      exact ⟨t, by simpa [scan, hSlot] using hScan⟩

theorem emits_of_cost {k : ℕ} {s : ParEvalImpl α} {ns : List ℕ}
    (h : List.Forall₂ (SlotCost budget cx) s.slots ns) (hCost : ns.sum = k) :
    ∃ gs, Emits budget cx (makeAsyncStreamHandle s) gs .done := by
  induction k using Nat.strongRecOn generalizing s ns with
  | ind k ih =>
      by_cases hNone : s.slots = []
      · have hPoll : AsyncImpl.poll budget cx s = some (.done, s) := by
          show poll budget cx s = _
          simp [poll, hNone]
        exact ⟨[], Emits.make_final hPoll rfl⟩
      · obtain ⟨r, t, ms, hScan, hCosts, hEnd, hLess⟩ := exists_scan s.slots.length hNone h
        have hPoll : AsyncImpl.poll budget cx s = some (r, t) := (poll_eq_scan s).trans hScan
        rcases hEnd with hEnd | hMore
        · exact ⟨[], Emits.make_final hPoll hEnd⟩
        · rcases hLess with hLess | ⟨-, hFlags, -⟩
          · obtain ⟨gs, hRest⟩ := ih ms.sum (hCost ▸ hLess) hCosts rfl
            exact ⟨r.groups ++ gs, Emits.make_more hPoll hMore hRest⟩
          · have hAll : s.slots.all Prod.snd = true := all_of_allFlagged hFlags
            have hRound : ∃ u, scan budget cx s.slots.length s = some (.done, u) :=
              scan_of_all s.slots.length hAll hNone
            obtain ⟨u, hOver⟩ := hRound
            rw [hScan, Option.some.injEq, Prod.mk.injEq] at hOver
            rw [hOver.1] at hMore
            cases hMore

end ParEvalImpl

/-- Up to Done, `par_eval` emits an interleaving of the outputs of the sources. It answers
Done only when it holds each source as its Done left it, and it does reach Done where all
sources do. -/
theorem parEval_merges (budget : StreamBudget) (cx : TaskContext)
    (sources : List (AsyncStreamHandle α)) :
    (∀ out, Denotes budget cx (parEval sources) out .done →
      ∃ outs, List.Forall₂ (fun source l => Denotes budget cx source l .done) sources outs ∧
        Interleaves outs out) ∧
    (∀ h h', Polls budget cx (parEval sources) h → h.poll budget cx = some (.done, h') →
      ∃ s : ParEvalImpl α, h' = makeAsyncStreamHandle s ∧
        List.Forall₂ (fun slot source => slot.2 = true ∧
          ∃ last, Polls budget cx source last ∧ last.poll budget cx = some (.done, slot.1))
          s.slots sources) ∧
    ∀ outs, List.Forall₂ (fun source l => Denotes budget cx source l .done) sources outs →
      ∃ out, Denotes budget cx (parEval sources) out .done := by
  refine ⟨?_, ?_, ?_⟩
  · rintro out ⟨gs, hEmits, rfl⟩
    obtain ⟨outs, hOuts, hMerged⟩ := ParEvalImpl.merging_of_emits hEmits rfl
    rw [List.forall₂_map_left_iff] at hOuts
    exact ⟨outs, hOuts, hMerged⟩
  · intro h h' hPolls hPoll
    have hStart : List.Forall₂ (ParEvalImpl.Tracks budget cx)
        (sources.map fun source => (source, false)) sources := by
      rw [List.forall₂_map_left_iff, List.forall₂_same]
      intro source _
      exact ⟨.refl, by simp⟩
    obtain ⟨s, rfl, hTracks⟩ := ParEvalImpl.tracks_polls hPolls hStart
    obtain ⟨t, hState, rfl⟩ := make_poll_inv hPoll
    have hScan : ParEvalImpl.scan budget cx s.slots.length s = some (.done, t) :=
      (ParEvalImpl.poll_eq_scan s).symm.trans hState
    have hAll := List.all_eq_true.mp (ParEvalImpl.scan_done hScan)
    have hBoth := (List.forall₂_and_left (R := ParEvalImpl.Tracks budget cx) _ _).mpr
      ⟨hAll, ParEvalImpl.tracks_scan hScan hTracks⟩
    refine ⟨t, rfl, hBoth.imp ?_⟩
    rintro slot source ⟨hFlag, -, hLast⟩
    exact ⟨hFlag, hLast hFlag⟩
  · intro outs hOuts
    have hCosts : ∃ ns, List.Forall₂ (ParEvalImpl.SlotCost budget cx)
        (sources.map fun source => (source, false)) ns := by
      induction hOuts with
      | nil => exact ⟨[], .nil⟩
      | cons hSource _ ih =>
          obtain ⟨n, hDone⟩ := hSource.doneIn
          obtain ⟨ns, hRest⟩ := ih
          exact ⟨(n + 1) :: ns, .cons ⟨n, rfl, hDone⟩ hRest⟩
    obtain ⟨ns, hCosts⟩ := hCosts
    obtain ⟨gs, hEmits⟩ := ParEvalImpl.emits_of_cost
      (s := ⟨sources.map fun source => (source, false), 0⟩) hCosts rfl
    exact ⟨gs.flatten, gs, hEmits, rfl⟩

end CelerMem.Async
