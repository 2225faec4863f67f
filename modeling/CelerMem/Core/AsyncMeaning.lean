import CelerMem.Core.AsyncStream
import CelerMem.Core.Meaning

/-! What an async stream brings when it is polled again and again: the chunks with
something in them, as lists, and the way it ends. Pending, yield and empty chunks leave
no trace in it. All polls are under one budget, whichever that is. -/
namespace CelerMem.Async

variable {α β Impl : Type}

namespace PollResult

/-- How the stream ended, if it did. -/
def ending : PollResult α → Option Ending
  | .done => some .done
  | .error e => some (.error e)
  | _ => none

/-- The elements of a chunk that has any. -/
def groups : PollResult α → List (List α)
  | .emit chunk => if chunk.toList.isEmpty then [] else [chunk.toList]
  | _ => []

theorem ne_nil_of_mem_groups {r : PollResult α} {g : List α} (h : g ∈ r.groups) : g ≠ [] := by
  cases r with
  | emit chunk =>
      cases hList : chunk.toList with
      | nil => simp [groups, hList] at h
      | cons a l => simp_all [groups]
  | pending => simp [groups] at h
  | yield => simp [groups] at h
  | done => simp [groups] at h
  | error e => simp [groups] at h

theorem flatten_groups_emit (chunk : Chunk α) :
    (PollResult.emit chunk).groups.flatten = chunk.toList := by
  cases h : chunk.toList with
  | nil => simp [groups, h]
  | cons a l => simp [groups, h]

end PollResult

variable (budget : StreamBudget) (cx : TaskContext)

/-- After `n` polls that bring the groups, the next one brings the ending. -/
inductive EmitsIn : ℕ → AsyncStreamHandle α → List (List α) → Ending → Prop where
  | final {h h' : AsyncStreamHandle α} {r : PollResult α} {e : Ending}
      (hPoll : h.poll budget cx = some (r, h')) (hEnd : r.ending = some e) : EmitsIn 0 h [] e
  | more {n : ℕ} {h h' : AsyncStreamHandle α} {r : PollResult α} {gs : List (List α)} {e : Ending}
      (hPoll : h.poll budget cx = some (r, h')) (hMore : r.ending = none)
      (rest : EmitsIn n h' gs e) : EmitsIn (n + 1) h (r.groups ++ gs) e

def Emits (h : AsyncStreamHandle α) (gs : List (List α)) (e : Ending) : Prop :=
  ∃ n, EmitsIn budget cx n h gs e

/-- The items up to the ending, and the ending. -/
def Denotes (h : AsyncStreamHandle α) (l : List α) (e : Ending) : Prop :=
  ∃ gs, Emits budget cx h gs e ∧ gs.flatten = l

/-- Finitely many polls, none of them the last, that bring the groups. -/
inductive Reaches : AsyncStreamHandle α → List (List α) → AsyncStreamHandle α → Prop where
  | refl (h : AsyncStreamHandle α) : Reaches h [] h
  | more {h h' k : AsyncStreamHandle α} {r : PollResult α} {gs : List (List α)}
      (hPoll : h.poll budget cx = some (r, h')) (hMore : r.ending = none)
      (rest : Reaches h' gs k) : Reaches h (r.groups ++ gs) k

/-- No poll before the ending brings an item, whether or not there is one. -/
def Silent (h : AsyncStreamHandle α) : Prop :=
  ∀ gs h', Reaches budget cx h gs h' → gs = []

/-- `l` is everything that the polls of a stream ever bring, ending or not. -/
structure Everything (h : AsyncStreamHandle α) (l : List α) : Prop where
  reached : ∃ gs h', Reaches budget cx h gs h' ∧ gs.flatten = l
  most : ∀ gs h', Reaches budget cx h gs h' → gs.flatten.length ≤ l.length

variable {budget cx}

/-! ## One run after another -/

theorem Reaches.ne_nil {h h' : AsyncStreamHandle α} {gs : List (List α)}
    (run : Reaches budget cx h gs h') : ∀ g ∈ gs, g ≠ [] := by
  induction run with
  | refl h => simp
  | more hPoll hMore rest ih =>
      intro g hg
      rcases List.mem_append.mp hg with hFirst | hRest
      · exact PollResult.ne_nil_of_mem_groups hFirst
      · exact ih g hRest

theorem EmitsIn.reaches {n : ℕ} {h : AsyncStreamHandle α} {gs : List (List α)} {e : Ending}
    (run : EmitsIn budget cx n h gs e) : ∃ h', Reaches budget cx h gs h' := by
  induction run with
  | @final h h' r e hPoll hEnd => exact ⟨h, .refl h⟩
  | more hPoll hMore rest ih =>
      obtain ⟨k, hRun⟩ := ih
      exact ⟨k, .more hPoll hMore hRun⟩

theorem Emits.ne_nil {h : AsyncStreamHandle α} {gs : List (List α)} {e : Ending}
    (run : Emits budget cx h gs e) : ∀ g ∈ gs, g ≠ [] := by
  obtain ⟨n, run⟩ := run
  obtain ⟨h', hReached⟩ := run.reaches
  exact hReached.ne_nil

/-- What has come so far is the beginning of what comes up to the ending. -/
theorem Reaches.prefix_emits {n : ℕ} {h h' : AsyncStreamHandle α} {gs all : List (List α)}
    {e : Ending} (run : Reaches budget cx h gs h') (full : EmitsIn budget cx n h all e) :
    gs <+: all := by
  induction run generalizing n all with
  | refl h => exact List.nil_prefix
  | more hPoll hMore rest ih =>
      cases full with
      | final hPoll' hEnd =>
          rw [hPoll, Option.some.injEq, Prod.mk.injEq] at hPoll'
          rw [← hPoll'.1, hMore] at hEnd
          cases hEnd
      | more hPoll' hMore' rest' =>
          rw [hPoll, Option.some.injEq, Prod.mk.injEq] at hPoll'
          obtain ⟨rfl, rfl⟩ := hPoll'
          exact (List.prefix_append_right_inj _).mpr (ih rest')

/-- A stream emits at most one list of groups and has at most one ending. -/
theorem Emits.unique {h : AsyncStreamHandle α} {gs gs' : List (List α)} {e e' : Ending}
    (first : Emits budget cx h gs e) (second : Emits budget cx h gs' e') : gs = gs' ∧ e = e' := by
  obtain ⟨n, first⟩ := first
  obtain ⟨m, second⟩ := second
  induction first generalizing m gs' with
  | final hPoll hEnd =>
      cases second with
      | final hPoll' hEnd' =>
          rw [hPoll, Option.some.injEq, Prod.mk.injEq] at hPoll'
          rw [← hPoll'.1, hEnd, Option.some.injEq] at hEnd'
          exact ⟨rfl, hEnd'⟩
      | more hPoll' hMore' rest' =>
          rw [hPoll, Option.some.injEq, Prod.mk.injEq] at hPoll'
          rw [← hPoll'.1, hEnd] at hMore'
          cases hMore'
  | more hPoll hMore rest ih =>
      cases second with
      | final hPoll' hEnd' =>
          rw [hPoll, Option.some.injEq, Prod.mk.injEq] at hPoll'
          rw [← hPoll'.1, hMore] at hEnd'
          cases hEnd'
      | more hPoll' hMore' rest' =>
          rw [hPoll, Option.some.injEq, Prod.mk.injEq] at hPoll'
          obtain ⟨rfl, rfl⟩ := hPoll'
          obtain ⟨rfl, rfl⟩ := ih _ rest'
          exact ⟨rfl, rfl⟩

theorem Denotes.unique {h : AsyncStreamHandle α} {l l' : List α} {e e' : Ending}
    (first : Denotes budget cx h l e) (second : Denotes budget cx h l' e') : l = l' ∧ e = e' := by
  obtain ⟨gs, hFirst, rfl⟩ := first
  obtain ⟨gs', hSecond, rfl⟩ := second
  obtain ⟨rfl, rfl⟩ := hFirst.unique hSecond
  exact ⟨rfl, rfl⟩

/-! ## Everything that comes -/

theorem Denotes.everything {h : AsyncStreamHandle α} {l : List α} {e : Ending}
    (hd : Denotes budget cx h l e) : Everything budget cx h l := by
  obtain ⟨gs, ⟨n, hRun⟩, rfl⟩ := hd
  obtain ⟨h', hReached⟩ := hRun.reaches
  constructor
  · exact ⟨gs, h', hReached, rfl⟩
  · intro gs' k hOther
    obtain ⟨rest, rfl⟩ := hOther.prefix_emits hRun
    rw [List.flatten_append, List.length_append]
    exact Nat.le_add_right _ _

theorem Denotes.eq_of_everything {h : AsyncStreamHandle α} {l l' : List α} {e : Ending}
    (hd : Denotes budget cx h l e) (hAll : Everything budget cx h l') : l' = l := by
  obtain ⟨gs, ⟨n, hRun⟩, rfl⟩ := hd
  obtain ⟨h', hReached⟩ := hRun.reaches
  obtain ⟨gs', k, hOther, rfl⟩ := hAll.reached
  have hLength := hAll.most gs h' hReached
  obtain ⟨rest, rfl⟩ := hOther.prefix_emits hRun
  rw [List.flatten_append, List.length_append] at hLength
  have hRest : rest.flatten = [] := List.eq_nil_of_length_eq_zero (by omega)
  rw [List.flatten_append, hRest, List.append_nil]

theorem silent_iff_everything {h : AsyncStreamHandle α} :
    Silent budget cx h ↔ Everything budget cx h [] := by
  constructor
  · intro hSilent
    constructor
    · exact ⟨[], h, .refl h, rfl⟩
    · intro gs h' hRun
      rw [hSilent gs h' hRun]
      exact Nat.le_refl _
  · intro hAll gs h' hRun
    have hLength := hAll.most gs h' hRun
    have hFlat : gs.flatten = [] := List.eq_nil_of_length_eq_zero (Nat.le_zero.mp hLength)
    rw [List.eq_nil_iff_forall_not_mem]
    intro g hg
    exact hRun.ne_nil g hg (List.flatten_eq_nil_iff.mp hFlat g hg)

/-- Several streams that each end, by groups or by items. -/
theorem forall₂_denotes_iff {γ : Type} {stream : γ → AsyncStreamHandle α} {xs : List γ} {e : Ending}
    {outs : List (List α)} :
    List.Forall₂ (fun x l => Denotes budget cx (stream x) l e) xs outs ↔
      ∃ gss, List.Forall₂ (fun x gs => Emits budget cx (stream x) gs e) xs gss ∧
        gss.map List.flatten = outs := by
  induction xs generalizing outs with
  | nil =>
      constructor
      · rintro ⟨⟩
        exact ⟨[], .nil, rfl⟩
      · rintro ⟨gss, ⟨⟩, rfl⟩
        exact .nil
  | cons x xs ih =>
      constructor
      · rintro (_ | ⟨⟨gs, hEmits, rfl⟩, hRest⟩)
        obtain ⟨gss, hGss, rfl⟩ := ih.mp hRest
        exact ⟨gs :: gss, .cons hEmits hGss, rfl⟩
      · rintro ⟨gss, _ | ⟨hEmits, hRest⟩, rfl⟩
        exact .cons ⟨_, hEmits, rfl⟩ (ih.mpr ⟨_, hRest, rfl⟩)

/-- Children that bring nothing at all. -/
theorem all_silent_iff {fn : α → AsyncStreamHandle β} {xs : List α} :
    (∀ x ∈ xs, Silent budget cx (fn x)) ↔
      ∃ outs, List.Forall₂ (fun x l => Everything budget cx (fn x) l) xs outs ∧
        outs.flatten = [] := by
  induction xs with
  | nil => exact ⟨fun _ => ⟨[], .nil, rfl⟩, fun _ x hx => absurd hx List.not_mem_nil⟩
  | cons x xs ih =>
      constructor
      · intro hSilent
        obtain ⟨outs, hOuts, hNone⟩ := ih.mp fun y hy => hSilent y (List.mem_cons_of_mem x hy)
        have hFirst := silent_iff_everything.mp (hSilent x List.mem_cons_self)
        exact ⟨[] :: outs, .cons hFirst hOuts, hNone⟩
      · rintro ⟨outs, hOuts, hNone⟩ y hy
        cases hOuts with
        | @cons _ first _ outs hFirst hOthers =>
            rw [List.flatten_cons, List.append_eq_nil_iff] at hNone
            rcases List.mem_cons.mp hy with rfl | hy
            · rw [hNone.1] at hFirst
              exact silent_iff_everything.mpr hFirst
            · exact ih.mpr ⟨outs, hOthers, hNone.2⟩ y hy

/-! ## How far Done is -/

variable (budget cx) in
/-- Done comes after `n` more polls. -/
def DoneIn (n : ℕ) (h : AsyncStreamHandle α) : Prop := ∃ gs, EmitsIn budget cx n h gs .done

theorem Denotes.doneIn {h : AsyncStreamHandle α} {l : List α} (hd : Denotes budget cx h l .done) :
    ∃ n, DoneIn budget cx n h := by
  obtain ⟨gs, ⟨n, hRun⟩, -⟩ := hd
  exact ⟨n, gs, hRun⟩

theorem doneIn_cases {n : ℕ} {h : AsyncStreamHandle α} (hDone : DoneIn budget cx n h) :
    (n = 0 ∧ ∃ h', h.poll budget cx = some (.done, h')) ∨
      ∃ m r h', n = m + 1 ∧ h.poll budget cx = some (r, h') ∧ r.ending = none ∧
        DoneIn budget cx m h' := by
  obtain ⟨gs, hRun⟩ := hDone
  generalize hLast : Ending.done = e at hRun
  cases hRun with
  | @final _ h' r _ hPoll hEnd =>
      subst hLast
      cases r with
      | done => exact Or.inl ⟨rfl, h', hPoll⟩
      | _ => cases hEnd
  | more hPoll hMore rest =>
      subst hLast
      exact Or.inr ⟨_, _, _, rfl, hPoll, hMore, _, rest⟩

/-! ## Streams given by an implementation -/

section Implementation
variable [AsyncImpl Impl α] {s s' : Impl} {r : PollResult α} {gs : List (List α)} {e : Ending}

theorem make_poll (hPoll : AsyncImpl.poll budget cx s = some (r, s')) :
    (makeAsyncStreamHandle s).poll budget cx = some (r, makeAsyncStreamHandle s') := by
  rw [makeAsyncStreamHandle_poll, hPoll]
  rfl

theorem make_poll_inv {h' : AsyncStreamHandle α}
    (hPoll : (makeAsyncStreamHandle s).poll budget cx = some (r, h')) :
    ∃ s', AsyncImpl.poll budget cx s = some (r, s') ∧ h' = makeAsyncStreamHandle s' := by
  rw [makeAsyncStreamHandle_poll, Option.map_eq_some_iff] at hPoll
  obtain ⟨⟨r', s'⟩, hState, hSame⟩ := hPoll
  rw [Prod.mk.injEq] at hSame
  obtain ⟨rfl, rfl⟩ := hSame
  exact ⟨s', hState, rfl⟩

theorem Emits.make_final (hPoll : AsyncImpl.poll budget cx s = some (r, s'))
    (hEnd : r.ending = some e) : Emits budget cx (makeAsyncStreamHandle s) [] e :=
  ⟨0, .final (make_poll hPoll) hEnd⟩

theorem Emits.make_more (hPoll : AsyncImpl.poll budget cx s = some (r, s'))
    (hMore : r.ending = none) (rest : Emits budget cx (makeAsyncStreamHandle s') gs e) :
    Emits budget cx (makeAsyncStreamHandle s) (r.groups ++ gs) e := by
  obtain ⟨n, hRest⟩ := rest
  exact ⟨n + 1, .more (make_poll hPoll) hMore hRest⟩

/-- Only the next poll matters. -/
theorem Emits.make_congr (hPoll : AsyncImpl.poll budget cx s = AsyncImpl.poll budget cx s')
    (h : Emits budget cx (makeAsyncStreamHandle s') gs e) :
    Emits budget cx (makeAsyncStreamHandle s) gs e := by
  have hSame : (makeAsyncStreamHandle s).poll budget cx =
      (makeAsyncStreamHandle s').poll budget cx := by
    rw [makeAsyncStreamHandle_poll, makeAsyncStreamHandle_poll, hPoll]
  obtain ⟨n, h⟩ := h
  cases h with
  | final hLast hEnd => exact ⟨0, .final (hSame.trans hLast) hEnd⟩
  | more hNext hMore rest => exact ⟨_, .more (hSame.trans hNext) hMore rest⟩

/-- Induction along the polls of an implementation. -/
theorem EmitsIn.make_induction {motive : ℕ → Impl → List (List α) → Ending → Prop}
    (final : ∀ s s' r e, AsyncImpl.poll budget cx s = some (r, s') → r.ending = some e →
      motive 0 s [] e)
    (more : ∀ n s s' r gs e, AsyncImpl.poll budget cx s = some (r, s') → r.ending = none →
      motive n s' gs e → motive (n + 1) s (r.groups ++ gs) e)
    {n : ℕ} (h : EmitsIn budget cx n (makeAsyncStreamHandle s) gs e) : motive n s gs e := by
  generalize hStart : makeAsyncStreamHandle s = start at h
  induction h generalizing s with
  | final hPoll hEnd =>
      subst hStart
      obtain ⟨s', hState, -⟩ := make_poll_inv hPoll
      exact final s s' _ _ hState hEnd
  | more hPoll hMore rest ih =>
      subst hStart
      obtain ⟨s', hState, rfl⟩ := make_poll_inv hPoll
      exact more _ s s' _ _ _ hState hMore (ih rfl)

end Implementation
end CelerMem.Async
