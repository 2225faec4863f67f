import CelerMem.Core.ConcatMap
import Mathlib

/-! When two async streams agree: answer for answer, in the chunks up to Done, or only in
the items up to Done. What agreement of the sources makes of the streams over them. -/
namespace CelerMem.Async

variable {α β Impl Impl' : Type} {budget : StreamBudget} {cx : TaskContext}

/-! ## Answer for answer -/

/-- Both streams answer every sequence of polls in the same way. -/
def SamePolls (h k : AsyncStreamHandle α) : Prop :=
  ∀ (polls : List (StreamBudget × TaskContext)) (budget : StreamBudget) (cx : TaskContext),
    h.observe (polls.map fun p => .poll p.1 p.2) budget cx =
      k.observe (polls.map fun p => .poll p.1 p.2) budget cx

namespace SamePolls

theorem refl (h : AsyncStreamHandle α) : SamePolls h h := fun _ _ _ => rfl

theorem symm {h k : AsyncStreamHandle α} (same : SamePolls h k) : SamePolls k h :=
  fun polls budget cx => (same polls budget cx).symm

/-- The same answer, and streams behind it that go on alike. -/
theorem poll {h k : AsyncStreamHandle α} (same : SamePolls h k) (budget : StreamBudget)
    (cx : TaskContext) :
    Option.Rel (fun p q => p.1 = q.1 ∧ SamePolls p.2 q.2) (h.poll budget cx) (k.poll budget cx) := by
  have hFirst : h.observe [] budget cx = k.observe [] budget cx := same [] budget cx
  unfold AsyncStreamHandle.poll
  rw [hFirst]
  cases k.observe [] budget cx with
  | none => exact .none
  | some r => exact .some ⟨rfl, fun polls => same ((budget, cx) :: polls)⟩

/-- Two implementations whose states go on alike, once they are related. -/
theorem make [AsyncImpl Impl α] [AsyncImpl Impl' α] {R : Impl → Impl' → Prop}
    (hStep : ∀ s t, R s t → ∀ budget cx, Option.Rel (fun p q => p.1 = q.1 ∧ R p.2 q.2)
      (AsyncImpl.poll budget cx s) (AsyncImpl.poll budget cx t))
    {s : Impl} {t : Impl'} (h : R s t) :
    SamePolls (makeAsyncStreamHandle s) (makeAsyncStreamHandle t) := by
  intro polls budget cx
  show observeFrom s _ budget cx = observeFrom t _ budget cx
  induction polls generalizing s t with
  | nil =>
      have hRel := hStep s t h budget cx
      rw [List.map_nil, observeFrom, observeFrom]
      generalize AsyncImpl.poll budget cx s = x at hRel
      generalize AsyncImpl.poll budget cx t = y at hRel
      cases hRel with
      | none => rfl
      | some hSame => exact congrArg some hSame.1
  | cons first polls ih =>
      have hRel := hStep s t h first.1 first.2
      rw [List.map_cons, observeFrom, observeFrom]
      generalize AsyncImpl.poll first.1 first.2 s = x at hRel
      generalize AsyncImpl.poll first.1 first.2 t = y at hRel
      cases hRel with
      | none => rfl
      | some hSame => exact ih hSame.2

theorem emits {h k : AsyncStreamHandle α} (same : SamePolls h k) {gs : List (List α)} {e : Ending}
    (hEmits : Emits budget cx h gs e) : Emits budget cx k gs e := by
  obtain ⟨n, hEmits⟩ := hEmits
  refine ⟨n, ?_⟩
  induction hEmits generalizing k with
  | final hPoll hEnd =>
      have hRel := same.poll budget cx
      rw [hPoll] at hRel
      cases hNext : k.poll budget cx with
      | none => simp [hNext] at hRel
      | some q =>
          rw [hNext, Option.rel_some_some] at hRel
          exact .final hNext (hRel.1 ▸ hEnd)
  | more hPoll hMore _ ih =>
      have hRel := same.poll budget cx
      rw [hPoll] at hRel
      cases hNext : k.poll budget cx with
      | none => simp [hNext] at hRel
      | some q =>
          rw [hNext, Option.rel_some_some] at hRel
          obtain ⟨hAnswer, hRest⟩ := hRel
          dsimp only at hAnswer
          rw [hAnswer]
          exact .more hNext (hAnswer ▸ hMore) (ih hRest)

end SamePolls

/-! ## Levels of agreement -/

inductive Level where
  | polls
  | chunks
  | items
  deriving DecidableEq

/-- Two streams agree on all answers to polls, on the chunks up to Done or on the items up
to Done. -/
def Agree : Level → AsyncStreamHandle α → AsyncStreamHandle α → Prop
  | .polls, h, k => SamePolls h k
  | .chunks, h, k => ∀ budget cx gs, Emits budget cx h gs .done ↔ Emits budget cx k gs .done
  | .items, h, k => ∀ budget cx l, Denotes budget cx h l .done ↔ Denotes budget cx k l .done

theorem Agree.chunks_of_polls {h k : AsyncStreamHandle α} (agree : Agree .polls h k) :
    Agree .chunks h k := by
  have hSame : SamePolls h k := agree
  intro budget cx gs
  exact ⟨hSame.emits, hSame.symm.emits⟩

theorem Agree.items_of_chunks {h k : AsyncStreamHandle α} (agree : Agree .chunks h k) :
    Agree .items h k := by
  intro budget cx l
  constructor
  · rintro ⟨gs, hEmits, rfl⟩
    exact ⟨gs, (agree budget cx gs).mp hEmits, rfl⟩
  · rintro ⟨gs, hEmits, rfl⟩
    exact ⟨gs, (agree budget cx gs).mpr hEmits, rfl⟩

theorem Agree.of_polls {h k : AsyncStreamHandle α} (agree : Agree .polls h k) (lvl : Level) :
    Agree lvl h k := by
  cases lvl with
  | polls => exact agree
  | chunks => exact agree.chunks_of_polls
  | items => exact agree.chunks_of_polls.items_of_chunks

/-! ## to_async -/

/-- Both streams answer every sequence of pulls in the same way. -/
def SamePulls (h k : StreamHandle α) : Prop :=
  ∀ n, h.observe (List.replicate n .pull) = k.observe (List.replicate n .pull)

theorem SamePulls.pull {h k : StreamHandle α} (same : SamePulls h k) :
    Option.Rel (fun p q => p.1 = q.1 ∧ SamePulls p.2 q.2) h.pull k.pull := by
  have hFirst : h.observe [] = k.observe [] := same 0
  unfold StreamHandle.pull
  rw [hFirst]
  cases k.observe [] with
  | none => exact .none
  | some r => exact .some ⟨rfl, fun n => same (n + 1)⟩

/-- The same three levels for synchronous streams. -/
def SyncAgree : Level → StreamHandle α → StreamHandle α → Prop
  | .polls, h, k => SamePulls h k
  | .chunks, h, k => ∀ gs, (∃ cs, CelerMem.Emits h cs .done ∧ fullChunks cs = gs) ↔
      ∃ cs, CelerMem.Emits k cs .done ∧ fullChunks cs = gs
  | .items, h, k => ∀ l, CelerMem.Denotes h l .done ↔ CelerMem.Denotes k l .done

theorem toAsync_emits_iff {h : StreamHandle α} {gs : List (List α)} :
    Emits budget cx (toAsync h) gs .done ↔
      ∃ cs, CelerMem.Emits h cs .done ∧ fullChunks cs = gs := by
  constructor
  · rintro ⟨n, hEmits⟩
    refine EmitsIn.make_induction (motive := fun _ (s : SyncBridgeImpl α) gs e => e = .done →
      s.done = false → ∃ cs, CelerMem.Emits s.source cs .done ∧ fullChunks cs = gs) ?_ ?_
      hEmits rfl rfl
    · rintro ⟨source, _⟩ s' r e hPoll hEnd rfl rfl
      obtain ⟨⟨q, next⟩, hPull, hRest⟩ := Option.bind_eq_some_iff.mp hPoll
      rcases q with err | _ | chunk
      · obtain ⟨rfl, -⟩ := Prod.mk.inj (Option.some.inj hRest)
        cases hEnd
      · exact ⟨[], .done hPull, rfl⟩
      · obtain ⟨rfl, -⟩ := Prod.mk.inj (Option.some.inj hRest)
        cases hEnd
    · rintro n ⟨source, _⟩ s' r gs e hPoll hMore ih rfl rfl
      obtain ⟨⟨q, next⟩, hPull, hRest⟩ := Option.bind_eq_some_iff.mp hPoll
      rcases q with err | _ | chunk
      · obtain ⟨rfl, -⟩ := Prod.mk.inj (Option.some.inj hRest)
        cases hMore
      · obtain ⟨rfl, -⟩ := Prod.mk.inj (Option.some.inj hRest)
        cases hMore
      · obtain ⟨rfl, rfl⟩ := Prod.mk.inj (Option.some.inj hRest)
        obtain ⟨cs, hNext, rfl⟩ := ih rfl rfl
        exact ⟨chunk :: cs, .chunk hPull hNext, fullChunks_cons chunk cs⟩
  · rintro ⟨cs, hEmits, rfl⟩
    exact toAsync_emits hEmits

theorem toAsync_denotes_iff {h : StreamHandle α} {l : List α} :
    Denotes budget cx (toAsync h) l .done ↔ CelerMem.Denotes h l .done := by
  constructor
  · rintro ⟨gs, hEmits, rfl⟩
    obtain ⟨cs, hChunks, rfl⟩ := toAsync_emits_iff.mp hEmits
    rw [flatten_fullChunks]
    exact hChunks.denotes
  · exact toAsync_denotes

/-- Bridges that have both ended agree, whatever they bridge. -/
theorem syncBridge_agree {lvl : Level} {a b : StreamHandle α} {done : Bool}
    (h : done = true ∨ SyncAgree lvl a b) :
    Agree lvl (makeAsyncStreamHandle (⟨a, done⟩ : SyncBridgeImpl α))
      (makeAsyncStreamHandle (⟨b, done⟩ : SyncBridgeImpl α)) := by
  have hPolls : done = true ∨ SamePulls a b → SamePolls
      (makeAsyncStreamHandle (⟨a, done⟩ : SyncBridgeImpl α))
      (makeAsyncStreamHandle (⟨b, done⟩ : SyncBridgeImpl α)) := by
    intro hSame
    let R : SyncBridgeImpl α → SyncBridgeImpl α → Prop := fun s t =>
      s.done = t.done ∧ (s.done = true ∨ SamePulls s.source t.source)
    have hStart : R ⟨a, done⟩ ⟨b, done⟩ := ⟨rfl, hSame⟩
    apply SamePolls.make (R := R) _ hStart
    rintro ⟨a, done⟩ ⟨b, _⟩ ⟨rfl, hSame⟩ budget cx
    cases done with
    | true => exact .some ⟨rfl, rfl, Or.inl rfl⟩
    | false =>
        apply Loop.rel_bind (hSame.resolve_left Bool.false_ne_true).pull
        rintro ⟨q, a⟩ ⟨_, b⟩ ⟨rfl, hNext⟩
        rcases q with err | _ | chunk
        · exact .some ⟨rfl, rfl, Or.inr hNext⟩
        · exact .some ⟨rfl, rfl, Or.inl rfl⟩
        · exact .some ⟨rfl, rfl, Or.inr hNext⟩
  cases done with
  | true => exact Agree.of_polls (hPolls (Or.inl rfl)) lvl
  | false =>
      have hSource := h.resolve_left Bool.false_ne_true
      cases lvl with
      | polls => exact hPolls (Or.inr hSource)
      | chunks =>
          intro budget cx gs
          exact toAsync_emits_iff.trans ((hSource gs).trans toAsync_emits_iff.symm)
      | items =>
          intro budget cx l
          exact toAsync_denotes_iff.trans ((hSource l).trans toAsync_denotes_iff.symm)

/-! ## par_map -/

theorem PollResult.groups_mapped (chunk : Chunk α) (fn : α → β) :
    (PollResult.emit (Chunk.build chunk.size (chunk.toList.map fn) (by simp)
      chunk.size_lt)).groups = (PollResult.emit chunk).groups.map (List.map fn) := by
  by_cases hNil : chunk.toList = []
  · simp [PollResult.groups, hNil]
  · simp [PollResult.groups, hNil]

theorem parMap_emits_iff {source : AsyncStreamHandle α} {fn : α → β} {gs : List (List β)} :
    Emits budget cx (parMap source fn) gs .done ↔
      ∃ ss, Emits budget cx source ss .done ∧ gs = ss.map (List.map fn) := by
  constructor
  · rintro ⟨n, hEmits⟩
    refine EmitsIn.make_induction (motive := fun _ (s : ParMapImpl α β) gs e => e = .done →
      s.sourceDone = false → ∃ ss, Emits budget cx s.source ss .done ∧
        gs = ss.map (List.map s.fn)) ?_ ?_ hEmits rfl rfl
    · rintro ⟨source, fn, _⟩ s' r e hPoll hEnd rfl rfl
      obtain ⟨⟨q, next⟩, hNext, hRest⟩ := Option.bind_eq_some_iff.mp hPoll
      cases q with
      | done => exact ⟨[], ⟨0, .final hNext rfl⟩, rfl⟩
      | emit chunk =>
          obtain ⟨rfl, -⟩ := Prod.mk.inj (Option.some.inj hRest)
          cases hEnd
      | _ =>
          obtain ⟨rfl, -⟩ := Prod.mk.inj (Option.some.inj hRest)
          cases hEnd
    · rintro n ⟨source, fn, _⟩ s' r gs e hPoll hMore ih rfl rfl
      obtain ⟨⟨q, next⟩, hNext, hRest⟩ := Option.bind_eq_some_iff.mp hPoll
      cases q with
      | emit chunk =>
          obtain ⟨rfl, rfl⟩ := Prod.mk.inj (Option.some.inj hRest)
          obtain ⟨ss, ⟨m, hSource⟩, rfl⟩ := ih rfl rfl
          refine ⟨_, ⟨m + 1, .more hNext rfl hSource⟩, ?_⟩
          rw [List.map_append]
          exact congrArg (· ++ _) (PollResult.groups_mapped chunk fn)
      | pending =>
          obtain ⟨rfl, rfl⟩ := Prod.mk.inj (Option.some.inj hRest)
          obtain ⟨ss, ⟨m, hSource⟩, rfl⟩ := ih rfl rfl
          exact ⟨_, ⟨m + 1, .more hNext rfl hSource⟩, rfl⟩
      | yield =>
          obtain ⟨rfl, rfl⟩ := Prod.mk.inj (Option.some.inj hRest)
          obtain ⟨ss, ⟨m, hSource⟩, rfl⟩ := ih rfl rfl
          exact ⟨_, ⟨m + 1, .more hNext rfl hSource⟩, rfl⟩
      | done =>
          obtain ⟨rfl, -⟩ := Prod.mk.inj (Option.some.inj hRest)
          cases hMore
      | error err =>
          obtain ⟨rfl, -⟩ := Prod.mk.inj (Option.some.inj hRest)
          cases hMore
  · rintro ⟨ss, ⟨n, hSource⟩, rfl⟩
    exact parMap_emits hSource fn

theorem parMap_denotes_iff {source : AsyncStreamHandle α} {fn : α → β} {l : List β} :
    Denotes budget cx (parMap source fn) l .done ↔
      ∃ items, Denotes budget cx source items .done ∧ l = items.map fn := by
  constructor
  · rintro ⟨gs, hEmits, rfl⟩
    obtain ⟨ss, hSource, rfl⟩ := parMap_emits_iff.mp hEmits
    exact ⟨ss.flatten, ⟨ss, hSource, rfl⟩, List.map_flatten.symm⟩
  · rintro ⟨items, hSource, rfl⟩
    exact parMap_denotes hSource fn

theorem parMap_agree {lvl : Level} {a b : AsyncStreamHandle α} {fn : α → β} {sourceDone : Bool}
    (h : sourceDone = true ∨ Agree lvl a b) :
    Agree lvl (makeAsyncStreamHandle (⟨a, fn, sourceDone⟩ : ParMapImpl α β))
      (makeAsyncStreamHandle (⟨b, fn, sourceDone⟩ : ParMapImpl α β)) := by
  have hPolls : sourceDone = true ∨ SamePolls a b → SamePolls
      (makeAsyncStreamHandle (⟨a, fn, sourceDone⟩ : ParMapImpl α β))
      (makeAsyncStreamHandle (⟨b, fn, sourceDone⟩ : ParMapImpl α β)) := by
    intro hSame
    let R : ParMapImpl α β → ParMapImpl α β → Prop := fun s t => s.fn = t.fn ∧
      s.sourceDone = t.sourceDone ∧ (s.sourceDone = true ∨ SamePolls s.source t.source)
    have hStart : R ⟨a, fn, sourceDone⟩ ⟨b, fn, sourceDone⟩ := ⟨rfl, rfl, hSame⟩
    apply SamePolls.make (R := R) _ hStart
    rintro ⟨a, fn, done⟩ ⟨b, _, _⟩ ⟨rfl, rfl, hSame⟩ budget cx
    cases done with
    | true => exact .some ⟨rfl, rfl, rfl, Or.inl rfl⟩
    | false =>
        apply Loop.rel_bind ((hSame.resolve_left Bool.false_ne_true).poll budget cx)
        rintro ⟨q, a⟩ ⟨_, b⟩ ⟨rfl, hNext⟩
        cases q with
        | emit chunk => exact .some ⟨rfl, rfl, rfl, Or.inr hNext⟩
        | pending => exact .some ⟨rfl, rfl, rfl, Or.inr hNext⟩
        | yield => exact .some ⟨rfl, rfl, rfl, Or.inr hNext⟩
        | done => exact .some ⟨rfl, rfl, rfl, Or.inl rfl⟩
        | error err => exact .some ⟨rfl, rfl, rfl, Or.inr hNext⟩
  cases sourceDone with
  | true => exact Agree.of_polls (hPolls (Or.inl rfl)) lvl
  | false =>
      have hSource := h.resolve_left Bool.false_ne_true
      cases lvl with
      | polls => exact hPolls (Or.inr hSource)
      | chunks =>
          intro budget cx gs
          exact parMap_emits_iff.trans
            ((exists_congr fun ss => and_congr_left' (hSource budget cx ss)).trans
              parMap_emits_iff.symm)
      | items =>
          intro budget cx l
          exact parMap_denotes_iff.trans
            ((exists_congr fun items => and_congr_left' (hSource budget cx items)).trans
              parMap_denotes_iff.symm)

/-! ## concat_map -/

namespace ConcatMapImpl

variable {source a b : AsyncStreamHandle α} {fn : α → AsyncStreamHandle β} {sourceDone : Bool}
  {s : ConcatMapImpl α β} {gs : List (List β)}

theorem emits_iff_drains :
    Emits budget cx (makeAsyncStreamHandle s) gs .done ↔ Drains budget cx s gs := by
  constructor
  · intro hEmits
    exact drains_of_emits hEmits rfl
  · intro hDrains
    obtain ⟨source, fn, activeChild, sourceDone⟩ := s
    have hRest : ∀ {rest}, Rest budget cx fn source sourceDone rest →
        Emits budget cx (makeAsyncStreamHandle
          (⟨source, fn, none, sourceDone⟩ : ConcatMapImpl α β)) rest .done := by
      intro rest hRest
      cases sourceDone with
      | true =>
          obtain rfl : rest = [] := hRest
          have hTurn : turn budget cx (⟨source, fn, none, true⟩ : ConcatMapImpl α β) =
              some (.leave (.done, ⟨source, fn, none, true⟩)) := rfl
          exact Emits.make_final (Loop.run_leave hTurn) rfl
      | false =>
          obtain ⟨ss, outs, ⟨n, hSource⟩, hOuts, rfl⟩ := hRest
          exact emits_of_rest hSource rfl hOuts
    cases activeChild with
    | none => exact hRest hDrains
    | some child =>
        obtain ⟨first, rest, ⟨n, hChild⟩, hOthers, rfl⟩ := hDrains
        exact emits_of_child hChild rfl (hRest hOthers)

theorem rest_congr (h : sourceDone = true ∨ Agree .chunks a b) :
    Rest budget cx fn a sourceDone gs ↔ Rest budget cx fn b sourceDone gs := by
  cases sourceDone with
  | true => exact Iff.rfl
  | false =>
      have hSource := h.resolve_left Bool.false_ne_true
      exact exists_congr fun ss => exists_congr fun outs =>
        and_congr_left' (hSource budget cx ss)

/-- Without an active child, the chunks are those that the chunks of the source make. -/
theorem agree_chunks (h : sourceDone = true ∨ Agree .chunks a b) :
    Agree .chunks
      (makeAsyncStreamHandle (⟨a, fn, none, sourceDone⟩ : ConcatMapImpl α β))
      (makeAsyncStreamHandle (⟨b, fn, none, sourceDone⟩ : ConcatMapImpl α β)) := by
  intro budget cx gs
  rw [emits_iff_drains, emits_iff_drains]
  exact rest_congr h

/-- An active child that only answers Done brings no more chunk. -/
theorem agree_drained {child : AsyncStreamHandle β}
    (hChild : ∀ budget cx, Emits budget cx child [] .done) :
    Agree .chunks
      (makeAsyncStreamHandle (⟨source, fn, none, sourceDone⟩ : ConcatMapImpl α β))
      (makeAsyncStreamHandle (⟨source, fn, some child, sourceDone⟩ : ConcatMapImpl α β)) := by
  intro budget cx gs
  apply emits_iff_drains.trans (Iff.trans _ emits_iff_drains.symm)
  constructor
  · intro hRest
    exact ⟨[], gs, hChild budget cx, hRest, rfl⟩
  · rintro ⟨first, rest, hFirst, hRest, rfl⟩
    obtain ⟨rfl, -⟩ := hFirst.unique (hChild budget cx)
    exact hRest

/-- The states of two runs over sources that answer alike. -/
structure Alike (s t : ConcatMapImpl α β) : Prop where
  fn : s.fn = t.fn
  sourceDone : s.sourceDone = t.sourceDone
  source : s.sourceDone = true ∨ SamePolls s.source t.source
  child : Option.Rel SamePolls s.activeChild t.activeChild

theorem advance_alike {s t : ConcatMapImpl α β} (h : Alike s t) (hNone : s.activeChild = none)
    (budget : StreamBudget) (cx : TaskContext) :
    Option.Rel (Loop.Turn.Rel Alike fun p q => p.1 = q.1 ∧ Alike p.2 q.2)
      (advance budget cx s) (advance budget cx t) := by
  obtain ⟨a, fn, child, done⟩ := s
  obtain ⟨b, _, child', _⟩ := t
  obtain ⟨rfl, rfl, hSource, hChild⟩ := h
  obtain rfl : child = none := hNone
  obtain rfl : none = child' := by
    cases hChild
    rfl
  cases done with
  | true => exact .some (.leave ⟨rfl, rfl, rfl, Or.inl rfl, .none⟩)
  | false =>
      apply Loop.rel_bind ((hSource.resolve_left Bool.false_ne_true).poll budget cx)
      rintro ⟨q, a⟩ ⟨_, b⟩ ⟨rfl, hNext⟩
      cases q with
      | emit chunk =>
          dsimp only
          cases chunk.toList with
          | nil => exact .some (.again ⟨rfl, rfl, Or.inr hNext, .none⟩)
          | cons elem others =>
              exact .some (.again ⟨rfl, rfl, Or.inr hNext, .some (SamePolls.refl _)⟩)
      | pending => exact .some (.leave ⟨rfl, rfl, rfl, Or.inr hNext, .none⟩)
      | yield => exact .some (.leave ⟨rfl, rfl, rfl, Or.inr hNext, .none⟩)
      | done => exact .some (.leave ⟨rfl, rfl, rfl, Or.inl rfl, .none⟩)
      | error e => exact .some (.leave ⟨rfl, rfl, rfl, Or.inr hNext, .none⟩)

theorem turn_alike {s t : ConcatMapImpl α β} (h : Alike s t) (budget : StreamBudget)
    (cx : TaskContext) :
    Option.Rel (Loop.Turn.Rel Alike fun p q => p.1 = q.1 ∧ Alike p.2 q.2)
      (turn budget cx s) (turn budget cx t) := by
  obtain ⟨a, fn, child, done⟩ := s
  obtain ⟨b, fn', child', done'⟩ := t
  have hChild : Option.Rel SamePolls child child' := h.child
  cases hChild with
  | none => exact advance_alike h rfl budget cx
  | some hChild =>
      apply Loop.rel_bind (hChild.poll budget cx)
      rintro ⟨q, child⟩ ⟨_, child'⟩ ⟨rfl, hNext⟩
      have hWith : Alike ⟨a, fn, some child, done⟩ ⟨b, fn', some child', done'⟩ :=
        ⟨h.fn, h.sourceDone, h.source, .some hNext⟩
      cases q with
      | done =>
          have hReset : Alike ⟨a, fn, none, done⟩ ⟨b, fn', none, done'⟩ :=
            ⟨h.fn, h.sourceDone, h.source, .none⟩
          exact advance_alike hReset rfl budget cx
      | emit chunk => exact .some (.leave ⟨rfl, hWith⟩)
      | pending => exact .some (.leave ⟨rfl, hWith⟩)
      | yield => exact .some (.leave ⟨rfl, hWith⟩)
      | error e => exact .some (.leave ⟨rfl, hWith⟩)

theorem samePolls {s t : ConcatMapImpl α β} (h : Alike s t) :
    SamePolls (makeAsyncStreamHandle s) (makeAsyncStreamHandle t) := by
  apply SamePolls.make (R := Alike) _ h
  intro s t hAlike budget cx
  exact Loop.run_rel (fun s t hst => turn_alike hst budget cx) hAlike

end ConcatMapImpl

/-! ## merge_map -/

namespace MergeMapImpl

/-- The states of two runs over sources and children that answer alike. -/
structure Alike (s t : MergeMapImpl α β) : Prop where
  fn : s.fn = t.fn
  maxConcurrent : s.maxConcurrent = t.maxConcurrent
  sourceDone : s.sourceDone = t.sourceDone
  source : s.sourceDone = true ∨ SamePolls s.source t.source
  children : List.Forall₂ SamePolls s.activeChildren t.activeChildren

theorem pushChildren_alike (fn : α → AsyncStreamHandle β) (maxConcurrent : ℕ) (elems : List α)
    {active active' : List (AsyncStreamHandle β)} (h : List.Forall₂ SamePolls active active') :
    List.Forall₂ SamePolls (pushChildren fn maxConcurrent elems active)
      (pushChildren fn maxConcurrent elems active') := by
  induction elems generalizing active active' with
  | nil => exact h
  | cons elem elems ih =>
      have hPushed : List.Forall₂ SamePolls (active ++ [fn elem]) (active' ++ [fn elem]) :=
        List.rel_append h (.cons (SamePolls.refl _) .nil)
      rw [pushChildren, pushChildren, hPushed.length_eq]
      split
      · exact hPushed
      · exact ih hPushed

theorem activateTurn_alike {s t : MergeMapImpl α β} (h : Alike s t) (budget : StreamBudget)
    (cx : TaskContext) :
    Option.Rel (Loop.Turn.Rel Alike fun p q => p.1 = q.1 ∧ Alike p.2 q.2)
      (activateTurn budget cx s) (activateTurn budget cx t) := by
  obtain ⟨a, fn, children, maxConcurrent, done⟩ := s
  obtain ⟨b, _, children', _, _⟩ := t
  obtain ⟨rfl, rfl, rfl, hSource, hChildren⟩ := h
  have hLength : children.length = children'.length := hChildren.length_eq
  unfold activateTurn
  dsimp only
  rw [hLength]
  cases done with
  | true => exact .some (.leave ⟨rfl, rfl, rfl, rfl, Or.inl rfl, hChildren⟩)
  | false =>
      split
      · apply Loop.rel_bind ((hSource.resolve_left Bool.false_ne_true).poll budget cx)
        rintro ⟨q, a⟩ ⟨_, b⟩ ⟨rfl, hNext⟩
        cases q with
        | emit chunk =>
            exact .some (.again ⟨rfl, rfl, rfl, Or.inr hNext,
              pushChildren_alike fn maxConcurrent chunk.toList hChildren⟩)
        | pending => exact .some (.leave ⟨rfl, rfl, rfl, rfl, Or.inr hNext, hChildren⟩)
        | yield => exact .some (.leave ⟨rfl, rfl, rfl, rfl, Or.inr hNext, hChildren⟩)
        | done => exact .some (.leave ⟨rfl, rfl, rfl, rfl, Or.inl rfl, hChildren⟩)
        | error e => exact .some (.leave ⟨rfl, rfl, rfl, rfl, Or.inr hNext, hChildren⟩)
      · exact .some (.leave ⟨rfl, rfl, rfl, rfl, hSource, hChildren⟩)

theorem pollChildren_alike {children children' : List (AsyncStreamHandle β)}
    (h : List.Forall₂ SamePolls children children') (budget : StreamBudget) (cx : TaskContext) :
    Option.Rel (fun p q => p.1 = q.1 ∧ List.Forall₂ SamePolls p.2 q.2)
      (pollChildren budget cx children) (pollChildren budget cx children') := by
  induction h with
  | nil => exact .some ⟨rfl, .nil⟩
  | cons hChild hRest ih =>
      rw [pollChildren, pollChildren]
      apply Loop.rel_bind (hChild.poll budget cx)
      rintro ⟨q, child⟩ ⟨_, child'⟩ ⟨rfl, hNext⟩
      cases q with
      | emit chunk => exact .some ⟨rfl, .cons hNext hRest⟩
      | pending =>
          apply Loop.rel_bind ih
          rintro ⟨r, rest⟩ ⟨_, rest'⟩ ⟨rfl, hOthers⟩
          exact .some ⟨rfl, .cons hNext hOthers⟩
      | yield =>
          apply Loop.rel_bind ih
          rintro ⟨r, rest⟩ ⟨_, rest'⟩ ⟨rfl, hOthers⟩
          exact .some ⟨rfl, .cons hNext hOthers⟩
      | done => exact ih
      | error e => exact .some ⟨rfl, .cons hNext hRest⟩

theorem samePolls {s t : MergeMapImpl α β} (h : Alike s t) :
    SamePolls (makeAsyncStreamHandle s) (makeAsyncStreamHandle t) := by
  apply SamePolls.make (R := Alike) _ h
  intro s t hAlike budget cx
  apply Loop.rel_bind (Loop.run_rel (fun s t hst => activateTurn_alike hst budget cx) hAlike)
  rintro ⟨r, s⟩ ⟨_, t⟩ ⟨rfl, hActive⟩
  cases r with
  | error e => exact .some ⟨rfl, hActive⟩
  | ok =>
      apply Loop.rel_bind (pollChildren_alike hActive.children budget cx)
      rintro ⟨r, rest⟩ ⟨_, rest'⟩ ⟨rfl, hRest⟩
      have hPolled : Alike { s with activeChildren := rest } { t with activeChildren := rest' } :=
        ⟨hActive.fn, hActive.maxConcurrent, hActive.sourceDone, hActive.source, hRest⟩
      cases r with
      | some r => exact .some ⟨rfl, hPolled⟩
      | none =>
          have hEmpty : rest.isEmpty = rest'.isEmpty := by
            cases hRest <;> rfl
          refine .some ⟨?_, hPolled⟩
          dsimp only
          rw [hEmpty, hActive.sourceDone]

end MergeMapImpl

end CelerMem.Async
