import CelerMem.Core.AsyncBridge
import CelerMem.Library.Interleaving

/-! `concat_map` up to Done. Each chunk of the source gets one child, made from its first
element; the children are drained one after the other. -/
namespace CelerMem.Async

variable {α β : Type} {budget : StreamBudget} {cx : TaskContext}

/-- The elements that a child is made of. -/
def heads (ss : List (List α)) : List α := ss.filterMap List.head?

@[simp] theorem heads_nil : heads ([] : List (List α)) = [] := rfl

@[simp] theorem heads_cons_cons (x : α) (xs : List α) (ss : List (List α)) :
    heads ((x :: xs) :: ss) = x :: heads ss := rfl

namespace ConcatMapImpl

variable (budget cx) in
/-- What a state without active child still emits up to Done. -/
def Rest (fn : α → AsyncStreamHandle β) (source : AsyncStreamHandle α) (sourceDone : Bool)
    (gs : List (List β)) : Prop :=
  if sourceDone then gs = []
  else ∃ ss outs, Emits budget cx source ss .done ∧
    List.Forall₂ (fun x out => Emits budget cx (fn x) out .done) (heads ss) outs ∧
      gs = outs.flatten

variable (budget cx) in
/-- What a state still emits up to Done. -/
def Drains (s : ConcatMapImpl α β) (gs : List (List β)) : Prop :=
  match s.activeChild with
  | none => Rest budget cx s.fn s.source s.sourceDone gs
  | some child => ∃ first rest, Emits budget cx child first .done ∧
      Rest budget cx s.fn s.source s.sourceDone rest ∧ gs = first ++ rest

variable (budget cx) in
/-- What an answer and the state after it stand for. -/
def Answers (p : PollResult β × ConcatMapImpl α β) (gs : List (List β)) : Prop :=
  p.1.ending = some .done ∧ gs = [] ∨
    p.1.ending = none ∧ ∃ rest, Drains budget cx p.2 rest ∧ gs = p.1.groups ++ rest

variable {source : AsyncStreamHandle α} {fn : α → AsyncStreamHandle β} {sourceDone : Bool}
  {gs : List (List β)}

/-! ## What comes out was emitted by the children -/

theorem rest_of_answers {p : PollResult β × ConcatMapImpl α β}
    (hTurn : advance budget cx ⟨source, fn, none, sourceDone⟩ = some (.leave p))
    (h : Answers budget cx p gs) : Rest budget cx fn source sourceDone gs := by
  cases sourceDone with
  | true =>
      obtain rfl : (.done, ⟨source, fn, none, true⟩) = p := by simpa [advance] using hTurn
      rcases h with ⟨-, rfl⟩ | ⟨hMore, -⟩
      · rfl
      · cases hMore
  | false =>
      cases hPoll : source.poll budget cx with
      | none => simp [advance, hPoll] at hTurn
      | some q =>
          obtain ⟨r, next⟩ := q
          cases r with
          | emit chunk => cases hList : chunk.toList <;> simp [advance, hPoll, hList] at hTurn
          | pending =>
              obtain rfl : (.pending, ⟨next, fn, none, false⟩) = p := by
                simpa [advance, hPoll] using hTurn
              rcases h with ⟨hEnd, -⟩ | ⟨-, rest, hRest, rfl⟩
              · cases hEnd
              · obtain ⟨ss, outs, ⟨n, hSource⟩, hOuts, rfl⟩ := hRest
                exact ⟨ss, outs, ⟨n + 1, .more hPoll rfl hSource⟩, hOuts, rfl⟩
          | yield =>
              obtain rfl : (.yield, ⟨next, fn, none, false⟩) = p := by
                simpa [advance, hPoll] using hTurn
              rcases h with ⟨hEnd, -⟩ | ⟨-, rest, hRest, rfl⟩
              · cases hEnd
              · obtain ⟨ss, outs, ⟨n, hSource⟩, hOuts, rfl⟩ := hRest
                exact ⟨ss, outs, ⟨n + 1, .more hPoll rfl hSource⟩, hOuts, rfl⟩
          | done =>
              obtain rfl : (.done, ⟨next, fn, none, true⟩) = p := by
                simpa [advance, hPoll] using hTurn
              rcases h with ⟨-, rfl⟩ | ⟨hMore, -⟩
              · exact ⟨[], [], ⟨0, .final hPoll rfl⟩, .nil, rfl⟩
              · cases hMore
          | error e =>
              obtain rfl : (.error e, ⟨next, fn, none, false⟩) = p := by
                simpa [advance, hPoll] using hTurn
              rcases h with ⟨hEnd, -⟩ | ⟨hMore, -⟩
              · cases hEnd
              · cases hMore

theorem rest_of_again {t : ConcatMapImpl α β}
    (hTurn : advance budget cx ⟨source, fn, none, sourceDone⟩ = some (.again t))
    (h : Drains budget cx t gs) : Rest budget cx fn source sourceDone gs := by
  cases sourceDone with
  | true => simp [advance] at hTurn
  | false =>
      cases hPoll : source.poll budget cx with
      | none => simp [advance, hPoll] at hTurn
      | some q =>
          obtain ⟨r, next⟩ := q
          cases r with
          | emit chunk =>
              cases hList : chunk.toList with
              | nil =>
                  obtain rfl : (⟨next, fn, none, false⟩ : ConcatMapImpl α β) = t := by
                    simpa [advance, hPoll, hList] using hTurn
                  obtain ⟨ss, outs, ⟨n, hSource⟩, hOuts, rfl⟩ := h
                  have hMore := EmitsIn.more hPoll rfl hSource
                  simp only [PollResult.groups, hList] at hMore
                  exact ⟨ss, outs, ⟨n + 1, hMore⟩, hOuts, rfl⟩
              | cons elem others =>
                  obtain rfl : (⟨next, fn, some (fn elem), false⟩ : ConcatMapImpl α β) = t := by
                    simpa [advance, hPoll, hList] using hTurn
                  obtain ⟨first, rest, hChild, ⟨ss, outs, ⟨n, hSource⟩, hOuts, rfl⟩, rfl⟩ := h
                  have hMore := EmitsIn.more hPoll rfl hSource
                  simp only [PollResult.groups, hList] at hMore
                  exact ⟨(elem :: others) :: ss, first :: outs, ⟨n + 1, hMore⟩,
                    .cons hChild hOuts, rfl⟩
          | pending => simp [advance, hPoll] at hTurn
          | yield => simp [advance, hPoll] at hTurn
          | done => simp [advance, hPoll] at hTurn
          | error e => simp [advance, hPoll] at hTurn

/-- A child that is done is replaced within the pass. -/
theorem turn_child_done {child next : AsyncStreamHandle β}
    (hPoll : child.poll budget cx = some (.done, next)) :
    turn budget cx ⟨source, fn, some child, sourceDone⟩ =
      advance budget cx ⟨source, fn, none, sourceDone⟩ := by
  simp [turn, hPoll]

theorem turn_child_answer {child next : AsyncStreamHandle β} {r : PollResult β}
    (hPoll : child.poll budget cx = some (r, next)) (hDone : r ≠ .done) :
    turn budget cx ⟨source, fn, some child, sourceDone⟩ =
      some (.leave (r, ⟨source, fn, some next, sourceDone⟩)) := by
  cases r with
  | done => exact absurd rfl hDone
  | _ => simp [turn, hPoll]

theorem drains_of_answers {s : ConcatMapImpl α β} {p : PollResult β × ConcatMapImpl α β}
    (hTurn : turn budget cx s = some (.leave p)) (h : Answers budget cx p gs) :
    Drains budget cx s gs := by
  obtain ⟨source, fn, activeChild, sourceDone⟩ := s
  cases activeChild with
  | none => exact rest_of_answers hTurn h
  | some child =>
      cases hPoll : child.poll budget cx with
      | none => simp [turn, hPoll] at hTurn
      | some q =>
          obtain ⟨r, next⟩ := q
          by_cases hDone : r = .done
          · subst hDone
            rw [turn_child_done hPoll] at hTurn
            exact ⟨[], gs, ⟨0, .final hPoll rfl⟩, rest_of_answers hTurn h, rfl⟩
          · rw [turn_child_answer hPoll hDone] at hTurn
            obtain rfl : (r, ⟨source, fn, some next, sourceDone⟩) = p := by simpa using hTurn
            rcases h with ⟨hEnd, -⟩ | ⟨hMore, rest, hRest, rfl⟩
            · cases r with
              | done => exact absurd rfl hDone
              | _ => cases hEnd
            · obtain ⟨first, others, ⟨n, hFirst⟩, hOthers, rfl⟩ := hRest
              exact ⟨r.groups ++ first, others, ⟨n + 1, .more hPoll hMore hFirst⟩, hOthers,
                (List.append_assoc _ _ _).symm⟩

theorem drains_of_again {s t : ConcatMapImpl α β} (hTurn : turn budget cx s = some (.again t))
    (h : Drains budget cx t gs) : Drains budget cx s gs := by
  obtain ⟨source, fn, activeChild, sourceDone⟩ := s
  cases activeChild with
  | none => exact rest_of_again hTurn h
  | some child =>
      cases hPoll : child.poll budget cx with
      | none => simp [turn, hPoll] at hTurn
      | some q =>
          obtain ⟨r, next⟩ := q
          by_cases hDone : r = .done
          · subst hDone
            rw [turn_child_done hPoll] at hTurn
            exact ⟨[], gs, ⟨0, .final hPoll rfl⟩, rest_of_again hTurn h, rfl⟩
          · rw [turn_child_answer hPoll hDone] at hTurn
            simp at hTurn

theorem drains_of_poll {s : ConcatMapImpl α β} {p : PollResult β × ConcatMapImpl α β}
    (hPoll : AsyncImpl.poll budget cx s = some p) (h : Answers budget cx p gs) :
    Drains budget cx s gs := by
  have hRun : Loop.run (turn budget cx) s = some p := hPoll
  apply Loop.run_induction (motive := fun s p => Answers budget cx p gs → Drains budget cx s gs)
    _ _ hRun h
  · intro s t p hTurn ih hAnswers
    exact drains_of_again hTurn (ih hAnswers)
  · intro s p hTurn hAnswers
    exact drains_of_answers hTurn hAnswers

/-- Polls that reach Done have drained the source and a child of every chunk. -/
theorem drains_of_emits {s : ConcatMapImpl α β} {e : Ending}
    (h : Emits budget cx (makeAsyncStreamHandle s) gs e) (hDone : e = .done) :
    Drains budget cx s gs := by
  obtain ⟨n, h⟩ := h
  apply EmitsIn.make_induction
    (motive := fun _ (s : ConcatMapImpl α β) gs e => e = .done → Drains budget cx s gs) _ _ h hDone
  · intro s s' r e hPoll hEnd hDone
    exact drains_of_poll hPoll (Or.inl ⟨hDone ▸ hEnd, rfl⟩)
  · intro n s s' r gs e hPoll hMore ih hDone
    exact drains_of_poll hPoll (Or.inr ⟨hMore, gs, ih hDone, rfl⟩)

/-! ## The children come out -/

theorem emits_of_child {n : ℕ} {child : AsyncStreamHandle β} {first rest : List (List β)}
    {e : Ending} (hChild : EmitsIn budget cx n child first e) (hDone : e = .done)
    (hRest : Emits budget cx
      (makeAsyncStreamHandle (⟨source, fn, none, sourceDone⟩ : ConcatMapImpl α β)) rest .done) :
    Emits budget cx
      (makeAsyncStreamHandle (⟨source, fn, some child, sourceDone⟩ : ConcatMapImpl α β))
      (first ++ rest) .done := by
  induction hChild with
  | @final child next r e hPoll hEnd =>
      subst hDone
      have hLast : r = .done := by
        cases r <;> simp_all [PollResult.ending]
      subst hLast
      have hTurn : turn budget cx ⟨source, fn, some child, sourceDone⟩ =
          turn budget cx ⟨source, fn, none, sourceDone⟩ := turn_child_done hPoll
      exact Emits.make_congr (Loop.run_congr hTurn) hRest
  | @more n child next r first e hPoll hMore _ ih =>
      have hNot : r ≠ .done := by
        rintro rfl
        cases hMore
      have hAnswer : turn budget cx ⟨source, fn, some child, sourceDone⟩ =
          some (.leave (r, ⟨source, fn, some next, sourceDone⟩)) := turn_child_answer hPoll hNot
      rw [List.append_assoc]
      exact Emits.make_more (Loop.run_leave hAnswer) hMore (ih hDone)

/-- A source and children that reach Done make `concat_map` reach it. -/
theorem emits_of_rest {n : ℕ} {ss : List (List α)} {outs : List (List (List β))} {e : Ending}
    (hSource : EmitsIn budget cx n source ss e) (hDone : e = .done)
    (hOuts : List.Forall₂ (fun x out => Emits budget cx (fn x) out .done) (heads ss) outs) :
    Emits budget cx (makeAsyncStreamHandle (⟨source, fn, none, false⟩ : ConcatMapImpl α β))
      outs.flatten .done := by
  induction hSource generalizing outs with
  | @final source next r e hPoll hEnd =>
      subst hDone
      have hLast : r = .done := by
        cases r <;> simp_all [PollResult.ending]
      subst hLast
      cases hOuts with
      | nil =>
          have hTurn : turn budget cx ⟨source, fn, none, false⟩ =
              some (.leave (.done, ⟨next, fn, none, true⟩)) := by
            simp [turn, advance, hPoll]
          exact Emits.make_final (Loop.run_leave hTurn) rfl
  | @more n source next r ss e hPoll hMore _ ih =>
      cases r with
      | emit chunk =>
          cases hList : chunk.toList with
          | nil =>
              have hTurn : turn budget cx ⟨source, fn, none, false⟩ =
                  some (.again ⟨next, fn, none, false⟩) := by
                simp [turn, advance, hPoll, hList]
              have hSame : heads ((PollResult.emit chunk).groups ++ ss) = heads ss := by
                simp [PollResult.groups, hList]
              rw [hSame] at hOuts
              exact Emits.make_congr (Loop.run_again hTurn) (ih hDone hOuts)
          | cons elem others =>
              have hTurn : turn budget cx ⟨source, fn, none, false⟩ =
                  some (.again ⟨next, fn, some (fn elem), false⟩) := by
                simp [turn, advance, hPoll, hList]
              have hHeads : heads ((PollResult.emit chunk).groups ++ ss) = elem :: heads ss := by
                simp [PollResult.groups, hList]
              rw [hHeads] at hOuts
              cases hOuts with
              | cons hFirst hOthers =>
                  obtain ⟨m, hFirst⟩ := hFirst
                  exact Emits.make_congr (Loop.run_again hTurn)
                    (emits_of_child hFirst rfl (ih hDone hOthers))
      | pending =>
          have hTurn : turn budget cx ⟨source, fn, none, false⟩ =
              some (.leave (.pending, ⟨next, fn, none, false⟩)) := by
            simp [turn, advance, hPoll]
          exact Emits.make_more (Loop.run_leave hTurn) rfl (ih hDone hOuts)
      | yield =>
          have hTurn : turn budget cx ⟨source, fn, none, false⟩ =
              some (.leave (.yield, ⟨next, fn, none, false⟩)) := by
            simp [turn, advance, hPoll]
          exact Emits.make_more (Loop.run_leave hTurn) rfl (ih hDone hOuts)
      | done => cases hMore
      | error e => cases hMore

end ConcatMapImpl

/-! ## Ordered concatenation -/

open Interleaving

variable (budget cx) in
/-- `out` is everything that the children of the elements emit, one child after the other. -/
def IsConcatenation (fn : α → AsyncStreamHandle β) (elems : List α) (out : List β) : Prop :=
  ∃ outs, List.Forall₂ (fun x l => Everything budget cx (fn x) l) elems outs ∧ out = outs.flatten

section Concatenation
variable {fn : α → AsyncStreamHandle β} {ss : List (List α)} {outs all : List (List β)}

/-- The children of all elements emit at least what those of the first ones do. -/
theorem length_heads_le (hSome : ∀ g ∈ ss, g ≠ [])
    (hHeads : List.Forall₂ (fun x l => Denotes budget cx (fn x) l .done) (heads ss) outs)
    (hAll : List.Forall₂ (fun x l => Everything budget cx (fn x) l) ss.flatten all) :
    outs.flatten.length ≤ all.flatten.length := by
  induction ss generalizing outs all with
  | nil =>
      cases hHeads with
      | nil => exact Nat.zero_le _
  | cons g ss ih =>
      cases g with
      | nil => exact absurd rfl (hSome [] List.mem_cons_self)
      | cons x xs =>
          cases hHeads with
          | @cons _ out _ outs hHead hOthers =>
              rw [List.flatten_cons, List.cons_append] at hAll
              cases hAll with
              | @cons _ first _ all hFirst hAll =>
                  obtain ⟨skipped, rest, rfl, -, hRest⟩ := forall₂_append_left hAll
                  have hLess := ih (fun g hg => hSome g (List.mem_cons_of_mem _ hg)) hOthers hRest
                  rw [hHead.eq_of_everything hFirst]
                  simp only [List.flatten_cons, List.flatten_append, List.length_append]
                  omega

theorem heads_isConcatenation_iff (hSome : ∀ g ∈ ss, g ≠ [])
    (hHeads : List.Forall₂ (fun x l => Denotes budget cx (fn x) l .done) (heads ss) outs) :
    IsConcatenation budget cx fn ss.flatten outs.flatten ↔
      ∀ g ∈ ss, ∀ x ∈ g.tail, Silent budget cx (fn x) := by
  induction ss generalizing outs with
  | nil =>
      cases hHeads with
      | nil => exact ⟨fun _ g hg => absurd hg List.not_mem_nil, fun _ => ⟨[], .nil, rfl⟩⟩
  | cons g ss ih =>
      have hSome' : ∀ g ∈ ss, g ≠ [] := fun g hg => hSome g (List.mem_cons_of_mem _ hg)
      cases g with
      | nil => exact absurd rfl (hSome [] List.mem_cons_self)
      | cons x xs =>
          cases hHeads with
          | @cons _ out _ outs hHead hOthers =>
              constructor
              · rintro ⟨all, hAll, hSame⟩
                rw [List.flatten_cons, List.cons_append] at hAll
                cases hAll with
                | @cons _ first _ all hFirst hAll =>
                    obtain ⟨skipped, rest, rfl, hSkipped, hRest⟩ := forall₂_append_left hAll
                    rw [hHead.eq_of_everything hFirst, List.flatten_cons, List.flatten_cons,
                      List.append_cancel_left_eq, List.flatten_append] at hSame
                    have hNone : skipped.flatten = [] := by
                      have hLess := length_heads_le hSome' hOthers hRest
                      rw [hSame, List.length_append] at hLess
                      exact List.eq_nil_of_length_eq_zero (by omega)
                    rw [hNone, List.nil_append] at hSame
                    have hTails := (ih hSome' hOthers).mp ⟨rest, hRest, hSame⟩
                    intro g hg
                    rcases List.mem_cons.mp hg with rfl | hg
                    · exact all_silent_iff.mpr ⟨skipped, hSkipped, hNone⟩
                    · exact hTails g hg
              · intro hSilent
                obtain ⟨rest, hRest, hSame⟩ := (ih hSome' hOthers).mpr
                  fun g hg => hSilent g (List.mem_cons_of_mem _ hg)
                obtain ⟨skipped, hSkipped, hNone⟩ :=
                  all_silent_iff.mp (hSilent (x :: xs) List.mem_cons_self)
                refine ⟨out :: (skipped ++ rest), .cons hHead.everything ?_, ?_⟩
                · exact List.rel_append hSkipped hRest
                · rw [List.flatten_cons, hSame, List.flatten_cons, List.flatten_append, hNone,
                    List.nil_append]

end Concatenation

/-- Up to Done, `concat_map` emits the ordered concatenation exactly if no element behind
the first one of its chunk has a child that emits anything. It does reach Done where the
source and the children of the first elements do. -/
theorem concatMap_concatenates_iff (budget : StreamBudget) (cx : TaskContext)
    (source : AsyncStreamHandle α) (fn : α → AsyncStreamHandle β) :
    (∀ out, Denotes budget cx (concatMap source fn) out .done →
      ∃ ss, Emits budget cx source ss .done ∧
        (IsConcatenation budget cx fn ss.flatten out ↔
          ∀ g ∈ ss, ∀ x ∈ g.tail, Silent budget cx (fn x))) ∧
    ∀ ss outs, Emits budget cx source ss .done →
      List.Forall₂ (fun x l => Denotes budget cx (fn x) l .done) (heads ss) outs →
        Denotes budget cx (concatMap source fn) outs.flatten .done := by
  constructor
  · rintro out ⟨gs, hEmits, rfl⟩
    obtain ⟨ss, gss, hSource, hChildren, rfl⟩ := ConcatMapImpl.drains_of_emits hEmits rfl
    have hHeads := forall₂_denotes_iff.mpr ⟨gss, hChildren, rfl⟩
    rw [List.flatten_flatten]
    exact ⟨ss, hSource, heads_isConcatenation_iff hSource.ne_nil hHeads⟩
  · rintro ss outs ⟨n, hSource⟩ hChildren
    obtain ⟨gss, hGss, rfl⟩ := forall₂_denotes_iff.mp hChildren
    exact ⟨gss.flatten, ConcatMapImpl.emits_of_rest hSource rfl hGss, List.flatten_flatten⟩

/-- A chunk of two elements: the second one is lost. -/
theorem concatMap_skips_second :
    Emits .unbounded ⟨0⟩ (toAsync (Stream.fromVector [1, 2])) [[1, 2]] .done ∧
    Denotes .unbounded ⟨0⟩
      (concatMap (toAsync (Stream.fromVector [1, 2])) fun x => toAsync (Stream.singleton x))
      [1] .done ∧
    ¬ IsConcatenation .unbounded ⟨0⟩ (fun x => toAsync (Stream.singleton x)) [1, 2] [1] := by
  have hSource : Emits .unbounded ⟨0⟩ (toAsync (Stream.fromVector [1, 2])) [[1, 2]] .done :=
    toAsync_emits (.chunk (c := Chunk.from [1, 2]) rfl (.done rfl))
  have hChild : ∀ x : ℕ, Denotes .unbounded ⟨0⟩ (toAsync (Stream.singleton x)) [x] .done :=
    fun x => toAsync_denotes (Stream.singleton_denotes x)
  refine ⟨hSource, ?_, ?_⟩
  · obtain ⟨n, hSource⟩ := hSource
    obtain ⟨gs, hGs, hFlat⟩ := hChild 1
    have hEmits : Emits .unbounded ⟨0⟩
        (concatMap (toAsync (Stream.fromVector [1, 2])) fun x => toAsync (Stream.singleton x))
        [gs].flatten .done := ConcatMapImpl.emits_of_rest hSource rfl (.cons hGs .nil)
    rw [List.flatten_singleton] at hEmits
    exact ⟨gs, hEmits, hFlat⟩
  · rintro ⟨outs, _ | ⟨hFirst, _ | ⟨hSecond, _⟩⟩, hSame⟩
    rw [(hChild 1).eq_of_everything hFirst, (hChild 2).eq_of_everything hSecond] at hSame
    simp at hSame

end CelerMem.Async
