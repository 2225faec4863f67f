import CelerMem.Core.Combinators
import CelerMem.Core.Meaning

/-! The combinators act on denotations as the list operations do, so a pipeline
of any depth denotes what its list-level reading says. -/
namespace CelerMem.Stream

variable {α β : Type}

/-! ## One combinator -/

theorem map_denotes {source : StreamHandle α} {l : List α} {e : Ending}
    (h : Denotes source l e) (fn : α → β) : Denotes (map source fn) (l.map fn) e := by
  induction h with
  | done hPull => exact Denotes.make_done (by simp [StreamImpl.pull, MapImpl.pull, hPull]; rfl)
  | error hPull => exact Denotes.make_error (by simp [StreamImpl.pull, MapImpl.pull, hPull]; rfl)
  | @chunk source next c l e hPull rest ih =>
      have hMapped : StreamImpl.pull (⟨source, fn⟩ : MapImpl α β) =
          some (.ok (some (Chunk.build c.size (c.toList.map fn) (by simp) c.size_lt)), ⟨next, fn⟩) := by
        simp [StreamImpl.pull, MapImpl.pull, hPull]
      have hChunk := Denotes.make_chunk hMapped ih
      rw [Chunk.toList_build, ← List.map_append] at hChunk
      exact hChunk

theorem filter_denotes {source : StreamHandle α} {l : List α} {e : Ending}
    (h : Denotes source l e) (pred : α → Bool) :
    Denotes (filter source pred) (l.filter pred) e := by
  induction h with
  | @done source next hPull =>
      have hTurn : FilterImpl.turn ⟨source, pred⟩ = some (.leave (.ok none, ⟨next, pred⟩)) := by
        simp [FilterImpl.turn, hPull]
      exact Denotes.make_done (Loop.run_leave hTurn)
  | @error source next err hPull =>
      have hTurn : FilterImpl.turn ⟨source, pred⟩ = some (.leave (.error err, ⟨next, pred⟩)) := by
        simp [FilterImpl.turn, hPull]
      exact Denotes.make_error (Loop.run_leave hTurn)
  | @chunk source next c l e hPull rest ih =>
      rw [List.filter_append]
      by_cases hKept : c.toList.filter pred = []
      · -- Nothing of this chunk is kept, so the same pull goes on to the next one.
        have hTurn : FilterImpl.turn ⟨source, pred⟩ = some (.again ⟨next, pred⟩) := by
          simpa [FilterImpl.turn, hPull, Chunk.empty_iff] using hKept
        rw [hKept, List.nil_append]
        exact Denotes.make_congr (Loop.run_again hTurn) ih
      · have hTurn : FilterImpl.turn ⟨source, pred⟩ = some (.leave (.ok (some (Chunk.build c.size
            (c.toList.filter pred) (by simpa using List.length_filter_le pred c.toList)
            c.size_lt)), ⟨next, pred⟩)) := by
          simpa [FilterImpl.turn, hPull, Chunk.empty_iff] using hKept
        have hChunk := Denotes.make_chunk (Loop.run_leave hTurn) ih
        rw [Chunk.toList_build] at hChunk
        exact hChunk

/-- The first `n` elements and done, where there are `n`. -/
def takeMeaning (n : Nat) (l : List α) (e : Ending) : List α × Ending :=
  if n ≤ l.length then (l.take n, .done) else (l, e)

theorem takeMeaning_append {n : Nat} {before : List α} (h : before.length ≤ n) (l : List α)
    (e : Ending) : takeMeaning n (before ++ l) e =
      (before ++ (takeMeaning (n - before.length) l e).1,
        (takeMeaning (n - before.length) l e).2) := by
  have hLength : n ≤ (before ++ l).length ↔ n - before.length ≤ l.length := by
    rw [List.length_append]
    omega
  unfold takeMeaning
  by_cases hEnough : n - before.length ≤ l.length
  · rw [if_pos (hLength.mpr hEnough), if_pos hEnough, List.take_append, List.take_of_length_le h]
  · rw [if_neg (mt hLength.mp hEnough), if_neg hEnough]

theorem take_zero_denotes (source : StreamHandle α) : Denotes (take source 0) [] .done := by
  have hPull : StreamImpl.pull (⟨source, 0⟩ : TakeImpl α) = some (.ok none, ⟨source, 0⟩) := by
    simp [StreamImpl.pull, TakeImpl.pull]
  exact Denotes.make_done hPull

theorem take_denotes {source : StreamHandle α} {l : List α} {e : Ending}
    (h : Denotes source l e) (n : Nat) :
    Denotes (take source n) (takeMeaning n l e).1 (takeMeaning n l e).2 := by
  induction h generalizing n with
  | @done source next hPull =>
      by_cases hn : n = 0
      · subst hn
        exact take_zero_denotes source
      · have hTake : StreamImpl.pull (⟨source, n⟩ : TakeImpl α) = some (.ok none, ⟨next, n⟩) := by
          simp [StreamImpl.pull, TakeImpl.pull, hn, hPull]
        have hEnd : takeMeaning n ([] : List α) .done = ([], .done) := by
          simp [takeMeaning]
        rw [hEnd]
        exact Denotes.make_done hTake
  | @error source next err hPull =>
      by_cases hn : n = 0
      · subst hn
        exact take_zero_denotes source
      · have hTake : StreamImpl.pull (⟨source, n⟩ : TakeImpl α) = some (.error err, ⟨next, n⟩) := by
          simp [StreamImpl.pull, TakeImpl.pull, hn, hPull]
        have hEnd : takeMeaning n ([] : List α) (.error err) = ([], .error err) := by
          simp [takeMeaning, hn]
        rw [hEnd]
        exact Denotes.make_error hTake
  | @chunk source next c l e hPull rest ih =>
      by_cases hn : n = 0
      · subst hn
        simpa [takeMeaning] using take_zero_denotes source
      · by_cases hFits : c.size ≤ n
        · have hTake : StreamImpl.pull (⟨source, n⟩ : TakeImpl α) =
              some (.ok (some c), ⟨next, n - c.size⟩) := by
            simp [StreamImpl.pull, TakeImpl.pull, hn, hPull, hFits]
          rw [takeMeaning_append (by simpa using hFits), Chunk.length_toList]
          exact Denotes.make_chunk hTake (ih (n - c.size))
        · -- The limit falls inside the chunk: the slice is the last one, whatever follows.
          have hTake : StreamImpl.pull (⟨source, n⟩ : TakeImpl α) =
              some (.ok (some (c.slice 0 n)), ⟨next, 0⟩) := by
            simp [StreamImpl.pull, TakeImpl.pull, hn, hPull, hFits]
          have hEnough : takeMeaning n (c.toList ++ l) e = (c.toList.take n, .done) := by
            have hLength : n ≤ c.toList.length := by rw [Chunk.length_toList]; omega
            simp [takeMeaning, List.take_append_of_le_length hLength,
              show n ≤ c.size + l.length by omega]
          have hChunk := Denotes.make_chunk hTake (take_zero_denotes next)
          rw [Chunk.toList_slice, List.drop_zero, List.append_nil] at hChunk
          rw [hEnough]
          exact hChunk

/-! ## flat_map -/

/-- A sub-stream that ends in an error ends the whole stream with it. -/
def andThen (first second : List β × Ending) : List β × Ending :=
  match first.2 with
  | .done => (first.1 ++ second.1, second.2)
  | .error err => (first.1, .error err)

def flatMapMeaning (sub : α → List β × Ending) : List α → Ending → List β × Ending
  | [], e => ([], e)
  | x :: xs, e => andThen (sub x) (flatMapMeaning sub xs e)

section FlatMap
variable {source : StreamHandle α} {fn : α → StreamHandle β} {pending : List α}

/-- An active sub-stream is drained before anything else is looked at. -/
theorem flatMap_sub_denotes {sub : StreamHandle β} {l : List β} {e : Ending} {after : List β × Ending}
    (hSub : Denotes sub l e)
    (hAfter : Denotes (makeStreamHandle (⟨source, fn, none, pending⟩ : FlatMapImpl α β))
      after.1 after.2) :
    Denotes (makeStreamHandle (⟨source, fn, some sub, pending⟩ : FlatMapImpl α β))
      (andThen (l, e) after).1 (andThen (l, e) after).2 := by
  induction hSub with
  | @done sub next hPull =>
      have hTurn : FlatMapImpl.turn ⟨source, fn, some sub, pending⟩ =
          FlatMapImpl.turn ⟨source, fn, none, pending⟩ := by
        simp [FlatMapImpl.turn, hPull]
      exact Denotes.make_congr (Loop.run_congr hTurn) hAfter
  | @error sub next err hPull =>
      have hTurn : FlatMapImpl.turn ⟨source, fn, some sub, pending⟩ =
          some (.leave (.error err, ⟨source, fn, some next, pending⟩)) := by
        simp [FlatMapImpl.turn, hPull]
      exact Denotes.make_error (Loop.run_leave hTurn)
  | @chunk sub next c l e hPull rest ih =>
      have hTurn : FlatMapImpl.turn ⟨source, fn, some sub, pending⟩ =
          some (.leave (.ok (some c), ⟨source, fn, some next, pending⟩)) := by
        simp [FlatMapImpl.turn, hPull]
      have hChunk := Denotes.make_chunk (Loop.run_leave hTurn) ih
      cases e with
      | done => simpa [andThen, List.append_assoc] using hChunk
      | error err => exact hChunk

variable {sub : α → List β × Ending}

/-- The elements buffered from a chunk come before the rest of the source. -/
theorem flatMap_pending_denotes (hFn : ∀ x, Denotes (fn x) (sub x).1 (sub x).2)
    {l : List α} {e : Ending}
    (hAfter : Denotes (makeStreamHandle (⟨source, fn, none, []⟩ : FlatMapImpl α β))
      (flatMapMeaning sub l e).1 (flatMapMeaning sub l e).2) (pending : List α) :
    Denotes (makeStreamHandle (⟨source, fn, none, pending⟩ : FlatMapImpl α β))
      (flatMapMeaning sub (pending ++ l) e).1 (flatMapMeaning sub (pending ++ l) e).2 := by
  induction pending with
  | nil => exact hAfter
  | cons x xs ih =>
      have hTurn : FlatMapImpl.turn ⟨source, fn, none, x :: xs⟩ =
          some (.again ⟨source, fn, some (fn x), xs⟩) := rfl
      exact Denotes.make_congr (Loop.run_again hTurn) (flatMap_sub_denotes (hFn x) ih)

theorem flatMap_denotes (hFn : ∀ x, Denotes (fn x) (sub x).1 (sub x).2)
    {l : List α} {e : Ending} (h : Denotes source l e) :
    Denotes (flatMap source fn) (flatMapMeaning sub l e).1 (flatMapMeaning sub l e).2 := by
  induction h with
  | @done source next hPull =>
      have hTurn : FlatMapImpl.turn ⟨source, fn, none, []⟩ =
          some (.leave (.ok none, ⟨next, fn, none, []⟩)) := by
        simp [FlatMapImpl.turn, FlatMapImpl.advance, hPull]
      exact Denotes.make_done (Loop.run_leave hTurn)
  | @error source next err hPull =>
      have hTurn : FlatMapImpl.turn ⟨source, fn, none, []⟩ =
          some (.leave (.error err, ⟨next, fn, none, []⟩)) := by
        simp [FlatMapImpl.turn, FlatMapImpl.advance, hPull]
      exact Denotes.make_error (Loop.run_leave hTurn)
  | @chunk source next c l e hPull rest ih =>
      cases hList : c.toList with
      | nil =>
          have hTurn : FlatMapImpl.turn ⟨source, fn, none, []⟩ =
              some (.again ⟨next, fn, none, []⟩) := by
            simp [FlatMapImpl.turn, FlatMapImpl.advance, hPull, hList]
          exact Denotes.make_congr (Loop.run_again hTurn) ih
      | cons first others =>
          have hTurn : FlatMapImpl.turn ⟨source, fn, none, []⟩ =
              some (.again ⟨next, fn, some (fn first), others⟩) := by
            simp [FlatMapImpl.turn, FlatMapImpl.advance, hPull, hList]
          have hOthers := flatMap_pending_denotes hFn ih others
          exact Denotes.make_congr (Loop.run_again hTurn)
            (flatMap_sub_denotes (hFn first) hOthers)

end FlatMap

/-! ## Whole pipelines -/

/-- Compositions of the combinators. A leaf is any stream together with what it
denotes, so its chunking stays arbitrary. -/
inductive Pipeline : Type → Type 1 where
  | source {α : Type} (h : StreamHandle α) (l : List α) (e : Ending) (hd : Denotes h l e) :
      Pipeline α
  | map {α β : Type} (p : Pipeline α) (fn : α → β) : Pipeline β
  | filter {α : Type} (p : Pipeline α) (pred : α → Bool) : Pipeline α
  | take {α : Type} (p : Pipeline α) (n : Nat) : Pipeline α
  | flatMap {α β : Type} (p : Pipeline α) (fn : α → Pipeline β) : Pipeline β

namespace Pipeline

/-- The stream that the combinators build. -/
def build {α : Type} : Pipeline α → StreamHandle α
  | source h _ _ _ => h
  | map p fn => Stream.map p.build fn
  | filter p pred => Stream.filter p.build pred
  | take p n => Stream.take p.build n
  | flatMap p fn => Stream.flatMap p.build fun x => (fn x).build

/-- The list-level reading. It sees of a leaf only what the leaf denotes. -/
def meaning {α : Type} : Pipeline α → List α × Ending
  | source _ l e _ => (l, e)
  | map p fn => (p.meaning.1.map fn, p.meaning.2)
  | filter p pred => (p.meaning.1.filter pred, p.meaning.2)
  | take p n => takeMeaning n p.meaning.1 p.meaning.2
  | flatMap p fn =>
      flatMapMeaning (fun x => (fn x).meaning) p.meaning.1 p.meaning.2

theorem build_denotes {α : Type} (p : Pipeline α) :
    Denotes p.build p.meaning.1 p.meaning.2 := by
  induction p with
  | source h l e hd => exact hd
  | map p fn ih => exact map_denotes ih fn
  | filter p pred ih => exact filter_denotes ih pred
  | take p n ih => exact take_denotes ih n
  | flatMap p fn ih ihFn => exact flatMap_denotes ihFn ih

/-- The same composition over leaves that denote the same, cut into other chunks. -/
inductive Rechunked : {α : Type} → Pipeline α → Pipeline α → Prop where
  | source {α : Type} {h h' : StreamHandle α} {l : List α} {e : Ending}
      (hd : Denotes h l e) (hd' : Denotes h' l e) :
      Rechunked (.source h l e hd) (.source h' l e hd')
  | map {α β : Type} {p p' : Pipeline α} {fn : α → β} (hp : Rechunked p p') :
      Rechunked (.map p fn) (.map p' fn)
  | filter {α : Type} {p p' : Pipeline α} {pred : α → Bool} (hp : Rechunked p p') :
      Rechunked (.filter p pred) (.filter p' pred)
  | take {α : Type} {p p' : Pipeline α} {n : Nat} (hp : Rechunked p p') :
      Rechunked (.take p n) (.take p' n)
  | flatMap {α β : Type} {p p' : Pipeline α} {fn fn' : α → Pipeline β} (hp : Rechunked p p')
      (hFn : ∀ x, Rechunked (fn x) (fn' x)) : Rechunked (.flatMap p fn) (.flatMap p' fn')

theorem Rechunked.meaning_eq {α : Type} {p p' : Pipeline α} (h : Rechunked p p') :
    p.meaning = p'.meaning := by
  induction h with
  | source hd hd' => rfl
  | map hp ih => simp only [meaning, ih]
  | filter hp ih => simp only [meaning, ih]
  | take hp ih => simp only [meaning, ih]
  | flatMap hp hFn ih ihFn => simp only [meaning, ih, ihFn]

/-- Every composition denotes its list-level reading; `collect` returns the list
or the error of that meaning, and no chunk boundary shows in it. -/
theorem denotes_lists {α : Type} (p : Pipeline α) :
    Denotes p.build p.meaning.1 p.meaning.2 ∧
    collect p.build = some (p.meaning.2.result p.meaning.1) ∧
    ∀ p', Rechunked p p' → collect p'.build = collect p.build := by
  refine ⟨p.build_denotes, p.build_denotes.collect, ?_⟩
  intro p' hSame
  rw [p'.build_denotes.collect, p.build_denotes.collect, hSame.meaning_eq]

end Pipeline
end CelerMem.Stream
