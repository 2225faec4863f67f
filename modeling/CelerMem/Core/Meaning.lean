import CelerMem.Core.Stream

/-! What a stream is for: a source denotes the list of the elements in all of
its chunks and the way it ends. How the list is cut into chunks is left out. -/
namespace CelerMem

variable {α β Impl : Type}

/-- How a stream ends: `nullopt` or an error. -/
inductive Ending where
  | done
  | error (e : Error)
  deriving DecidableEq, Repr

/-- What a terminal operation makes of the elements and the ending. -/
def Ending.result : Ending → List α → Result (List α)
  | .done, out => .ok out
  | .error e, _ => .error e

/-- The pulls of `h` return chunks that make up `l`, and then the ending. Every
pull up to there returns; nothing is said about pulls after the ending. -/
inductive Denotes : StreamHandle α → List α → Ending → Prop where
  | done {h h' : StreamHandle α} (hPull : h.pull = some (.ok none, h')) : Denotes h [] .done
  | error {h h' : StreamHandle α} {e : Error} (hPull : h.pull = some (.error e, h')) :
      Denotes h [] (.error e)
  | chunk {h h' : StreamHandle α} {c : Chunk α} {l : List α} {e : Ending}
      (hPull : h.pull = some (.ok (some c), h')) (rest : Denotes h' l e) :
      Denotes h (c.toList ++ l) e

namespace Denotes

/-- A stream denotes at most one list and ending. -/
theorem unique {h : StreamHandle α} {l l' : List α} {e e' : Ending}
    (first : Denotes h l e) (second : Denotes h l' e') : l = l' ∧ e = e' := by
  induction first generalizing l' e' with
  | done hPull =>
      cases second with
      | done _ => exact ⟨rfl, rfl⟩
      | error hPull' => simp [hPull] at hPull'
      | chunk hPull' _ => simp [hPull] at hPull'
  | error hPull =>
      cases second with
      | done hPull' => simp [hPull] at hPull'
      | error hPull' =>
          have he := hPull.symm.trans hPull'
          simp only [Option.some.injEq, Prod.mk.injEq, Except.error.injEq] at he
          exact ⟨rfl, congrArg Ending.error he.1⟩
      | chunk hPull' _ => simp [hPull] at hPull'
  | chunk hPull _ ih =>
      cases second with
      | done hPull' => simp [hPull] at hPull'
      | error hPull' => simp [hPull] at hPull'
      | chunk hPull' rest' =>
          have he := hPull.symm.trans hPull'
          simp only [Option.some.injEq, Prod.mk.injEq, Except.ok.injEq] at he
          obtain ⟨rfl, rfl⟩ := he
          obtain ⟨rfl, rfl⟩ := ih rest'
          exact ⟨rfl, rfl⟩

/-! ## Streams given by an implementation -/

section Implementation
variable [StreamImpl Impl α] {impl next : Impl} {l : List α} {e : Ending}

theorem make_done (hPull : StreamImpl.pull impl = some (.ok none, next)) :
    Denotes (makeStreamHandle impl) [] .done :=
  .done (by rw [makeStreamHandle_pull, hPull]; rfl)

theorem make_error {err : Error} (hPull : StreamImpl.pull impl = some (.error err, next)) :
    Denotes (makeStreamHandle impl) [] (.error err) :=
  .error (by rw [makeStreamHandle_pull, hPull]; rfl)

theorem make_chunk {c : Chunk α} (hPull : StreamImpl.pull impl = some (.ok (some c), next))
    (rest : Denotes (makeStreamHandle next) l e) :
    Denotes (makeStreamHandle impl) (c.toList ++ l) e :=
  .chunk (by rw [makeStreamHandle_pull, hPull]; rfl) rest

/-- Only the next pull matters: a state whose pull loops on to the pull of
another state denotes what that one does. -/
theorem make_congr (hPull : StreamImpl.pull impl = StreamImpl.pull next)
    (h : Denotes (makeStreamHandle next) l e) : Denotes (makeStreamHandle impl) l e := by
  have hSame : (makeStreamHandle impl).pull = (makeStreamHandle next).pull := by
    rw [makeStreamHandle_pull, makeStreamHandle_pull, hPull]
  cases h with
  | done hDone => exact .done (hSame.trans hDone)
  | error hError => exact .error (hSame.trans hError)
  | chunk hChunk rest => exact .chunk (hSame.trans hChunk) rest

end Implementation

theorem collectTurn_run {h : StreamHandle α} {l : List α} {e : Ending} (hd : Denotes h l e)
    (out : List α) : Loop.run Stream.collectTurn (h, out) = some (e.result (out ++ l)) := by
  induction hd generalizing out with
  | done hPull =>
      rw [List.append_nil]
      exact Loop.run_leave (by simp [Stream.collectTurn, hPull, Ending.result])
  | error hPull => exact Loop.run_leave (by simp [Stream.collectTurn, hPull, Ending.result])
  | chunk hPull _ ih =>
      rw [Loop.run_again (by simp [Stream.collectTurn, hPull]; rfl), ih, List.append_assoc]

/-- `collect` returns the list when the stream ends in done, else its error. -/
theorem collect {h : StreamHandle α} {l : List α} {e : Ending} (hd : Denotes h l e) :
    Stream.collect h = some (e.result l) :=
  hd.collectTurn_run []

end Denotes

/-- An element of one of the chunks that the pulls of a stream return; the stream need
not end. -/
inductive Brings : StreamHandle α → α → Prop where
  | here {h h' : StreamHandle α} {c : Chunk α} {x : α} (hPull : h.pull = some (.ok (some c), h'))
      (hMem : x ∈ c.toList) : Brings h x
  | later {h h' : StreamHandle α} {c : Chunk α} {x : α} (hPull : h.pull = some (.ok (some c), h'))
      (rest : Brings h' x) : Brings h x

theorem brings_iff_of_chunk {h h' : StreamHandle α} {c : Chunk α}
    (hPull : h.pull = some (.ok (some c), h')) (x : α) :
    Brings h x ↔ x ∈ c.toList ∨ Brings h' x := by
  constructor
  · intro hx
    cases hx with
    | here hPull' hMem =>
        have hSame := hPull.symm.trans hPull'
        rw [Option.some.injEq, Prod.mk.injEq, Except.ok.injEq, Option.some.injEq] at hSame
        exact Or.inl (hSame.1 ▸ hMem)
    | later hPull' rest =>
        have hSame := hPull.symm.trans hPull'
        rw [Option.some.injEq, Prod.mk.injEq] at hSame
        exact Or.inr (hSame.2 ▸ rest)
  · rintro (hMem | rest)
    · exact .here hPull hMem
    · exact .later hPull rest

theorem not_brings_of_end {h h' : StreamHandle α} {r : Result (Option (Chunk α))}
    (hPull : h.pull = some (r, h')) (hEnd : ∀ c, r ≠ .ok (some c)) (x : α) : ¬ Brings h x := by
  intro hx
  cases hx with
  | here hPull' _ => exact hEnd _ (Prod.mk.inj (Option.some.inj (hPull.symm.trans hPull'))).1
  | later hPull' _ => exact hEnd _ (Prod.mk.inj (Option.some.inj (hPull.symm.trans hPull'))).1

theorem Denotes.brings_iff {h : StreamHandle α} {l : List α} {e : Ending} (hd : Denotes h l e)
    (x : α) : Brings h x ↔ x ∈ l := by
  induction hd with
  | done hPull =>
      exact iff_of_false (not_brings_of_end hPull (fun c hc => by cases hc) x) List.not_mem_nil
  | error hPull =>
      exact iff_of_false (not_brings_of_end hPull (fun c hc => by cases hc) x) List.not_mem_nil
  | chunk hPull _ ih => rw [brings_iff_of_chunk hPull, ih, List.mem_append]

/-! ## Chunk by chunk -/

/-- The pulls of `h` return exactly the chunks `cs` and then the ending. -/
inductive Emits : StreamHandle α → List (Chunk α) → Ending → Prop where
  | done {h h' : StreamHandle α} (hPull : h.pull = some (.ok none, h')) : Emits h [] .done
  | error {h h' : StreamHandle α} {e : Error} (hPull : h.pull = some (.error e, h')) :
      Emits h [] (.error e)
  | chunk {h h' : StreamHandle α} {c : Chunk α} {cs : List (Chunk α)} {e : Ending}
      (hPull : h.pull = some (.ok (some c), h')) (rest : Emits h' cs e) : Emits h (c :: cs) e

section Implementation
variable [StreamImpl Impl α] {impl next : Impl} {cs : List (Chunk α)} {e : Ending}

theorem Emits.make_done (hPull : StreamImpl.pull impl = some (.ok none, next)) :
    Emits (makeStreamHandle impl) [] .done :=
  .done (by rw [makeStreamHandle_pull, hPull]; rfl)

theorem Emits.make_error {err : Error} (hPull : StreamImpl.pull impl = some (.error err, next)) :
    Emits (makeStreamHandle impl) [] (.error err) :=
  .error (by rw [makeStreamHandle_pull, hPull]; rfl)

theorem Emits.make_chunk {c : Chunk α} (hPull : StreamImpl.pull impl = some (.ok (some c), next))
    (rest : Emits (makeStreamHandle next) cs e) : Emits (makeStreamHandle impl) (c :: cs) e :=
  .chunk (by rw [makeStreamHandle_pull, hPull]; rfl) rest

theorem Emits.make_congr (hPull : StreamImpl.pull impl = StreamImpl.pull next)
    (h : Emits (makeStreamHandle next) cs e) : Emits (makeStreamHandle impl) cs e := by
  have hSame : (makeStreamHandle impl).pull = (makeStreamHandle next).pull := by
    rw [makeStreamHandle_pull, makeStreamHandle_pull, hPull]
  cases h with
  | done hDone => exact .done (hSame.trans hDone)
  | error hError => exact .error (hSame.trans hError)
  | chunk hChunk rest => exact .chunk (hSame.trans hChunk) rest

end Implementation

/-- The elements of a list of chunks. -/
def chunkElems (cs : List (Chunk α)) : List α := (cs.map Chunk.toList).flatten

@[simp] theorem chunkElems_nil : chunkElems ([] : List (Chunk α)) = [] := rfl

@[simp] theorem chunkElems_cons (c : Chunk α) (cs : List (Chunk α)) :
    chunkElems (c :: cs) = c.toList ++ chunkElems cs := rfl

theorem chunkElems_singletons (l : List α) : chunkElems (l.map Chunk.singleton) = l := by
  induction l with
  | nil => rfl
  | cons a l ih => rw [List.map_cons, chunkElems_cons, ih, Chunk.toList_singleton]; rfl

theorem Emits.denotes {h : StreamHandle α} {cs : List (Chunk α)} {e : Ending}
    (hc : Emits h cs e) : Denotes h (chunkElems cs) e := by
  induction hc with
  | done hPull => exact .done hPull
  | error hPull => exact .error hPull
  | chunk hPull _ ih => exact .chunk hPull ih

theorem Denotes.emits {h : StreamHandle α} {l : List α} {e : Ending} (hd : Denotes h l e) :
    ∃ cs, Emits h cs e ∧ chunkElems cs = l := by
  induction hd with
  | done hPull => exact ⟨[], .done hPull, rfl⟩
  | error hPull => exact ⟨[], .error hPull, rfl⟩
  | @chunk _ _ c _ _ hPull _ ih =>
      obtain ⟨cs, hRest, rfl⟩ := ih
      exact ⟨c :: cs, .chunk hPull hRest, rfl⟩

namespace Stream

/-- A source that emits given chunks: a page iterator over any paging. -/
structure ChunksImpl (α : Type) where
  chunks : List (Chunk α)
  ending : Ending

def ChunksImpl.pull (s : ChunksImpl α) : Option (Pulled α × ChunksImpl α) :=
  match s.chunks, s.ending with
  | c :: cs, _ => some (.ok (some c), { s with chunks := cs })
  | [], .done => some (.ok none, s)
  | [], .error e => some (.error e, s)

instance : StreamImpl (ChunksImpl α) α where
  pull := ChunksImpl.pull
  copy s := s

def ofChunks (chunks : List (Chunk α)) (ending : Ending) : StreamHandle α :=
  makeStreamHandle (⟨chunks, ending⟩ : ChunksImpl α)

theorem ofChunks_emits (chunks : List (Chunk α)) (ending : Ending) :
    Emits (ofChunks chunks ending) chunks ending := by
  induction chunks with
  | nil =>
      cases ending with
      | done => exact .done (by rw [ofChunks, makeStreamHandle_pull]; rfl)
      | error e => exact .error (by rw [ofChunks, makeStreamHandle_pull]; rfl)
  | cons c cs ih => exact .chunk (by rw [ofChunks, makeStreamHandle_pull]; rfl) ih

/-- Twice the same number of equal elements, each time in one chunk. -/
theorem replicate_denotes {n : ℕ} (hn : n < uint32Size) (value : α) :
    Denotes (ofChunks [Chunk.from (List.replicate n value), Chunk.from (List.replicate n value)]
      .done) (List.replicate (n + n) value) .done := by
  have hChunk : (Chunk.from (List.replicate n value)).toList = List.replicate n value := by
    apply Chunk.toList_from_of_lt
    rw [List.length_replicate]
    exact hn
  have hDenotes := (ofChunks_emits [Chunk.from (List.replicate n value),
    Chunk.from (List.replicate n value)] .done).denotes
  rwa [chunkElems_cons, chunkElems_cons, chunkElems_nil, List.append_nil, hChunk,
    List.replicate_append_replicate] at hDenotes

theorem empty_denotes : Denotes (empty : StreamHandle α) [] .done := by
  have hPull : StreamImpl.pull (⟨⟩ : EmptyImpl α) = some (.ok none, ⟨⟩) := rfl
  exact Denotes.make_done hPull

theorem singleton_denotes (value : α) : Denotes (singleton value) [value] .done := by
  have hEnd : StreamImpl.pull (⟨none⟩ : SingletonImpl α) = some (.ok none, ⟨none⟩) := rfl
  have hChunk : StreamImpl.pull (⟨some value⟩ : SingletonImpl α) =
      some (.ok (some (Chunk.singleton value)), ⟨none⟩) := rfl
  exact Denotes.make_chunk hChunk (Denotes.make_done hEnd)

/-- The one chunk of the stream, whatever is left of it. -/
theorem fromVector_denotes_chunk (data : List α) :
    Denotes (fromVector data) (Chunk.from data).toList .done := by
  have hEnd : StreamImpl.pull (⟨none⟩ : FromVectorImpl α) = some (.ok none, ⟨none⟩) := rfl
  cases data with
  | nil =>
      have hNil : StreamImpl.pull (⟨some []⟩ : FromVectorImpl α) = some (.ok none, ⟨some []⟩) := rfl
      exact Denotes.make_done hNil
  | cons first rest =>
      have hData : StreamImpl.pull (⟨some (first :: rest)⟩ : FromVectorImpl α) =
          some (.ok (some (Chunk.from (first :: rest))), ⟨none⟩) := rfl
      have hChunk := Denotes.make_chunk hData (Denotes.make_done hEnd)
      rwa [List.append_nil] at hChunk

theorem fromVector_emits (data : List α) :
    Emits (fromVector data) (if data = [] then [] else [Chunk.from data]) .done := by
  have hEnd : StreamImpl.pull (⟨none⟩ : FromVectorImpl α) = some (.ok none, ⟨none⟩) := rfl
  cases data with
  | nil =>
      have hNil : StreamImpl.pull (⟨some []⟩ : FromVectorImpl α) = some (.ok none, ⟨some []⟩) := rfl
      exact Emits.make_done hNil
  | cons first rest =>
      have hData : StreamImpl.pull (⟨some (first :: rest)⟩ : FromVectorImpl α) =
          some (.ok (some (Chunk.from (first :: rest))), ⟨none⟩) := rfl
      exact Emits.make_chunk hData (Emits.make_done hEnd)

theorem fromVector_denotes {data : List α} (h : data.length < uint32Size) :
    Denotes (fromVector data) data .done := by
  have hDenotes := fromVector_denotes_chunk data
  rwa [Chunk.toList_from_of_lt h] at hDenotes

end Stream
end CelerMem
