import CelerMem.Core.ChunkSlices
import Mathlib

/-! Streams that make a chunk of every page of elements. A page without elements is taken for
the end, whether or not it is the last one. -/
namespace CelerMem

variable {α Impl : Type}

/-- The elements of the pages up to the first one without any, as many of a page as the length
of its chunk says. -/
def brought : List (List α) → List α
  | [] => []
  | [] :: _ => []
  | page :: pages => (Chunk.from page).toList ++ brought pages

theorem brought_cons {page : List α} (hPage : page ≠ []) (pages : List (List α)) :
    brought (page :: pages) = (Chunk.from page).toList ++ brought pages := by
  cases page with
  | nil => exact absurd rfl hPage
  | cons x xs => rfl

theorem brought_sublist (pages : List (List α)) : (brought pages).Sublist pages.flatten := by
  induction pages with
  | nil => exact List.Sublist.slnil
  | cons page pages ih =>
      by_cases hPage : page = []
      · subst hPage
        exact List.nil_sublist _
      · rw [brought_cons hPage, List.flatten_cons, Chunk.toList_from]
        exact (List.take_sublist _ _).append ih

/-- Nothing is lost if and only if no elements come after a page without any and the pages fit
into chunks. -/
theorem length_brought_eq_iff (pages : List (List α)) :
    (brought pages).length = pages.flatten.length ↔
      pages.Pairwise (fun page later => page = [] → later = []) ∧
        ∀ page ∈ pages, page.length < uint32Size := by
  induction pages with
  | nil => simp [brought]
  | cons page pages ih =>
      rw [List.pairwise_cons, List.forall_mem_cons]
      by_cases hPage : page = []
      · subst hPage
        have hRoom : 0 < uint32Size := by decide
        constructor
        · intro hNone
          have hRest : ∀ later ∈ pages, later = [] :=
            List.flatten_eq_nil_iff.mp (List.length_eq_zero_iff.mp hNone.symm)
          refine ⟨⟨fun later hMem _ => hRest later hMem, ?_⟩, hRoom, ?_⟩
          · exact List.pairwise_of_forall_mem_list fun _ _ later hLater _ => hRest later hLater
          · intro later hMem
            rw [hRest later hMem]
            exact hRoom
        · rintro ⟨⟨hRest, -⟩, -⟩
          have hNone : pages.flatten = [] :=
            List.flatten_eq_nil_iff.mpr fun later hMem => hRest later hMem rfl
          rw [List.flatten_cons, List.nil_append, hNone]
          rfl
      · have hKept : (Chunk.from page).toList.length = page.length % uint32Size := by
          rw [Chunk.toList_from, List.length_take, Nat.min_eq_left (Nat.mod_le _ _)]
        have hFits : page.length % uint32Size = page.length ↔ page.length < uint32Size :=
          Nat.mod_eq_iff_lt (by decide)
        have hLess := (brought_sublist pages).length_le
        have hCut := Nat.mod_le page.length uint32Size
        rw [brought_cons hPage, List.flatten_cons, List.length_append, List.length_append, hKept]
        constructor
        · intro hSame
          have hHere : page.length % uint32Size = page.length := by omega
          have hRest : (brought pages).length = pages.flatten.length := by omega
          obtain ⟨hOrder, hOthers⟩ := ih.mp hRest
          exact ⟨⟨fun _ _ hEmpty => absurd hEmpty hPage, hOrder⟩, hFits.mp hHere, hOthers⟩
        · rintro ⟨⟨-, hOrder⟩, hHere, hOthers⟩
          rw [hFits.mpr hHere, ih.mpr ⟨hOrder, hOthers⟩]

theorem brought_eq_iff (pages : List (List α)) : brought pages = pages.flatten ↔
    pages.Pairwise (fun page later => page = [] → later = []) ∧
      ∀ page ∈ pages, page.length < uint32Size := by
  rw [← length_brought_eq_iff]
  exact ⟨congrArg List.length, (brought_sublist pages).eq_of_length⟩

theorem brought_perm_iff (pages : List (List α)) : (brought pages).Perm pages.flatten ↔
    pages.Pairwise (fun page later => page = [] → later = []) ∧
      ∀ page ∈ pages, page.length < uint32Size := by
  rw [← brought_eq_iff]
  constructor
  · exact fun hPerm => (brought_sublist pages).eq_of_length hPerm.length_eq
  · exact fun hSame => hSame ▸ List.Perm.refl _

/-- The pages that a stream has before it. -/
inductive Pages [StreamImpl Impl α] : Impl → List (List α) → Prop where
  | done {s t : Impl} (hPull : StreamImpl.pull s = some (.ok none, t)) : Pages s []
  | empty {s t : Impl} {pages : List (List α)}
      (hPull : StreamImpl.pull s = some (.ok none, t)) : Pages s ([] :: pages)
  | page {s t : Impl} {page : List α} {pages : List (List α)} (hPage : page ≠ [])
      (hPull : StreamImpl.pull s = some (.ok (some (Chunk.from page)), t))
      (hRest : Pages t pages) : Pages s (page :: pages)

theorem Pages.denotes [StreamImpl Impl α] {s : Impl} {pages : List (List α)}
    (h : Pages s pages) : Denotes (makeStreamHandle s) (brought pages) .done := by
  induction h with
  | done hPull => exact Denotes.make_done hPull
  | empty hPull => exact Denotes.make_done hPull
  | page hPage hPull hRest ih =>
      rw [brought_cons hPage]
      exact Denotes.make_chunk hPull ih

end CelerMem
