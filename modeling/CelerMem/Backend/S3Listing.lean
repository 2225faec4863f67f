import CelerMem.Backend.S3Scan
import Mathlib

/-! A listing of S3 over any number of pages: when it returns every object, and when it is done
after the last page only. -/
namespace CelerMem

variable {ω : Type}

/-! ## Requests -/

namespace S3ListStream

/-- The pages that a pull asks for, by their continuation tokens. -/
def requests (s : S3ListStream) : List Bytes := if s.done then [] else [s.continuationToken]

/-- What a pull answers after `n` others. -/
def answer (client : S3Client ω) (w : ω) : ℕ → S3ListStream → Pulled KVPair
  | 0, s => (pull client w s).1
  | n + 1, s => answer client w n (pull client w s).2

/-- The pages that `n` pulls ask for. -/
def asked (client : S3Client ω) (w : ω) : ℕ → S3ListStream → List Bytes
  | 0, _ => []
  | n + 1, s => s.requests ++ asked client w n (pull client w s).2

end S3ListStream

/-! ## A listing in pages -/

/-- The objects with a prefix, each on one of the pages, when no request fails. -/
structure Paginated (client : S3Client ω) (objects : Contents) (w : ω) (start : Bytes)
    (pages : List (List Bytes)) : Prop where
  listing : Listing client w start [] pages
  matching : ∀ key, key ∈ pages.flatten ↔ objects key ≠ none ∧ start <+: key
  once : pages.flatten.Nodup
  getObject : ∀ {key body}, objects key = some body → client.getObject ⟨key, [], none⟩ w = .ok body

/-- The stream returns the pair of every listed object, and is not done before the last page. -/
structure ListsAll (client : S3Client ω) (objects : Contents) (w : ω) (start : Bytes)
    (pages : List (List Bytes)) : Prop where
  pairs : Denotes (makeStreamHandle (⟨client, w, ⟨start, [], false⟩⟩ : InBucket ω S3ListStream))
    (pages.flatten.map (pairOf objects start)) .done
  lastPage : ∀ n, S3ListStream.answer client w n ⟨start, [], false⟩ = .ok none →
    pages.length ≤ (S3ListStream.asked client w (n + 1) ⟨start, [], false⟩).length

section Paginated
variable {client : S3Client ω} {objects : Contents} {w : ω} {start : Bytes}
  {pages : List (List Bytes)}

theorem Listing.ne_nil {token : Bytes} (h : Listing client w start token pages) : pages ≠ [] := by
  cases h with
  | last hList => exact List.cons_ne_nil _ _
  | more hList hRest => exact List.cons_ne_nil _ _

/-- The stream is done at the last page or before it, at a page without keys. -/
theorem done_after_last_iff (hGet : ∀ {key body}, objects key = some body →
      client.getObject ⟨key, [], none⟩ w = .ok body) {token : Bytes}
    (hListing : Listing client w start token pages)
    (hStored : ∀ key ∈ pages.flatten, objects key ≠ none) :
    (∀ n, S3ListStream.answer client w n ⟨start, token, false⟩ = .ok none →
      pages.length ≤ (S3ListStream.asked client w (n + 1) ⟨start, token, false⟩).length) ↔
    ∀ page ∈ pages.dropLast, page ≠ [] := by
  induction hListing with
  | last hList => simp [S3ListStream.asked, S3ListStream.requests]
  | @more token next page pages hList hRest ih =>
      have hLater : 0 < pages.length := List.length_pos_iff.mpr hRest.ne_nil
      rw [List.dropLast_cons_of_ne_nil hRest.ne_nil, List.forall_mem_cons]
      by_cases hPage : page = []
      · subst hPage
        have hPull := pull_noKeys hList
        refine iff_of_false ?_ fun hAll => hAll.1 rfl
        intro hAll
        have hFirst := hAll 0 (by rw [S3ListStream.answer, hPull])
        simp only [S3ListStream.asked, S3ListStream.requests, List.length_cons, List.append_nil,
          Bool.false_eq_true, if_false, List.length_nil] at hFirst
        omega
      · have hPull := pull_keys hGet hList (fun key hMem => hStored key (List.mem_append_left _ hMem))
          hPage
        rw [if_pos rfl] at hPull
        rw [and_iff_right hPage, ← ih fun key hMem => hStored key (List.mem_append_right _ hMem)]
        have hAsked : ∀ n, (S3ListStream.asked client w (n + 1) ⟨start, token, false⟩).length =
            (S3ListStream.asked client w n ⟨start, next, false⟩).length + 1 := by
          intro n
          rw [S3ListStream.asked, hPull, List.length_append, Nat.add_comm]
          rfl
        constructor
        · intro hAll n hDone
          have hNext := hAll (n + 1) (by rwa [S3ListStream.answer, hPull])
          rw [hAsked, List.length_cons] at hNext
          exact Nat.le_of_succ_le_succ hNext
        · intro hAll n hDone
          rw [hAsked, List.length_cons]
          cases n with
          | zero =>
              rw [S3ListStream.answer, hPull] at hDone
              cases hDone
          | succ n =>
              rw [S3ListStream.answer, hPull] at hDone
              exact Nat.succ_le_succ (hAll n hDone)

theorem pairwise_of_dropLast {α : Type} {pages : List (List α)}
    (h : ∀ page ∈ pages.dropLast, page ≠ []) :
    pages.Pairwise fun page later => page = [] → later = [] := by
  induction pages with
  | nil => exact List.Pairwise.nil
  | cons page pages ih =>
      rcases List.eq_nil_or_concat pages with rfl | ⟨_, _, hPages⟩
      · exact List.pairwise_singleton _ _
      · have hSome : pages ≠ [] := by simp [hPages]
        rw [List.dropLast_cons_of_ne_nil hSome, List.forall_mem_cons] at h
        exact List.pairwise_cons.mpr ⟨fun _ _ hEmpty => absurd hEmpty h.1, ih h.2⟩

theorem Paginated.stored (h : Paginated client objects w start pages) :
    ∀ key ∈ pages.flatten, objects key ≠ none :=
  fun key hMem => ((h.matching key).mp hMem).1

/-- Nothing of the pages is lost if and only if none has too many keys for a chunk and none
without keys comes before another with some. -/
theorem pairs_iff (h : Paginated client objects w start pages) :
    Denotes (makeStreamHandle (⟨client, w, ⟨start, [], false⟩⟩ : InBucket ω S3ListStream))
      (pages.flatten.map (pairOf objects start)) .done ↔
    NoneLost pages ∧ ∀ page ∈ pages, page.length < uint32Size := by
  have hDenotes := (listing_pages h.getObject h.listing h.stored).denotes
  have hSame : brought (pages.map (List.map (pairOf objects start))) =
      pages.flatten.map (pairOf objects start) ↔
      NoneLost pages ∧ ∀ page ∈ pages, page.length < uint32Size := by
    rw [List.map_flatten, brought_eq_iff, List.pairwise_map, List.forall_mem_map,
      noneLost_iff_pairwise]
    simp only [List.map_eq_nil_iff, List.length_map]
  rw [← hSame]
  constructor
  · exact fun hWhole => (hDenotes.unique hWhole).1
  · intro hPairs
    rwa [hPairs] at hDenotes

/-- However the listing is split, the stream returns every object and is not done before the
last page if and only if every page but the last has keys and every page fits into a chunk. -/
theorem listing_complete_iff (h : Paginated client objects w start pages) :
    ListsAll client objects w start pages ↔
      (∀ page ∈ pages.dropLast, page ≠ []) ∧ ∀ page ∈ pages, page.length < uint32Size := by
  have hLast := done_after_last_iff h.getObject h.listing h.stored
  constructor
  · intro hLists
    exact ⟨hLast.mp hLists.lastPage, ((pairs_iff h).mp hLists.pairs).2⟩
  · rintro ⟨hKeys, hFits⟩
    have hNone := (noneLost_iff_pairwise pages).mpr (pairwise_of_dropLast hKeys)
    exact ⟨(pairs_iff h).mpr ⟨hNone, hFits⟩, hLast.mpr hKeys⟩

end Paginated

/-! ## Two pages -/

/-- A service for reading whose listing has two pages. -/
def twoPages (first second : List Bytes) : S3Client Contents where
  getObject := fun req objects =>
    match objects req.key with
    | none => .error ⟨"NoSuchKey", AwsError.notFound, "The specified key does not exist."⟩
    | some body => .ok body
  putObject := fun _ _ objects => (.error ⟨"AccessDenied", 403, "Access Denied"⟩, objects)
  deleteObject := fun _ objects => (.error ⟨"AccessDenied", 403, "Access Denied"⟩, objects)
  deleteObjects := fun _ objects => (.error ⟨"AccessDenied", 403, "Access Denied"⟩, objects)
  listObjectsV2 := fun _ token _ =>
    if token.isEmpty then .ok ⟨first, true, [1]⟩ else .ok ⟨second, false, []⟩

def oneByteEach (keys : List Bytes) : Contents := fun key =>
  if keys.contains key then some (ascii "v") else none

theorem twoPages_paginated {first second : List Bytes} {start : Bytes}
    (hOnce : (first ++ second).Nodup) (hStart : ∀ key ∈ first ++ second, start <+: key) :
    Paginated (twoPages first second) (oneByteEach (first ++ second))
      (oneByteEach (first ++ second)) start [first, second] := by
  have hKeys : [first, second].flatten = first ++ second := by simp
  refine ⟨.more rfl (.last rfl), ?_, by rwa [hKeys], ?_⟩
  · intro key
    rw [hKeys, oneByteEach, Ne, ite_eq_right_iff, List.contains_iff_mem]
    constructor
    · exact fun hMem => ⟨fun hNone => absurd (hNone hMem) (by simp), hStart key hMem⟩
    · rintro ⟨hStored, -⟩
      by_contra hOther
      exact hStored fun hMem => absurd hMem hOther
  · intro key body hBody
    simp [twoPages, hBody]

theorem listing_complete_iff_twoPages :
    ListsAll (twoPages [ascii "t/a"] [ascii "t/b"]) (oneByteEach [ascii "t/a", ascii "t/b"])
      (oneByteEach [ascii "t/a", ascii "t/b"]) (ascii "t/") [[ascii "t/a"], [ascii "t/b"]] ↔
    (∀ page ∈ [[ascii "t/a"], [ascii "t/b"]].dropLast, page ≠ []) ∧
      ∀ page ∈ [[ascii "t/a"], [ascii "t/b"]], page.length < uint32Size :=
  listing_complete_iff (twoPages_paginated (by decide) (by decide))

/-- A truncated page without keys hides the object on the next one. -/
theorem listing_ends_at_empty_page :
    ¬ ListsAll (twoPages [] [ascii "t/a"]) (oneByteEach [ascii "t/a"]) (oneByteEach [ascii "t/a"])
      (ascii "t/") [[], [ascii "t/a"]] := by
  intro hLists
  have hPaginated : Paginated (twoPages [] [ascii "t/a"]) (oneByteEach [ascii "t/a"])
      (oneByteEach [ascii "t/a"]) (ascii "t/") [[], [ascii "t/a"]] :=
    twoPages_paginated (by decide) (by decide)
  obtain ⟨hNone, -⟩ := (pairs_iff hPaginated).mp hLists.pairs
  exact absurd (hNone [] [[ascii "t/a"]] rfl _ List.mem_cons_self) (by decide)

end CelerMem
