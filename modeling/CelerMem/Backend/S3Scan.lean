import CelerMem.Backend.S3Batch
import CelerMem.Backend.S3Get
import CelerMem.Core.PagedStream
import Mathlib

/-! The scan of S3: the keys it returns lack the prefix that was asked for, which is lost
with that of the table. -/
namespace CelerMem

variable {ω : Type}

/-! ## The stream -/

/-- The pages up to the first one without keys, at which the stream ends. -/
def listed (pages : List (List Bytes)) : List Bytes :=
  (pages.takeWhile fun page => !page.isEmpty).flatten

theorem listed_cons (page : List Bytes) (pages : List (List Bytes)) :
    listed (page :: pages) = if page = [] then [] else page ++ listed pages := by
  unfold listed
  cases page with
  | nil => rfl
  | cons key keys => rfl

theorem listed_sublist (pages : List (List Bytes)) : (listed pages).Sublist pages.flatten :=
  (List.takeWhile_sublist _).flatten

/-- No key comes after a page without any. -/
def NoneLost (pages : List (List Bytes)) : Prop :=
  ∀ before after, pages = before ++ [] :: after → ∀ page ∈ after, page = []

theorem noneLost_iff_pairwise (pages : List (List Bytes)) :
    NoneLost pages ↔ pages.Pairwise fun page later => page = [] → later = [] := by
  constructor
  · intro hNone
    induction pages with
    | nil => exact List.Pairwise.nil
    | cons page pages ih =>
        refine List.pairwise_cons.mpr ⟨?_, ih ?_⟩
        · rintro later hMem rfl
          exact hNone [] pages rfl later hMem
        · intro before after hPages
          exact hNone (page :: before) after (congrArg (page :: ·) hPages)
  · rintro hPairs before after rfl page hMem
    exact List.rel_of_pairwise_cons (List.pairwise_append.mp hPairs).2.1 hMem rfl

/-- Then all keys are listed, and else one of them is not. -/
theorem listed_eq_flatten_iff (pages : List (List Bytes)) :
    listed pages = pages.flatten ↔ NoneLost pages := by
  rw [noneLost_iff_pairwise]
  induction pages with
  | nil => exact iff_of_true rfl List.Pairwise.nil
  | cons page pages ih =>
      rw [listed_cons, List.flatten_cons, List.pairwise_cons, ← ih]
      by_cases hPage : page = []
      · subst hPage
        rw [if_pos rfl, List.nil_append, eq_comm, List.flatten_eq_nil_iff]
        constructor
        · intro hNone
          have hRest : pages.flatten = [] := List.flatten_eq_nil_iff.mpr hNone
          refine ⟨fun later hMem _ => hNone later hMem, ?_⟩
          rw [hRest]
          exact List.sublist_nil.mp (hRest ▸ listed_sublist pages)
        · exact fun hNone later hMem => hNone.1 later hMem rfl
      · rw [if_neg hPage, List.append_cancel_left_eq]
        exact ⟨fun hSame => ⟨fun _ _ hEmpty => absurd hEmpty hPage, hSame⟩, And.right⟩

theorem listed_eq_iff {pages : List (List Bytes)} (hNodup : pages.flatten.Nodup) :
    (∀ key ∈ pages.flatten, key ∈ listed pages) ↔ NoneLost pages := by
  rw [← listed_eq_flatten_iff]
  constructor
  · intro hAll
    exact (listed_sublist pages).eq_of_length_le (hNodup.subperm hAll).length_le
  · intro hSame key hKey
    rwa [hSame]

/-- The pair that stands for an object. -/
def pairOf (objects : Contents) (start : Bytes) (fullKey : Bytes) : KVPair :=
  ⟨fullKey.drop start.length, (objects fullKey).getD []⟩

section Listing
variable {client : S3Client ω} {objects : Contents} {w : ω} {start : Bytes}

section Pages
variable (hGet : ∀ {key body}, objects key = some body →
  client.getObject ⟨key, [], none⟩ w = .ok body)

include hGet in
theorem fetch_eq (start : Bytes) {keys : List Bytes} (hStored : ∀ key ∈ keys, objects key ≠ none) :
    S3ListStream.fetch client w start keys = .ok (keys.map (pairOf objects start)) := by
  induction keys with
  | nil => rfl
  | cons key keys ih =>
      obtain ⟨body, hBody⟩ := Option.ne_none_iff_exists'.mp (hStored key List.mem_cons_self)
      rw [S3ListStream.fetch, hGet hBody,
        ih fun other hMem => hStored other (List.mem_cons_of_mem key hMem), List.map_cons, pairOf,
        hBody, Option.getD_some]

/-- A page without keys ends the stream, even if it is truncated. -/
theorem pull_noKeys {token next : Bytes} {isTruncated : Bool}
    (hList : client.listObjectsV2 start token w = .ok ⟨[], isTruncated, next⟩) :
    S3ListStream.pull client w ⟨start, token, false⟩ =
      (.ok none, ⟨start, if isTruncated then next else token, true⟩) := by
  cases isTruncated with
  | true => simp [S3ListStream.pull, hList, S3ListStream.fetch]
  | false => simp [S3ListStream.pull, hList, S3ListStream.fetch]

include hGet in
theorem pull_keys {token next : Bytes} {page : List Bytes} {isTruncated : Bool}
    (hList : client.listObjectsV2 start token w = .ok ⟨page, isTruncated, next⟩)
    (hStored : ∀ key ∈ page, objects key ≠ none) (hPage : page ≠ []) :
    S3ListStream.pull client w ⟨start, token, false⟩ =
      (.ok (some (Chunk.from (page.map (pairOf objects start)))),
        if isTruncated then ⟨start, next, false⟩ else ⟨start, token, true⟩) := by
  obtain ⟨key, keys, rfl⟩ := List.exists_cons_of_ne_nil hPage
  have hFetch := fetch_eq hGet start hStored
  cases isTruncated with
  | true => simp [S3ListStream.pull, hList, hFetch]
  | false => simp [S3ListStream.pull, hList, hFetch]

include hGet in
theorem pages_cons {token next : Bytes} {page : List Bytes} {isTruncated : Bool}
    {rest : List (List KVPair)}
    (hList : client.listObjectsV2 start token w = .ok ⟨page, isTruncated, next⟩)
    (hStored : ∀ key ∈ page, objects key ≠ none)
    (hRest : Pages (⟨client, w, if isTruncated then ⟨start, next, false⟩
      else ⟨start, token, true⟩⟩ : InBucket ω S3ListStream) rest) :
    Pages (⟨client, w, ⟨start, token, false⟩⟩ : InBucket ω S3ListStream)
      (page.map (pairOf objects start) :: rest) := by
  by_cases hPage : page = []
  · subst hPage
    exact Pages.empty (InBucket.step_eq (pull_noKeys hList))
  · exact Pages.page (mt List.map_eq_nil_iff.mp hPage)
      (InBucket.step_eq (pull_keys hGet hList hStored hPage)) hRest

include hGet in
/-- The stream goes through the listing page by page. -/
theorem listing_pages {token : Bytes} {pages : List (List Bytes)}
    (hListing : Listing client w start token pages)
    (hStored : ∀ key ∈ pages.flatten, objects key ≠ none) :
    Pages (⟨client, w, ⟨start, token, false⟩⟩ : InBucket ω S3ListStream)
      (pages.map (List.map (pairOf objects start))) := by
  induction hListing with
  | last hList =>
      exact pages_cons hGet hList (fun key hMem => hStored key (by simpa using hMem))
        (Pages.done rfl)
  | more hList hRest ih =>
      exact pages_cons hGet hList (fun key hMem => hStored key (List.mem_append_left _ hMem))
        (ih fun key hMem => hStored key (List.mem_append_right _ hMem))

end Pages

theorem brought_map {pages : List (List Bytes)} (f : Bytes → KVPair)
    (hSizes : ∀ page ∈ pages, page.length < uint32Size) :
    brought (pages.map (List.map f)) = (listed pages).map f := by
  induction pages with
  | nil => rfl
  | cons page pages ih =>
      rw [List.map_cons, listed_cons]
      by_cases hPage : page = []
      · rw [hPage]
        rfl
      · have hFits : (page.map f).length < uint32Size := by
          rw [List.length_map]
          exact hSizes page List.mem_cons_self
        rw [brought_cons (mt List.map_eq_nil_iff.mp hPage), if_neg hPage, List.map_append,
          Chunk.toList_from_of_lt hFits,
          ih fun other hMem => hSizes other (List.mem_cons_of_mem page hMem)]

/-- Pages of a thousand keys fit into chunks. -/
theorem listing_denotes (hReads : client.Reads objects w) {token : Bytes}
    {pages : List (List Bytes)} (hListing : Listing client w start token pages)
    (hStored : ∀ key ∈ pages.flatten, objects key ≠ none)
    (hSizes : ∀ page ∈ pages, page.length ≤ 1000) :
    Denotes (makeStreamHandle (⟨client, w, ⟨start, token, false⟩⟩ : InBucket ω S3ListStream))
      ((listed pages).map (pairOf objects start)) .done := by
  rw [← brought_map _ fun page hMem => (hSizes page hMem).trans_lt (by decide)]
  exact (listing_pages hReads.getObject hListing hStored).denotes

theorem Listing.unique {token : Bytes} {pages pages' : List (List Bytes)}
    (h : Listing client w start token pages) (h' : Listing client w start token pages') :
    pages = pages' := by
  induction h generalizing pages' with
  | last hList =>
      cases h' with
      | last hList' =>
          have hSame := ListPage.mk.inj (Except.ok.inj (hList.symm.trans hList'))
          rw [hSame.1]
      | more hList' hRest' =>
          have hSame := ListPage.mk.inj (Except.ok.inj (hList.symm.trans hList'))
          exact absurd hSame.2.1 Bool.false_ne_true
  | more hList hRest ih =>
      cases h' with
      | last hList' =>
          have hSame := ListPage.mk.inj (Except.ok.inj (hList'.symm.trans hList))
          exact absurd hSame.2.1 Bool.false_ne_true
      | more hList' hRest' =>
          obtain ⟨rfl, -, rfl⟩ := ListPage.mk.inj (Except.ok.inj (hList.symm.trans hList'))
          rw [ih hRest']

end Listing

/-! ## What a scan is used for -/

namespace S3Backend
variable {backend : S3Backend ω} {objects : ω → Contents} {w : ω} {start : Bytes}

/-- What the table holds, under its own keys. -/
def stored (backend : S3Backend ω) (objects : ω → Contents) (w : ω) : Contents :=
  fun key => objects w (backend.resolveKey key)

/-- The operations with which `materialize` wipes what a scan has returned. -/
def deletes (cfName : Bytes) (rows : List KVPair) : List BatchOp :=
  rows.map fun kv => ⟨.del, cfName, kv.key, none⟩

/-- The rows are those of the keys that start with the prefix, by keys that read and delete
them. -/
structure UsableScan (backend : S3Backend ω) (objects : ω → Contents) (w : ω) (start : Bytes)
    (rows : List KVPair) : Prop where
  starts : ∀ kv ∈ rows, start <+: kv.key
  reads : ∀ kv ∈ rows, kv.value ≠ [] → backend.get kv.key w = some (.ok (some kv.value))
  complete : ∀ key, backend.stored objects w key ≠ none → start <+: key →
    ∃ kv ∈ rows, kv.key = key
  wipe : ∀ cfName w', backend.batch (deletes cfName rows) w = (.ok (), w') → ∀ fullKey,
    objects w' fullKey =
      if startsWith fullKey (backend.resolveKey start) then none else objects w fullKey

/-- The ranges of the objects with the prefix fit into chunks. -/
def Readable (backend : S3Backend ω) (objects : ω → Contents) (w : ω) (start : Bytes) : Prop :=
  ∀ key body, start <+: key → backend.stored objects w key = some body → body ≠ [] →
    min backend.chunkSize body.length < uint32Size

/-- No prefix was asked for, or one that no key has. -/
def NoPrefixLost (backend : S3Backend ω) (objects : ω → Contents) (w : ω) (start : Bytes) : Prop :=
  start = [] ∨ ∀ key, start <+: key → backend.stored objects w key = none

theorem deletes_objects (hStores : backend.client.Stores objects) {cfName : Bytes}
    {rows : List KVPair} {w' : ω} (h : backend.batch (deletes cfName rows) w = (.ok (), w'))
    (fullKey : Bytes) : objects w' fullKey =
      if fullKey ∈ rows.map (fun kv => backend.resolveKey kv.key) then none
      else objects w fullKey := by
  classical
  obtain ⟨-, hObjects⟩ := batch_objects hStores h
  have hEdits : (deletes cfName rows).map (fun op => (backend.resolveOp op).edit) =
      rows.map fun kv => (backend.resolveKey kv.key, none) := by
    rw [deletes, List.map_map]
    rfl
  have hRemovals : ∀ e ∈ rows.map (fun kv => ((backend.resolveKey kv.key, none) :
      Bytes × Option Bytes)), e.2 = none := by
    intro e hMem
    obtain ⟨kv, -, rfl⟩ := List.mem_map.mp hMem
    rfl
  have hRemoved : (fullKey, none) ∈ rows.map (fun kv => ((backend.resolveKey kv.key, none) :
      Bytes × Option Bytes)) ↔ fullKey ∈ rows.map fun kv => backend.resolveKey kv.key := by
    simp [Prod.ext_iff]
  rw [hObjects, hEdits, Edits.setsFirst_eq]
  by_cases hMem : fullKey ∈ rows.map fun kv => backend.resolveKey kv.key
  · rw [if_pos (hRemoved.mpr hMem), if_pos hMem]
  · rw [if_neg (mt hRemoved.mp hMem), if_neg hMem]
    apply Edits.apply_of_not_mem
    rwa [List.map_map]

section Rows
variable {pages : List (List Bytes)}
  (hPages : ∀ key, key ∈ pages.flatten ↔ objects w key ≠ none ∧ backend.resolveKey start <+: key)

theorem resolveKey_prefix_iff (key : Bytes) :
    backend.resolveKey start <+: backend.resolveKey key ↔ start <+: key :=
  List.prefix_append_right_inj backend.keyPrefix

include hPages in
/-- A row has the rest of its key after the prefix. -/
theorem mem_rows (kv : KVPair) :
    kv ∈ (listed pages).map (pairOf (objects w) (backend.resolveKey start)) ↔
      backend.resolveKey (start ++ kv.key) ∈ listed pages ∧
        backend.stored objects w (start ++ kv.key) = some kv.value := by
  have hSplit : ∀ rest, backend.resolveKey start ++ rest = backend.resolveKey (start ++ rest) :=
    fun rest => List.append_assoc _ _ _
  constructor
  · intro hRow
    obtain ⟨fullKey, hListed, rfl⟩ := List.mem_map.mp hRow
    obtain ⟨hStored, rest, rfl⟩ := (hPages fullKey).mp ((listed_sublist pages).subset hListed)
    obtain ⟨body, hBody⟩ := Option.ne_none_iff_exists'.mp hStored
    have hKey : (pairOf (objects w) (backend.resolveKey start)
        (backend.resolveKey start ++ rest)).key = rest := List.drop_left
    rw [hKey, ← hSplit]
    refine ⟨hListed, ?_⟩
    rw [stored, ← hSplit, hBody, pairOf, hBody, Option.getD_some]
  · rintro ⟨hListed, hStored⟩
    refine List.mem_map.mpr ⟨_, hListed, ?_⟩
    rw [stored] at hStored
    rw [pairOf, hStored, ← hSplit, List.drop_left, Option.getD_some]

include hPages in
/-- If every key with the prefix is returned as it is, there is none, or no prefix. -/
theorem no_prefix_of_complete (hComplete : ∀ key, backend.stored objects w key ≠ none →
    start <+: key → ∃ kv ∈ (listed pages).map (pairOf (objects w) (backend.resolveKey start)),
      kv.key = key) : backend.NoPrefixLost objects w start := by
  by_contra hBoth
  rw [NoPrefixLost, not_or] at hBoth
  obtain ⟨hStart, hSome⟩ := hBoth
  rw [not_forall] at hSome
  obtain ⟨first, hFirst⟩ := hSome
  rw [Classical.not_imp] at hFirst
  -- Each returned key stands for a longer one that is stored, too.
  have hGrow : ∀ n, ∃ key, start <+: key ∧ backend.stored objects w key ≠ none ∧ n ≤ key.length := by
    intro n
    induction n with
    | zero => exact ⟨first, hFirst.1, hFirst.2, Nat.zero_le _⟩
    | succ n ih =>
        obtain ⟨key, hPrefix, hStored, hLong⟩ := ih
        obtain ⟨kv, hRow, rfl⟩ := hComplete key hStored hPrefix
        have hLonger := ((mem_rows hPages kv).mp hRow).2
        refine ⟨start ++ kv.key, List.prefix_append _ _, by rw [hLonger]; simp, ?_⟩
        have hLength := List.length_pos_iff.mpr hStart
        rw [List.length_append]
        omega
  obtain ⟨key, hPrefix, hStored, hLong⟩ :=
    hGrow (((pages.flatten.map List.length).max?.getD 0) + 1)
  have hListed := (hPages (backend.resolveKey key)).mpr
    ⟨hStored, (resolveKey_prefix_iff key).mpr hPrefix⟩
  have hBound := List.le_max?_getD_of_mem (k := 0) (List.mem_map_of_mem (f := List.length) hListed)
  rw [resolveKey, List.length_append] at hBound
  omega

include hPages in
theorem UsableScan.readable (hReads : backend.client.Reads (objects w) w)
    (h : backend.UsableScan objects w start
      ((listed pages).map (pairOf (objects w) (backend.resolveKey start)))) :
    backend.Readable objects w start := by
  intro key body hStart hBody hNonempty
  rcases no_prefix_of_complete hPages h.complete with rfl | hNone
  · obtain ⟨kv, hRow, rfl⟩ := h.complete key (by rw [hBody]; simp) hStart
    have hValue := ((mem_rows hPages kv).mp hRow).2
    rw [List.nil_append, hBody] at hValue
    have hGet := h.reads kv hRow (by rwa [← Option.some.inj hValue])
    have hObject : objects w (backend.resolveKey kv.key) = some body := hBody
    rw [get_eq hReads, hObject, ← hValue] at hGet
    exact ((answer_eq_iff body).mp (Except.ok.inj (Option.some.inj hGet))).2
  · rw [hNone key hStart] at hBody
    cases hBody

include hPages in
theorem UsableScan.noneLost (hNodup : pages.flatten.Nodup)
    (h : backend.UsableScan objects w start
      ((listed pages).map (pairOf (objects w) (backend.resolveKey start)))) :
    NoneLost pages := by
  apply (listed_eq_iff hNodup).mp
  intro fullKey hKey
  obtain ⟨hStored, rest, rfl⟩ := (hPages fullKey).mp hKey
  have hSplit : backend.resolveKey start ++ rest = backend.resolveKey (start ++ rest) :=
    List.append_assoc _ _ _
  rw [hSplit] at hStored ⊢
  rcases no_prefix_of_complete hPages h.complete with rfl | hNone
  · obtain ⟨kv, hRow, hSame⟩ := h.complete rest hStored List.nil_prefix
    rw [← hSame]
    exact ((mem_rows hPages kv).mp hRow).1
  · exact absurd (hNone _ (List.prefix_append _ _)) hStored

include hPages in
theorem row_of_noPrefixLost (hPrefix : backend.NoPrefixLost objects w start) {kv : KVPair}
    (hRow : kv ∈ (listed pages).map (pairOf (objects w) (backend.resolveKey start))) :
    start = [] ∧ backend.stored objects w kv.key = some kv.value := by
  have hStored := ((mem_rows hPages kv).mp hRow).2
  rcases hPrefix with rfl | hNone
  · exact ⟨rfl, hStored⟩
  · rw [hNone _ (List.prefix_append _ _)] at hStored
    cases hStored

include hPages in
theorem returned_of_noPrefixLost (hPrefix : backend.NoPrefixLost objects w start)
    (hAll : ∀ key ∈ pages.flatten, key ∈ listed pages) {key value : Bytes} (hStart : start <+: key)
    (hStored : backend.stored objects w key = some value) :
    ⟨key, value⟩ ∈ (listed pages).map (pairOf (objects w) (backend.resolveKey start)) := by
  rcases hPrefix with rfl | hNone
  · refine (mem_rows hPages ⟨key, value⟩).mpr ⟨hAll _ ?_, hStored⟩
    refine (hPages _).mpr ⟨?_, (resolveKey_prefix_iff key).mpr hStart⟩
    rw [show objects w (backend.resolveKey ([] ++ key)) = some value from hStored]
    simp
  · rw [hNone key hStart] at hStored
    cases hStored

include hPages in
theorem usableScan_of (hStores : backend.client.Stores objects)
    (hReads : backend.client.Reads (objects w) w) (hNodup : pages.flatten.Nodup)
    (hPrefix : backend.NoPrefixLost objects w start)
    (hReadable : backend.Readable objects w start) (hNoneLost : NoneLost pages) :
    backend.UsableScan objects w start
      ((listed pages).map (pairOf (objects w) (backend.resolveKey start))) where
  starts := by
    intro kv hRow
    rw [(row_of_noPrefixLost hPages hPrefix hRow).1]
    exact List.nil_prefix
  reads := by
    intro kv hRow hNonempty
    obtain ⟨hStart, hStored⟩ := row_of_noPrefixLost hPages hPrefix hRow
    have hFits := hReadable kv.key kv.value (by rw [hStart]; exact List.nil_prefix) hStored
      hNonempty
    have hObject : objects w (backend.resolveKey kv.key) = some kv.value := hStored
    rw [get_eq hReads, hObject, (answer_eq_iff kv.value).mpr ⟨hNonempty, hFits⟩]
  complete := by
    intro key hStored hStart
    obtain ⟨value, hValue⟩ := Option.ne_none_iff_exists'.mp hStored
    have hAll := (listed_eq_iff hNodup).mpr hNoneLost
    exact ⟨⟨key, value⟩, returned_of_noPrefixLost hPages hPrefix hAll hStart hValue, rfl⟩
  wipe := by
    intro cfName w' hBatch fullKey
    rw [deletes_objects hStores hBatch]
    by_cases hDeleted : fullKey ∈ ((listed pages).map
        (pairOf (objects w) (backend.resolveKey start))).map fun kv => backend.resolveKey kv.key
    · obtain ⟨kv, hRow, rfl⟩ := List.mem_map.mp hDeleted
      have hStart : startsWith (backend.resolveKey kv.key) (backend.resolveKey start) = true := by
        rw [startsWith_iff, resolveKey_prefix_iff, (row_of_noPrefixLost hPages hPrefix hRow).1]
        exact List.nil_prefix
      rw [if_pos hDeleted, if_pos hStart]
    · rw [if_neg hDeleted]
      split
      · -- A key with the prefix that was not deleted was not there.
        rename_i hStart
        obtain ⟨rest, rfl⟩ := startsWith_iff.mp hStart
        have hSplit : backend.resolveKey start ++ rest = backend.resolveKey (start ++ rest) :=
          List.append_assoc _ _ _
        have hAll := (listed_eq_iff hNodup).mpr hNoneLost
        by_contra hStored
        obtain ⟨value, hValue⟩ := Option.ne_none_iff_exists'.mp hStored
        rw [hSplit] at hValue hDeleted
        have hRow := returned_of_noPrefixLost hPages hPrefix hAll (List.prefix_append start rest)
          hValue
        exact hDeleted (List.mem_map.mpr ⟨_, hRow, rfl⟩)
      · rfl

end Rows

/-- A scan is usable if and only if its prefix is not lost, the objects can be read and no
page without keys comes before one with keys. -/
theorem scan_usable_iff (hStores : backend.client.Stores objects)
    (hReads : backend.client.Reads (objects w) w) {pages : List (List Bytes)}
    (hListing : Listing backend.client w (backend.resolveKey start) [] pages) :
    ∃ rows, backend.prefixScan start w = some (.ok rows) ∧
      Denotes (backend.streamScan start w) rows .done ∧
      (backend.UsableScan objects w start rows ↔ backend.NoPrefixLost objects w start ∧
        backend.Readable objects w start ∧ NoneLost pages) := by
  obtain ⟨pages', hListing', hNodup, hPages, hSizes⟩ := hReads.list (backend.resolveKey start)
  obtain rfl := hListing.unique hListing'
  have hDenotes : Denotes (backend.streamScan start w)
      ((listed pages).map (pairOf (objects w) (backend.resolveKey start))) .done :=
    listing_denotes hReads hListing (fun key hKey => ((hPages key).mp hKey).1) hSizes
  refine ⟨_, hDenotes.collect, hDenotes, ?_⟩
  constructor
  · intro hUsable
    exact ⟨no_prefix_of_complete hPages hUsable.complete, hUsable.readable hPages hReads,
      hUsable.noneLost hPages hNodup⟩
  · rintro ⟨hPrefix, hReadable, hNoneLost⟩
    exact usableScan_of hPages hStores hReads hNodup hPrefix hReadable hNoneLost

/-! ## One object -/

open Materialization (Memory)

theorem oneObject_reads : memoryClient.Reads oneObject.contents oneObject :=
  memoryClient_reads (by decide)

theorem scan_usable_iff_oneObject :
    ∃ rows, smallRanges.prefixScan [] oneObject = some (.ok rows) ∧
      Denotes (smallRanges.streamScan [] oneObject) rows .done ∧
      (smallRanges.UsableScan Memory.contents oneObject [] rows ↔
        smallRanges.NoPrefixLost Memory.contents oneObject [] ∧
        smallRanges.Readable Memory.contents oneObject [] ∧ NoneLost [[ascii "t/a"]]) :=
  scan_usable_iff memoryClient_stores oneObject_reads (.last rfl)

/-- The key of a row that is found by its prefix does not start with it. -/
theorem scan_strips_prefix :
    ¬ ∀ rows, smallRanges.prefixScan (ascii "a") oneObject = some (.ok rows) →
      smallRanges.UsableScan Memory.contents oneObject (ascii "a") rows := by
  intro h
  have hListing : Listing smallRanges.client oneObject (smallRanges.resolveKey (ascii "a")) []
      [[ascii "t/a"]] := .last rfl
  have hDenotes := listing_denotes oneObject_reads hListing (by decide) (by decide)
  have hUsable := h _ hDenotes.collect
  exact absurd (hUsable.starts ⟨[], [7]⟩ (by decide)) (by decide)

end S3Backend
end CelerMem
