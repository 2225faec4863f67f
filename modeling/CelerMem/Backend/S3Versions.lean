import CelerMem.Backend.S3Scan
import Mathlib

/-! `S3Backend::list_versions`. The bucket is listed under the prefix of the table, and every
page is filtered to one key. -/
namespace CelerMem

variable {ω : Type}

/-! ## The listing -/

/-- The time is in ISO 8601. -/
structure ObjectVersion where
  key : Bytes
  versionId : Bytes
  lastModified : Bytes
  size : Nat
  isLatest : Bool

structure DeleteMarkerEntry where
  key : Bytes
  versionId : Bytes
  lastModified : Bytes
  isLatest : Bool

structure VersionPage where
  versions : List ObjectVersion
  deleteMarkers : List DeleteMarkerEntry
  isTruncated : Bool
  nextKeyMarker : Bytes
  nextVersionIdMarker : Bytes

/-- The listing of versions, by prefix, key marker and version marker; an empty marker is
not set. -/
structure VersionClient (ω : Type) where
  listObjectVersions : Bytes → Bytes → Bytes → ω → Except AwsError VersionPage

/-! ## The stream -/

structure VersionInfo where
  versionId : Bytes
  lastModified : Bytes
  size : Nat
  isLatest : Bool
  isDeleteMarker : Bool

def ObjectVersion.info (v : ObjectVersion) : VersionInfo :=
  ⟨v.versionId, v.lastModified, v.size, v.isLatest, false⟩

def DeleteMarkerEntry.info (dm : DeleteMarkerEntry) : VersionInfo :=
  ⟨dm.versionId, dm.lastModified, 0, dm.isLatest, true⟩

structure S3VersionStreamImpl where
  start : Bytes
  keyFilter : Bytes
  keyMarker : Bytes
  versionIdMarker : Bytes
  done : Bool

namespace S3VersionStreamImpl

/-- Without a filter, nothing is skipped. -/
def skips (s : S3VersionStreamImpl) (objKey : Bytes) : Bool :=
  !s.keyFilter.isEmpty && objKey != s.start ++ s.keyFilter

/-- The two loops over a page. -/
def collect (s : S3VersionStreamImpl) (page : VersionPage) : List VersionInfo :=
  (page.versions.filter fun v => !s.skips v.key).map ObjectVersion.info ++
    (page.deleteMarkers.filter fun dm => !s.skips dm.key).map DeleteMarkerEntry.info

/-- A page of which nothing is left ends the stream, truncated or not. -/
def pull (client : VersionClient ω) (w : ω) (s : S3VersionStreamImpl) :
    Pulled VersionInfo × S3VersionStreamImpl :=
  if s.done then (.ok none, s)
  else
    match client.listObjectVersions s.start s.keyMarker s.versionIdMarker w with
    | .error err => (.error ⟨"S3ListVersions", err.message⟩, s)
    | .ok page =>
        let next :=
          if page.isTruncated then
            { s with keyMarker := page.nextKeyMarker, versionIdMarker := page.nextVersionIdMarker }
          else { s with done := true }
        match s.collect page with
        | [] => (.ok none, { next with done := true })
        | versions => (.ok (some (Chunk.from versions)), next)

end S3VersionStreamImpl

/-- The stream with the client it asks and the bucket it lists, which does not change. -/
structure VersionStream (ω : Type) where
  client : VersionClient ω
  bucket : ω
  impl : S3VersionStreamImpl

instance : StreamImpl (VersionStream ω) VersionInfo where
  pull s :=
    let (r, impl) := s.impl.pull s.client s.bucket
    some (r, { s with impl })
  copy s := s

def S3Backend.listVersions (backend : S3Backend ω) (client : VersionClient ω) (key : Bytes)
    (w : ω) : StreamHandle VersionInfo :=
  makeStreamHandle (⟨client, w, ⟨backend.keyPrefix, key, [], [], false⟩⟩ : VersionStream ω)

/-! ## Histories -/

inductive HistoryEntry where
  | version (v : ObjectVersion)
  | deleteMarker (dm : DeleteMarkerEntry)

namespace HistoryEntry

def key : HistoryEntry → Bytes
  | version v => v.key
  | deleteMarker dm => dm.key

def info : HistoryEntry → VersionInfo
  | version v => v.info
  | deleteMarker dm => dm.info

end HistoryEntry

namespace VersionPage

def entries (page : VersionPage) : List HistoryEntry :=
  page.versions.map HistoryEntry.version ++ page.deleteMarkers.map HistoryEntry.deleteMarker

/-- The entries of one key. -/
def entriesOf (fullKey : Bytes) (page : VersionPage) : List HistoryEntry :=
  page.entries.filter fun entry => entry.key == fullKey

end VersionPage

/-- The pages that follow two markers. -/
inductive VersionListing (client : VersionClient ω) (w : ω) (start : Bytes) :
    Bytes → Bytes → List VersionPage → Prop where
  | last {keyMarker versionIdMarker : Bytes} {page : VersionPage}
      (hList : client.listObjectVersions start keyMarker versionIdMarker w = .ok page)
      (hLast : page.isTruncated = false) :
      VersionListing client w start keyMarker versionIdMarker [page]
  | more {keyMarker versionIdMarker : Bytes} {page : VersionPage} {pages : List VersionPage}
      (hList : client.listObjectVersions start keyMarker versionIdMarker w = .ok page)
      (hMore : page.isTruncated = true)
      (hRest : VersionListing client w start page.nextKeyMarker page.nextVersionIdMarker pages) :
      VersionListing client w start keyMarker versionIdMarker (page :: pages)

/-- Every entry of the history that has the prefix is on one of the pages. -/
structure PaginatedHistory (client : VersionClient ω) (history : List HistoryEntry) (w : ω)
    (start : Bytes) (pages : List VersionPage) : Prop where
  listing : VersionListing client w start [] [] pages
  all : (pages.flatMap VersionPage.entries).Perm
    (history.filter fun entry => startsWith entry.key start)

/-- The stream returns each entry of the key once, and nothing else. -/
def S3Backend.ListsVersions (backend : S3Backend ω) (client : VersionClient ω)
    (history : List HistoryEntry) (w : ω) (key : Bytes) : Prop :=
  ∃ infos, Denotes (backend.listVersions client key w) infos .done ∧
    infos.Perm ((history.filter fun entry => entry.key == backend.resolveKey key).map
      HistoryEntry.info)

section History
variable {client : VersionClient ω} {history : List HistoryEntry} {w : ω} {start : Bytes}
  {pages : List VersionPage}

theorem collect_eq (s : S3VersionStreamImpl) (page : VersionPage) : s.collect page =
    (page.entries.filter fun entry => !s.skips entry.key).map HistoryEntry.info := by
  rw [VersionPage.entries, List.filter_append, List.map_append, List.filter_map, List.filter_map,
    List.map_map, List.map_map]
  rfl

/-- With a filter, the entries of its key are left of a page. -/
theorem collect_filtered (start : Bytes) {key : Bytes} (hKey : key ≠ [])
    (keyMarker versionIdMarker : Bytes) (done : Bool) (page : VersionPage) :
    S3VersionStreamImpl.collect ⟨start, key, keyMarker, versionIdMarker, done⟩ page =
      (page.entriesOf (start ++ key)).map HistoryEntry.info := by
  have hFilter : key.isEmpty = false := List.isEmpty_eq_false_iff.mpr hKey
  rw [collect_eq, VersionPage.entriesOf]
  congr 2
  funext entry
  simp [S3VersionStreamImpl.skips, hFilter, bne]

theorem collect_unfiltered (start keyMarker versionIdMarker : Bytes) (done : Bool)
    (page : VersionPage) :
    S3VersionStreamImpl.collect ⟨start, [], keyMarker, versionIdMarker, done⟩ page =
      page.entries.map HistoryEntry.info := by
  have hAll : ∀ entry ∈ page.entries, (!S3VersionStreamImpl.skips
      ⟨start, [], keyMarker, versionIdMarker, done⟩ entry.key) = true := fun _ _ => rfl
  rw [collect_eq, List.filter_eq_self.mpr hAll]

theorem versionPages_cons {s : S3VersionStreamImpl} {page : VersionPage}
    {rest : List (List VersionInfo)} (hOpen : s.done = false)
    (hList : client.listObjectVersions s.start s.keyMarker s.versionIdMarker w = .ok page)
    (hRest : Pages (⟨client, w, if page.isTruncated then
        { s with keyMarker := page.nextKeyMarker, versionIdMarker := page.nextVersionIdMarker }
      else { s with done := true }⟩ : VersionStream ω) rest) :
    Pages (⟨client, w, s⟩ : VersionStream ω) (s.collect page :: rest) := by
  have hPull : StreamImpl.pull (⟨client, w, s⟩ : VersionStream ω) =
      some ((s.pull client w).1, ⟨client, w, (s.pull client w).2⟩) := rfl
  rw [S3VersionStreamImpl.pull, hOpen, if_neg Bool.false_ne_true, hList] at hPull
  rw [hOpen] at hRest
  cases hLeft : s.collect page with
  | nil =>
      simp only [hLeft] at hPull
      exact Pages.empty hPull
  | cons info infos =>
      simp only [hLeft] at hPull
      exact Pages.page (List.cons_ne_nil _ _) hPull hRest

/-- The stream goes through the listing page by page, with what its filter leaves of each. -/
theorem versionListing_pages {key keyMarker versionIdMarker : Bytes}
    {collected : VersionPage → List VersionInfo}
    (hCollect : ∀ keyMarker versionIdMarker page, S3VersionStreamImpl.collect
      ⟨start, key, keyMarker, versionIdMarker, false⟩ page = collected page)
    (hListing : VersionListing client w start keyMarker versionIdMarker pages) :
    Pages (⟨client, w, ⟨start, key, keyMarker, versionIdMarker, false⟩⟩ : VersionStream ω)
      (pages.map collected) := by
  induction hListing with
  | last hList hLast =>
      rw [List.map_cons, ← hCollect]
      refine versionPages_cons rfl hList ?_
      rw [hLast, if_neg Bool.false_ne_true]
      exact Pages.done rfl
  | more hList hMore hRest ih =>
      rw [List.map_cons, ← hCollect]
      refine versionPages_cons rfl hList ?_
      rw [hMore, if_pos rfl]
      exact ih

/-- The entries of a key in the table are those of the pages. -/
theorem PaginatedHistory.entriesOf (h : PaginatedHistory client history w start pages)
    {fullKey : Bytes} (hStart : start <+: fullKey) :
    (pages.flatMap (VersionPage.entriesOf fullKey)).Perm
      (history.filter fun entry => entry.key == fullKey) := by
  have hFiltered := h.all.filter fun entry => entry.key == fullKey
  rw [List.filter_flatMap, List.filter_filter] at hFiltered
  have hSame : (fun entry : HistoryEntry => entry.key == fullKey && startsWith entry.key start) =
      fun entry => entry.key == fullKey := by
    funext entry
    by_cases hKey : entry.key = fullKey
    · rw [hKey, startsWith_iff.mpr hStart, Bool.and_true]
    · rw [beq_eq_false_iff_ne.mpr hKey, Bool.false_and]
  rwa [hSame] at hFiltered

end History

namespace S3Backend
variable {backend : S3Backend ω} {client : VersionClient ω} {history : List HistoryEntry} {w : ω}
  {pages : List VersionPage} {key : Bytes}

theorem listsVersions_iff_perm (h : PaginatedHistory client history w backend.keyPrefix pages)
    {collected : VersionPage → List HistoryEntry}
    (hCollect : ∀ keyMarker versionIdMarker page, S3VersionStreamImpl.collect
      ⟨backend.keyPrefix, key, keyMarker, versionIdMarker, false⟩ page =
        (collected page).map HistoryEntry.info) :
    backend.ListsVersions client history w key ↔
      (brought (pages.map fun page => (collected page).map HistoryEntry.info)).Perm
        ((pages.flatMap (VersionPage.entriesOf (backend.resolveKey key))).map
          HistoryEntry.info) := by
  have hDenotes := (versionListing_pages hCollect h.listing).denotes
  have hOwn := (h.entriesOf (List.prefix_append backend.keyPrefix key)).map HistoryEntry.info
  constructor
  · rintro ⟨infos, hInfos, hPerm⟩
    obtain ⟨rfl, -⟩ := hInfos.unique hDenotes
    exact hPerm.trans hOwn.symm
  · exact fun hPerm => ⟨_, hDenotes, hPerm.trans hOwn⟩

theorem keys_pairwise_iff (entries : VersionPage → List HistoryEntry) :
    (pages.map fun page => (entries page).map HistoryEntry.info).Pairwise
      (fun page later => page = [] → later = []) ↔
    NoneLost (pages.map fun page => (entries page).map HistoryEntry.key) := by
  rw [noneLost_iff_pairwise, List.pairwise_map, List.pairwise_map]
  simp only [List.map_eq_nil_iff]

/-- The filter is on: every page is reduced to the entries of the key. -/
theorem listsVersions_filtered (h : PaginatedHistory client history w backend.keyPrefix pages)
    (hKey : key ≠ []) : backend.ListsVersions client history w key ↔
      NoneLost (pages.map fun page =>
        (page.entriesOf (backend.resolveKey key)).map HistoryEntry.key) ∧
      ∀ page ∈ pages, (page.entriesOf (backend.resolveKey key)).length < uint32Size := by
  have hCollect := fun keyMarker versionIdMarker page =>
    collect_filtered backend.keyPrefix hKey keyMarker versionIdMarker false page
  rw [listsVersions_iff_perm h hCollect, List.map_flatMap, List.flatMap_def, ← keys_pairwise_iff]
  simp only [brought_perm_iff, List.forall_mem_map, List.length_map, resolveKey]

/-- The filter is off: the entries of all keys in the table are returned. -/
theorem listsVersions_unfiltered (h : PaginatedHistory client history w backend.keyPrefix pages)
    (hNone : NoneLost (pages.map fun page => page.entries.map HistoryEntry.key))
    (hFits : ∀ page ∈ pages, page.entries.length < uint32Size) :
    backend.ListsVersions client history w [] ↔
      ∀ page ∈ pages, ∀ entry ∈ page.entries, entry.key = backend.keyPrefix := by
  have hCollect := fun keyMarker versionIdMarker page =>
    collect_unfiltered backend.keyPrefix keyMarker versionIdMarker false page
  have hBrought : brought (pages.map fun page => page.entries.map HistoryEntry.info) =
      (pages.flatMap VersionPage.entries).map HistoryEntry.info := by
    rw [List.map_flatMap, List.flatMap_def, brought_eq_iff, keys_pairwise_iff]
    simpa only [List.forall_mem_map, List.length_map] using ⟨hNone, hFits⟩
  have hKey : backend.resolveKey [] = backend.keyPrefix := List.append_nil _
  have hOwn : pages.flatMap (VersionPage.entriesOf backend.keyPrefix) =
      (pages.flatMap VersionPage.entries).filter fun entry => entry.key == backend.keyPrefix := by
    rw [List.filter_flatMap]
    rfl
  rw [listsVersions_iff_perm h hCollect, hBrought, hKey, hOwn]
  constructor
  · intro hPerm page hPage entry hEntry
    have hLength := hPerm.length_eq
    rw [List.length_map, List.length_map] at hLength
    have hAll := List.length_filter_eq_length_iff.mp hLength.symm
    exact beq_iff_eq.mp (hAll entry (List.mem_flatMap.mpr ⟨page, hPage, hEntry⟩))
  · intro hAll
    rw [List.filter_eq_self.mpr]
    intro entry hEntry
    obtain ⟨page, hPage, hMem⟩ := List.mem_flatMap.mp hEntry
    exact beq_iff_eq.mpr (hAll page hPage entry hMem)

/-- The versions of a key are all returned if and only if no page without any of them comes
before one with some and those of each page fit into a chunk. For the empty key, which is no
filter, the table has to have no other keys. -/
theorem list_versions_iff (h : PaginatedHistory client history w backend.keyPrefix pages)
    (key : Bytes) :
    (key ≠ [] → (backend.ListsVersions client history w key ↔
      NoneLost (pages.map fun page =>
        (page.entriesOf (backend.resolveKey key)).map HistoryEntry.key) ∧
      ∀ page ∈ pages, (page.entriesOf (backend.resolveKey key)).length < uint32Size)) ∧
    (NoneLost (pages.map fun page => page.entries.map HistoryEntry.key) →
      (∀ page ∈ pages, page.entries.length < uint32Size) →
      (backend.ListsVersions client history w [] ↔
        ∀ page ∈ pages, ∀ entry ∈ page.entries, entry.key = backend.keyPrefix)) :=
  ⟨listsVersions_filtered h, listsVersions_unfiltered h⟩

/-! ## Two pages -/

/-- A version that is the only one of its key. -/
def onlyVersion (key : Bytes) : ObjectVersion := ⟨key, ascii "null", ascii "2024-01-01", 1, true⟩

/-- Two keys with a version each, on pages of their own. -/
def versionPages (first second : Bytes) : List VersionPage :=
  [⟨[onlyVersion first], [], true, first, ascii "null"⟩, ⟨[onlyVersion second], [], false, [], []⟩]

def versionClient (first second : Bytes) : VersionClient ω where
  listObjectVersions := fun _ keyMarker _ _ =>
    if keyMarker.isEmpty then .ok ⟨[onlyVersion first], [], true, first, ascii "null"⟩
    else .ok ⟨[onlyVersion second], [], false, [], []⟩

def twoVersions (first second : Bytes) : List HistoryEntry :=
  [.version (onlyVersion first), .version (onlyVersion second)]

theorem versionPages_paginated {start first second : Bytes} (w : ω) (hNonempty : first ≠ [])
    (hStart : ∀ entry ∈ twoVersions first second, startsWith entry.key start = true) :
    PaginatedHistory (versionClient first second) (twoVersions first second) w start
      (versionPages first second) := by
  refine ⟨.more rfl rfl (.last ?_ rfl), ?_⟩
  · simp [versionClient, hNonempty]
  · rw [List.filter_eq_self.mpr hStart]
    exact List.Perm.refl _

theorem twoVersions_paginated : PaginatedHistory (versionClient (ascii "t/a") (ascii "t/b"))
    (twoVersions (ascii "t/a") (ascii "t/b")) oneObject smallRanges.keyPrefix
    (versionPages (ascii "t/a") (ascii "t/b")) :=
  versionPages_paginated oneObject (by decide) (by decide)

theorem list_versions_iff_twoPages :
    (smallRanges.ListsVersions (versionClient (ascii "t/a") (ascii "t/b"))
        (twoVersions (ascii "t/a") (ascii "t/b")) oneObject (ascii "a") ↔
      NoneLost ((versionPages (ascii "t/a") (ascii "t/b")).map fun page =>
        (page.entriesOf (smallRanges.resolveKey (ascii "a"))).map HistoryEntry.key) ∧
      ∀ page ∈ versionPages (ascii "t/a") (ascii "t/b"),
        (page.entriesOf (smallRanges.resolveKey (ascii "a"))).length < uint32Size) ∧
    (smallRanges.ListsVersions (versionClient (ascii "t/a") (ascii "t/b"))
        (twoVersions (ascii "t/a") (ascii "t/b")) oneObject [] ↔
      ∀ page ∈ versionPages (ascii "t/a") (ascii "t/b"), ∀ entry ∈ page.entries,
        entry.key = smallRanges.keyPrefix) := by
  obtain ⟨hFiltered, -⟩ := list_versions_iff twoVersions_paginated (ascii "a")
  obtain ⟨-, hUnfiltered⟩ := list_versions_iff twoVersions_paginated []
  refine ⟨hFiltered (by decide), hUnfiltered ?_ (by decide)⟩
  exact (noneLost_iff_pairwise _).mpr (by decide)

/-- The page with a version of another key hides the version on the next one. -/
theorem list_versions_ends_at_other_key :
    ¬ smallRanges.ListsVersions (versionClient (ascii "t/a") (ascii "t/b"))
      (twoVersions (ascii "t/a") (ascii "t/b")) oneObject (ascii "b") := by
  intro hLists
  obtain ⟨hNone, -⟩ := (listsVersions_filtered twoVersions_paginated (by decide)).mp hLists
  exact absurd (hNone [] [[ascii "t/b"]] rfl _ List.mem_cons_self) (by decide)

end S3Backend
end CelerMem
