import CelerMem.Backend.RocksDB
import CelerMem.Materialization.StoreRef
import Mathlib

/-! Reading many keys at once: the loop that every backend can fall back on, the `IN` queries
of SQLite and the `MultiGet` of RocksDB. -/
namespace CelerMem

open Materialization (BatchGetItem)

/-- The loop over `get`, for backends without a batch get of their own. -/
def defaultGetMany (get : Bytes → Result (Option Bytes)) : List Bytes → Result (List BatchGetItem)
  | [] => .ok []
  | key :: keys =>
      match get key with
      | .error e => .error e
      | .ok value =>
          match defaultGetMany get keys with
          | .error e => .error e
          | .ok items => .ok (⟨key, value⟩ :: items)

namespace RocksDBBackend

/-- The loop over the statuses. -/
def alignStatuses : List Bytes → List (Except String (Option Bytes)) → Result (List BatchGetItem)
  | key :: keys, status :: statuses =>
      match status with
      | .error msg => .error ⟨"RocksDBGetMany", msg⟩
      | .ok value =>
          match alignStatuses keys statuses with
          | .error e => .error e
          | .ok items => .ok (⟨key, value⟩ :: items)
  | _, _ => .ok []

def getMany (backend : RocksDBBackend) (keys : List Bytes) : Result (List BatchGetItem) :=
  match backend.db with
  | none => .error ⟨"RocksDBGetMany", "backend not open"⟩
  | some db => if keys.isEmpty then .ok [] else alignStatuses keys (db.multiGet keys)

end RocksDBBackend

namespace SQLiteBackend

/-- The hash map from the keys that were found to what is still left of their values. -/
abbrev Found := List (Bytes × Option Bytes)

def kChunk : Nat := 256

/-- `emplace` keeps an entry that is there. -/
def emplace (found : Found) (key value : Bytes) : Found :=
  match found.lookup key with
  | some _ => found
  | none => found ++ [(key, some value)]

/-- The rows of a chunk, each under the key of the chunk that it has. -/
def collectChunk (chunk : List Bytes) (rows : List KVPair) (found : Found) : Found :=
  rows.foldl (fun found kv =>
    if chunk.contains kv.key then emplace found kv.key kv.value else found) found

/-- The loop over the chunks. -/
def fetchChunks (db : Connection) (keys : List Bytes) (found : Found) : Result Found :=
  match keys with
  | [] => .ok found
  | key :: rest =>
      let chunk := (key :: rest).take kChunk
      match db.select (.oneOf (chunk.map (bindText db.maxLength))) with
      | .error msg => .error ⟨"SQLiteGetMany", msg⟩
      | .ok ⟨_, some msg⟩ => .error ⟨"SQLiteGetMany", msg⟩
      | .ok ⟨rows, none⟩ =>
          fetchChunks db ((key :: rest).drop kChunk) (collectChunk chunk rows found)
termination_by keys.length
decreasing_by
  rw [List.length_drop]
  exact Nat.sub_lt (Nat.succ_pos _) (by decide)

/-- An optional that has been moved from keeps its string, which is left empty. -/
def movedFrom (value : Option Bytes) : Option Bytes := value.map fun _ => []

/-- The loop that puts the values back into the order of the keys, moving them out. -/
def realign : List Bytes → Found → List BatchGetItem
  | [], _ => []
  | key :: keys, found =>
      match found.lookup key with
      | none => ⟨key, none⟩ :: realign keys found
      | some value => ⟨key, value⟩ ::
          realign keys (found.map fun e => if e.1 == key then (e.1, movedFrom e.2) else e)

def getMany (backend : SQLiteBackend) (keys : List Bytes) : Result (List BatchGetItem) :=
  match backend.db with
  | none => .error ⟨"SQLiteGetMany", "db is closed"⟩
  | some db =>
      if keys.isEmpty then .ok []
      else
        match fetchChunks db keys [] with
        | .error e => .error e
        | .ok found => .ok (realign keys found)

end SQLiteBackend

/-! ## One key after the other -/

section Pointwise
variable {contents : Contents}

theorem defaultGetMany_eq {get : Bytes → Result (Option Bytes)} (keys : List Bytes)
    (h : ∀ key ∈ keys, get key = .ok (contents key)) :
    defaultGetMany get keys = .ok (keys.map fun key => ⟨key, contents key⟩) := by
  induction keys with
  | nil => rfl
  | cons key keys ih =>
      rw [defaultGetMany, h key List.mem_cons_self,
        ih fun other hMem => h other (List.mem_cons_of_mem key hMem)]
      rfl

theorem RocksDBBackend.alignStatuses_eq (keys : List Bytes) :
    alignStatuses keys (keys.map fun key => .ok (contents key)) =
      .ok (keys.map fun key => ⟨key, contents key⟩) := by
  induction keys with
  | nil => rfl
  | cons key keys ih =>
      rw [List.map_cons, alignStatuses, ih]
      rfl

theorem RocksDBBackend.getMany_eq {db : RocksDb} (hServes : db.Serves contents) (keys : List Bytes) :
    getMany ⟨some db⟩ keys = .ok (keys.map fun key => ⟨key, contents key⟩) := by
  cases keys with
  | nil => rfl
  | cons key keys =>
      rw [getMany]
      simp only [List.isEmpty_cons, Bool.false_eq_true, if_false]
      rw [hServes.multiGet, alignStatuses_eq]

end Pointwise

namespace SQLiteBackend
variable {db : Connection} {contents : Contents}

/-- What is stored under the key that is bound. -/
theorem get_eq (hServes : db.Serves contents) (key : Bytes) :
    get ⟨some db⟩ key = .ok ((bindText db.maxLength key).bind contents) := by
  obtain ⟨rows, hRows, hMem, -, -⟩ := hServes.answers (.equal (bindText db.maxLength key))
  have hKey : ∀ kv ∈ rows, (bindText db.maxLength key).bind contents = some kv.value := by
    intro kv hRow
    obtain ⟨hStored, hSame⟩ := (hMem kv).mp hRow
    rwa [beq_iff_eq.mp hSame, Option.bind_some]
  rw [get]
  simp only [hRows]
  cases rows with
  | cons kv rows => rw [hKey kv List.mem_cons_self]
  | nil =>
      cases hBound : bindText db.maxLength key with
      | none => rfl
      | some bound =>
          cases hStored : contents bound with
          | none => rw [Option.bind_some, hStored]
          | some value =>
              have hRow := (hMem ⟨bound, value⟩).mpr ⟨hStored, beq_iff_eq.mpr hBound⟩
              exact absurd hRow List.not_mem_nil

/-! ## The chunks -/

theorem emplace_lookup (found : Found) (key value sought : Bytes) :
    (emplace found key value).lookup sought =
      (found.lookup sought).or (if sought = key then some (some value) else none) := by
  unfold emplace
  split
  · rename_i old hOld
    by_cases hSame : sought = key
    · rw [hSame, hOld, Option.some_or]
    · rw [if_neg hSame, Option.or_none]
  · rename_i hNew
    rw [List.lookup_append]
    by_cases hSame : sought = key
    · simp [hSame]
    · simp [hSame, List.lookup_cons, beq_eq_false_iff_ne.mpr hSame]

/-- Rows whose keys are not in the chunk are passed over. -/
theorem collectChunk_lookup {chunk : List Bytes} {rows : List KVPair}
    (hRows : ∀ kv ∈ rows, contents kv.key = some kv.value) (found : Found) (key : Bytes) :
    (collectChunk chunk rows found).lookup key = (found.lookup key).or
      (if key ∈ chunk ∧ key ∈ rows.map KVPair.key then some (contents key) else none) := by
  unfold collectChunk
  induction rows generalizing found with
  | nil => simp
  | cons kv rows ih =>
      have hStored := hRows kv List.mem_cons_self
      rw [List.foldl_cons, ih (fun other hMem => hRows other (List.mem_cons_of_mem kv hMem)),
        List.map_cons]
      by_cases hAsked : chunk.contains kv.key = true
      · rw [if_pos hAsked, emplace_lookup, Option.or_assoc]
        congr 1
        by_cases hSame : key = kv.key
        · have hHere : key ∈ chunk ∧ key ∈ kv.key :: rows.map KVPair.key := by
            rw [hSame]
            exact ⟨List.contains_iff_mem.mp hAsked, List.mem_cons_self⟩
          rw [if_pos hSame, if_pos hHere, hSame, hStored, Option.some_or]
        · rw [if_neg hSame, Option.none_or]
          simp [hSame]
      · have hOther : key ∈ chunk → key ≠ kv.key := by
          rintro hMem rfl
          exact hAsked (List.contains_iff_mem.mpr hMem)
        rw [if_neg hAsked]
        congr 2
        rw [List.mem_cons]
        exact propext (and_congr_right fun hMem => (or_iff_right (hOther hMem)).symm)

/-- What is found under the keys that are asked for. -/
def stored (contents : Contents) (keys : List Bytes) (key : Bytes) : Option (Option Bytes) :=
  if key ∈ keys then (contents key).map some else none

theorem stored_append (keys keys' : List Bytes) (key : Bytes) :
    (stored contents keys key).or (stored contents keys' key) =
      stored contents (keys ++ keys') key := by
  unfold stored
  by_cases hFirst : key ∈ keys
  · cases hStored : contents key with
    | none => simp
    | some value => simp [hFirst]
  · simp [hFirst]

theorem fetchChunks_lookup (hServes : db.Serves contents) (keys : List Bytes) (found : Found) :
    ∃ found', fetchChunks db keys found = .ok found' ∧
      ∀ key, found'.lookup key = (found.lookup key).or (stored contents keys key) := by
  induction keys, found using fetchChunks.induct db with
  | case1 found => exact ⟨found, by rw [fetchChunks], fun key => by simp [stored]⟩
  | case2 found key rest chunk msg hSelect =>
      obtain ⟨rows, hRows, -⟩ := hServes.answers (.oneOf (chunk.map (bindText db.maxLength)))
      rw [hRows] at hSelect
      cases hSelect
  | case3 found key rest chunk rows msg hSelect =>
      obtain ⟨rows', hRows, -⟩ := hServes.answers (.oneOf (chunk.map (bindText db.maxLength)))
      rw [hRows] at hSelect
      cases hSelect
  | case4 found key rest chunk rows hSelect ih =>
      obtain ⟨rows', hRows, hMem, -, -⟩ :=
        hServes.answers (.oneOf (chunk.map (bindText db.maxLength)))
      rw [hRows] at hSelect
      obtain rfl : rows' = rows := by
        injection hSelect with hCursor
        injection hCursor
      obtain ⟨found', hFetched, hLookup⟩ := ih
      refine ⟨found', ?_, ?_⟩
      · rw [fetchChunks]
        simp only [chunk] at hRows
        simp only [hRows]
        exact hFetched
      · intro sought
        have hChunk : (if sought ∈ chunk ∧ sought ∈ rows'.map KVPair.key then
            some (contents sought) else none) = stored contents chunk sought := by
          unfold stored
          cases hStored : contents sought with
          | none =>
              have hNone : sought ∉ rows'.map KVPair.key := by
                intro hKey
                obtain ⟨kv, hRow, rfl⟩ := List.mem_map.mp hKey
                rw [((hMem kv).mp hRow).1] at hStored
                cases hStored
              simp [hNone]
          | some value =>
              -- A key that is stored is bound as it is, and is found if it is asked for.
              have hFound : sought ∈ chunk → sought ∈ rows'.map KVPair.key := by
                intro hAsked
                have hBound : some sought ∈ chunk.map (bindText db.maxLength) :=
                  List.mem_map.mpr ⟨sought, hAsked, hServes.bindText_stored hStored⟩
                have hRow := (hMem ⟨sought, value⟩).mpr
                  ⟨hStored, List.contains_iff_mem.mpr hBound⟩
                exact List.mem_map_of_mem hRow
              simp only [and_iff_left_of_imp hFound, Option.map_some]
        rw [hLookup, collectChunk_lookup (fun kv hRow => ((hMem kv).mp hRow).1), hChunk,
          Option.or_assoc, stored_append, List.take_append_drop]

/-! ## The order of the keys -/

@[simp] theorem movedFrom_movedFrom (value : Option Bytes) :
    movedFrom (movedFrom value) = movedFrom value := by
  cases value with
  | none => rfl
  | some v => rfl

theorem movedFrom_eq_self_iff (value : Option Bytes) :
    movedFrom value = value ↔ ∀ v, value = some v → v = [] := by
  cases value with
  | none => simp [movedFrom]
  | some v => simp [movedFrom, eq_comm]

theorem lookup_moved (found : Found) (key sought : Bytes) :
    (found.map fun e => if e.1 == key then (e.1, movedFrom e.2) else e).lookup sought =
      if sought = key then (found.lookup sought).map movedFrom else found.lookup sought := by
  induction found with
  | nil => simp
  | cons e found ih =>
      rw [List.map_cons, List.lookup_cons, List.lookup_cons, ih]
      by_cases hKey : e.1 = key
      · rw [if_pos (beq_iff_eq.mpr hKey)]
        by_cases hSought : sought = e.1
        · simp [hSought, hKey]
        · have hOther : sought ≠ key := hKey ▸ hSought
          simp [hOther, beq_eq_false_iff_ne.mpr hSought]
      · rw [if_neg (mt beq_iff_eq.mp hKey)]
        by_cases hSought : sought = e.1
        · have hOther : sought ≠ key := hSought ▸ hKey
          simp [hSought, hKey]
        · simp [beq_eq_false_iff_ne.mpr hSought]

/-- A value is moved out to the first of its keys; every later one gets what is left. -/
theorem realign_getElem? (keys : List Bytes) (found : Found) (i : ℕ) :
    (realign keys found)[i]? = keys[i]?.map fun key =>
      ⟨key, if key ∈ keys.take i then movedFrom (found.lookup key).join
        else (found.lookup key).join⟩ := by
  induction keys generalizing found i with
  | nil => simp [realign]
  | cons key keys ih =>
      rw [realign]
      cases hFound : found.lookup key with
      | none =>
          cases i with
          | zero => simp [hFound]
          | succ i =>
              rw [List.getElem?_cons_succ, List.getElem?_cons_succ, ih]
              apply congrArg fun f => keys[i]?.map f
              funext other
              by_cases hSame : other = key
              · simp [hSame, hFound, movedFrom]
              · simp [hSame]
      | some value =>
          cases i with
          | zero => simp [hFound]
          | succ i =>
              simp only [List.getElem?_cons_succ]
              rw [ih]
              apply congrArg fun f => keys[i]?.map f
              funext other
              rw [lookup_moved]
              by_cases hSame : other = key
              · simp [hSame, hFound]
              · simp [hSame]

theorem getMany_getElem? (hServes : db.Serves contents) (keys : List Bytes) :
    ∃ items, getMany ⟨some db⟩ keys = .ok items ∧ ∀ i : ℕ, items[i]? = keys[i]?.map fun key =>
      ⟨key, if key ∈ keys.take i then movedFrom (contents key) else contents key⟩ := by
  cases hEmpty : keys.isEmpty with
  | true =>
      obtain rfl := List.isEmpty_iff.mp hEmpty
      exact ⟨[], rfl, fun i => rfl⟩
  | false =>
      obtain ⟨found, hFetched, hLookup⟩ := fetchChunks_lookup hServes keys []
      refine ⟨realign keys found, by simp [getMany, hEmpty, hFetched], ?_⟩
      intro i
      rw [realign_getElem?]
      cases hKey : keys[i]? with
      | none => rfl
      | some key =>
          have hFound : (found.lookup key).join = contents key := by
            rw [hLookup, stored, if_pos (List.mem_of_getElem? hKey)]
            cases contents key with
            | none => rfl
            | some value => rfl
          rw [Option.map_some, Option.map_some, hFound]

end SQLiteBackend

/-! ## Repeated keys -/

theorem two_le_count {keys : List Bytes} {key : Bytes} {i : ℕ} (hKey : keys[i]? = some key)
    (hBefore : key ∈ keys.take i) : 2 ≤ keys.count key := by
  obtain ⟨hLess, hAt⟩ := List.getElem?_eq_some_iff.mp hKey
  have hSplit : keys.count key = (keys.take i).count key + (keys.drop i).count key := by
    rw [← List.count_append, List.take_append_drop]
  have hFirst := List.count_pos_iff.mpr hBefore
  rw [List.drop_eq_getElem_cons hLess, hAt, List.count_cons_self] at hSplit
  omega

theorem exists_repeated {keys : List Bytes} {key : Bytes} (h : 2 ≤ keys.count key) :
    ∃ i : ℕ, keys[i]? = some key ∧ key ∈ keys.take i := by
  induction keys with
  | nil => simp at h
  | cons first keys ih =>
      by_cases hFirst : first = key
      · rw [hFirst, List.count_cons_self] at h
        have hLater : 0 < keys.count key := by omega
        obtain ⟨i, hKey⟩ := List.mem_iff_getElem?.mp (List.count_pos_iff.mp hLater)
        exact ⟨i + 1, hKey, hFirst ▸ List.mem_cons_self⟩
      · rw [List.count_cons_of_ne hFirst] at h
        obtain ⟨i, hKey, hBefore⟩ := ih h
        exact ⟨i + 1, hKey, List.mem_cons_of_mem first hBefore⟩

/-- SQLite gives one item for each key, with what `get` returns for it, and so do the loop
over `get` and RocksDB. -/
def ReadsPointwise (sqlite : Connection) (rocks : RocksDb) (keys : List Bytes) : Prop :=
  ∃ items : List BatchGetItem, SQLiteBackend.getMany ⟨some sqlite⟩ keys = .ok items ∧
    items.length = keys.length ∧
    (∀ (i : ℕ) (key : Bytes), keys[i]? = some key → ∃ value,
      SQLiteBackend.get ⟨some sqlite⟩ key = .ok value ∧ items[i]? = some ⟨key, value⟩) ∧
    defaultGetMany (SQLiteBackend.get ⟨some sqlite⟩) keys = .ok items ∧
    RocksDBBackend.getMany ⟨some rocks⟩ keys = .ok items

/-- No key is cut so that it is bound as another one that is stored. -/
def CutsApart (db : Connection) (contents : Contents) (keys : List Bytes) : Prop :=
  ∀ key ∈ keys, ∀ bound, bindText db.maxLength key = some bound → bound ≠ key →
    contents bound = none

/-- Then `get` returns what is stored under the key itself. -/
theorem cutsApart_iff {contents : Contents} {db : Connection} (hServes : db.Serves contents)
    {keys : List Bytes} : CutsApart db contents keys ↔
      ∀ key ∈ keys, (bindText db.maxLength key).bind contents = contents key := by
  constructor
  · intro hApart key hMem
    cases hStored : contents key with
    | some value => rw [hServes.bindText_stored hStored, Option.bind_some, hStored]
    | none =>
        cases hBound : bindText db.maxLength key with
        | none => rfl
        | some bound =>
            rw [Option.bind_some]
            by_cases hSame : bound = key
            · rw [hSame, hStored]
            · exact hApart key hMem bound hBound hSame
  · intro hReads key hMem bound hBound hOther
    have hRead := hReads key hMem
    rw [hBound, Option.bind_some] at hRead
    by_contra hStored
    obtain ⟨value, hValue⟩ := Option.ne_none_iff_exists'.mp hStored
    have hKey := hServes.bindText_stored (hRead.symm.trans hValue)
    rw [hBound] at hKey
    exact hOther (Option.some.inj hKey)

/-- What is moved out is missed only by a later position of its key, and only if there was
something in it. -/
theorem items_eq_iff {contents : Contents} {keys : List Bytes} {items : List BatchGetItem}
    (hAt : ∀ i : ℕ, items[i]? = keys[i]?.map fun key =>
      ⟨key, if key ∈ keys.take i then SQLiteBackend.movedFrom (contents key) else contents key⟩) :
    (items = keys.map fun key => ⟨key, contents key⟩) ↔
      ∀ key value, contents key = some value → value ≠ [] → keys.count key ≤ 1 := by
  constructor
  · rintro rfl key value hStored hNonempty
    by_contra hCount
    obtain ⟨i, hKey, hBefore⟩ := exists_repeated (Nat.lt_of_not_le hCount)
    have hItem := hAt i
    rw [List.getElem?_map, hKey, Option.map_some, Option.map_some, if_pos hBefore, hStored]
      at hItem
    have hMoved : SQLiteBackend.movedFrom (some value) = some value := by
      injection hItem with hSame
      injection hSame with _ hValue
      exact hValue.symm
    exact hNonempty ((SQLiteBackend.movedFrom_eq_self_iff _).mp hMoved value rfl)
  · intro hOnce
    apply List.ext_getElem?
    intro i
    rw [hAt, List.getElem?_map]
    cases hKey : keys[i]? with
    | none => rfl
    | some key =>
        rw [Option.map_some, Option.map_some]
        split
        · rename_i hBefore
          have hTwice := two_le_count hKey hBefore
          have hMoved : SQLiteBackend.movedFrom (contents key) = contents key := by
            apply (SQLiteBackend.movedFrom_eq_self_iff _).mpr
            intro value hStored
            by_contra hNonempty
            have hCount := hOnce key value hStored hNonempty
            omega
          rw [hMoved]
        · rfl

theorem oneRow_serves : (Connection.ofTable oneRow).Serves oneRow.contents :=
  Connection.ofTable_serves (by decide)

end CelerMem
