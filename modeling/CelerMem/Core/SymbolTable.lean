import CelerMem.Core.Types
import CelerMem.Library.LinearProbe
import Mathlib

/-! `FlatSymbolTable`: a table of names built once, in a power of two of slots. `hashKey`
stands for `std::hash<std::string_view>`. -/
namespace CelerMem

namespace FlatSymbolTable

def maxProbe : Nat := 8
def ssoCapacity : Nat := 48

/-- Up to `ssoCapacity` bytes of the key are kept inline. -/
structure Slot where
  hash : Nat := 0
  value : Nat := 0
  keyLen : Nat := 0
  occupied : Bool := false
  keyBuf : Bytes := List.replicate ssoCapacity 0
  keyHeap : Bytes := []

namespace Slot

def keyView (s : Slot) : Bytes :=
  if s.keyLen ≤ ssoCapacity then s.keyBuf.take s.keyLen else s.keyHeap

/-- A length of 255 sends `keyView` to the heap. -/
def setKey (k : Bytes) (s : Slot) : Slot :=
  let s := { s with keyLen := if k.length ≤ 255 then k.length else 255 }
  if k.length ≤ ssoCapacity then { s with keyBuf := k ++ s.keyBuf.drop k.length }
  else { s with keyHeap := k, keyLen := 255 }

def «matches» (h : Nat) (k : Bytes) (s : Slot) : Bool :=
  if s.hash != h then false else s.keyView == k

theorem keyView_setKey (k : Bytes) (s : Slot) : (s.setKey k).keyView = k := by
  by_cases hShort : k.length ≤ ssoCapacity
  · have hLen : k.length ≤ 255 := hShort.trans (by decide)
    simp only [setKey, if_pos hShort, if_pos hLen, keyView, List.take_left]
  · have hLong : ¬ 255 ≤ ssoCapacity := by decide
    simp only [setKey, if_neg hShort, keyView, if_neg hLong]

end Slot

/-- The loop that doubles `cap`. -/
def growCap (target cap : Nat) : Nat :=
  if h : cap < target ∧ 0 < cap then growCap target (cap * 2) else cap
termination_by target - cap
decreasing_by omega

def nextPow2 (n : Nat) : Nat :=
  let n := if n < 4 then 4 else n
  growCap (n * 2) 16

end FlatSymbolTable

structure FlatSymbolTable where
  slots : List FlatSymbolTable.Slot
  mask : Nat
  count : Nat

namespace FlatSymbolTable

/-- The probes that are left for a key, the next of which is number `probe`. -/
def place (mask pos : Nat) (entry : Slot) : Nat → Nat → List Slot → List Slot
  | 0, _, slots => slots
  | left + 1, probe, slots =>
      match slots[(pos + probe) &&& mask]? with
      | none => slots
      | some slot =>
          if !slot.occupied then slots.set ((pos + probe) &&& mask) entry
          else place mask pos entry left (probe + 1) slots

def entryOf (hashKey : Bytes → Nat) (sv : Bytes) (value : Nat) : Slot :=
  { Slot.setKey sv { hash := hashKey sv, value } with occupied := true }

def insertKey (hashKey : Bytes → Nat) (cap : Nat) (slots : List Slot) (k : Bytes × Nat) :
    List Slot :=
  place (cap - 1) (hashKey k.1 &&& (cap - 1)) (entryOf hashKey k.1 k.2) cap 0 slots

def build (hashKey : Bytes → Nat) (keys : List Bytes) (values : List Nat) : FlatSymbolTable :=
  let cap := nextPow2 keys.length
  { slots := (keys.zip values).foldl (insertKey hashKey cap) (List.replicate cap {})
    mask := cap - 1
    count := keys.length }

/-- The value of a name is the index of the child that has it. -/
def buildIndexed (hashKey : Bytes → Nat) (names : List Bytes) : FlatSymbolTable :=
  build hashKey names (List.range names.length)

def findFrom (slots : List Slot) (mask h pos : Nat) (key : Bytes) : Nat → Nat → Option Nat
  | 0, _ => none
  | left + 1, probe =>
      match slots[(pos + probe) &&& mask]? with
      | none => none
      | some slot =>
          if !slot.occupied then none
          else if slot.matches h key then some slot.value
          else findFrom slots mask h pos key left (probe + 1)

def find (hashKey : Bytes → Nat) (key : Bytes) (table : FlatSymbolTable) : Option Nat :=
  if table.count = 0 then none
  else
    let h := hashKey key
    let bound := if table.count < maxProbe then maxProbe else table.count
    findFrom table.slots table.mask h (h &&& table.mask) key bound 0

/-! ## The size of the table -/

theorem growCap_spec (target cap : ℕ) (hPos : 0 < cap) :
    (∃ k, growCap target cap = cap * 2 ^ k) ∧ target ≤ growCap target cap := by
  induction cap using growCap.induct target with
  | case1 cap h ih =>
      rw [growCap, dif_pos h]
      obtain ⟨⟨k, hGrown⟩, hLarge⟩ := ih (by omega)
      refine ⟨⟨k + 1, ?_⟩, hLarge⟩
      rw [hGrown, Nat.pow_succ, Nat.mul_assoc, Nat.mul_comm 2]
  | case2 cap h =>
      rw [growCap, dif_neg h]
      exact ⟨⟨0, by rw [Nat.pow_zero, Nat.mul_one]⟩, by omega⟩

theorem nextPow2_eq (n : ℕ) : ∃ k, nextPow2 n = 2 ^ k := by
  obtain ⟨⟨k, hGrown⟩, -⟩ := growCap_spec ((if n < 4 then 4 else n) * 2) 16 (by decide)
  refine ⟨4 + k, ?_⟩
  rw [Nat.pow_add]
  exact hGrown

theorem lt_nextPow2 (n : ℕ) : n < nextPow2 n ∧ maxProbe ≤ nextPow2 n := by
  have hLeast : 4 ≤ (if n < 4 then 4 else n) ∧ n ≤ if n < 4 then 4 else n := by
    split
    · omega
    · omega
  obtain ⟨-, hLarge⟩ := growCap_spec ((if n < 4 then 4 else n) * 2) 16 (by decide)
  have hSame : nextPow2 n = growCap ((if n < 4 then 4 else n) * 2) 16 := rfl
  rw [maxProbe, hSame]
  omega

theorem and_mask (x k : ℕ) : x &&& (2 ^ k - 1) = x % 2 ^ k := Nat.and_two_pow_sub_one_eq_mod x k

/-! ## Slots as entries -/

/-- What a slot holds. -/
def Slot.held (s : Slot) : Option (Bytes × Nat) :=
  if s.occupied then some (s.keyView, s.value) else none

/-- The cached hashes are those of the keys. -/
def Hashed (hashKey : Bytes → Nat) (slots : List Slot) : Prop :=
  ∀ slot ∈ slots, slot.occupied = true → slot.hash = hashKey slot.keyView

theorem held_entryOf (hashKey : Bytes → Nat) (sv : Bytes) (value : Nat) :
    (entryOf hashKey sv value).held = some (sv, value) := by
  have hView := Slot.keyView_setKey sv { hash := hashKey sv, value }
  have hValue : (Slot.setKey sv { hash := hashKey sv, value }).value = value := by
    unfold Slot.setKey
    dsimp only
    split
    · rfl
    · rfl
  show some ((Slot.setKey sv { hash := hashKey sv, value }).keyView,
    (Slot.setKey sv { hash := hashKey sv, value }).value) = some (sv, value)
  rw [hView, hValue]

section Probing
variable {hashKey : Bytes → Nat} {slots : List Slot} {k : ℕ}

theorem index_eq (h probe : ℕ) : ((h &&& (2 ^ k - 1)) + probe) &&& (2 ^ k - 1) =
    (h + probe) % 2 ^ k := by
  rw [and_mask, and_mask, Nat.mod_add_mod]

/-- The slot of a probe, as an entry of the rotated table. -/
theorem rotate_entry (hLength : slots.length = 2 ^ k) (h : ℕ) {probe : ℕ} (hProbe : probe < 2 ^ k)
    {slot : Slot} (hSlot : slots[(h + probe) % 2 ^ k]? = some slot) :
    ((slots.map Slot.held).rotate h)[probe]? = some slot.held := by
  rw [List.getElem?_rotate (by rwa [List.length_map, hLength]), List.length_map, hLength,
    List.getElem?_map, Nat.add_comm probe h, hSlot, Option.map_some]

theorem exists_slot (hLength : slots.length = 2 ^ k) (h probe : ℕ) :
    ∃ slot, slots[(h + probe) % 2 ^ k]? = some slot := by
  have hLess : (h + probe) % 2 ^ k < slots.length := by
    rw [hLength]
    exact Nat.mod_lt _ (Nat.two_pow_pos k)
  exact ⟨_, List.getElem?_eq_getElem hLess⟩

/-- A probe that meets taken slots only goes on to the next one. -/
theorem place_placed (hLength : slots.length = 2 ^ k) (sv : Bytes) (value : Nat)
    (hFree : none ∈ slots.map Slot.held) (left probe : ℕ) (hProbes : left + probe = 2 ^ k)
    (hTaken : none ∉ ((slots.map Slot.held).rotate (hashKey sv)).take probe) :
    LinearProbe.Placed hashKey (slots.map Slot.held) (sv, value)
      ((place (2 ^ k - 1) (hashKey sv &&& (2 ^ k - 1)) (entryOf hashKey sv value) left probe
        slots).map Slot.held) := by
  induction left generalizing probe with
  | zero =>
      -- All slots have been tried, but one of them is free.
      have hAll : ((slots.map Slot.held).rotate (hashKey sv)).length ≤ probe := by
        rw [List.length_rotate, List.length_map, hLength]
        omega
      rw [List.take_of_length_le hAll, List.mem_rotate] at hTaken
      exact absurd hFree hTaken
  | succ left ih =>
      obtain ⟨slot, hSlot⟩ := exists_slot hLength (hashKey sv) probe
      have hProbe : probe < 2 ^ k := by omega
      have hEntry := rotate_entry hLength (hashKey sv) hProbe hSlot
      rw [place, index_eq, hSlot]
      cases hOccupied : slot.occupied with
      | false =>
          have hNone : slot.held = none := by
            rw [Slot.held, hOccupied, if_neg Bool.false_ne_true]
          refine ⟨probe, by rwa [List.length_map, hLength], hTaken, ?_, ?_⟩
          · rw [List.length_map, hLength, List.getElem?_map, hSlot, Option.map_some, hNone]
          · rw [List.length_map, hLength, ← held_entryOf hashKey sv value, ← List.map_set]
            simp [hOccupied]
      | true =>
          simp only [hOccupied, Bool.not_true, Bool.false_eq_true, if_false]
          apply ih (probe + 1) (by omega)
          rw [List.take_add_one, hEntry, Option.toList_some, List.mem_append, not_or]
          refine ⟨hTaken, ?_⟩
          rw [Slot.held, hOccupied, if_pos rfl, List.mem_singleton]
          simp

theorem findFrom_eq (hLength : slots.length = 2 ^ k) (hHashed : Hashed hashKey slots)
    (key : Bytes) (left probe : ℕ) (hProbes : left + probe ≤ 2 ^ k) :
    findFrom slots (2 ^ k - 1) (hashKey key) (hashKey key &&& (2 ^ k - 1)) key left probe =
      LinearProbe.lookup key
        ((((slots.map Slot.held).rotate (hashKey key)).drop probe).take left) := by
  induction left generalizing probe with
  | zero => rw [List.take_zero, findFrom, LinearProbe.lookup]
  | succ left ih =>
      obtain ⟨slot, hSlot⟩ := exists_slot hLength (hashKey key) probe
      have hProbe : probe < 2 ^ k := by omega
      have hEntry := rotate_entry hLength (hashKey key) hProbe hSlot
      have hLess : probe < ((slots.map Slot.held).rotate (hashKey key)).length := by
        rwa [List.length_rotate, List.length_map, hLength]
      rw [findFrom, index_eq, hSlot, List.drop_eq_getElem_cons hLess, List.take_succ_cons,
        (List.getElem?_eq_some_iff.mp hEntry).2]
      cases hOccupied : slot.occupied with
      | false =>
          rw [Slot.held, hOccupied, if_neg Bool.false_ne_true, LinearProbe.lookup]
          simp [hOccupied]
      | true =>
          have hHash := hHashed slot (List.mem_of_getElem? hSlot) hOccupied
          have hMatches : slot.matches (hashKey key) key = decide (key = slot.keyView) := by
            by_cases hSame : key = slot.keyView
            · simp [Slot.matches, hHash, ← hSame]
            · simp [Slot.matches, hSame, Ne.symm hSame]
          rw [Slot.held, hOccupied, if_pos rfl, LinearProbe.lookup]
          simp only [hOccupied, Bool.not_true, Bool.false_eq_true, if_false, hMatches,
            decide_eq_true_eq]
          split
          · rfl
          · exact ih (probe + 1) (by omega)

end Probing

/-! ## The built table -/

section Build
variable {hashKey : Bytes → Nat} {slots : List Slot} {k : ℕ}

theorem place_mem (slots : List Slot) (mask pos : ℕ) (entry : Slot) (left probe : ℕ) :
    (place mask pos entry left probe slots).length = slots.length ∧
      ∀ slot ∈ place mask pos entry left probe slots, slot ∈ slots ∨ slot = entry := by
  induction left generalizing probe with
  | zero => exact ⟨rfl, fun slot hMem => Or.inl hMem⟩
  | succ left ih =>
      rw [place]
      split
      · exact ⟨rfl, fun slot hMem => Or.inl hMem⟩
      · split
        · exact ⟨List.length_set, fun slot hMem => List.mem_or_eq_of_mem_set hMem⟩
        · exact ih (probe + 1)

theorem entryOf_hashed (sv : Bytes) (value : ℕ) :
    (entryOf hashKey sv value).hash = hashKey (entryOf hashKey sv value).keyView := by
  have hView : (entryOf hashKey sv value).keyView = sv :=
    Slot.keyView_setKey sv { hash := hashKey sv, value }
  have hHash : (entryOf hashKey sv value).hash = hashKey sv := by
    show (Slot.setKey sv { hash := hashKey sv, value }).hash = hashKey sv
    unfold Slot.setKey
    dsimp only
    split
    · rfl
    · rfl
  rw [hView, hHash]

/-- As long as there is room, inserting puts the entry in its place. -/
theorem insertKeys_filled (entries rest : List (Bytes × ℕ)) (hLength : slots.length = 2 ^ k)
    (hHashed : Hashed hashKey slots)
    (hFilled : LinearProbe.Filled hashKey entries (slots.map Slot.held))
    (hRoom : (entries ++ rest).length < 2 ^ k) :
    let table := rest.foldl (insertKey hashKey (2 ^ k)) slots
    table.length = 2 ^ k ∧ Hashed hashKey table ∧
      LinearProbe.Filled hashKey (entries ++ rest) (table.map Slot.held) := by
  induction rest generalizing entries slots with
  | nil =>
      rw [List.append_nil]
      exact ⟨hLength, hHashed, hFilled⟩
  | cons e rest ih =>
      have hOthers : entries ++ e :: rest = entries ++ [e] ++ rest := by
        rw [List.append_assoc, List.singleton_append]
      rw [hOthers] at hRoom ⊢
      have hFree : none ∈ slots.map Slot.held := by
        apply hFilled.exists_free
        rw [List.length_map, hLength]
        rw [List.length_append, List.length_append] at hRoom
        omega
      obtain ⟨hSame, hMem⟩ := place_mem slots (2 ^ k - 1) (hashKey e.1 &&& (2 ^ k - 1))
        (entryOf hashKey e.1 e.2) (2 ^ k) 0
      apply ih (entries ++ [e]) (hSame.trans hLength)
      · intro slot hSlot hOccupied
        rcases hMem slot hSlot with hOld | rfl
        · exact hHashed slot hOld hOccupied
        · exact entryOf_hashed e.1 e.2
      · exact hFilled.place (place_placed hLength e.1 e.2 hFree (2 ^ k) 0 rfl (by simp))
      · exact hRoom

/-- A lookup returns the value of the first key that is the one sought. -/
theorem find_build {keys : List Bytes} {values : List ℕ} (hSizes : keys.length = values.length)
    (key : Bytes) : (build hashKey keys values).find hashKey key = (keys.zip values).lookup key := by
  have hZip : (keys.zip values).length = keys.length := by
    rw [List.length_zip, ← hSizes, Nat.min_self]
  obtain ⟨k, hCap⟩ := nextPow2_eq keys.length
  obtain ⟨hRoom, hProbes⟩ := lt_nextPow2 keys.length
  rw [hCap] at hRoom hProbes
  have hEmpty : (List.replicate (2 ^ k) ({} : Slot)).map Slot.held =
      List.replicate (2 ^ k) none := by
    rw [List.map_replicate]
    rfl
  have hHashed : Hashed hashKey (List.replicate (2 ^ k) ({} : Slot)) := by
    intro slot hMem hOccupied
    rw [List.eq_of_mem_replicate hMem] at hOccupied
    cases hOccupied
  have hBuilt := insertKeys_filled [] (keys.zip values) List.length_replicate hHashed
    (hEmpty ▸ .empty (2 ^ k)) (by rwa [List.nil_append, hZip])
  obtain ⟨hLength, hCached, hFilled⟩ := hBuilt
  have hTable : build hashKey keys values =
      ⟨(keys.zip values).foldl (insertKey hashKey (2 ^ k)) (List.replicate (2 ^ k) {}), 2 ^ k - 1,
        keys.length⟩ := by
    rw [build, hCap]
  have hBound : keys.length ≤ (if keys.length < maxProbe then maxProbe else keys.length) ∧
      (if keys.length < maxProbe then maxProbe else keys.length) ≤ 2 ^ k := by
    split
    · rename_i hFew
      exact ⟨hFew.le, hProbes⟩
    · exact ⟨Nat.le_refl _, hRoom.le⟩
  rw [hTable, find]
  dsimp only
  split
  · rename_i hNone
    have hNil : keys.zip values = [] := List.eq_nil_of_length_eq_zero (hZip.trans hNone)
    rw [hNil, List.lookup_nil]
  · generalize (if keys.length < maxProbe then maxProbe else keys.length) = bound at hBound
    rw [findFrom_eq hLength hCached key bound 0 hBound.2, List.drop_zero]
    exact hFilled.lookup_take (hZip.le.trans hBound.1) key

theorem lookup_eq_find? (entries : List (Bytes × ℕ)) (key : Bytes) :
    entries.lookup key = (entries.find? fun entry => entry.1 == key).map Prod.snd := by
  induction entries with
  | nil => rfl
  | cons entry entries ih =>
      obtain ⟨name, value⟩ := entry
      rw [List.lookup_cons, List.find?_cons, BEq.comm]
      cases hSame : name == key with
      | true => rfl
      | false => exact ih

/-- However the names collide or repeat, the probes reach the first entry of every one. -/
theorem find_first_occurrence (entries : List (Bytes × ℕ)) (key : Bytes) :
    (build hashKey (entries.map Prod.fst) (entries.map Prod.snd)).find hashKey key =
      (entries.find? fun entry => entry.1 == key).map Prod.snd := by
  have hSizes : (entries.map Prod.fst).length = (entries.map Prod.snd).length := by
    rw [List.length_map, List.length_map]
  have hEntries : (entries.map Prod.fst).zip (entries.map Prod.snd) = entries := by
    rw [List.zip_map', List.map_id'']
    exact fun entry => rfl
  rw [find_build hSizes, hEntries, lookup_eq_find?]

theorem lookup_zip_range' (names : List Bytes) (key : Bytes) (start : ℕ) :
    (names.zip (List.range' start names.length)).lookup key =
      (names.findIdx? (· == key)).map (start + ·) := by
  induction names generalizing start with
  | nil => rfl
  | cons name names ih =>
      rw [List.length_cons, List.range'_succ, List.zip_cons_cons, List.lookup_cons,
        List.findIdx?_cons, ih]
      by_cases hSame : key = name
      · simp [hSame]
      · have hOther : (key == name) = false := beq_eq_false_iff_ne.mpr hSame
        have hOther' : (name == key) = false := beq_eq_false_iff_ne.mpr (Ne.symm hSame)
        have hShift : (fun i => start + 1 + i) = (start + ·) ∘ fun i => i + 1 := by
          funext i
          exact Nat.add_right_comm start 1 i
        rw [hOther, hOther', if_neg Bool.false_ne_true, Option.map_map, ← hShift]

/-- The index of the first name that is the one sought. -/
theorem find_buildIndexed (names : List Bytes) (key : Bytes) :
    (buildIndexed hashKey names).find hashKey key = names.findIdx? (· == key) := by
  rw [buildIndexed, find_build List.length_range.symm, List.range_eq_range', lookup_zip_range']
  simp

end Build
end FlatSymbolTable
end CelerMem
