import CelerMem.Backend.QPDFWrites
import CelerMem.Library.Batches
import Mathlib

/-! The scans of a scope whose tables are written meanwhile. What the first pull of a stream has
read stays with the stream and goes over to its copies. -/
namespace CelerMem

open PdfDictionaries

/-! ## Pages of a snapshot -/

namespace QPDFScanStream
variable {table : List KVPair} {n : ℕ} {s : QPDFScanStream}

/-- What a pull brings of a table after some others. -/
def page (table : List KVPair) (n : ℕ) : Pulled KVPair :=
  if (Batches.batchAt chunkSize table n).isEmpty then .ok none
  else .ok (some (Chunk.from (Batches.batchAt chunkSize table n)))

theorem page_of_le (h : table.length ≤ chunkSize * n) : page table n = .ok none := by
  rw [page, (Batches.batchAt_eq_nil_iff (by decide)).mpr h]
  rfl

theorem page_of_lt (h : chunkSize * n < table.length) :
    page table n = .ok (some (Chunk.from (Batches.batchAt chunkSize table n))) := by
  have hSome : Batches.batchAt chunkSize table n ≠ [] :=
    mt (Batches.batchAt_eq_nil_iff (by decide)).mp h.not_ge
  rw [page, List.isEmpty_eq_false_iff.mpr hSome]
  rfl

/-- The pairs that a pull brings. -/
def pairs : Pulled KVPair → List KVPair
  | .ok (some chunk) => chunk.toList
  | _ => []

theorem pairs_page : pairs (page table n) = Batches.batchAt chunkSize table n := by
  rw [page]
  split
  · rename_i hEmpty
    exact (List.isEmpty_iff.mp hEmpty).symm
  · exact toList_chunk _

/-- The stream has brought some pages of a table and still holds the others. -/
structure ReadTo (table : List KVPair) (n : ℕ) (s : QPDFScanStream) : Prop where
  cursor : s.cursor = min (chunkSize * n) table.length
  done : s.done = decide (table.length ≤ chunkSize * n)
  snapshot : ∃ left, s.snapshot = some left ∧ left.length = table.length ∧
    left.drop s.cursor = table.drop s.cursor

/-- Behind the last page there is none. -/
theorem readTo_succ_of_le {left : List KVPair} (hEnd : table.length ≤ chunkSize * n)
    (hCursor : s.cursor = min (chunkSize * n) table.length) (hDone : s.done = true)
    (hSnapshot : s.snapshot = some left) (hLength : left.length = table.length)
    (hLeft : left.drop s.cursor = table.drop s.cursor) : ReadTo table (n + 1) s := by
  have hMore : table.length ≤ chunkSize * (n + 1) :=
    hEnd.trans (Nat.mul_le_mul_left _ (Nat.le_succ n))
  refine ⟨?_, hDone.trans (decide_eq_true hMore).symm, left, hSnapshot, hLength, hLeft⟩
  rw [hCursor, Nat.min_eq_right hEnd, Nat.min_eq_right hMore]

theorem emit_page {left : List KVPair} (hCursor : s.cursor = min (chunkSize * n) table.length)
    (hLength : left.length = table.length) (hLeft : left.drop s.cursor = table.drop s.cursor) :
    (s.emit left).1 = page table n ∧ ReadTo table (n + 1) (s.emit left).2 := by
  by_cases hEnd : table.length ≤ chunkSize * n
  · have hPassed : left.length ≤ s.cursor := by
      rw [hLength, hCursor, Nat.min_eq_right hEnd]
    rw [emit, if_pos hPassed, page_of_le hEnd]
    exact ⟨rfl, readTo_succ_of_le hEnd hCursor rfl rfl hLength hLeft⟩
  · have hInside : chunkSize * n < table.length := Nat.not_le.mp hEnd
    rw [Nat.min_eq_left hInside.le] at hCursor
    have hBehind : s.cursor < left.length := by rwa [hCursor, hLength]
    obtain ⟨rest, hEmit, hRestLength, hRest⟩ := emit_of_lt hBehind
    rw [hEmit, page_of_lt hInside, Batches.batchAt, ← hCursor, hLeft]
    refine ⟨rfl, ?_, ?_, rest, rfl, hRestLength.trans hLength, ?_⟩
    · dsimp only
      rw [hLength, hCursor, Nat.mul_succ]
    · dsimp only
      rw [hLength, hCursor, Nat.mul_succ, decide_eq_decide]
      omega
    · dsimp only
      rw [hRest, hLength, ← List.drop_drop, hLeft, List.drop_drop, List.drop_eq_drop_iff]
      omega

variable [Libqpdf]

/-- A stream that has been pulled does not look at the state. -/
theorem ReadTo.pull (h : ReadTo table n s) (state : Option QPDFScopeState) :
    (s.pull state).1 = page table n ∧ ReadTo table (n + 1) (s.pull state).2 := by
  obtain ⟨left, hSnapshot, hLength, hLeft⟩ := h.snapshot
  simp only [QPDFScanStream.pull, hSnapshot]
  split
  · rename_i hDone
    have hEnd : table.length ≤ chunkSize * n := of_decide_eq_true (h.done.symm.trans hDone)
    exact ⟨(page_of_le hEnd).symm,
      readTo_succ_of_le hEnd h.cursor hDone hSnapshot hLength hLeft⟩
  · exact emit_page h.cursor hLength hLeft

/-- The first pull reads the table. -/
theorem pull_unread (state : QPDFScopeState) (tableName start : Bytes) :
    (QPDFScanStream.pull (some state) ⟨tableName, start, false, none, 0⟩).1 =
        page (takeSnapshot state.pdf tableName start) 0 ∧
      ReadTo (takeSnapshot state.pdf tableName start) 1
        (QPDFScanStream.pull (some state) ⟨tableName, start, false, none, 0⟩).2 :=
  emit_page (Nat.zero_min _).symm rfl rfl

/-- No pull changes what the stream is a scan of. -/
theorem pull_table (state : Option QPDFScopeState) (s : QPDFScanStream) :
    (s.pull state).2.tableName = s.tableName ∧ (s.pull state).2.start = s.start := by
  have hEmit (snapshot : List KVPair) :
      (s.emit snapshot).2.tableName = s.tableName ∧ (s.emit snapshot).2.start = s.start := by
    rw [emit]
    split
    · exact ⟨rfl, rfl⟩
    · exact ⟨rfl, rfl⟩
  unfold pull
  split
  · exact ⟨rfl, rfl⟩
  · split
    · exact hEmit _
    · exact ⟨rfl, rfl⟩
    · exact hEmit _

/-- The pairs of a table whose keys have the prefix, sorted by key. Where the names are those of
keys, no two of them have the same key, so that there is one such list. -/
structure SortedScan (pdf : PdfDocument) (tableName start : Bytes) (table : List KVPair) :
    Prop where
  perm : table.Perm ((getKeys ((pdf.tableDict tableName).getD newDictionary)).filterMap
    (matching start ((pdf.tableDict tableName).getD newDictionary)))
  sorted : table.Pairwise fun a b => a.key ≤ b.key
  scanned : pdf.Named → (pdf.contents tableName).Scanned start table

theorem takeSnapshot_sortedScan (pdf : PdfDocument) (tableName start : Bytes) :
    SortedScan pdf tableName start (takeSnapshot pdf tableName start) := by
  refine ⟨?_, ?_, fun hNamed => takeSnapshot_scanned hNamed tableName start⟩
  · rw [takeSnapshot]
    cases pdf.tableDict tableName with
    | none => rw [Option.getD_none, PdfDictionary.getKeys_newDictionary, List.filterMap_nil]
    | some tableDict => exact List.mergeSort_perm _ _
  · rw [takeSnapshot]
    cases pdf.tableDict tableName with
    | none => exact .nil
    | some tableDict => exact sorted_of_mergeSort _

end QPDFScanStream

/-! ## A scope in use -/

/-- The streams of a scope have numbers, in the order in which they come up. -/
inductive ScopeEvent where
  | streamScan (tableName start : Bytes)
  | pull (k : ℕ)
  | clone (k : ℕ)
  | write (tableName : Bytes) (call : WriteCall) (outcome : WriteOutcome)
  | compact (tableName : Bytes) (outcome : WriteOutcome)
  | close (tableName : Bytes) (outcome : WriteOutcome)

def ScopeEvent.isPull (k : ℕ) : ScopeEvent → Bool
  | .pull j => j == k
  | _ => false

theorem ScopeEvent.eq_pull {k : ℕ} {e : ScopeEvent} (h : e.isPull k = true) : e = .pull k := by
  cases e with
  | pull j => rw [of_decide_eq_true h]
  | streamScan _ _ | clone _ | write _ _ _ | compact _ _ | close _ _ => cases h

section Scope
variable [Libqpdf]

/-- A stream with what no function reads: the document that it or the one it was copied from
was first pulled at, and how often the two have been pulled. -/
structure SharedScan where
  stream : QPDFScanStream
  first : Option PdfDocument
  pulls : ℕ

def SharedScan.pull (state : QPDFScopeState) (scan : SharedScan) : Pulled KVPair × SharedScan :=
  let (r, stream) := scan.stream.pull (some state)
  (r, ⟨stream, scan.first.or (some state.pdf), scan.pulls + 1⟩)

namespace SharedScan

/-- What a stream holds was read at its first pull. -/
def Kept (scan : SharedScan) : Prop :=
  match scan.first with
  | none => scan.pulls = 0 ∧
      scan.stream = ⟨scan.stream.tableName, scan.stream.start, false, none, 0⟩
  | some pdf => scan.stream.ReadTo
      (QPDFScanStream.takeSnapshot pdf scan.stream.tableName scan.stream.start) scan.pulls

theorem Kept.pull {scan : SharedScan} (h : scan.Kept) (state : QPDFScopeState) :
    (scan.pull state).2.Kept := by
  obtain ⟨stream, first, pulls⟩ := scan
  obtain ⟨hTable, hStart⟩ := QPDFScanStream.pull_table (some state) stream
  cases first with
  | none =>
      obtain ⟨rfl, hStream⟩ := h
      have hRead := (QPDFScanStream.pull_unread state stream.tableName stream.start).2
      dsimp only at hStream
      rw [← hStream, ← hTable, ← hStart] at hRead
      exact hRead
  | some pdf =>
      have hRead := (QPDFScanStream.ReadTo.pull h (some state)).2
      dsimp only at hRead
      rw [← hTable, ← hStart] at hRead
      exact hRead

end SharedScan

structure ScopeSession where
  state : QPDFScopeState
  scans : List SharedScan := []

end Scope

namespace ScopeSession

section Snapshots
variable [Libqpdf]

def setState (s : ScopeSession) (state : Option QPDFScopeState) : ScopeSession :=
  { s with state := state.getD s.state }

/-- The streams and the tables that are open point to one state. -/
def step (s : ScopeSession) : ScopeEvent → ScopeSession
  | .streamScan tableName start =>
      { s with scans := s.scans ++ [⟨⟨tableName, start, false, none, 0⟩, none, 0⟩] }
  | .pull k =>
      match s.scans[k]? with
      | none => s
      | some scan => { s with scans := s.scans.set k (scan.pull s.state).2 }
  | .clone k =>
      match s.scans[k]? with
      | none => s
      | some scan => { s with scans := s.scans ++ [scan] }
  | .write tableName call outcome =>
      s.setState (QPDFBackend.run ⟨some s.state, tableName⟩ call outcome).2.state
  | .compact tableName outcome =>
      s.setState (QPDFBackend.compact ⟨some s.state, tableName⟩ outcome).2.state
  | .close tableName outcome =>
      s.setState (QPDFBackend.close ⟨some s.state, tableName⟩ outcome).2.1

def run (s : ScopeSession) (events : List ScopeEvent) : ScopeSession :=
  events.foldl step s

/-- What the pulls of a stream answer. -/
def answers (k : ℕ) : ScopeSession → List ScopeEvent → List (Pulled KVPair)
  | _, [] => []
  | s, e :: events =>
      let later := answers k (s.step e) events
      if e.isPull k then
        match s.scans[k]? with
        | none => later
        | some scan => (scan.pull s.state).1 :: later
      else later

def brought (k : ℕ) (s : ScopeSession) (events : List ScopeEvent) : List KVPair :=
  (s.answers k events).flatMap QPDFScanStream.pairs

/-- The pulls of a stream bring what is left of a table after some pages, and then nothing. -/
structure Yields (k : ℕ) (s : ScopeSession) (events : List ScopeEvent) (table : List KVPair)
    (n : ℕ) : Prop where
  answers : s.answers k events =
    (List.range (events.countP (ScopeEvent.isPull k))).map
      fun i => QPDFScanStream.page table (n + i)
  brought : s.brought k events = (table.drop (QPDFScanStream.chunkSize * n)).take
    (QPDFScanStream.chunkSize * events.countP (ScopeEvent.isPull k))

section Session
variable {s : ScopeSession} {k : ℕ} {scan : SharedScan} {table : List KVPair} {n : ℕ}

theorem run_append (s : ScopeSession) (first second : List ScopeEvent) :
    s.run (first ++ second) = (s.run first).run second :=
  List.foldl_append

/-- A stream is changed by its own pulls only. -/
theorem scans_step (hAt : s.scans[k]? = some scan) {e : ScopeEvent} (hOther : e.isPull k = false) :
    (s.step e).scans[k]? = some scan := by
  have hInside : k < s.scans.length := (List.getElem?_eq_some_iff.mp hAt).1
  cases e with
  | streamScan tableName start => rwa [step, List.getElem?_append_left hInside]
  | pull j =>
      rw [step]
      split
      · exact hAt
      · rwa [List.getElem?_set_ne (ne_of_beq_false hOther)]
  | clone j =>
      rw [step]
      split
      · exact hAt
      · rwa [List.getElem?_append_left hInside]
  | write tableName call outcome => exact hAt
  | compact tableName outcome => exact hAt
  | close tableName outcome => exact hAt

theorem scans_step_pull (hAt : s.scans[k]? = some scan) :
    (s.step (.pull k)).scans[k]? = some (scan.pull s.state).2 := by
  simp only [step, hAt]
  exact List.getElem?_set_self (List.getElem?_eq_some_iff.mp hAt).1

theorem answers_of_not_pull {e : ScopeEvent} (hOther : e.isPull k = false)
    (events : List ScopeEvent) : answers k s (e :: events) = answers k (s.step e) events := by
  rw [answers, hOther]
  rfl

theorem answers_of_pull (hAt : s.scans[k]? = some scan) (events : List ScopeEvent) :
    answers k s (.pull k :: events) =
      (scan.pull s.state).1 :: answers k (s.step (.pull k)) events := by
  have hPull : (ScopeEvent.pull k).isPull k = true := beq_self_eq_true k
  simp only [answers, hPull, if_true, hAt]

/-- A pull that brings one page, and then those that follow it. -/
theorem answers_pull (hAt : s.scans[k]? = some scan)
    (hPage : (scan.pull s.state).1 = QPDFScanStream.page table n) {events : List ScopeEvent}
    (hLater : answers k (s.step (.pull k)) events =
      (List.range (events.countP (ScopeEvent.isPull k))).map
        fun i => QPDFScanStream.page table (n + 1 + i)) :
    answers k s (.pull k :: events) =
      (List.range ((ScopeEvent.pull k :: events).countP (ScopeEvent.isPull k))).map
        fun i => QPDFScanStream.page table (n + i) := by
  have hPull : (ScopeEvent.pull k).isPull k = true := beq_self_eq_true k
  rw [answers_of_pull hAt, hPage, hLater, List.countP_cons_of_pos hPull, List.range_succ_eq_map,
    List.map_cons, List.map_map]
  congr 1
  apply List.map_congr_left
  intro i _
  rw [Function.comp_apply, Nat.succ_eq_add_one, Nat.add_assoc, Nat.add_comm 1]

theorem answers_eq (hAt : s.scans[k]? = some scan) (hRead : scan.stream.ReadTo table n)
    (events : List ScopeEvent) : s.answers k events =
      (List.range (events.countP (ScopeEvent.isPull k))).map
        fun i => QPDFScanStream.page table (n + i) := by
  induction events generalizing s scan n with
  | nil => rfl
  | cons e events ih =>
      cases hPull : e.isPull k with
      | true =>
          obtain rfl := ScopeEvent.eq_pull hPull
          obtain ⟨hPage, hNext⟩ := hRead.pull (some s.state)
          exact answers_pull hAt hPage (ih (scans_step_pull hAt) hNext)
      | false =>
          rw [answers_of_not_pull hPull, ih (scans_step hAt hPull) hRead,
            List.countP_cons_of_neg (by simp [hPull])]

theorem Yields.of_answers {events : List ScopeEvent} (h : s.answers k events =
    (List.range (events.countP (ScopeEvent.isPull k))).map
      fun i => QPDFScanStream.page table (n + i)) : Yields k s events table n := by
  refine ⟨h, ?_⟩
  rw [ScopeSession.brought, h, List.flatMap_map, ← Batches.flatMap_batchAt]
  congr 1
  funext i
  exact QPDFScanStream.pairs_page

theorem scans_run (hAt : s.scans[k]? = some scan) {events : List ScopeEvent}
    (hIdle : events.countP (ScopeEvent.isPull k) = 0) :
    (s.run events).scans[k]? = some scan := by
  have hOther : ∀ e ∈ events, e.isPull k = false := by simpa using List.countP_eq_zero.mp hIdle
  exact List.foldlRecOn (motive := fun s => s.scans[k]? = some scan) events step hAt
    fun _ hAt e hMem => scans_step hAt (hOther e hMem)

theorem scans_clone (hAt : s.scans[k]? = some scan) :
    (s.step (.clone k)).scans[s.scans.length]? = some scan := by
  simp only [step, hAt, List.getElem?_concat_length]

/-- A stream is an earlier one, a new one, or an earlier one after a pull. -/
theorem mem_scans_step {e : ScopeEvent} {scan' : SharedScan} (hMem : scan' ∈ (s.step e).scans) :
    scan' ∈ s.scans ∨ (∃ tableName start, scan' = ⟨⟨tableName, start, false, none, 0⟩, none, 0⟩) ∨
      ∃ scan ∈ s.scans, scan' = (scan.pull s.state).2 := by
  cases e with
  | streamScan tableName start =>
      rcases List.mem_append.mp hMem with hOld | hNew
      · exact Or.inl hOld
      · exact Or.inr (Or.inl ⟨tableName, start, List.mem_singleton.mp hNew⟩)
  | pull j =>
      rw [step] at hMem
      split at hMem
      · exact Or.inl hMem
      · rename_i scan hAt
        rcases List.mem_or_eq_of_mem_set hMem with hOld | hPulled
        · exact Or.inl hOld
        · exact Or.inr (Or.inr ⟨scan, List.mem_of_getElem? hAt, hPulled⟩)
  | clone j =>
      rw [step] at hMem
      split at hMem
      · exact Or.inl hMem
      · rename_i scan hAt
        rcases List.mem_append.mp hMem with hOld | hNew
        · exact Or.inl hOld
        · exact Or.inl (List.mem_singleton.mp hNew ▸ List.mem_of_getElem? hAt)
  | write tableName call outcome => exact Or.inl hMem
  | compact tableName outcome => exact Or.inl hMem
  | close tableName outcome => exact Or.inl hMem

theorem kept_run (state : QPDFScopeState) (events : List ScopeEvent) :
    ∀ scan ∈ ((⟨state, []⟩ : ScopeSession).run events).scans, scan.Kept := by
  have hStart : ∀ scan ∈ (⟨state, []⟩ : ScopeSession).scans, scan.Kept := by simp
  refine List.foldlRecOn (motive := fun s => ∀ scan ∈ s.scans, scan.Kept) events step hStart ?_
  intro s hKept e _ scan' hMem
  rcases mem_scans_step hMem with hOld | ⟨tableName, start, rfl⟩ | ⟨scan, hScan, rfl⟩
  · exact hKept scan' hOld
  · exact ⟨rfl, rfl⟩
  · exact (hKept scan hScan).pull s.state

/-- The names are those of keys, in the document and in those that streams were pulled at. -/
structure Named (s : ScopeSession) : Prop where
  state : s.state.Named
  first : ∀ scan ∈ s.scans, ∀ pdf, scan.first = some pdf → pdf.Named

theorem Named.step_state (h : s.Named) (e : ScopeEvent) : (s.step e).state.Named := by
  cases e with
  | streamScan tableName start => exact h.state
  | pull j =>
      rw [step]
      split
      · exact h.state
      · exact h.state
  | clone j =>
      rw [step]
      split
      · exact h.state
      · exact h.state
  | write tableName call outcome =>
      obtain ⟨state', hState, hEdited⟩ := QPDFBackend.run_edited s.state tableName call outcome
      rw [step, hState]
      exact hEdited.named h.state
  | compact tableName outcome =>
      have hDirty : QPDFScopeState.Named { s.state with dirty := true } :=
        ⟨h.state.pdf, h.state.file⟩
      exact hDirty.flushLocked outcome
  | close tableName outcome => exact h.state.flushLocked outcome

theorem Named.step (h : s.Named) (e : ScopeEvent) : (s.step e).Named := by
  refine ⟨h.step_state e, ?_⟩
  intro scan' hMem pdf hFirst
  rcases mem_scans_step hMem with hOld | ⟨tableName, start, rfl⟩ | ⟨scan, hScan, rfl⟩
  · exact h.first scan' hOld pdf hFirst
  · cases hFirst
  · rcases Option.or_eq_some_iff.mp hFirst with hEarlier | ⟨-, hNow⟩
    · exact h.first scan hScan pdf hEarlier
    · exact Option.some.inj hNow ▸ h.state.pdf

theorem named_run {state : QPDFScopeState} (h : state.Named) (events : List ScopeEvent) :
    ((⟨state, []⟩ : ScopeSession).run events).Named := by
  have hStart : (⟨state, []⟩ : ScopeSession).Named := ⟨h, by simp⟩
  exact List.foldlRecOn events ScopeSession.step hStart fun _ hNamed e _ => hNamed.step e

end Session

/-- Whatever happens to the tables, a stream brings the pairs of its table as they were when it
was first pulled, and a copy that is made later brings what is left of them. -/
theorem scan_snapshot (state : QPDFScopeState) (before : List ScopeEvent) {k : ℕ}
    {scan : SharedScan} (hAt : ((⟨state, []⟩ : ScopeSession).run before).scans[k]? = some scan) :
    let s := (⟨state, []⟩ : ScopeSession).run before
    let table := fun pdf : PdfDocument =>
      QPDFScanStream.takeSnapshot pdf scan.stream.tableName scan.stream.start
    (∀ pdf, QPDFScanStream.SortedScan pdf scan.stream.tableName scan.stream.start (table pdf)) ∧
    (scan.first = none → ∀ idle later, idle.countP (ScopeEvent.isPull k) = 0 →
      Yields k (s.run idle) (.pull k :: later) (table (s.run idle).state.pdf) 0) ∧
    (∀ pdf, scan.first = some pdf → ∀ later, Yields k s later (table pdf) scan.pulls ∧
      Yields s.scans.length (s.step (.clone k)) later (table pdf) scan.pulls) ∧
    (state.Named → s.Named ∧ ∀ idle, (s.run idle).Named) := by
  intro s table
  have hKept := kept_run state before scan (List.mem_of_getElem? hAt)
  refine ⟨fun pdf => QPDFScanStream.takeSnapshot_sortedScan pdf _ _, ?_, ?_, ?_⟩
  · intro hFirst idle later hIdle
    rw [SharedScan.Kept, hFirst] at hKept
    have hPull := QPDFScanStream.pull_unread (s.run idle).state scan.stream.tableName
      scan.stream.start
    rw [← hKept.2] at hPull
    have hIdleAt : (s.run idle).scans[k]? = some scan := scans_run hAt hIdle
    exact .of_answers (answers_pull hIdleAt hPull.1
      (answers_eq (scans_step_pull hIdleAt) hPull.2 later))
  · intro pdf hFirst later
    rw [SharedScan.Kept, hFirst] at hKept
    exact ⟨.of_answers (answers_eq hAt hKept later),
      .of_answers (answers_eq (scans_clone hAt) hKept later)⟩
  · intro hNamed
    refine ⟨named_run hNamed before, fun idle => ?_⟩
    rw [← run_append]
    exact named_run hNamed (before ++ idle)

end Snapshots

/-- The copy of a stream that has been pulled once brings the last of 65 entries, which is
removed meanwhile. -/
theorem scan_snapshot_del :
    let puts : List BatchOp := (List.range 65).map
      fun i => ⟨.put, [], ascii "k" ++ [Fin.ofNat 256 i], some [7]⟩
    let before : List ScopeEvent := [.write (ascii "t") (.batch puts) .written,
      .streamScan (ascii "t") (ascii "k")]
    let later : List ScopeEvent :=
      [.write (ascii "t") (.del (ascii "k" ++ [64])) .written, .pull 1]
    let s := (⟨QPDFScopeState.fresh, []⟩ : ScopeSession).run before
    let table := QPDFScanStream.takeSnapshot s.state.pdf (ascii "t") (ascii "k")
    table.length = 65 ∧ Yields 1 ((s.step (.pull 0)).step (.clone 0)) later table 1 := by
  intro puts before later s table
  have hLength : table.length = 65 := by
    rw [(QPDFScanStream.takeSnapshot_sortedScan s.state.pdf _ _).perm.length_eq]
    decide +kernel
  let scan : SharedScan := ⟨⟨ascii "t", ascii "k", false, none, 0⟩, none, 0⟩
  have hAt : s.scans[0]? = some scan := rfl
  obtain ⟨hTable, hStart⟩ := QPDFScanStream.pull_table (some s.state) scan.stream
  have hYields := ((scan_snapshot QPDFScopeState.fresh (before ++ [.pull 0])
    (scans_step_pull hAt)).2.2.1 s.state.pdf rfl later).2
  rw [show (scan.pull s.state).2.stream.tableName = ascii "t" from hTable,
    show (scan.pull s.state).2.stream.start = ascii "k" from hStart] at hYields
  exact ⟨hLength, hYields⟩

end ScopeSession

end CelerMem
