import CelerMem.Backend.S3Batch
import CelerMem.Backend.S3Get
import CelerMem.Library.Tables
import Mathlib

/-! The tables of one bucket. The factory gives each of them a prefix made of its scope and
its name, and all of them use the same client. -/
namespace CelerMem

variable {ω : Type}

/-- What the factory captures. `start` is the prefix that the configuration sets. -/
structure S3Config (ω : Type) where
  client : S3Client ω
  start : Bytes
  chunkSize : Nat
  chunkSize_pos : 0 < chunkSize

/-- A scope and a table. -/
abbrev TableName := Bytes × Bytes

/-- The character `/`. -/
def slash : Byte := 47

namespace S3Config

def keyPrefix (c : S3Config ω) (name : TableName) : Bytes :=
  c.start ++ name.1 ++ [slash] ++ name.2 ++ [slash]

def factory (c : S3Config ω) (name : TableName) : S3Backend ω :=
  ⟨c.client, c.keyPrefix name, c.chunkSize, c.chunkSize_pos⟩

end S3Config

/-- A service at which no request fails, and which stores what it is given. -/
structure S3Client.Serves (client : S3Client ω) (objects : ω → Contents) : Prop where
  stores : client.Stores objects
  puts : ∀ key body w, (client.putObject key body w).1 = .ok ()
  deletes : ∀ key w, (client.deleteObject key w).1 = .ok ()
  deletesAll : ∀ keys w, (client.deleteObjects keys w).1 = .ok []
  present : ∀ {key body w}, objects w key = some body → client.ServesRanges w key [] body
  missing : ∀ {key w} range, objects w key = none →
    ∃ err, client.getObject ⟨key, [], range⟩ w = .error err ∧ err.exceptionName = "NoSuchKey"

/-! ## Calls -/

inductive S3Call where
  | put (key value : Bytes)
  | del (key : Bytes)
  | batch (ops : List BatchOp)
  | get (key : Bytes)

inductive S3Answer where
  | void (r : VoidResult)
  | value (r : Option (Result (Option Bytes)))

/-- A call on one table of the bucket. -/
def S3Config.call {names : Set TableName} (c : S3Config ω) :
    names × S3Call → ω → S3Answer × ω
  | (t, .put key value), w => ((c.factory t).put key value w).map .void id
  | (t, .del key), w => ((c.factory t).del key w).map .void id
  | (t, .batch ops), w => ((c.factory t).batch ops w).map .void id
  | (t, .get key), w => (.value ((c.factory t).get key w), w)

/-- The same call where each table is a map of its own. The deletes of a batch come last, and
an object reads as what arrives of it. -/
def S3Config.separate {names : Set TableName} [DecidableEq names] (c : S3Config ω) :
    names × S3Call → (names → Contents) → S3Answer × (names → Contents)
  | (t, .put key value), s =>
      (.void (.ok ()), Function.update s t (Function.update (s t) key (some value)))
  | (t, .del key), s => (.void (.ok ()), Function.update s t (Function.update (s t) key none))
  | (t, .batch ops), s =>
      if ops.all fun op => op.kind == .del || op.value.isSome then
        (.void (.ok ()), Function.update s t (Edits.setsFirst (s t) (ops.map BatchOp.edit)))
      else (.void (.error ⟨"S3Batch", "put op missing value"⟩), s)
  | (t, .get key), s => (.value (some (.ok ((c.factory t).answer (s t key)))), s)

/-! ## The calls of one table -/

namespace S3Backend
variable {backend : S3Backend ω} {objects : ω → Contents} {w : ω}

theorem get_of_serves (hServes : backend.client.Serves objects) (key : Bytes) :
    backend.get key w = some (.ok (backend.answer (objects w (backend.resolveKey key)))) := by
  cases hObject : objects w (backend.resolveKey key) with
  | none =>
      obtain ⟨err, hErr, hName⟩ := hServes.missing (some (0, 0 + backend.chunkSize - 1)) hObject
      have hDenotes := (getAt_pull_error hErr (Or.inr hName)).collect
      rw [get, streamGet]
      unfold getAt at hDenotes
      rw [hDenotes]
      rfl
  | some body =>
      have hDenotes := (S3GetStream.Remains.denotes (hServes.present hObject)
        backend.chunkSize_pos (Or.inr ⟨0, rfl, rfl⟩)).collect
      rw [get, streamGet, hDenotes, List.drop_zero, Option.map_some, Ending.result, answer]
      dsimp only
      split
      · rfl
      · rfl

theorem putAll_ok (hServes : backend.client.Serves objects) (puts : List (Bytes × Bytes)) (w : ω) :
    (backend.putAll puts w).1 = .ok () := by
  induction puts generalizing w with
  | nil => rfl
  | cons p puts ih =>
      have hPut := hServes.puts (backend.resolveKey p.1) p.2 w
      rw [putAll, put]
      split
      next e w' h =>
        split at h
        next err w'' hFailed =>
          rw [hFailed] at hPut
          cases hPut
        next => cases h
      next => exact ih _

theorem deleteAll_ok (hServes : backend.client.Serves objects) (keys : List Bytes) (w : ω) :
    (deleteAll backend.client keys w).1 = .ok () := by
  induction keys, w using deleteAll.induct backend.client with
  | case1 w => rw [deleteAll]
  | case2 w key rest err w' hFailed =>
      have hDelete := hServes.deletesAll ((key :: rest).take maxKeysPerCall) w
      rw [hFailed] at hDelete
      cases hDelete
  | case3 w key rest failed message errors w' hFailed =>
      have hDelete := hServes.deletesAll ((key :: rest).take maxKeysPerCall) w
      rw [hFailed] at hDelete
      cases hDelete
  | case4 w key rest w' hDelete ih =>
      rw [deleteAll, hDelete]
      exact ih

/-- The partition fails at a put without a value and nowhere else. -/
theorem partitionOps_cases (backend : S3Backend ω) (ops : List BatchOp) :
    if ops.all fun op => op.kind == .del || op.value.isSome then
      ∃ parts, backend.partitionOps ops = .ok parts
    else backend.partitionOps ops = .error ⟨"S3Batch", "put op missing value"⟩ := by
  induction ops with
  | nil => exact ⟨([], []), rfl⟩
  | cons op ops ih =>
      obtain ⟨kind, cfName, key, value⟩ := op
      rw [List.all_cons]
      cases kind with
      | put =>
          cases value with
          | none => rfl
          | some value =>
              cases hRest : ops.all fun op => op.kind == .del || op.value.isSome with
              | true =>
                  obtain ⟨⟨puts, keys⟩, hParts⟩ := (if_pos hRest).mp ih
                  exact ⟨_, by rw [partitionOps, hParts]⟩
              | false =>
                  rw [if_neg (by simp [hRest])] at ih
                  simp [partitionOps, ih]
      | del =>
          cases hRest : ops.all fun op => op.kind == .del || op.value.isSome with
          | true =>
              obtain ⟨⟨puts, keys⟩, hParts⟩ := (if_pos hRest).mp ih
              exact ⟨_, by rw [partitionOps, hParts]⟩
          | false =>
              rw [if_neg (by simp [hRest])] at ih
              simp [partitionOps, ih]

theorem batch_ok (hServes : backend.client.Serves objects) {ops : List BatchOp}
    (hParts : ∃ parts, backend.partitionOps ops = .ok parts) (w : ω) :
    ∃ w', backend.batch ops w = (.ok (), w') := by
  obtain ⟨⟨puts, keys⟩, hParts⟩ := hParts
  have hPuts := putAll_ok hServes puts w
  cases hRun : backend.putAll puts w with
  | mk r w₁ =>
      obtain rfl : r = .ok () := by rw [hRun] at hPuts; exact hPuts
      refine ⟨(deleteAll backend.client keys w₁).2, ?_⟩
      simp only [batch, hParts, hRun]
      exact Prod.ext (deleteAll_ok hServes keys w₁) rfl

end S3Backend

/-! ## All tables -/

namespace S3Config
variable {c : S3Config ω} {objects : ω → Contents} {names : Set TableName}

/-- The object of a key of a table. -/
def place (c : S3Config ω) (names : Set TableName) (t : names) (key : Bytes) : Bytes :=
  c.keyPrefix t ++ key

/-- Keys are arbitrary, so two tables are apart if neither prefix is the start of the other. -/
theorem apart_iff : Tables.Apart (c.place names) ↔
    ∀ t u : names, t ≠ u → ¬ c.keyPrefix t <+: c.keyPrefix u := by
  constructor
  · rintro hApart t u hNe ⟨key, hKey⟩
    refine hNe (hApart t key u [] ?_).1
    rw [place, place, hKey, List.append_nil]
  · intro hPrefix t k u l hSame
    have hEq : t = u := by
      by_contra hNe
      have hLeft : c.keyPrefix t <+: c.place names t k := List.prefix_append _ _
      have hRight : c.keyPrefix u <+: c.place names t k := hSame ▸ List.prefix_append _ _
      rcases List.prefix_or_prefix_of_prefix hLeft hRight with h | h
      · exact hPrefix t u hNe h
      · exact hPrefix u t (Ne.symm hNe) h
    subst hEq
    exact ⟨rfl, List.append_cancel_left hSame⟩

theorem placed_eq (t : names) (edits : List (Bytes × Option Bytes)) :
    Tables.placed (c.place names) t edits =
      edits.map fun e => ((c.factory t).resolveKey e.1, e.2) := rfl

/-- What a write of a table does to the bucket, it does to the map of that table. -/
theorem view_of_write [DecidableEq names] (hApart : Tables.Apart (c.place names)) {w w' : ω}
    {s : names → Contents} (t : names) (edits : List (Bytes × Option Bytes))
    (hView : Tables.view (c.place names) (objects w) = s)
    (hObjects : objects w' = Edits.apply (objects w) (Tables.placed (c.place names) t edits)) :
    Tables.view (c.place names) (objects w') = Function.update s t (Edits.apply (s t) edits) := by
  rw [hObjects, Tables.view_write hApart, hView]

theorem resolved_edits (t : names) (ops : List BatchOp) :
    (ops.map fun op => ((c.factory t).resolveOp op).edit) =
      Tables.placed (c.place names) t (ops.map BatchOp.edit) := by
  rw [placed_eq, List.map_map]
  refine List.map_congr_left fun op _ => ?_
  obtain ⟨kind, cfName, key, value⟩ := op
  cases kind <;> rfl

/-- Where the tables are apart, every call does to the map of its table what it should. -/
theorem call_simulates [DecidableEq names] (hServes : c.client.Serves objects)
    (hApart : Tables.Apart (c.place names)) :
    SequentialObject.Simulates (fun w s => Tables.view (c.place names) (objects w) = s)
      (c.call : names × S3Call → _) c.separate := by
  rintro ⟨t, call⟩ w s hView
  have hStores := hServes.stores
  cases call with
  | get key =>
      refine ⟨?_, hView⟩
      rw [call, separate, (c.factory t).get_of_serves hServes, ← hView]
      rfl
  | put key value =>
      have hOk := hServes.puts ((c.factory t).resolveKey key) value w
      cases hPut : c.client.putObject ((c.factory t).resolveKey key) value w with
      | mk r w' =>
          obtain rfl : r = .ok () := by rw [hPut] at hOk; exact hOk
          have hRun : (c.factory t).put key value w = (.ok (), w') := by
            rw [S3Backend.put, show (c.factory t).client = c.client from rfl, hPut]
          rw [call, hRun]
          exact ⟨rfl, view_of_write hApart t [(key, some value)] hView (hStores.putObject hPut)⟩
  | del key =>
      have hOk := hServes.deletes ((c.factory t).resolveKey key) w
      cases hDelete : c.client.deleteObject ((c.factory t).resolveKey key) w with
      | mk r w' =>
          obtain rfl : r = .ok () := by rw [hDelete] at hOk; exact hOk
          have hRun : (c.factory t).del key w = (.ok (), w') := by
            rw [S3Backend.del, show (c.factory t).client = c.client from rfl, hDelete]
          rw [call, hRun]
          exact ⟨rfl, view_of_write hApart t [(key, none)] hView (hStores.deleteObject hDelete)⟩
  | batch ops =>
      have hParts := (c.factory t).partitionOps_cases ops
      cases hAll : ops.all fun op => op.kind == .del || op.value.isSome with
      | false =>
          rw [hAll, if_neg (by simp)] at hParts
          rw [call, separate, hAll, S3Backend.batch, hParts]
          exact ⟨rfl, hView⟩
      | true =>
          rw [hAll, if_pos rfl] at hParts
          obtain ⟨w', hRun⟩ := (c.factory t).batch_ok hServes hParts w
          rw [call, separate, hAll, hRun]
          refine ⟨rfl, ?_⟩
          obtain ⟨-, hObjects⟩ := S3Backend.batch_objects hStores hRun
          rw [resolved_edits, Tables.setsFirst_placed] at hObjects
          have hWrite := view_of_write hApart t _ hView hObjects
          rw [Edits.apply_append] at hWrite
          exact hWrite

/-- A value that tells two states of an object apart. -/
theorem exists_other_answer (backend : S3Backend ω) (object : Option Bytes) :
    ∃ value, backend.answer (some value) ≠ backend.answer object := by
  have hByte : ∀ b : Byte, backend.answer (some [b]) = some [b] := fun b =>
    (backend.answer_eq_iff [b]).mpr
      ⟨by simp, (Nat.min_le_right _ _).trans_lt (by simp)⟩
  by_cases hZero : backend.answer object = some [0]
  · exact ⟨[1], by rw [hByte, hZero]; decide⟩
  · exact ⟨[0], by rw [hByte]; exact Ne.symm hZero⟩

/-- The part of a prefix up to a slash is found again. -/
theorem cut_at_slash {a b rest rest' : Bytes} (ha : slash ∉ a) (hb : slash ∉ b)
    (h : a ++ slash :: rest <+: b ++ slash :: rest') : a = b ∧ rest <+: rest' := by
  induction a generalizing b with
  | nil =>
      cases b with
      | nil => exact ⟨rfl, (List.prefix_cons_inj slash).mp h⟩
      | cons y b =>
          have hHead := (List.cons_prefix_cons.mp h).1
          exact absurd (hHead ▸ List.mem_cons_self) hb
  | cons x a ih =>
      cases b with
      | nil =>
          have hHead := (List.cons_prefix_cons.mp h).1
          exact absurd (hHead ▸ List.mem_cons_self) ha
      | cons y b =>
          obtain ⟨rfl, hRest⟩ := List.cons_prefix_cons.mp h
          obtain ⟨rfl, hTail⟩ := ih (fun hIn => ha (List.mem_cons_of_mem x hIn))
            (fun hIn => hb (List.mem_cons_of_mem x hIn)) hRest
          exact ⟨rfl, hTail⟩

/-- Names without a slash have prefixes of which none is the start of another one. -/
theorem keyPrefix_of_slashFree (c : S3Config ω) {t u : TableName} (ht : slash ∉ t.1 ∧ slash ∉ t.2)
    (hu : slash ∉ u.1 ∧ slash ∉ u.2) (h : c.keyPrefix t <+: c.keyPrefix u) : t = u := by
  simp only [keyPrefix, List.append_assoc, List.prefix_append_right_inj,
    List.singleton_append] at h
  obtain ⟨hScope, hRest⟩ := cut_at_slash ht.1 hu.1 h
  exact Prod.ext hScope (cut_at_slash ht.2 hu.2 hRest).1

/-- The tables of a bucket behave as maps of their own, whatever is called on them in whatever
order, if and only if no prefix is the start of another one; and none is where the names of
scopes and tables have no slash. -/
theorem bucket_tables_independent_iff [DecidableEq names] (hServes : c.client.Serves objects)
    (w : ω) :
    ((∀ calls : List (names × S3Call), (SequentialObject.run c.call calls w).1 =
      (SequentialObject.run c.separate calls (Tables.view (c.place names) (objects w))).1) ↔
        ∀ t u : names, t ≠ u → ¬ c.keyPrefix t <+: c.keyPrefix u) ∧
    ((∀ t ∈ names, slash ∉ t.1 ∧ slash ∉ t.2) →
      ∀ t u : names, t ≠ u → ¬ c.keyPrefix t <+: c.keyPrefix u) := by
  refine ⟨?_, fun hFree t u hNe hPrefix => hNe (Subtype.ext
    (c.keyPrefix_of_slashFree (hFree t t.2) (hFree u u.2) hPrefix))⟩
  rw [← apart_iff]
  constructor
  · intro hAgree t k u l hSame
    by_contra hBoth
    obtain ⟨value, hOther⟩ := exists_other_answer (c.factory u) (objects w (c.place names u l))
    have hOk := hServes.puts ((c.factory t).resolveKey k) value w
    cases hPut : c.client.putObject ((c.factory t).resolveKey k) value w with
    | mk r w' =>
        obtain rfl : r = .ok () := by rw [hPut] at hOk; exact hOk
        have hRun : (c.factory t).put k value w = (.ok (), w') := by
          rw [S3Backend.put, show (c.factory t).client = c.client from rfl, hPut]
        have hNow : objects w' ((c.factory u).resolveKey l) = some value := by
          rw [hServes.stores.putObject hPut]
          exact (congrArg _ hSame.symm).trans (Function.update_self _ _ _)
        have hBefore : Function.update (Tables.view (c.place names) (objects w)) t
            (Function.update (Tables.view (c.place names) (objects w) t) k (some value)) u l =
              objects w (c.place names u l) := by
          by_cases hu : u = t
          · subst hu
            have hl : l ≠ k := fun h => hBoth ⟨rfl, h.symm⟩
            rw [Function.update_self, Function.update_of_ne hl]
            rfl
          · rw [Function.update_of_ne hu]
            rfl
        have hRuns := hAgree [(t, .put k value), (u, .get l)]
        simp only [SequentialObject.run, call, separate, hRun, Prod.map, id, hBefore,
          (c.factory u).get_of_serves hServes, hNow, List.cons.injEq, S3Answer.value.injEq,
          Option.some.injEq, Except.ok.injEq, true_and, and_true] at hRuns
        exact hOther hRuns
  · intro hApart calls
    exact ((call_simulates hServes hApart).run calls w _ rfl).1

end S3Config

/-! ## A service in memory -/

open Materialization (Memory)
open S3Backend (oneObject)

theorem memoryClient_serves : memoryClient.Serves Memory.contents where
  stores := memoryClient_stores
  puts _ _ _ := rfl
  deletes _ _ := rfl
  deletesAll _ _ := rfl
  present := by
    intro key body m hBody
    constructor
    · intro first last hFirst _
      simp [memoryClient, memoryGetObject, hBody, hFirst]
    · intro first last hFirst
      simp [memoryClient, memoryGetObject, hBody, Nat.not_lt.mpr hFirst]
  missing := by
    intro key m range hBody
    simp [memoryClient, memoryGetObject, hBody]

def memoryConfig : S3Config Memory := ⟨memoryClient, ascii "p/", 2, Nat.zero_lt_two⟩

/-- One prefix for the table `b/c` of the scope `a` and the table `c` of the scope `a/b`. -/
def crossing : Set TableName := {(ascii "a", ascii "b/c"), (ascii "a/b", ascii "c")}

/-- Whether these two are independent is decided by their prefix, which they share. -/
theorem bucket_tables_independent_iff_crossing :
    ((∀ calls : List (crossing × S3Call),
      (SequentialObject.run memoryConfig.call calls oneObject).1 =
        (SequentialObject.run memoryConfig.separate calls
          (Tables.view (memoryConfig.place crossing) oneObject.contents)).1) ↔
      ∀ t u : crossing, t ≠ u → ¬ memoryConfig.keyPrefix t <+: memoryConfig.keyPrefix u) ∧
    ((∀ t ∈ crossing, slash ∉ t.1 ∧ slash ∉ t.2) →
      ∀ t u : crossing, t ≠ u → ¬ memoryConfig.keyPrefix t <+: memoryConfig.keyPrefix u) :=
  S3Config.bucket_tables_independent_iff memoryClient_serves oneObject

end CelerMem
