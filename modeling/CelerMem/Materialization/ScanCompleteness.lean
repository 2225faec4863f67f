import CelerMem.Materialization.StoreRef

/-! What a typed scan makes of the chunks of a backend. The limit and the codec are
applied pair by pair, but a chunk without pairs is taken for the end of the scan. -/
namespace CelerMem.Materialization

variable {T : Type}

/-! ## One pull -/

namespace DecodeKVImpl

/-- The pairs that a limit still admits. -/
def admitted {α : Type} (hasLimit : Bool) (limit : ℕ) (l : List α) : List α :=
  if hasLimit then l.take limit else l

theorem take_cap (s : DecodeKVImpl T) (kvs : Chunk KVPair) :
    kvs.toList.take (s.cap kvs) = admitted s.hasLimit s.limitRemaining kvs.toList := by
  unfold cap admitted
  cases s.hasLimit with
  | false => simp
  | true =>
      rw [Bool.true_and, if_pos rfl]
      split
      next => rfl
      next hWhole =>
        have hSize : kvs.toList.length ≤ s.limitRemaining := by
          rw [decide_eq_true_eq] at hWhole
          rw [Chunk.length_toList]
          omega
        rw [List.take_of_length_le hSize, List.take_of_length_le (Chunk.length_toList kvs).le]

theorem admitted_append {α : Type} (hasLimit : Bool) (limit : ℕ) (first second : List α) :
    admitted hasLimit limit (first ++ second) =
      admitted hasLimit limit first ++ admitted hasLimit (limit - first.length) second := by
  cases hasLimit with
  | false => rfl
  | true => simp only [admitted, if_true, List.take_append]

/-- The limit is not used up. -/
def Open (s : DecodeKVImpl T) : Prop := s.hasLimit = true → 0 < s.limitRemaining

theorem admitted_ne_nil {s : DecodeKVImpl T} (hOpen : s.Open) {α : Type} {l : List α}
    (hSome : l ≠ []) : admitted s.hasLimit s.limitRemaining l ≠ [] := by
  unfold admitted
  split
  next hLimit =>
    rw [ne_eq, List.take_eq_nil_iff, not_or]
    exact ⟨(hOpen hLimit).ne', hSome⟩
  next => exact hSome

variable [Codec T] {s : DecodeKVImpl T} {kvs : Chunk KVPair} {source : StreamHandle KVPair}

omit [Codec T] in
theorem Open.guard (h : s.Open) : (s.hasLimit && s.limitRemaining == 0) = false := by
  rw [Bool.and_eq_false_iff]
  cases hLimit : s.hasLimit with
  | false => exact Or.inl rfl
  | true => exact Or.inr (beq_eq_false_iff_ne.mpr (h hLimit).ne')

theorem pull_over (h : ¬ s.Open) : s.pull = some (.ok none, s) := by
  obtain ⟨hLimit, hZero⟩ := Classical.not_imp.mp h
  rw [pull]
  exact if_pos (by rw [hLimit, Nat.eq_zero_of_not_pos hZero]; rfl)

theorem pull_done (hOpen : s.Open) (hPull : s.source.pull = some (.ok none, source)) :
    s.pull = some (.ok none, { s with source }) := by
  simp only [pull, hOpen.guard, Bool.false_eq_true, if_false, hPull, Option.bind_eq_bind,
    Option.bind_some]

theorem pull_error {e : Error} (hOpen : s.Open)
    (hPull : s.source.pull = some (.error e, source)) :
    s.pull = some (.error e, { s with source }) := by
  simp only [pull, hOpen.guard, Bool.false_eq_true, if_false, hPull, Option.bind_eq_bind,
    Option.bind_some]

/-- A pair that is admitted and cannot be decoded. -/
theorem pull_undecodable {e : Error} (hOpen : s.Open)
    (hPull : s.source.pull = some (.ok (some kvs), source))
    (hDecoded : decodeKVs (T := T) (admitted s.hasLimit s.limitRemaining kvs.toList) = .error e) :
    s.pull = some (.error e, { s with source }) := by
  have hTake := @take_cap T { s with source } kvs
  simp only [pull, hOpen.guard, Bool.false_eq_true, if_false, hPull, Option.bind_eq_bind,
    Option.bind_some]
  split
  next e' hFailed =>
    rw [hTake] at hFailed
    obtain rfl := Except.error.inj (hDecoded.symm.trans hFailed)
    rfl
  next records hOk =>
    rw [hTake] at hOk
    cases hDecoded.symm.trans hOk

/-- Without pairs the answer is `nullopt`, as at the end of the source. -/
theorem pull_empty (hOpen : s.Open) (hPull : s.source.pull = some (.ok (some kvs), source))
    (hNone : kvs.toList = []) : ∃ next : DecodeKVImpl T, s.pull = some (.ok none, next) := by
  have hTake : kvs.toList.take (@cap T { s with source } kvs) = [] := by rw [hNone, List.take_nil]
  simp only [pull, hOpen.guard, Bool.false_eq_true, if_false, hPull, Option.bind_eq_bind,
    Option.bind_some]
  split
  next e hFailed =>
    rw [hTake] at hFailed
    cases hFailed
  next records hOk =>
    rw [hTake] at hOk
    have hRecords : ([] : List (Record T)) = records := Except.ok.inj hOk
    rw [if_pos (by rw [Chunk.empty_iff, Chunk.toList_build, hRecords])]
    exact ⟨_, rfl⟩

/-- The admitted pairs come out decoded. -/
theorem pull_chunk {records : List (Record T)} (hOpen : s.Open)
    (hPull : s.source.pull = some (.ok (some kvs), source))
    (hDecoded : decodeKVs (admitted s.hasLimit s.limitRemaining kvs.toList) = .ok records)
    (hSome : records ≠ []) :
    ∃ chunk : Chunk (Record T), chunk.toList = records ∧
      s.pull = some (.ok (some chunk), ⟨source, if s.hasLimit then
        s.limitRemaining - records.length else s.limitRemaining, s.hasLimit⟩) := by
  have hTake := @take_cap T { s with source } kvs
  simp only [pull, hOpen.guard, Bool.false_eq_true, if_false, hPull, Option.bind_eq_bind,
    Option.bind_some]
  split
  next e hFailed =>
    rw [hTake] at hFailed
    cases hDecoded.symm.trans hFailed
  next records' hOk =>
    rw [hTake] at hOk
    obtain rfl := Except.ok.inj (hOk.symm.trans hDecoded)
    rw [if_neg (by rw [Chunk.empty_iff, Chunk.toList_build]; exact hSome)]
    by_cases hLimit : s.hasLimit = true
    · rw [if_pos hLimit, if_pos hLimit]
      refine ⟨_, ?_, rfl⟩
      rw [Chunk.toList_build]
    · rw [if_neg hLimit, if_neg hLimit]
      refine ⟨_, ?_, rfl⟩
      rw [Chunk.toList_build]

end DecodeKVImpl

/-! ## Whole scans -/

section Decoding
variable [Codec T]

theorem decodeKVs_append_error {first : List KVPair} {e : Error} (second : List KVPair)
    (h : decodeKVs (T := T) first = .error e) : decodeKVs (T := T) (first ++ second) = .error e := by
  induction first with
  | nil => cases h
  | cons kv kvs ih =>
      rw [decodeKVs] at h
      rw [List.cons_append, decodeKVs]
      cases hValue : Codec.decode (T := T) kv.value with
      | error e' =>
          rw [hValue] at h
          exact h
      | ok value =>
          rw [hValue] at h
          cases hRest : decodeKVs (T := T) kvs with
          | error e' =>
              simp only [hRest] at h
              simp only [ih (hRest.trans h)]
          | ok rest =>
              simp only [hRest] at h
              cases h

theorem decodeKVs_append_ok {first : List KVPair} {records : List (Record T)}
    (second : List KVPair) (h : decodeKVs first = .ok records) :
    decodeKVs (first ++ second) = (decodeKVs second).map (records ++ ·) := by
  induction first generalizing records with
  | nil =>
      obtain rfl := Except.ok.inj h
      rw [List.nil_append]
      cases decodeKVs (T := T) second with
      | error e => rfl
      | ok rest => rfl
  | cons kv kvs ih =>
      obtain ⟨value, rest, hValue, hRest, rfl⟩ := decodeKVs_cons_ok h
      rw [List.cons_append, decodeKVs]
      simp only [hValue, ih hRest]
      cases decodeKVs (T := T) second with
      | error e => rfl
      | ok tail => rfl

/-- Decoding fails exactly when it fails for one of the pairs. -/
theorem decodeKVs_error_iff {kvs : List KVPair} :
    (∃ e, decodeKVs (T := T) kvs = .error e) ↔
      ∃ kv ∈ kvs, ∃ e, Codec.decode (T := T) kv.value = .error e := by
  induction kvs with
  | nil => simp [decodeKVs]
  | cons kv kvs ih =>
      rw [List.exists_mem_cons_iff, ← ih, decodeKVs]
      cases Codec.decode (T := T) kv.value with
      | error e => simp
      | ok value =>
          cases decodeKVs (T := T) kvs with
          | error e => simp
          | ok rest => simp

theorem decodeKVs_total {kvs : List KVPair}
    (h : ∀ kv ∈ kvs, ∃ value, Codec.decode (T := T) kv.value = .ok value) :
    ∃ records, decodeKVs (T := T) kvs = .ok records := by
  cases hDecoded : decodeKVs (T := T) kvs with
  | ok records => exact ⟨records, rfl⟩
  | error err =>
      obtain ⟨kv, hMem, err', hFailed⟩ := decodeKVs_error_iff.mp ⟨err, hDecoded⟩
      obtain ⟨value, hValue⟩ := h kv hMem
      cases hValue.symm.trans hFailed

end Decoding

/-- The chunks in front of the first one without pairs. -/
def beforeEmpty (cs : List (Chunk KVPair)) : List (Chunk KVPair) := cs.takeWhile fun c => !c.empty

/-- The first chunk without pairs and what follows it. -/
def fromEmpty (cs : List (Chunk KVPair)) : List (Chunk KVPair) := cs.dropWhile fun c => !c.empty

theorem beforeEmpty_eq_self {cs : List (Chunk KVPair)} (h : ∀ c ∈ cs, c.empty = false) :
    beforeEmpty cs = cs := by
  apply List.takeWhile_eq_self_iff.mpr
  intro c hMem
  rw [h c hMem]
  rfl

theorem chunkElems_split (cs : List (Chunk KVPair)) :
    chunkElems cs = chunkElems (beforeEmpty cs) ++ chunkElems (fromEmpty cs) := by
  have hSplit : cs = beforeEmpty cs ++ fromEmpty cs := List.takeWhile_append_dropWhile.symm
  conv_lhs => rw [hSplit]
  rw [chunkElems, chunkElems, chunkElems, List.map_append, List.flatten_append]

theorem Ending.result_append {α : Type} (e : Ending) (first second : List α) :
    e.result (first ++ second) = (e.result second).map (first ++ ·) := by
  cases e with
  | done => rfl
  | error e => rfl

section Scan
variable [Codec T]

open DecodeKVImpl

/-- What a scan delivers: it ends at the first empty chunk. -/
def delivered (hasLimit : Bool) (limit : ℕ) (cs : List (Chunk KVPair)) (e : Ending) :
    Result (List (Record T)) :=
  let seen := chunkElems (beforeEmpty cs)
  match decodeKVs (admitted hasLimit limit seen) with
  | .error err => .error err
  | .ok records =>
      if fromEmpty cs ≠ [] ∨ hasLimit = true ∧ limit ≤ seen.length then .ok records
      else e.result records

/-- A limit that is used up. -/
theorem delivered_over {hasLimit : Bool} {limit : ℕ} (hLimit : hasLimit = true) (hZero : ¬ 0 < limit)
    (cs : List (Chunk KVPair)) (e : Ending) : delivered (T := T) hasLimit limit cs e = .ok [] := by
  obtain rfl := Nat.eq_zero_of_not_pos hZero
  subst hLimit
  rw [delivered]
  simp only [admitted, if_true, List.take_zero, decodeKVs]
  rw [if_pos (Or.inr ⟨trivial, Nat.zero_le _⟩)]

/-- A chunk whose pairs are decoded goes in front of what the rest delivers. -/
theorem delivered_cons {hasLimit : Bool} {limit : ℕ} {c : Chunk KVPair} {records : List (Record T)}
    (hSome : c.empty = false)
    (hDecoded : decodeKVs (admitted hasLimit limit c.toList) = .ok records)
    (cs : List (Chunk KVPair)) (e : Ending) :
    delivered hasLimit limit (c :: cs) e =
      (delivered hasLimit (limit - c.toList.length) cs e).map (records ++ ·) := by
  have hBefore : beforeEmpty (c :: cs) = c :: beforeEmpty cs :=
    List.takeWhile_cons_of_pos (by rw [hSome]; rfl)
  have hFrom : fromEmpty (c :: cs) = fromEmpty cs :=
    List.dropWhile_cons_of_pos (by rw [hSome]; rfl)
  rw [delivered, delivered]
  simp only [hBefore, hFrom, chunkElems_cons, admitted_append, decodeKVs_append_ok _ hDecoded,
    List.length_append]
  have hReached : limit ≤ c.toList.length + (chunkElems (beforeEmpty cs)).length ↔
      limit - c.toList.length ≤ (chunkElems (beforeEmpty cs)).length := by omega
  cases hRest : decodeKVs (T := T) (admitted hasLimit (limit - c.toList.length)
      (chunkElems (beforeEmpty cs))) with
  | error err => rfl
  | ok rest =>
      simp only [Except.map, hReached]
      split
      next => rfl
      next => exact Ending.result_append e records rest

theorem delivered_nil {src : StreamHandle KVPair} {hasLimit : Bool} {limit : ℕ}
    (hOpen : (⟨src, limit, hasLimit⟩ : DecodeKVImpl T).Open) (e : Ending) :
    delivered (T := T) hasLimit limit [] e = e.result [] := by
  have hNil : admitted hasLimit limit (chunkElems (beforeEmpty [])) = [] := by
    cases hasLimit with
    | false => rfl
    | true => exact List.take_nil
  rw [delivered]
  simp only [hNil, decodeKVs]
  refine if_neg ?_
  rintro (hSome | ⟨hLimit, hZero⟩)
  · exact hSome rfl
  · have hPos : 0 < limit := hOpen hLimit
    exact absurd hZero (Nat.not_le.mpr hPos)

theorem delivered_empty {hasLimit : Bool} {limit : ℕ} {c : Chunk KVPair} (hEmpty : c.empty = true)
    (cs : List (Chunk KVPair)) (e : Ending) :
    delivered (T := T) hasLimit limit (c :: cs) e = .ok [] := by
  have hBefore : beforeEmpty (c :: cs) = [] := List.takeWhile_cons_of_neg (by rw [hEmpty]; simp)
  have hFrom : fromEmpty (c :: cs) = c :: cs := List.dropWhile_cons_of_neg (by rw [hEmpty]; simp)
  have hNil : admitted hasLimit limit ([] : List KVPair) = [] := by
    cases hasLimit with
    | false => rfl
    | true => exact List.take_nil
  rw [delivered]
  simp only [hBefore, hFrom, chunkElems_nil, hNil, decodeKVs]
  exact if_pos (Or.inl (List.cons_ne_nil c cs))

theorem delivered_undecodable {hasLimit : Bool} {limit : ℕ} {c : Chunk KVPair} {err : Error}
    (hSome : c.empty = false)
    (hDecoded : decodeKVs (T := T) (admitted hasLimit limit c.toList) = .error err)
    (cs : List (Chunk KVPair)) (e : Ending) :
    delivered (T := T) hasLimit limit (c :: cs) e = .error err := by
  have hBefore : beforeEmpty (c :: cs) = c :: beforeEmpty cs :=
    List.takeWhile_cons_of_pos (by rw [hSome]; rfl)
  rw [delivered]
  simp only [hBefore, chunkElems_cons, admitted_append, decodeKVs_append_error _ hDecoded]

theorem scan_over {src : StreamHandle KVPair} {hasLimit : Bool} {limit : ℕ}
    (hOver : ¬ (⟨src, limit, hasLimit⟩ : DecodeKVImpl T).Open) (cs : List (Chunk KVPair))
    (e : Ending) :
    ∃ records ending, Denotes (makeStreamHandle (⟨src, limit, hasLimit⟩ : DecodeKVImpl T))
        records ending ∧ ending.result records = delivered hasLimit limit cs e := by
  refine ⟨[], .done, Denotes.make_done (pull_over hOver), ?_⟩
  obtain ⟨hLimit, hZero⟩ := Classical.not_imp.mp hOver
  exact (delivered_over hLimit hZero cs e).symm

/-- Counting records instead of pairs changes nothing. -/
theorem delivered_remaining {hasLimit : Bool} {limit n : ℕ} {kvs : List KVPair}
    (hCount : n = (admitted hasLimit limit kvs).length) (cs : List (Chunk KVPair)) (e : Ending) :
    delivered (T := T) hasLimit (if hasLimit then limit - n else limit) cs e =
      delivered hasLimit (limit - kvs.length) cs e := by
  cases hasLimit with
  | false => simp only [delivered, admitted, Bool.false_eq_true, if_false, false_and]
  | true =>
      have hLeft : limit - n = limit - kvs.length := by
        rw [hCount, admitted, if_pos rfl, List.length_take]
        omega
      rw [if_pos rfl, hLeft]

/-- A scan denotes records and an ending that amount to what is delivered. -/
theorem scan_delivers {src : StreamHandle KVPair} {cs : List (Chunk KVPair)} {e : Ending}
    (hEmits : Emits src cs e) (hasLimit : Bool) (limit : ℕ) :
    ∃ records ending, Denotes (makeStreamHandle (⟨src, limit, hasLimit⟩ : DecodeKVImpl T))
        records ending ∧ ending.result records = delivered hasLimit limit cs e := by
  induction hEmits generalizing limit with
  | @done h next hPull =>
      by_cases hOpen : (⟨h, limit, hasLimit⟩ : DecodeKVImpl T).Open
      · exact ⟨[], .done, Denotes.make_done (pull_done hOpen hPull), (delivered_nil hOpen .done).symm⟩
      · exact scan_over hOpen [] .done
  | @error h next err hPull =>
      by_cases hOpen : (⟨h, limit, hasLimit⟩ : DecodeKVImpl T).Open
      · exact ⟨[], .error err, Denotes.make_error (pull_error hOpen hPull),
          (delivered_nil hOpen (.error err)).symm⟩
      · exact scan_over hOpen [] (.error err)
  | @chunk h next c cs e hPull rest ih =>
      by_cases hOpen : (⟨h, limit, hasLimit⟩ : DecodeKVImpl T).Open
      · cases hEmpty : c.empty with
        | true =>
            obtain ⟨after, hNone⟩ := pull_empty hOpen hPull ((Chunk.empty_iff c).mp hEmpty)
            exact ⟨[], .done, Denotes.make_done hNone, (delivered_empty hEmpty cs e).symm⟩
        | false =>
            cases hDecoded : decodeKVs (T := T) (admitted hasLimit limit c.toList) with
            | error err =>
                exact ⟨[], .error err, Denotes.make_error (pull_undecodable hOpen hPull hDecoded),
                  (delivered_undecodable hEmpty hDecoded cs e).symm⟩
            | ok records =>
                have hSome : c.toList ≠ [] := by
                  rw [ne_eq, ← Chunk.empty_iff, hEmpty]
                  exact Bool.false_ne_true
                have hRecords : records ≠ [] := by
                  rw [← List.length_pos_iff, length_decodeKVs hDecoded, List.length_pos_iff]
                  exact admitted_ne_nil hOpen hSome
                obtain ⟨chunk, rfl, hPulled⟩ := pull_chunk hOpen hPull hDecoded hRecords
                obtain ⟨rest, ending, hRest, hResult⟩ :=
                  ih (if hasLimit then limit - chunk.toList.length else limit)
                refine ⟨chunk.toList ++ rest, ending, Denotes.make_chunk hPulled hRest, ?_⟩
                rw [Ending.result_append, hResult, delivered_cons hEmpty hDecoded,
                  delivered_remaining (length_decodeKVs hDecoded)]
      · exact scan_over hOpen (c :: cs) e

/-- Without a limit the pairs in front of the first empty chunk come out decoded. -/
theorem scan_decodes {src : StreamHandle KVPair} {cs : List (Chunk KVPair)}
    {records : List (Record T)} (hEmits : Emits src cs .done)
    (hDecoded : decodeKVs (chunkElems (beforeEmpty cs)) = .ok records) :
    Denotes (makeStreamHandle (⟨src, 0, false⟩ : DecodeKVImpl T)) records .done := by
  obtain ⟨rest, ending, hDenotes, hResult⟩ := scan_delivers (T := T) hEmits false 0
  have hSeen : decodeKVs (admitted false 0 (chunkElems (beforeEmpty cs))) = .ok records := hDecoded
  rw [delivered] at hResult
  simp only [hSeen, Ending.result, ite_self] at hResult
  cases ending with
  | done =>
      obtain rfl := Except.ok.inj hResult
      exact hDenotes
  | error err => cases hResult

/-! ## Completeness -/

/-- The first `limit` pairs, or all of them. -/
abbrev wanted (limit : ℕ) (kvs : List KVPair) : List KVPair := admitted (0 < limit) limit kvs

/-- A collected scan is the decoded form of the wanted pairs, and an error exactly if one of
these cannot be decoded or the backend fails before the last of them. -/
structure Complete (limit : ℕ) (kvs : List KVPair) (e : Ending)
    (result : Option (Result (List (Record T)))) : Prop where
  ends : result ≠ none
  yields : ∀ out, result = some (.ok out) → decodeKVs (wanted limit kvs) = .ok out
  fails_iff : (∃ err, result = some (.error err)) ↔
    (∃ kv ∈ wanted limit kvs, ∃ err, Codec.decode (T := T) kv.value = .error err) ∨
      e ≠ .done ∧ ¬ (0 < limit ∧ limit ≤ kvs.length)

/-- No chunk without pairs does harm: there is none, or nothing follows it, or the limit is
reached or the decoding has failed before it. -/
def EmptyHarmless (T : Type) [Codec T] (limit : ℕ) (cs : List (Chunk KVPair)) (e : Ending) : Prop :=
  fromEmpty cs = [] ∨ chunkElems (fromEmpty cs) = [] ∧ e = .done ∨
    0 < limit ∧ limit ≤ (chunkElems (beforeEmpty cs)).length ∨
    ∃ kv ∈ wanted limit (chunkElems (beforeEmpty cs)), ∃ err,
      Codec.decode (T := T) kv.value = .error err

theorem complete_error_iff {limit : ℕ} {kvs : List KVPair} {e : Ending} {err : Error} :
    Complete (T := T) limit kvs e (some (.error err)) ↔
      (∃ err, decodeKVs (T := T) (wanted limit kvs) = .error err) ∨
        e ≠ .done ∧ ¬ (0 < limit ∧ limit ≤ kvs.length) := by
  rw [decodeKVs_error_iff]
  constructor
  · intro h
    exact h.fails_iff.mp ⟨err, rfl⟩
  · intro h
    exact ⟨by simp, by simp, iff_of_true ⟨err, rfl⟩ h⟩

theorem complete_ok_iff {limit : ℕ} {kvs : List KVPair} {e : Ending} {out : List (Record T)} :
    Complete limit kvs e (some (.ok out)) ↔
      decodeKVs (wanted limit kvs) = .ok out ∧ (e = .done ∨ 0 < limit ∧ limit ≤ kvs.length) := by
  constructor
  · intro h
    refine ⟨h.yields out rfl, ?_⟩
    by_contra hFails
    obtain ⟨hError, hShort⟩ := not_or.mp hFails
    obtain ⟨err, hSame⟩ := h.fails_iff.mpr (Or.inr ⟨hError, hShort⟩)
    cases Option.some.inj hSame
  · rintro ⟨hDecoded, hEnd⟩
    refine ⟨by simp, ?_, iff_of_false (by simp) ?_⟩
    · intro out' hSame
      rw [hDecoded, Except.ok.inj (Option.some.inj hSame)]
    · rw [← decodeKVs_error_iff, hDecoded]
      rintro (⟨err, hFailed⟩ | ⟨hError, hShort⟩)
      · cases hFailed
      · exact hEnd.elim hError hShort

omit [Codec T] in
/-- A limit that is reached admits nothing more. -/
theorem wanted_append_of_reached {limit : ℕ} {seen : List KVPair} (hPos : 0 < limit)
    (hReached : limit ≤ seen.length) (rest : List KVPair) :
    wanted limit (seen ++ rest) = wanted limit seen := by
  have hNoMore : admitted (0 < limit) (limit - seen.length) rest = [] := by
    rw [admitted, if_pos (by simpa using hPos), Nat.sub_eq_zero_of_le hReached, List.take_zero]
  rw [wanted, admitted_append, hNoMore, List.append_nil]

/-- Below the limit, more pairs would decode to more records. -/
theorem eq_nil_of_decoded {limit : ℕ} {seen rest : List KVPair} {records : List (Record T)}
    (hShort : ¬ (0 < limit ∧ limit ≤ seen.length))
    (hSeen : decodeKVs (wanted limit seen) = .ok records)
    (hAll : decodeKVs (wanted limit (seen ++ rest)) = .ok records) : rest = [] := by
  by_contra hMore
  have hMissing : admitted (0 < limit) (limit - seen.length) rest ≠ [] := by
    refine @admitted_ne_nil T ⟨Stream.empty, limit - seen.length, 0 < limit⟩ ?_ _ _ hMore
    intro hLimit
    have hPos : 0 < limit := of_decide_eq_true hLimit
    have hLeft : ¬ limit ≤ seen.length := fun hLe => hShort ⟨hPos, hLe⟩
    dsimp only
    omega
  have hSeenCount : records.length = (admitted (0 < limit) limit seen).length :=
    length_decodeKVs hSeen
  have hCount := length_decodeKVs hAll
  rw [wanted, admitted_append, List.length_append, hSeenCount] at hCount
  exact hMissing (List.length_eq_zero_iff.mp (by omega))

theorem delivered_complete_iff (limit : ℕ) (cs : List (Chunk KVPair)) (e : Ending) :
    Complete (T := T) limit (chunkElems cs) e (some (delivered (0 < limit) limit cs e)) ↔
      EmptyHarmless T limit cs e := by
  have hSplit := chunkElems_split cs
  rw [EmptyHarmless, delivered]
  generalize chunkElems (beforeEmpty cs) = seen at hSplit ⊢
  generalize hRest : chunkElems (fromEmpty cs) = rest at hSplit ⊢
  cases hSeen : decodeKVs (T := T) (wanted limit seen) with
  | error err =>
      have hHarmless := decodeKVs_error_iff.mp ⟨err, hSeen⟩
      dsimp only
      refine iff_of_true (complete_error_iff.mpr (Or.inl ⟨err, ?_⟩)) (by simp only [hHarmless, or_true])
      rw [hSplit, wanted, admitted_append, decodeKVs_append_error _ hSeen]
  | ok records =>
      have hNone : ¬ ∃ kv ∈ wanted limit seen, ∃ err,
          Codec.decode (T := T) kv.value = .error err := by
        rw [← decodeKVs_error_iff, hSeen]
        rintro ⟨err, hFailed⟩
        cases hFailed
      simp only [hNone, or_false, decide_eq_true_eq]
      by_cases hReached : 0 < limit ∧ limit ≤ seen.length
      · -- The limit is reached before the first empty chunk.
        obtain ⟨hPos, hLe⟩ := hReached
        rw [if_pos (Or.inr ⟨hPos, hLe⟩)]
        refine iff_of_true (complete_ok_iff.mpr ⟨?_, Or.inr ⟨hPos, ?_⟩⟩)
          (Or.inr (Or.inr ⟨hPos, hLe⟩))
        · rw [hSplit, wanted_append_of_reached hPos hLe]
          exact hSeen
        · rw [hSplit, List.length_append]
          exact Nat.le_add_right_of_le hLe
      · simp only [hReached, or_false]
        by_cases hNo : fromEmpty cs = []
        · -- All chunks are read.
          have hNil : rest = [] := by
            rw [← hRest, hNo]
            rfl
          have hSame : chunkElems cs = seen := by rw [hSplit, hNil, List.append_nil]
          rw [if_neg (not_not.mpr hNo), hSame]
          refine iff_of_true ?_ (Or.inl hNo)
          cases e with
          | done => exact complete_ok_iff.mpr ⟨hSeen, Or.inl rfl⟩
          | error err => exact complete_error_iff.mpr (Or.inr ⟨by simp, hReached⟩)
        · rw [if_pos hNo, complete_ok_iff]
          constructor
          · rintro ⟨hOut, hEnd⟩
            -- Pairs behind the empty chunk would be missing.
            have hNil : rest = [] := eq_nil_of_decoded hReached hSeen (hSplit ▸ hOut)
            refine Or.inr ⟨hNil, hEnd.resolve_right ?_⟩
            rw [hSplit, hNil, List.append_nil]
            exact hReached
          · rintro (hNone | ⟨hNil, hDone⟩)
            · exact absurd hNone hNo
            · refine ⟨?_, Or.inl hDone⟩
              rw [hSplit, hNil, List.append_nil]
              exact hSeen

/-- Whatever chunks a backend scan brings: collecting the typed scan is complete exactly when
no chunk without pairs does harm. -/
theorem stream_scan_complete_iff {handle : BackendReads} {pfx : Bytes} {src : StreamHandle KVPair}
    {cs : List (Chunk KVPair)} {e : Ending} (hScan : handle.streamScan pfx = .ok src)
    (hEmits : Emits src cs e) (limit : ℕ) :
    ∃ stream, StoreRef.streamScan (T := T) handle pfx limit = .ok stream ∧
      (Complete limit (chunkElems cs) e (Stream.collect stream) ↔ EmptyHarmless T limit cs e) := by
  refine ⟨_, by rw [StoreRef.streamScan, hScan], ?_⟩
  obtain ⟨records, ending, hDenotes, hResult⟩ := scan_delivers (T := T) hEmits (0 < limit) limit
  rw [hDenotes.collect, hResult]
  exact delivered_complete_iff limit cs e

end Scan

/-- A backend whose scans bring given chunks. -/
def readsOfChunks (cs : List (Chunk KVPair)) (e : Ending) : BackendReads :=
  ⟨fun _ => .ok [], fun _ => .ok (Stream.ofChunks cs e), false⟩

/-- With the limit 1 the chunk without pairs is not reached. -/
theorem stream_scan_complete_iff_limited :
    let cs : List (Chunk KVPair) := [Chunk.singleton ⟨[1], [2]⟩, Chunk.none]
    ∃ stream, StoreRef.streamScan (T := Bytes) (readsOfChunks cs (.error ⟨"late", ""⟩)) [] 1 =
        .ok stream ∧
      (Complete 1 (chunkElems cs) (.error ⟨"late", ""⟩) (Stream.collect stream) ↔
        EmptyHarmless Bytes 1 cs (.error ⟨"late", ""⟩)) :=
  stream_scan_complete_iff (T := Bytes) rfl (Stream.ofChunks_emits _ _) 1

/-- A page without pairs in front of one with a pair. -/
theorem stream_scan_truncated :
    let cs : List (Chunk KVPair) := [Chunk.none, Chunk.singleton ⟨[1], [2]⟩]
    ∃ stream, StoreRef.streamScan (T := Bytes) (readsOfChunks cs .done) [] 0 = .ok stream ∧
      Stream.collect stream = some (.ok []) ∧
      ¬ Complete 0 (chunkElems cs) .done (Stream.collect stream) := by
  intro cs
  have hEmits : Emits (Stream.ofChunks cs .done) cs .done := Stream.ofChunks_emits cs .done
  obtain ⟨records, ending, hDenotes, hResult⟩ := scan_delivers (T := Bytes) hEmits false 0
  have hCollect := hDenotes.collect
  rw [hResult, delivered_empty rfl] at hCollect
  refine ⟨_, rfl, hCollect, ?_⟩
  intro hComplete
  have hLost := hComplete.yields [] hCollect
  simp [wanted, DecodeKVImpl.admitted, cs, decodeKVs, Codec.decode] at hLost

end CelerMem.Materialization
