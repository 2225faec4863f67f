import CelerMem.Materialization.Join

/-! What one pass of each loop of the join executors does. -/
namespace CelerMem.Materialization

variable {L R Side : Type}

/-! ## The loop in `pull` -/

/-- The queue that a refill finds. -/
def JoinImpl.emptied (s : JoinImpl Side L R) : JoinImpl Side L R :=
  { s with out := { s.out with pendingOut := [], outCursor := 0 } }

theorem JoinImpl.turn_cases
    {refill : JoinImpl Side L R → Option (VoidResult × JoinImpl Side L R)} {s : JoinImpl Side L R}
    {next : Loop.Turn (JoinImpl Side L R) (Pulled (Joined L R) × JoinImpl Side L R)}
    (hTurn : turn refill s = some next) :
    (s.out.pendingOut.length ≤ s.out.outCursor ∧ next = .leave (.ok none, s)) ∨
    (s.out.pendingOut.length ≤ s.out.outCursor ∧ ∃ q t, refill s.emptied = some (q, t) ∧
      (next = .again t ∨ next = .leave (.ok none, t) ∨ ∃ e, next = .leave (.error e, t))) ∨
    (s.out.outCursor < s.out.pendingOut.length ∧ next = .leave s.drain) := by
  rw [turn] at hTurn
  split at hTurn
  · rename_i hDrained
    split at hTurn
    · exact Or.inl ⟨hDrained, (Option.some.inj hTurn).symm⟩
    · obtain ⟨⟨q, t⟩, hRefill, hRest⟩ := Option.bind_eq_some_iff.mp hTurn
      refine Or.inr (Or.inl ⟨hDrained, q, t, hRefill, ?_⟩)
      cases q with
      | error e => exact Or.inr (Or.inr ⟨e, (Option.some.inj hRest).symm⟩)
      | ok u =>
          simp only at hRest
          split at hRest
          · exact Or.inr (Or.inl (Option.some.inj hRest).symm)
          · exact Or.inl (Option.some.inj hRest).symm
  · rename_i hDrained
    exact Or.inr (Or.inr ⟨Nat.not_le.mp hDrained, (Option.some.inj hTurn).symm⟩)

theorem JoinImpl.drain_side (s : JoinImpl Side L R) : s.drain.2.side = s.side := by
  rw [drain]
  cases s.out.hasLimit with
  | true => rfl
  | false => rfl

theorem JoinImpl.drain_pendingOut (s : JoinImpl Side L R) :
    s.drain.2.out.pendingOut = s.out.pendingOut := by
  rw [drain]
  cases s.out.hasLimit with
  | true => rfl
  | false => rfl

/-! ## The refills -/

namespace BatchIndexNLImpl

/-- The loop that fills the batch reads on: at most it pulls its source, and at the end of
that it sets `upstream_done`. -/
structure Reads (s t : BatchIndexNLImpl L R) : Prop where
  leftSrc : t.side.leftSrc = s.side.leftSrc ∨ ∃ r, s.side.leftSrc.pull = some (r, t.side.leftSrc)
  batchSize : t.side.batchSize = s.side.batchSize
  out : t.out = s.out ∨ t.out = { s.out with upstreamDone := true }

theorem batchTurn_reads {s : BatchIndexNLImpl L R} {leftBatch : List (Record L)}
    {next : Loop.Turn (BatchIndexNLImpl L R × List (Record L))
      (Result (List (Record L)) × BatchIndexNLImpl L R)}
    (hTurn : batchTurn (s, leftBatch) = some next) :
    next.Holds (fun p => Reads s p.1 ∧ leftBatch.length < s.side.batchSize)
      fun p => Reads s p.2 ∧ ∀ batch, p.1 = .ok batch → batch = leftBatch := by
  have hSame : ∀ batch, (.ok leftBatch : Result (List (Record L))) = .ok batch → batch = leftBatch := by
    intro batch h
    exact (Except.ok.inj h).symm
  rw [batchTurn] at hTurn
  split at hTurn
  · rename_i hRoom
    split at hTurn
    · obtain rfl := Option.some.inj hTurn
      exact ⟨⟨Or.inl rfl, rfl, Or.inl rfl⟩, hRoom⟩
    · split at hTurn
      · obtain rfl := Option.some.inj hTurn
        exact ⟨⟨Or.inl rfl, rfl, Or.inl rfl⟩, hSame⟩
      · obtain ⟨⟨q, source⟩, hNext, hRest⟩ := Option.bind_eq_some_iff.mp hTurn
        have hPulled : ∃ r, s.side.leftSrc.pull = some (r, source) := ⟨q, hNext⟩
        cases q with
        | error e =>
            obtain rfl := Option.some.inj hRest
            exact ⟨⟨Or.inr hPulled, rfl, Or.inl rfl⟩, by simp⟩
        | ok chunk =>
            cases chunk with
            | none =>
                obtain rfl := Option.some.inj hRest
                exact ⟨⟨Or.inr hPulled, rfl, Or.inr rfl⟩, hSame⟩
            | some chunk =>
                obtain rfl := Option.some.inj hRest
                exact ⟨⟨Or.inr hPulled, rfl, Or.inl rfl⟩, hRoom⟩
  · obtain rfl := Option.some.inj hTurn
    exact ⟨⟨Or.inl rfl, rfl, Or.inl rfl⟩, hSame⟩

/-- What a state keeps as the loop reads on, it has when the batch is filled. -/
theorem batch_holds {P : BatchIndexNLImpl L R → Prop} (hReads : ∀ u v, Reads u v → P u → P v)
    {s filled : BatchIndexNLImpl L R} {q : Result (List (Record L))} (hs : P s)
    (hRun : Loop.run batchTurn (s, []) = some (q, filled)) : P filled := by
  apply Loop.run_holds (fun p : BatchIndexNLImpl L R × List (Record L) => P p.1)
    (fun p : Result (List (Record L)) × BatchIndexNLImpl L R => P p.2) _ hs hRun
  rintro ⟨u, leftBatch⟩ next hu hTurn
  have hNext := batchTurn_reads hTurn
  cases next with
  | again p => exact hReads u p.1 hNext.1 hu
  | leave p => exact hReads u p.2 hNext.1 hu

/-- A batch with rows in it is a batch that may have some. -/
theorem batchSize_pos {s filled : BatchIndexNLImpl L R} {batch : List (Record L)}
    (hRun : Loop.run batchTurn (s, []) = some (.ok batch, filled)) (hSome : batch ≠ []) :
    0 < s.side.batchSize := by
  have hRows : ∀ rows, (.ok batch : Result (List (Record L))) = .ok rows → rows ≠ [] →
      0 < s.side.batchSize := by
    apply Loop.run_holds
      (fun p : BatchIndexNLImpl L R × List (Record L) =>
        p.1.side.batchSize = s.side.batchSize ∧ (p.2 ≠ [] → 0 < s.side.batchSize))
      (fun p : Result (List (Record L)) × BatchIndexNLImpl L R =>
        ∀ rows, p.1 = .ok rows → rows ≠ [] → 0 < s.side.batchSize)
      _ ⟨rfl, by simp⟩ hRun
    rintro ⟨u, leftBatch⟩ next ⟨hSize, hPos⟩ hTurn
    have hNext := batchTurn_reads hTurn
    cases next with
    | again p =>
        refine ⟨hNext.1.batchSize.trans hSize, fun _ => ?_⟩
        have hRoom : leftBatch.length < u.side.batchSize := hNext.2
        rw [← hSize]
        exact Nat.zero_lt_of_lt hRoom
    | leave p =>
        intro rows hBatch hSomeRows
        exact hPos (hNext.2 rows hBatch ▸ hSomeRows)
  exact hRows batch rfl hSome

theorem fillBatch_cases [Codec R] {s t : BatchIndexNLImpl L R} {r : VoidResult}
    (hRefill : fillBatch s = some (r, t)) :
    ∃ q filled, Loop.run batchTurn (s, []) = some (q, filled) ∧ t.side = filled.side ∧
      (t.out = filled.out ∨ ∃ (leftBatch : List (Record L)) (d : DerivedKeys) (fetched : List (Bytes × Option R)),
        q = .ok leftBatch ∧ leftBatch ≠ [] ∧
        t.out = probe fetched leftBatch d.rowKeys d.uniqueIdx filled.out) := by
  obtain ⟨⟨q, filled⟩, hRun, hRest⟩ := Option.bind_eq_some_iff.mp hRefill
  refine ⟨q, filled, hRun, ?_⟩
  cases q with
  | error e =>
      obtain ⟨-, rfl⟩ := Prod.mk.inj (Option.some.inj hRest)
      exact ⟨rfl, Or.inl rfl⟩
  | ok leftBatch =>
      cases leftBatch with
      | nil =>
          obtain ⟨-, rfl⟩ := Prod.mk.inj (Option.some.inj hRest)
          exact ⟨rfl, Or.inl rfl⟩
      | cons rec recs =>
          cases hDerived : deriveKeys filled.side.extract (rec :: recs) {} with
          | error e =>
              simp only [List.isEmpty_cons, Bool.false_eq_true, if_false, hDerived] at hRest
              obtain ⟨-, rfl⟩ := Prod.mk.inj (Option.some.inj hRest)
              exact ⟨rfl, Or.inl rfl⟩
          | ok d =>
              cases hFetched : StoreRef.getMany (T := R) filled.side.right d.uniqueStorage with
              | error e =>
                  simp only [List.isEmpty_cons, Bool.false_eq_true, if_false, hDerived,
                    hFetched] at hRest
                  obtain ⟨-, rfl⟩ := Prod.mk.inj (Option.some.inj hRest)
                  exact ⟨rfl, Or.inl rfl⟩
              | ok fetched =>
                  simp only [List.isEmpty_cons, Bool.false_eq_true, if_false, hDerived,
                    hFetched] at hRest
                  obtain ⟨-, rfl⟩ := Prod.mk.inj (Option.some.inj hRest)
                  exact ⟨rfl, Or.inr ⟨rec :: recs, d, fetched, rfl, by simp, rfl⟩⟩

section Reserve
variable [Allocation] [Codec R]

theorem refill_eq {s : BatchIndexNLImpl L R}
    (hRoom : s.side.batchSize ≤ Allocation.room (Record L)) : refill s = fillBatch s := by
  rw [refill, reserve_ok hRoom]

/-- A batch that the `reserve` refuses leaves the executor as it is. -/
theorem refill_refused {s : BatchIndexNLImpl L R}
    (hRoom : Allocation.room (Record L) < s.side.batchSize) :
    refill s = some (.error lengthError, s) := by
  rw [refill, reserve_error hRoom]

theorem refill_cases {s t : BatchIndexNLImpl L R} {r : VoidResult}
    (hRefill : refill s = some (r, t)) :
    (r = .error lengthError ∧ t = s) ∨
      (s.side.batchSize ≤ Allocation.room (Record L) ∧ fillBatch s = some (r, t)) := by
  by_cases hRoom : s.side.batchSize ≤ Allocation.room (Record L)
  · rw [refill_eq hRoom] at hRefill
    exact Or.inr ⟨hRoom, hRefill⟩
  · rw [refill_refused (Nat.lt_of_not_le hRoom)] at hRefill
    obtain ⟨rfl, rfl⟩ := Prod.mk.inj (Option.some.inj hRefill)
    exact Or.inl ⟨rfl, rfl⟩

end Reserve

end BatchIndexNLImpl

theorem refillFromChunk_cases {leftSrc : Side → StreamHandle (Record L)}
    {withSrc : Side → StreamHandle (Record L) → Side} {extract : Side → Record L → Result Bytes}
    {find : Side → Bytes → Option R} {s t : JoinImpl Side L R} {r : VoidResult}
    (hRefill : refillFromChunk leftSrc withSrc extract find s = some (r, t)) :
    ∃ q source, (leftSrc s.side).pull = some (q, source) ∧ t.side = withSrc s.side source ∧
      (t.out = s.out ∨ t.out = { s.out with upstreamDone := true } ∨
        ∃ chunk, q = .ok (some chunk) ∧
          t.out = (emitRows (extract t.side) (find t.side) chunk.toList s.out).2) := by
  obtain ⟨⟨q, source⟩, hNext, hRest⟩ := Option.bind_eq_some_iff.mp hRefill
  refine ⟨q, source, hNext, ?_⟩
  cases q with
  | error e =>
      obtain ⟨-, rfl⟩ := Prod.mk.inj (Option.some.inj hRest)
      exact ⟨rfl, Or.inl rfl⟩
  | ok chunk =>
      cases chunk with
      | none =>
          obtain ⟨-, rfl⟩ := Prod.mk.inj (Option.some.inj hRest)
          exact ⟨rfl, Or.inr (Or.inl rfl)⟩
      | some chunk =>
          obtain ⟨-, rfl⟩ := Prod.mk.inj (Option.some.inj hRest)
          exact ⟨rfl, Or.inr (Or.inr ⟨chunk, rfl, rfl⟩)⟩

end CelerMem.Materialization
