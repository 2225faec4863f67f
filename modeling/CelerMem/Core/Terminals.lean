import CelerMem.Core.Meaning

/-! The terminal operations that do not keep the elements: `fold`, `count` and `drain`. They are
one loop, which returns exactly when `collect` does. -/
namespace CelerMem

variable {α τ ρ : Type}

namespace Stream

/-- Pulls until the end, with an accumulator that takes the elements one by one. -/
def consumeTurn (add : τ → α → τ) (finish : τ → ρ) (fail : Error → τ → ρ) :
    StreamHandle α × τ → Option (Loop.Turn (StreamHandle α × τ) ρ)
  | (stream, acc) => do
      let (r, stream) ← stream.pull
      match r with
      | .error e => some (.leave (fail e acc))
      | .ok none => some (.leave (finish acc))
      | .ok (some chunk) => some (.again (stream, chunk.toList.foldl add acc))

def consume (add : τ → α → τ) (finish : τ → ρ) (fail : Error → τ → ρ) (stream : StreamHandle α)
    (acc : τ) : Option ρ :=
  Loop.run (consumeTurn add finish fail) (stream, acc)

def fold (stream : StreamHandle α) (init : τ) (fn : τ → α → τ) : Option (Result τ) :=
  consume fn .ok (fun e _ => .error e) stream init

/-- The count has 64 bits. -/
def count (stream : StreamHandle α) : Option (Result ℕ) :=
  fold stream 0 fun acc _ => (acc + 1) % 2 ^ 64

/-- The visitor is run for its effect on what it captured, which stays after an error. -/
def drain (stream : StreamHandle α) (fn : τ → α → τ) (captured : τ) : Option (VoidResult × τ) :=
  consume fn (fun captured => (.ok (), captured)) (fun e captured => (.error e, captured)) stream
    captured

end Stream

/-- What a loop over all elements returns. -/
def Ending.finish (finish : τ → ρ) (fail : Error → τ → ρ) : Ending → τ → ρ
  | .done, acc => finish acc
  | .error e, acc => fail e acc

section Consume
variable {add : τ → α → τ} {finish : τ → ρ} {fail : Error → τ → ρ}

theorem Denotes.consume {h : StreamHandle α} {l : List α} {e : Ending} (hd : Denotes h l e)
    (acc : τ) : Stream.consume add finish fail h acc =
      some (e.finish finish fail (l.foldl add acc)) := by
  induction hd generalizing acc with
  | done hPull => exact Loop.run_leave (by simp [Stream.consumeTurn, hPull, Ending.finish])
  | error hPull => exact Loop.run_leave (by simp [Stream.consumeTurn, hPull, Ending.finish])
  | @chunk h h' c l e hPull _ ih =>
      have hTurn : Stream.consumeTurn add finish fail (h, acc) =
          some (.again (h', c.toList.foldl add acc)) := by
        simp [Stream.consumeTurn, hPull]
      rw [List.foldl_append, ← ih]
      exact Loop.run_again hTurn

/-- A loop that returns has pulled the stream to its end. -/
theorem denotes_of_consume {h : StreamHandle α} {acc : τ} {r : ρ}
    (hRun : Stream.consume add finish fail h acc = some r) : ∃ l e, Denotes h l e := by
  refine Loop.run_induction (motive := fun s _ => ∃ l e, Denotes s.1 l e) ?_ ?_ hRun
  · rintro ⟨stream, acc⟩ ⟨next, acc'⟩ r hTurn ⟨l, e, hd⟩
    obtain ⟨⟨q, source⟩, hPull, hRest⟩ := Option.bind_eq_some_iff.mp hTurn
    rcases q with err | _ | chunk
    · cases Option.some.inj hRest
    · cases Option.some.inj hRest
    · cases Option.some.inj hRest
      exact ⟨_, e, .chunk hPull hd⟩
  · rintro ⟨stream, acc⟩ r hTurn
    obtain ⟨⟨q, source⟩, hPull, hRest⟩ := Option.bind_eq_some_iff.mp hTurn
    rcases q with err | _ | chunk
    · exact ⟨[], _, .error hPull⟩
    · exact ⟨[], _, .done hPull⟩
    · cases Option.some.inj hRest

theorem consume_eq_iff {h : StreamHandle α} {acc : τ} {r : ρ} :
    Stream.consume add finish fail h acc = some r ↔
      ∃ l e, Denotes h l e ∧ e.finish finish fail (l.foldl add acc) = r := by
  constructor
  · intro hRun
    obtain ⟨l, e, hd⟩ := denotes_of_consume hRun
    exact ⟨l, e, hd, Option.some.inj ((hd.consume acc).symm.trans hRun)⟩
  · rintro ⟨l, e, hd, rfl⟩
    exact hd.consume acc

end Consume

theorem foldl_keep (l out : List α) : l.foldl (fun out x => out ++ [x]) out = out ++ l := by
  induction l generalizing out with
  | nil => exact (List.append_nil out).symm
  | cons x l ih => rw [List.foldl_cons, ih, List.append_assoc, List.singleton_append]

/-- `collect` is the loop that keeps the elements. -/
theorem collect_eq_consume (h : StreamHandle α) : Stream.collect h =
    Stream.consume (fun out x => out ++ [x]) .ok (fun e _ => .error e) h [] := by
  have hTurn : Stream.collectTurn =
      Stream.consumeTurn (fun (out : List α) x => out ++ [x]) .ok fun e _ => .error e := by
    funext s
    obtain ⟨stream, out⟩ := s
    cases hPull : stream.pull with
    | none => simp [Stream.collectTurn, Stream.consumeTurn, hPull]
    | some pulled =>
        rcases pulled with ⟨e | _ | chunk, next⟩
        · simp [Stream.collectTurn, Stream.consumeTurn, hPull]
        · simp [Stream.collectTurn, Stream.consumeTurn, hPull]
        · have hKeep := foldl_keep chunk.toList out
          simp only [Stream.collectTurn, Stream.consumeTurn, hPull, hKeep, Option.bind_eq_bind,
            Option.bind_some]
  rw [Stream.collect, hTurn, Stream.consume]

theorem foldl_count (l : List α) {n : ℕ} (h : n < 2 ^ 64) :
    l.foldl (fun acc _ => (acc + 1) % 2 ^ 64) n = (n + l.length) % 2 ^ 64 := by
  induction l generalizing n with
  | nil => exact (Nat.mod_eq_of_lt h).symm
  | cons x l ih =>
      rw [List.foldl_cons, ih (Nat.mod_lt _ (by decide)), List.length_cons]
      omega

/-- The terminal operations return on the same streams, those that come to an end, and make of the
elements what they make of the list that `collect` returns, however it is cut into chunks. A stream
that fails has shown all elements before its error to the visitor of `drain`. -/
theorem terminals_return_iff (h : StreamHandle α) (fn : τ → α → τ) (init : τ) :
    (∀ r, Stream.collect h = some r ↔ ∃ l e, Denotes h l e ∧ e.result l = r) ∧
    (∀ r, Stream.fold h init fn = some r ↔
      ∃ l e, Denotes h l e ∧ (e.result l).map (List.foldl fn init) = r) ∧
    (∀ r, Stream.count h = some r ↔
      ∃ l e, Denotes h l e ∧ (e.result l).map (fun l => l.length % 2 ^ 64) = r) ∧
    ∀ r captured, Stream.drain h fn init = some (r, captured) ↔
      ∃ l e, Denotes h l e ∧ (e.result l).map (fun _ => ()) = r ∧ l.foldl fn init = captured := by
  have hFinish : ∀ {ρ : Type} (f : List α → ρ) (l : List α) (e : Ending),
      e.finish .ok (fun e _ => .error e) (f l) = (e.result l).map f := by
    intro ρ f l e
    cases e with
    | done => rfl
    | error err => rfl
  refine ⟨fun r => ?_, fun r => ?_, fun r => ?_, fun r captured => ?_⟩
  · rw [collect_eq_consume, consume_eq_iff]
    refine exists_congr fun l => exists_congr fun e => and_congr_right fun _ => ?_
    rw [foldl_keep, List.nil_append, hFinish fun l => l]
    cases e with
    | done => exact Iff.rfl
    | error err => exact Iff.rfl
  · rw [Stream.fold, consume_eq_iff]
    exact exists_congr fun l => exists_congr fun e => and_congr_right fun _ => by rw [← hFinish]
  · rw [Stream.count, Stream.fold, consume_eq_iff]
    refine exists_congr fun l => exists_congr fun e => and_congr_right fun _ => ?_
    rw [foldl_count l (by decide), Nat.zero_add, ← hFinish]
  · rw [Stream.drain, consume_eq_iff]
    refine exists_congr fun l => exists_congr fun e => and_congr_right fun _ => ?_
    cases e with
    | done => simp [Ending.finish, Ending.result, Except.map]
    | error err => simp [Ending.finish, Ending.result, Except.map]

end CelerMem
