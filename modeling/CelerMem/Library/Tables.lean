import CelerMem.Library.Edits
import CelerMem.Library.Objects

/-! Tables that share one store. Every key of a table has a place in the store, and the
tables behave as maps of their own if and only if no place belongs to two of them. -/
namespace Tables
universe u v w x y

variable {Table : Type u} {Key : Type v} {Place : Type w} {Value : Type x} {Answer : Type y}

inductive Call (Table : Type u) (Key : Type v) (Value : Type x) (Answer : Type y) where
  | write (t : Table) (edits : List (Key × Option Value))
  | read (t : Table) (see : (Key → Option Value) → Answer)

/-- What a table shows of the store. -/
def view (place : Table → Key → Place) (m : Place → Option Value) (t : Table) :
    Key → Option Value :=
  fun k => m (place t k)

/-- The edits of a table, at the places of their keys. -/
def placed (place : Table → Key → Place) (t : Table) (edits : List (Key × Option Value)) :
    List (Place × Option Value) :=
  edits.map fun e => (place t e.1, e.2)

/-- A call on the one store. -/
def shared [DecidableEq Place] (place : Table → Key → Place) :
    Call Table Key Value Answer → (Place → Option Value) → Option Answer × (Place → Option Value)
  | .write t edits, m => (none, Edits.apply m (placed place t edits))
  | .read t see, m => (some (see (view place m t)), m)

/-- The same call where each table has a map of its own. -/
def separate [DecidableEq Table] [DecidableEq Key] :
    Call Table Key Value Answer → (Table → Key → Option Value) →
      Option Answer × (Table → Key → Option Value)
  | .write t edits, s => (none, Function.update s t (Edits.apply (s t) edits))
  | .read t see, s => (some (see (s t)), s)

/-- No place belongs to two tables, or to two keys of one. -/
def Apart (place : Table → Key → Place) : Prop :=
  ∀ t k u l, place t k = place u l → t = u ∧ k = l

/-- Setting first and removing afterwards is an order of edits. -/
theorem setsFirst_placed [DecidableEq Place] {place : Table → Key → Place} {m : Place → Option Value}
    {t : Table} (edits : List (Key × Option Value)) :
    Edits.setsFirst m (placed place t edits) = Edits.apply m (placed place t
      (edits.filter Edits.sets ++ edits.filter fun e => !Edits.sets e)) := by
  rw [Edits.setsFirst, ← Edits.apply_append, placed, List.filter_map, List.filter_map,
    ← List.map_append]
  rfl

section Writes
variable [DecidableEq Place] [DecidableEq Table] [DecidableEq Key]
  {place : Table → Key → Place} {m : Place → Option Value} {t : Table}

/-- A write changes what its own table shows, and no other. -/
theorem view_write (hApart : Apart place) (m : Place → Option Value) (t : Table)
    (edits : List (Key × Option Value)) : view place (Edits.apply m (placed place t edits)) =
      Function.update (view place m) t (Edits.apply (view place m t) edits) := by
  induction edits generalizing m with
  | nil => simp [placed]
  | cons e edits ih =>
      obtain ⟨key, value⟩ := e
      have hFirst : view place (Function.update m (place t key) value) =
          Function.update (view place m) t (Function.update (view place m t) key value) := by
        funext u l
        by_cases hu : u = t
        · subst hu
          by_cases hl : l = key
          · subst hl
            simp [view]
          · have hNe : place u l ≠ place u key := fun h => hl (hApart u l u key h).2
            simp [view, hl, hNe]
        · have hNe : place u l ≠ place t key := fun h => hu (hApart u l t key h).1
          simp [view, hu, hNe]
      have hRest := ih (Function.update m (place t key) value)
      rw [hFirst, Function.update_self, Function.update_idem] at hRest
      exact hRest

/-- Tables that are apart behave as maps of their own. -/
theorem simulates (hApart : Apart place) :
    SequentialObject.Simulates (fun m s => view place m = s)
      (shared place : Call Table Key Value Answer → _) separate := by
  rintro (⟨t, edits⟩ | ⟨t, see⟩) m s rfl
  · exact ⟨rfl, view_write hApart m t edits⟩
  · exact ⟨rfl, rfl⟩

/-- Two tables with a place in common are found out by a write and a read. -/
theorem apart_of_agree [Nontrivial Answer] [Inhabited Value]
    (hAgree : ∀ calls : List (Call Table Key Value Answer),
      (SequentialObject.run (shared place) calls fun _ => none).1 =
        (SequentialObject.run separate calls fun _ _ => none).1) : Apart place := by
  classical
  intro t k u l hSame
  obtain ⟨yes, no, hNe⟩ := exists_pair_ne Answer
  by_contra hBoth
  let see (s : Key → Option Value) : Answer := if s l = none then no else yes
  have hRun := hAgree [.write t [(k, some default)], .read u see]
  have hShared : see (view place (Edits.apply (fun _ => none)
      (placed place t [(k, some default)])) u) = yes := by
    simp [see, view, placed, hSame]
  have hSeparate : see (Function.update (fun _ _ => none) t
      (Edits.apply (fun _ => none) [(k, some default)]) u) = no := by
    by_cases hu : u = t
    · subst hu
      have hl : l ≠ k := fun h => hBoth ⟨rfl, h.symm⟩
      simp [see, hl]
    · simp [see, hu]
  simp only [SequentialObject.run, shared, separate, List.cons.injEq, Option.some.injEq,
    and_true, true_and] at hRun
  exact hNe (hShared.symm.trans (hRun.trans hSeparate))

/-- Runs on the one store and on maps of their own return the same, whatever is called, if
and only if the tables are apart. -/
theorem agree_iff [Nontrivial Answer] [Inhabited Value] :
    (∀ calls : List (Call Table Key Value Answer),
      (SequentialObject.run (shared place) calls fun _ => none).1 =
        (SequentialObject.run separate calls fun _ _ => none).1) ↔ Apart place :=
  ⟨apart_of_agree, fun hApart calls => ((simulates hApart).run calls _ _ rfl).1⟩

end Writes
end Tables
