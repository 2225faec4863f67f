import Mathlib

/-! Unbounded loops of an imperative body. A body runs one pass and either goes
round again in a new state or leaves with a result; it may itself never come
back, which is `none`. A loop that goes round for ever is `none` as well. -/
namespace Loop
universe u

/-- What one pass over a loop body does. -/
inductive Turn (State Result : Type u) where
  | again (state : State)
  | leave (result : Result)

variable {State Result : Type u}

/-- `while (true) { body }`. -/
def run (body : State → Option (Turn State Result)) (state : State) : Option Result := do
  match ← body state with
  | .again next => (by apply run; exacts [body, next])
  | .leave result => some result
partial_fixpoint

variable {body : State → Option (Turn State Result)} {state next : State} {result : Result}

theorem run_again (h : body state = some (.again next)) : run body state = run body next := by
  rw [run, h]
  rfl

theorem run_leave (h : body state = some (.leave result)) : run body state = some result := by
  rw [run, h]
  rfl

theorem run_stuck (h : body state = none) : run body state = none := by
  rw [run, h]
  rfl

/-- Two states on which one pass does the same run to the same result. -/
theorem run_congr {other : State} (h : body state = body other) : run body state = run body other := by
  rw [run, h, ← run]

/-- A returned result is reached by finitely many passes: what the last pass relates
to it, and every further pass carries back, relates the first state to it. -/
theorem run_induction {motive : State → Result → Prop}
    (hAgain : ∀ s t r, body s = some (.again t) → motive t r → motive s r)
    (hLeave : ∀ s r, body s = some (.leave r) → motive s r)
    (hRun : run body state = some result) : motive state result := by
  apply run.partial_correctness body motive _ state result hRun
  intro rec ih s r hr
  cases hb : body s with
  | none => simp [hb] at hr
  | some turn =>
      cases turn with
      | again t => exact hAgain s t r hb (ih t r (by simpa [hb] using hr))
      | leave a =>
          have ha : a = r := by simpa [hb] using hr
          exact ha ▸ hLeave s a hb

/-- The same for an invariant of the passes and a postcondition. -/
theorem run_invariant {Inv : State → Prop} {Post : Result → Prop}
    (hAgain : ∀ s t, Inv s → body s = some (.again t) → Inv t)
    (hLeave : ∀ s r, Inv s → body s = some (.leave r) → Post r)
    (hInv : Inv state) (hRun : run body state = some result) : Post result := by
  have hRel : ∀ s r, run body s = some r → Inv s → Post r := by
    intro s r hr
    apply run_induction (motive := fun s r => Inv s → Post r) _ _ hr
    · intro s t r hb ih hs
      exact ih (hAgain s t hs hb)
    · intro s r hb hs
      exact hLeave s r hs hb
  exact hRel state result hRun hInv

/-- What holds where a pass leads to. -/
def Turn.Holds (Inv : State → Prop) (Post : Result → Prop) : Turn State Result → Prop
  | .again state => Inv state
  | .leave result => Post result

theorem Turn.Holds.imp {Inv Inv' : State → Prop} {Post Post' : Result → Prop}
    {turn : Turn State Result} (h : turn.Holds Inv Post) (hInv : ∀ s, Inv s → Inv' s)
    (hPost : ∀ r, Post r → Post' r) : turn.Holds Inv' Post' := by
  cases turn with
  | again s => exact hInv s h
  | leave r => exact hPost r h

theorem run_holds (Inv : State → Prop) (Post : Result → Prop)
    (hTurn : ∀ s turn, Inv s → body s = some turn → turn.Holds Inv Post)
    (hInv : Inv state) (hRun : run body state = some result) : Post result := by
  apply run_invariant _ _ hInv hRun
  · intro s t hs hb
    exact hTurn s (.again t) hs hb
  · intro s r hs hb
    exact hTurn s (.leave r) hs hb

/-! ## Two loops -/

section Relation
universe v
variable {State' Result' : Type v}

/-- Two passes that do the same up to a relation of the states and one of the results. -/
inductive Turn.Rel (R : State → State' → Prop) (S : Result → Result' → Prop) :
    Turn State Result → Turn State' Result' → Prop where
  | again {s : State} {s' : State'} (h : R s s') : Turn.Rel R S (.again s) (.again s')
  | leave {r : Result} {r' : Result'} (h : S r r') : Turn.Rel R S (.leave r) (.leave r')

variable {body' : State' → Option (Turn State' Result')} {state' : State'}
  {R : State → State' → Prop} {S : Result → Result' → Prop}

theorem rel_of_map {x : Option State} {x' : Option State'} {f : State → Result}
    {f' : State' → Result'} (h : Option.Rel S (x.map f) (x'.map f')) :
    Option.Rel (fun a a' => S (f a) (f' a')) x x' := by
  cases x with
  | none =>
      cases x' with
      | none => exact .none
      | some a' => cases h
  | some a =>
      cases x' with
      | none => cases h
      | some a' =>
          cases h with
          | some h => exact .some h

/-- Related steps after related steps. -/
theorem rel_bind {x : Option State} {x' : Option State'} {f : State → Option Result}
    {f' : State' → Option Result'} (h : Option.Rel R x x')
    (hNext : ∀ a a', R a a' → Option.Rel S (f a) (f' a')) :
    Option.Rel S (x.bind f) (x'.bind f') := by
  cases h with
  | none => exact .none
  | some h => exact hNext _ _ h

private theorem run_rel_some {result : Result}
    (hTurn : ∀ s s', R s s' → Option.Rel (Turn.Rel R S) (body s) (body' s'))
    (hRun : run body state = some result) :
    ∀ state', R state state' → ∃ result', run body' state' = some result' ∧ S result result' := by
  apply run_induction (motive := fun s r => ∀ s', R s s' → ∃ r', run body' s' = some r' ∧ S r r') _ _ hRun
  · intro s t r hb ih s' hs
    have hRel := hTurn s s' hs
    rw [hb] at hRel
    cases hb' : body' s' with
    | none => simp [hb'] at hRel
    | some turn =>
        rw [hb', Option.rel_some_some] at hRel
        cases hRel with
        | again h =>
            rw [run_again hb']
            exact ih _ h
  · intro s r hb s' hs
    have hRel := hTurn s s' hs
    rw [hb] at hRel
    cases hb' : body' s' with
    | none => simp [hb'] at hRel
    | some turn =>
        rw [hb', Option.rel_some_some] at hRel
        cases hRel with
        | leave h => exact ⟨_, run_leave hb', h⟩

/-- Loops whose passes are related run to related results, or both never return. -/
theorem run_rel (hTurn : ∀ s s', R s s' → Option.Rel (Turn.Rel R S) (body s) (body' s'))
    (hState : R state state') : Option.Rel S (run body state) (run body' state') := by
  cases hRun : run body state with
  | some result =>
      obtain ⟨result', hRun', hResult⟩ := run_rel_some hTurn hRun state' hState
      rw [hRun']
      exact .some hResult
  | none =>
      cases hRun' : run body' state' with
      | none => exact .none
      | some result' =>
          have hFlip : ∀ s' s, R s s' →
              Option.Rel (Turn.Rel (fun a b => R b a) (fun a b => S b a)) (body' s') (body s) := by
            intro s' s hs
            have hRel := hTurn s s' hs
            cases hb : body s with
            | none =>
                cases hb' : body' s' with
                | none => exact .none
                | some turn' => simp [hb, hb'] at hRel
            | some turn =>
                cases hb' : body' s' with
                | none => simp [hb, hb'] at hRel
                | some turn' =>
                    rw [hb, hb', Option.rel_some_some] at hRel
                    cases hRel with
                    | again h => exact .some (.again h)
                    | leave h => exact .some (.leave h)
          obtain ⟨result, hRun'', -⟩ := run_rel_some hFlip hRun' state hState
          simp [hRun] at hRun''

end Relation

/-- Related loops whose results are related by equality return the same. -/
theorem run_eq_of_rel {State' : Type u} {body' : State' → Option (Turn State' Result)}
    {state' : State'} {R : State → State' → Prop}
    (hTurn : ∀ s s', R s s' → Option.Rel (Turn.Rel R Eq) (body s) (body' s'))
    (hState : R state state') : run body state = run body' state' := by
  have hRel := run_rel hTurn hState
  cases hRun : run body state with
  | none =>
      cases hRun' : run body' state' with
      | none => rfl
      | some result' => simp [hRun, hRun'] at hRel
  | some result =>
      cases hRun' : run body' state' with
      | none => simp [hRun, hRun'] at hRel
      | some result' =>
          rw [hRun, hRun', Option.rel_some_some] at hRel
          rw [hRel]

end Loop
