import Mathlib.Logic.Relation

/-! Objects that are called one call at a time: a state, and calls that answer and leave a
new state. One of them does what another does when related states answer alike and stay
related. -/
namespace SequentialObject
universe u v w x
variable {State : Type u} {Model : Type v} {Call : Type w} {Result : Type x}

/-- One call after the other: what they return, and the state after the last. -/
def run (call : Call → State → Result × State) : List Call → State → List Result × State
  | [], s => ([], s)
  | c :: calls, s =>
      let (result, s') := call c s
      let (results, s'') := run call calls s'
      (result :: results, s'')

/-- Related states return the same and stay related, whatever is called. -/
def Simulates (related : State → Model → Prop) (call : Call → State → Result × State)
    (spec : Call → Model → Result × Model) : Prop :=
  ∀ c s m, related s m → (call c s).1 = (spec c m).1 ∧ related (call c s).2 (spec c m).2

variable {related : State → Model → Prop} {call : Call → State → Result × State}
  {spec : Call → Model → Result × Model}

/-- What holds of every call holds of every sequence of calls. -/
theorem Simulates.run (h : Simulates related call spec) :
    Simulates related (run call) (run spec) := by
  intro calls
  induction calls with
  | nil => exact fun s m hRelated => ⟨rfl, hRelated⟩
  | cons c calls ih =>
      intro s m hRelated
      obtain ⟨hResult, hNext⟩ := h c s m hRelated
      obtain ⟨hResults, hLast⟩ := ih _ _ hNext
      refine ⟨?_, hLast⟩
      simp only [SequentialObject.run]
      rw [hResult, hResults]

theorem run_cons {c : Call} {calls : List Call} {s s' : State} {r : Result} {results : List Result}
    (h : call c s = (r, s')) (hRest : (SequentialObject.run call calls s').1 = results) :
    (SequentialObject.run call (c :: calls) s).1 = r :: results := by
  simp only [SequentialObject.run, h, hRest]

/-- It is enough that it holds of the calls that are made. -/
theorem run_agrees {calls : List Call}
    (h : ∀ c ∈ calls, ∀ s m, related s m → (call c s).1 = (spec c m).1 ∧
      related (call c s).2 (spec c m).2) {s : State} {m : Model} (hRelated : related s m) :
    (SequentialObject.run call calls s).1 = (SequentialObject.run spec calls m).1 ∧
      related (SequentialObject.run call calls s).2 (SequentialObject.run spec calls m).2 := by
  induction calls generalizing s m with
  | nil => exact ⟨rfl, hRelated⟩
  | cons c calls ih =>
      obtain ⟨hResult, hNext⟩ := h c List.mem_cons_self s m hRelated
      obtain ⟨hResults, hLast⟩ := ih (fun c' hMem => h c' (List.mem_cons_of_mem c hMem)) hNext
      refine ⟨?_, hLast⟩
      simp only [SequentialObject.run]
      rw [hResult, hResults]

/-- A state that calls lead to is reached by any steps that make up every call. -/
theorem run_reaches {reaches : State → State → Prop} (hRefl : ∀ s, reaches s s)
    (hTrans : ∀ {s t u}, reaches s t → reaches t u → reaches s u)
    (hCall : ∀ c s, reaches s (call c s).2) (calls : List Call) (s : State) :
    reaches s (SequentialObject.run call calls s).2 := by
  induction calls generalizing s with
  | nil => exact hRefl s
  | cons c calls ih => exact hTrans (hCall c s) (ih _)

/-- Calls that do what a specification allows, where it may allow several answers. -/
inductive Performs (does : Call → Model → Result → Model → Prop) :
    List Call → Model → List Result → Model → Prop where
  | nil (m : Model) : Performs does [] m [] m
  | cons {c : Call} {calls : List Call} {m m' m'' : Model} {r : Result} {results : List Result}
      (first : does c m r m') (rest : Performs does calls m' results m'') :
      Performs does (c :: calls) m (r :: results) m''

/-- What is allowed of every call that is made is allowed of the sequence of calls. -/
theorem run_performs {does : Call → Model → Result → Model → Prop} {view : State → Model}
    {calls : List Call}
    (h : ∀ c ∈ calls, ∀ s, does c (view s) (call c s).1 (view (call c s).2)) (s : State) :
    Performs does calls (view s) (SequentialObject.run call calls s).1
      (view (SequentialObject.run call calls s).2) := by
  induction calls generalizing s with
  | nil => exact .nil (view s)
  | cons c calls ih =>
      refine .cons (h c List.mem_cons_self s) ?_
      exact ih (fun c' hMem => h c' (List.mem_cons_of_mem c hMem)) (call c s).2

end SequentialObject
