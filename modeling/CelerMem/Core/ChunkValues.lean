import CelerMem.Core.ChunkLifetime

/-! What the objects show. Behind the reference counts every call does what it does on plain
values: a slice or a copy goes on showing its elements whatever becomes of its parent. -/
namespace CelerMem.Sharing
open References

variable {α Var Thread : Type}

/-- An object with these fields stands for a value. -/
def Slot.Shows (heap : Address → Option (ArcBuf α)) (slot : Slot) (c : Chunk α) : Prop :=
  slot.offset = c.offset ∧ slot.length = c.length ∧
    match slot.buf with
    | none => c.buffer = []
    | some b => ∃ block, heap b = some block ∧ block.elements = c.buffer

/-- A variable and its value: an object that shows it, or nothing on both sides. -/
def Cell (heap : Address → Option (ArcBuf α)) : Option Slot → Option (Chunk α) → Prop
  | none, none => True
  | some slot, some c => slot.Shows heap c
  | _, _ => False

/-- The elements of an allocation stay where they are. -/
def Kept (heap heap' : Address → Option (ArcBuf α)) (b : Address) : Prop :=
  ∀ block, heap b = some block →
    ∃ block', heap' b = some block' ∧ block'.elements = block.elements

variable {heap heap' : Address → Option (ArcBuf α)} {slot : Slot} {c : Chunk α}

theorem shows_default : Slot.default.Shows heap (Chunk.none : Chunk α) := ⟨rfl, rfl, rfl⟩

theorem Slot.Shows.keep (h : slot.Shows heap c)
    (hKept : ∀ b, slot.buf = some b → Kept heap heap' b) : slot.Shows heap' c := by
  obtain ⟨hOffset, hLength, hBuffer⟩ := h
  refine ⟨hOffset, hLength, ?_⟩
  cases hBuf : slot.buf with
  | none => simpa only [hBuf] using hBuffer
  | some b =>
      rw [hBuf] at hBuffer
      obtain ⟨block, hBlock, hElements⟩ := hBuffer
      obtain ⟨block', hBlock', hSame⟩ := hKept b hBuf block hBlock
      exact ⟨block', hBlock', hSame.trans hElements⟩

/-- A slice of the fields shows the slice of the value. -/
theorem Slot.Shows.slice (h : slot.Shows heap c) (off len : Nat) :
    (slot.slice off len).Shows heap (c.slice off len) := by
  obtain ⟨hOffset, hLength, hBuffer⟩ := h
  cases hBuf : slot.buf with
  | none =>
      rw [hBuf] at hBuffer
      have hInside := c.inside
      have hEmpty : c.size ≤ off := by
        rw [hBuffer, List.length_nil] at hInside
        simp only [Chunk.size]
        omega
      rw [Slot.slice, if_pos (by simp [hBuf]), Chunk.slice, dif_pos hEmpty]
      exact shows_default
  | some b =>
      rw [hBuf] at hBuffer
      by_cases hPast : c.size ≤ off
      · rw [Slot.slice, if_pos (by simpa [hBuf, hLength, Chunk.size] using hPast), Chunk.slice,
          dif_pos hPast]
        exact shows_default
      · rw [Slot.slice, if_neg (by simpa [hBuf, hLength, Chunk.size] using hPast), Chunk.slice,
          dif_neg hPast]
        simp only [hOffset, show slot.length = c.size from hLength]
        by_cases hZero : min len (c.size - off) % uint32Size = 0
        · rw [if_pos hZero, if_pos hZero]
          exact shows_default
        · rw [if_neg hZero, if_neg hZero]
          refine ⟨rfl, rfl, ?_⟩
          rw [hBuf]
          exact hBuffer

theorem kept_rfl {b : Address} : Kept heap heap b := fun block hBlock => ⟨block, hBlock, rfl⟩

theorem kept_fresh {b fresh : Address} {block : Option (ArcBuf α)} (hFresh : heap fresh = none) :
    Kept heap (Function.update heap fresh block) b := by
  intro old hOld
  have hNe : b ≠ fresh := by
    rintro rfl
    simp [hOld] at hFresh
  exact ⟨old, by rwa [Function.update_of_ne hNe], rfl⟩

theorem kept_refs {b c : Address} {block : ArcBuf α} (hBlock : heap b = some block)
    (refs : BitVec 32) : Kept heap (Function.update heap b (some { block with refs })) c := by
  intro old hOld
  by_cases hc : c = b
  · subst hc
    obtain rfl := Option.some.inj (hBlock.symm.trans hOld)
    exact ⟨_, Function.update_self _ _ _, rfl⟩
  · exact ⟨old, by rwa [Function.update_of_ne hc], rfl⟩

theorem cell_default : Cell heap (some Slot.default) (some (Chunk.none : Chunk α)) :=
  (shows_default : Slot.default.Shows heap Chunk.none)

theorem cell_alloc {b : Address} {elements : List α} {block : ArcBuf α}
    (hBlock : heap b = some block) (hElements : block.elements = elements)
    (h : elements.length < uint32Size) :
    Cell heap (some ⟨some b, 0, elements.length⟩)
      (some ⟨elements, 0, elements.length, by omega, h⟩) :=
  ⟨rfl, rfl, block, hBlock, hElements⟩

theorem Cell.keep {field : Option Slot} {value : Option (Chunk α)} (h : Cell heap field value)
    (hKept : ∀ b, field.bind Slot.buf = some b → Kept heap heap' b) : Cell heap' field value := by
  match field, value, h with
  | none, none, _ => trivial
  | some slot, some c, h => exact Slot.Shows.keep h hKept

theorem Cell.isSome_eq {field : Option Slot} {value : Option (Chunk α)}
    (h : Cell heap field value) : field.isSome = value.isSome := by
  match field, value, h with
  | none, none, _ => rfl
  | some slot, some c, _ => rfl

theorem Cell.map_slice {field : Option Slot} {value : Option (Chunk α)}
    (h : Cell heap field value) (off len : Nat) :
    Cell heap (field.map fun slot => slot.slice off len) (value.map fun c => c.slice off len) := by
  match field, value, h with
  | none, none, _ => trivial
  | some slot, some c, h => exact Slot.Shows.slice h off len

namespace Op
variable {op : Op α Var} {values values' : Var → Option (Chunk α)} {x : Var}

theorem mem_footprint_of_constructs (h : x ∈ op.constructs) : x ∈ op.writes := by
  cases op <;> simp_all [constructs, writes]

theorem mem_footprint_of_uses (h : x ∈ op.uses) : x ∈ op.writes ∨ x ∈ op.reads := by
  cases op <;> simp_all [uses, writes, reads]

/-- Whether a call may be made is decided by the objects it looks at. -/
theorem Ready.congr {Value Value' : Type} {values : Var → Option Value}
    {values' : Var → Option Value'} (h : op.Ready values)
    (hSame : ∀ x, x ∈ op.writes ∨ x ∈ op.reads → (values' x).isSome = (values x).isSome) :
    op.Ready values' := by
  refine ⟨fun x hx => ?_, fun x hx => ?_⟩
  · have hIs := hSame x (.inl (mem_footprint_of_constructs hx))
    rw [h.1 x hx] at hIs
    simpa using hIs
  · rw [hSame x (mem_footprint_of_uses hx)]
    exact h.2 x hx

theorem Ready.ne {Value : Type} {values : Var → Option Value} {y : Var} (h : op.Ready values)
    (hx : x ∈ op.constructs) (hy : y ∈ op.uses) : x ≠ y := by
  rintro rfl
  have hSome := h.2 x hy
  rw [h.1 x hx] at hSome
  cases hSome

/-- What the first step of a call has made sure of before it leaves the rest to `proceed`. -/
def Proper : Op α Var → Prop
  | assign dst src | moveAssign dst src => dst ≠ src
  | build _ _ filled .. => filled = []
  | «from» .. | singleton .. => False
  | _ => True

variable [DecidableEq Var]

theorem effect_of_not_mem (h : x ∉ op.writes) : op.effect values x = values x := by
  cases op
  case moveAssign dst src =>
    simp only [writes, List.mem_cons, List.not_mem_nil, or_false, not_or] at h
    simp only [effect]
    split
    · rfl
    · rw [Function.update_of_ne h.2, Function.update_of_ne h.1]
  all_goals simp_all [effect, writes]

theorem effect_congr (hSame : ∀ x, x ∈ op.writes ∨ x ∈ op.reads → values' x = values x)
    (h : x ∈ op.writes) : op.effect values' x = op.effect values x := by
  cases op
  case moveAssign dst src =>
    have hDst := hSame dst (by simp [writes])
    have hSrc := hSame src (by simp [writes])
    have hx := hSame x (.inl h)
    simp only [effect]
    split
    · exact hx
    · simp only [Function.update_apply, hSrc, hx]
  case move dst src =>
    have hSrc := hSame src (by simp [writes])
    have hx := hSame x (.inl h)
    simp only [effect, Function.update_apply, hSrc, hx]
  all_goals
    have hx := hSame x (.inl h)
    simp_all [effect, writes, reads]

end Op

namespace Memory

theorem Apart.of_others {s s' : Memory α Var Thread} {t : Thread} {op : Op α Var}
    (hApart : s.Apart t op)
    (hRunning : ∀ u, u ≠ t → s'.running u = s.running u) : s'.Apart t op :=
  fun u other stage hu hOther => hApart u other stage hu (hRunning u hu ▸ hOther)

/-- What a reference points to is kept, so the objects that hold one still show their values. -/
theorem kept_of_held {s s' : Memory α Var Thread} {field : Option Slot}
    (hKept : ∀ b, (∃ h, s.held h = some b) → Kept s.heap s'.heap b)
    (hField : ∀ b, field.bind Slot.buf = some b → ∃ h, s.held h = some b) {value : Option (Chunk α)}
    (h : Cell s.heap field value) : Cell s'.heap field value :=
  h.keep fun b hb => hKept b (hField b hb)

/-- The allocation that is freed is not among them. -/
theorem kept_of_uncounted {s : Memory α Var Thread} {b : Address} (hZero : Counted s.held b 0)
    (c : Address) (hHeld : ∃ h, s.held h = some c) :
    Kept s.heap (Function.update s.heap b none) c := by
  obtain ⟨h, hHeld⟩ := hHeld
  intro old hOld
  have hNe : c ≠ b := by
    rintro rfl
    exact hZero.zero_iff.mp rfl h hHeld
  exact ⟨old, (Function.update_of_ne hNe _ _).trans hOld, rfl⟩

/-- So do the fields that a thread is about to give to its target. -/
theorem Sound.cell_acquired {s s' : Memory α Var Thread} {t : Thread} {op : Op α Var} {b : Address}
    {dst : Var} (hSound : s.Sound) (hAt : s.running t = some (op, .acquire b dst slot))
    (hKept : ∀ b, (∃ h, s.held h = some b) → Kept s.heap s'.heap b) {value : Option (Chunk α)}
    (h : Cell s.heap (some slot) value) : Cell s'.heap (some slot) value := by
  obtain ⟨-, hBuf, src, -, hHeld⟩ := hSound.acquiring t op b dst slot hAt
  refine kept_of_held hKept (fun c hc => ⟨.inl src, ?_⟩) h
  rw [hHeld, ← hBuf]
  simpa using hc

theorem update_idle [DecidableEq Thread] {s : Memory α Var Thread} {t : Thread}
    (hIdle : s.running t = none) :
    Function.update s.running t none = s.running := by
  rw [← hIdle, Function.update_eq_self]

/-- The elements in the window of an object. -/
def shown (s : Memory α Var Thread) (x : Var) : Option (List α) :=
  (s.vars x).bind fun slot =>
    match slot.buf with
    | none => some []
    | some b => (s.heap b).map fun block => (block.elements.drop slot.offset).take slot.length

theorem shown_of_cell {s : Memory α Var Thread} {x : Var} {value : Option (Chunk α)}
    (h : Cell s.heap (s.vars x) value) :
    s.shown x = value.map Chunk.toList := by
  cases hVar : s.vars x with
  | none =>
      cases value with
      | none => simp [shown, hVar]
      | some c => simp [hVar, Cell] at h
  | some slot =>
      cases value with
      | none => simp [hVar, Cell] at h
      | some c =>
          rw [hVar] at h
          obtain ⟨hOffset, hLength, hBuffer⟩ := h
          cases hBuf : slot.buf with
          | none =>
              rw [hBuf] at hBuffer
              simp [shown, hVar, hBuf, Chunk.toList, hBuffer]
          | some b =>
              rw [hBuf] at hBuffer
              obtain ⟨block, hBlock, hElements⟩ := hBuffer
              simp [shown, hVar, hBuf, hBlock, hElements, Chunk.toList, hOffset, hLength]

variable [DecidableEq Var]

/-- No other call is about to give the object a new value. -/
def Settled (s : Memory α Var Thread) (x : Var) : Prop :=
  ∀ t op stage, s.running t = some (op, stage) → op.target ≠ some x

/-- The values that the calls lead to, one after another as they returned, are the ones
that the settled objects show. -/
structure Follows (s : Memory α Var Thread) (values : Var → Option (Chunk α)) : Prop where
  history : Sequential s.history values
  ready : ∀ t op stage, s.running t = some (op, stage) → op.Ready values ∧ op.Proper
  cells : ∀ x, s.Settled x → Cell s.heap (s.vars x) (values x)
  taken : ∀ t op b dst slot, s.running t = some (op, .acquire b dst slot) →
    op.writes = [dst] ∧ op.shown values = [] ∧ Cell s.heap (some slot) (op.effect values dst)
  seeing : ∀ t op x, s.running t = some (op, .visit x) → op = .visit x

/-- In the middle of a call: its target has let go, and is the only object that may not show
its value. -/
structure Open (s : Memory α Var Thread) (op : Op α Var) (values : Var → Option (Chunk α)) :
    Prop where
  history : Sequential s.history values
  mine : op.Ready values
  ready : ∀ t other stage, s.running t = some (other, stage) → other.Ready values ∧ other.Proper
  cells : ∀ x, s.Settled x → op.target ≠ some x → Cell s.heap (s.vars x) (values x)
  taken : ∀ t other b dst slot, s.running t = some (other, .acquire b dst slot) →
    other.writes = [dst] ∧ other.shown values = [] ∧
      Cell s.heap (some slot) (other.effect values dst)
  seeing : ∀ t other x, s.running t = some (other, .visit x) → other = .visit x

variable {s s' : Memory α Var Thread} {t u : Thread} {op other : Op α Var} {b : Address}
  {x dst src : Var} {values : Var → Option (Chunk α)}

/-- Another call's effect is the same before and after a call that it is independent of. -/
theorem effect_of_independent (h : op.Independent other) (hx : x ∈ other.writes) :
    other.effect (op.effect values) x = other.effect values x := by
  refine Op.effect_congr (fun y hy => Op.effect_of_not_mem fun hIn => ?_) hx
  rcases hy with hWrites | hReads
  · exact (h.1 y hIn).1 hWrites
  · exact (h.1 y hIn).2 hReads

theorem shown_of_independent (h : op.Independent other) :
    other.shown (op.effect values) = other.shown values := by
  cases other with
  | visit y =>
      have hNot : y ∉ op.writes := fun hIn => (h.1 y hIn).2 (by simp [Op.reads])
      simp [Op.shown, Op.effect_of_not_mem hNot]
  | _ => rfl

theorem ready_of_independent (h : op.Independent other) (hReady : other.Ready values) :
    other.Ready (op.effect values) := by
  refine hReady.congr fun y hy => ?_
  rw [Op.effect_of_not_mem fun hIn => ?_]
  rcases hy with hWrites | hReads
  · exact (h.1 y hIn).1 hWrites
  · exact (h.1 y hIn).2 hReads

/-- The call returns: it has made its objects show what its effect is. -/
theorem Open.complete (hOpen : s.Open op values) (hSound : s.Sound) (hIdle : s.running t = none)
    (hApart : s.Apart t op) (hRunning : s'.running = s.running)
    (hHistory : s'.history = s.history ++ [(op, op.shown values)])
    (hKept : ∀ b, (∃ h, s.held h = some b) → Kept s.heap s'.heap b)
    (hVars : ∀ x, x ∉ op.writes → s'.vars x = s.vars x)
    (hWritten : ∀ x, x ∈ op.writes → Cell s'.heap (s'.vars x) (op.effect values x)) :
    s'.Follows (op.effect values) := by
  have hIndependent : ∀ u other stage, s'.running u = some (other, stage) →
      s.running u = some (other, stage) ∧ op.Independent other := by
    intro u other stage hAt
    rw [hRunning] at hAt
    refine ⟨hAt, hApart u other stage ?_ hAt⟩
    rintro rfl
    simp [hIdle] at hAt
  constructor
  · rw [hHistory]
    exact hOpen.history.snoc hOpen.mine
  · intro u other stage hAt
    obtain ⟨hBefore, hFree⟩ := hIndependent u other stage hAt
    obtain ⟨hReady, hProper⟩ := hOpen.ready u other stage hBefore
    exact ⟨ready_of_independent hFree hReady, hProper⟩
  · intro x hSettled
    by_cases hx : x ∈ op.writes
    · exact hWritten x hx
    · rw [hVars x hx, Op.effect_of_not_mem hx]
      have hBefore : s.Settled x := fun u other stage hAt =>
        hSettled u other stage (hRunning ▸ hAt)
      refine kept_of_held hKept (fun b hb => ⟨.inl x, hb⟩) (hOpen.cells x hBefore fun hTarget => ?_)
      exact hx (Op.target_mem_writes hTarget)
  · intro u other b dst slot hAt
    obtain ⟨hBefore, hFree⟩ := hIndependent u other _ hAt
    obtain ⟨hWrites, hShown, hCell⟩ := hOpen.taken u other b dst slot hBefore
    refine ⟨hWrites, (shown_of_independent hFree).trans hShown, ?_⟩
    rw [effect_of_independent hFree (by simp [hWrites])]
    exact hSound.cell_acquired hBefore hKept hCell
  · intro u other x hAt
    exact hOpen.seeing u other x (hRunning ▸ hAt)

theorem follows_initial : (initial : Memory α Var Thread).Follows fun _ => none where
  history := .nil
  ready t op stage h := by simp [initial] at h
  cells x _ := trivial
  taken t op b dst slot h := by simp [initial] at h
  seeing t op x h := by simp [initial] at h

/-- The objects that a call looks at show their values before it begins. -/
theorem Follows.cell_of_footprint (hFollows : s.Follows values)
    (hApart : ∀ u other stage, s.running u = some (other, stage) → op.Independent other)
    (hx : x ∈ op.writes ∨ x ∈ op.reads) : Cell s.heap (s.vars x) (values x) := by
  refine hFollows.cells x fun u other stage hAt hTarget => ?_
  have hFree := hApart u other stage hAt
  have hIn := Op.target_mem_writes hTarget
  rcases hx with hWrites | hReads
  · exact (hFree.1 x hWrites).1 hIn
  · exact hFree.2 x hReads hIn

/-- The call begins. -/
theorem Follows.begin (hFollows : s.Follows values)
    (hApart : ∀ u other stage, s.running u = some (other, stage) → op.Independent other)
    (hReady : op.Ready s.vars) : s.Open op values where
  history := hFollows.history
  mine := by
    refine hReady.congr fun x hx => ?_
    exact (hFollows.cell_of_footprint hApart hx).isSome_eq.symm
  ready := hFollows.ready
  cells x hSettled _ := hFollows.cells x hSettled
  taken := hFollows.taken
  seeing := hFollows.seeing

/-- An object that the call only looks at shows its value. -/
theorem Open.source (hOpen : s.Open op values) (hIdle : s.running t = none) (hApart : s.Apart t op)
    (hx : x ∈ op.writes ∨ x ∈ op.reads) (hNot : op.target ≠ some x) :
    Cell s.heap (s.vars x) (values x) := by
  refine hOpen.cells x (fun u other stage hAt hTarget => ?_) hNot
  have hFree := hApart u other stage (by rintro rfl; simp [hIdle] at hAt) hAt
  have hIn := Op.target_mem_writes hTarget
  rcases hx with hWrites | hReads
  · exact (hFree.1 x hWrites).1 hIn
  · exact hFree.2 x hReads hIn

variable [DecidableEq Thread]

/-- The call goes on: until it returns its target need not show its value. -/
theorem Open.enter {stage : Stage Var} (hOpen : s.Open op values) (hProper : op.Proper)
    (hSound : s.Sound) (hIdle : s.running t = none)
    (hRunning : s'.running = Function.update s.running t (some (op, stage)))
    (hHistory : s'.history = s.history)
    (hKept : ∀ b, (∃ h, s.held h = some b) → Kept s.heap s'.heap b)
    (hVars : ∀ x, op.target ≠ some x → s'.vars x = s.vars x)
    (hTaken : ∀ b dst slot, stage = .acquire b dst slot → op.writes = [dst] ∧
      op.shown values = [] ∧ Cell s'.heap (some slot) (op.effect values dst))
    (hSeeing : ∀ x, stage = .visit x → op = .visit x) : s'.Follows values := by
  have hMine : s'.running t = some (op, stage) := by rw [hRunning, Function.update_self]
  have hOther : ∀ u, u ≠ t → s'.running u = s.running u := fun u hu => by
    rw [hRunning, Function.update_of_ne hu]
  have hWhere : ∀ u other stage', s'.running u = some (other, stage') →
      (other = op ∧ stage' = stage) ∨ s.running u = some (other, stage') := by
    intro u other stage' hAt
    by_cases hu : u = t
    · subst hu
      rw [hMine] at hAt
      cases hAt
      exact .inl ⟨rfl, rfl⟩
    · exact .inr (hOther u hu ▸ hAt)
  constructor
  · rw [hHistory]
    exact hOpen.history
  · intro u other stage' hAt
    rcases hWhere u other stage' hAt with ⟨rfl, -⟩ | hBefore
    · exact ⟨hOpen.mine, hProper⟩
    · exact hOpen.ready u other stage' hBefore
  · intro x hSettled
    have hNot : op.target ≠ some x := hSettled t op stage hMine
    rw [hVars x hNot]
    refine kept_of_held hKept (fun b hb => ⟨.inl x, hb⟩)
      (hOpen.cells x (fun u other stage' hAt => ?_) hNot)
    refine hSettled u other stage' ?_
    rw [hOther u, hAt]
    rintro rfl
    simp [hIdle] at hAt
  · intro u other b dst slot hAt
    rcases hWhere u other _ hAt with ⟨rfl, hStage⟩ | hBefore
    · exact hTaken b dst slot hStage.symm
    · obtain ⟨hWrites, hShown, hCell⟩ := hOpen.taken u other b dst slot hBefore
      exact ⟨hWrites, hShown, hSound.cell_acquired hBefore hKept hCell⟩
  · intro u other x hAt
    rcases hWhere u other _ hAt with ⟨rfl, hStage⟩ | hBefore
    · exact hSeeing x hStage.symm
    · exact hOpen.seeing u other x hBefore

/-- Between two steps of a call, with the thread taken out. -/
theorem Follows.«open» {stage : Stage Var} (hFollows : s.Follows values) (hSound : s.Sound)
    (hAt : s.running t = some (op, stage))
    (hRunning : s'.running = Function.update s.running t none)
    (hHistory : s'.history = s.history) (hVars : s'.vars = s.vars)
    (hKept : ∀ b, (∃ h, s.held h = some b) → Kept s.heap s'.heap b) : s'.Open op values := by
  have hBefore : ∀ u other stage', s'.running u = some (other, stage') →
      s.running u = some (other, stage') := by
    intro u other stage' hOther
    by_cases hu : u = t
    · subst hu
      simp [hRunning] at hOther
    · rwa [hRunning, Function.update_of_ne hu] at hOther
  constructor
  · rw [hHistory]
    exact hFollows.history
  · exact (hFollows.ready t op stage hAt).1
  · exact fun u other stage' hOther => hFollows.ready u other stage' (hBefore u other stage' hOther)
  · intro x hSettled hTarget
    rw [hVars]
    refine kept_of_held hKept (fun b hb => ⟨.inl x, hb⟩)
      (hFollows.cells x fun u other stage' hOther => ?_)
    by_cases hu : u = t
    · subst hu
      rw [hAt] at hOther
      cases hOther
      exact hTarget
    · refine hSettled u other stage' ?_
      rw [hRunning, Function.update_of_ne hu, hOther]
  · intro u other b dst slot hOther
    have hOld := hBefore u other _ hOther
    obtain ⟨hWrites, hShown, hCell⟩ := hFollows.taken u other b dst slot hOld
    exact ⟨hWrites, hShown, hSound.cell_acquired hOld hKept hCell⟩
  · exact fun u other x hOther => hFollows.seeing u other x (hBefore u other _ hOther)

theorem Open.take (hOpen : s.Open op values) (hProper : op.Proper) (hSound : s.Sound)
    (hIdle : s.running t = none) (hApart : s.Apart t op) (hTarget : op.target = some dst)
    (hWrites : op.writes = [dst])
    (hShown : op.shown values = []) (hCell : Cell s.heap (some slot) (op.effect values dst)) :
    ∃ values', (s.take t op dst slot).Follows values' := by
  unfold Memory.take
  split
  next =>
    refine ⟨_, hOpen.complete hSound hIdle hApart (update_idle hIdle) (by rw [hShown]; rfl)
      (fun _ _ => kept_rfl) (fun x hx => ?_) (fun x hx => ?_)⟩
    · exact Function.update_of_ne (Op.ne_of_not_mem_writes hTarget hx) _ _
    · obtain rfl : x = dst := by simpa [hWrites] using hx
      simpa [ret, setThread, setVar] using hCell
  next b hBuf =>
    refine ⟨values, hOpen.enter (t := t) hProper hSound hIdle rfl rfl (fun _ _ => kept_rfl)
      (fun _ _ => rfl) ?_ (by simp)⟩
    rintro b' dst' slot' ⟨⟩
    exact ⟨hWrites, hShown, hCell⟩

/-- The target is given a new value at once. -/
theorem Open.put {field : Option Slot} (hOpen : s.Open op values) (hSound : s.Sound)
    (hIdle : s.running t = none) (hApart : s.Apart t op) (hTarget : op.target = some dst)
    (hWrites : op.writes = [dst]) (hShown : op.shown values = [])
    (hCell : Cell s.heap field (op.effect values dst)) :
    ∃ values', ((s.setVar dst field).ret t op []).Follows values' := by
  refine ⟨_, hOpen.complete hSound hIdle hApart (update_idle hIdle) (by rw [hShown]; rfl)
    (fun _ _ => kept_rfl) (fun x hx => ?_) (fun x hx => ?_)⟩
  · exact Function.update_of_ne (Op.ne_of_not_mem_writes hTarget hx) _ _
  · obtain rfl : x = dst := by simpa [hWrites] using hx
    simpa [ret, setThread, setVar] using hCell

/-- One object is left with what the other had. -/
theorem Open.exchange (hOpen : s.Open op values) (hSound : s.Sound) (hIdle : s.running t = none)
    (hApart : s.Apart t op) (hWrites : op.writes = [dst, src]) (hTarget : op.target = some dst)
    (hShown : op.shown values = []) (hNe : dst ≠ src)
    (hEffect : op.effect values =
      Function.update (Function.update values dst (values src)) src (some Chunk.none))
    (hAt : s.vars src = some slot) :
    ∃ values', (((s.setVar dst (some slot)).setVar src (some Slot.default)).ret t op []).Follows
      values' := by
  have hCell := hOpen.source (x := src) hIdle hApart (by simp [hWrites])
    (by simpa [hTarget] using hNe)
  refine ⟨_, hOpen.complete hSound hIdle hApart (update_idle hIdle) (by rw [hShown]; rfl)
    (fun _ _ => kept_rfl) (fun x hx => ?_) (fun x hx => ?_)⟩
  · obtain ⟨hDst, hSrc⟩ : x ≠ dst ∧ x ≠ src := by simpa [hWrites] using hx
    exact (Function.update_of_ne hSrc _ _).trans (Function.update_of_ne hDst _ _)
  · rw [hEffect]
    by_cases hx' : x = src
    · subst hx'
      simpa [ret, setThread, setVar] using cell_default
    · obtain rfl : x = dst := by simpa [hWrites, hx'] using hx
      simpa [ret, setThread, setVar, hNe, hAt] using hCell

/-- Whatever a call does after its target has let go is what it does on values. -/
theorem Open.proceed (hOpen : s.Open op values) (hProper : op.Proper) (hSound : s.Sound)
    (hIdle : s.running t = none) (hApart : s.Apart t op) (h : s.proceed t op = some s') :
    ∃ values', s'.Follows values' := by
  have hSource := fun x hx hNot => hOpen.source (x := x) hIdle hApart hx hNot
  have hReady := hOpen.mine
  cases op with
  | «from» dst data => cases h
  | singleton dst value => cases h
  | default dst =>
      obtain rfl := Option.some.inj h
      exact hOpen.put hSound hIdle hApart rfl rfl rfl (by simpa [Op.effect] using cell_default)
  | build dst capacity filled hFilled hCapacity =>
      have hNil : filled = [] := hProper
      subst hNil
      obtain rfl := Option.some.inj h
      exact hOpen.put hSound hIdle hApart rfl rfl rfl (by
        rw [Op.effect, Function.update_self]
        exact cell_default)
  | destroy x =>
      obtain rfl := Option.some.inj h
      exact hOpen.put hSound hIdle hApart rfl rfl rfl (by simp [Op.effect, Cell])
  | copy dst src =>
      obtain ⟨slot, hAt, rfl⟩ := Option.map_eq_some_iff.mp h
      have hNe : dst ≠ src := hReady.ne (by simp [Op.constructs]) (by simp [Op.uses])
      have hCell := hSource src (.inr (by simp [Op.reads])) (by simpa [Op.target] using hNe)
      exact hOpen.take hProper hSound hIdle hApart rfl rfl rfl
        (by simpa [Op.effect, hAt] using hCell)
  | assign dst src =>
      obtain ⟨slot, hAt, rfl⟩ := Option.map_eq_some_iff.mp h
      have hNe : dst ≠ src := hProper
      have hCell := hSource src (.inr (by simp [Op.reads])) (by simpa [Op.target] using hNe)
      exact hOpen.take hProper hSound hIdle hApart rfl rfl rfl
        (by simpa [Op.effect, hAt] using hCell)
  | slice dst src off len =>
      obtain ⟨slot, hAt, rfl⟩ := Option.map_eq_some_iff.mp h
      have hNe : dst ≠ src := hReady.ne (by simp [Op.constructs]) (by simp [Op.uses])
      have hCell := hSource src (.inr (by simp [Op.reads])) (by simpa [Op.target] using hNe)
      have hSlice := hCell.map_slice off len
      exact hOpen.take hProper hSound hIdle hApart rfl rfl rfl
        (by simpa [Op.effect, hAt] using hSlice)
  | move dst src =>
      obtain ⟨slot, hAt, rfl⟩ := Option.map_eq_some_iff.mp h
      have hNe : dst ≠ src := hReady.ne (by simp [Op.constructs]) (by simp [Op.uses])
      exact hOpen.exchange hSound hIdle hApart rfl rfl rfl hNe rfl hAt
  | moveAssign dst src =>
      obtain ⟨slot, hAt, rfl⟩ := Option.map_eq_some_iff.mp h
      exact hOpen.exchange hSound hIdle hApart rfl rfl rfl hProper (if_neg hProper) hAt
  | visit x =>
      obtain rfl := Option.some.inj h
      exact ⟨values, hOpen.enter (t := t) hProper hSound hIdle rfl rfl (fun _ _ => kept_rfl)
        (fun _ _ => rfl) (by simp) (by simp)⟩

theorem Open.drop (hOpen : s.Open op values) (hProper : op.Proper) (hSound : s.Sound)
    (hIdle : s.running t = none) (hApart : s.Apart t op) (hTarget : op.target = some x)
    (h : s.drop t op x = some s') :
    ∃ values', s'.Follows values' := by
  unfold Memory.drop at h
  split at h
  next => cases h
  next slot hAt =>
    split at h
    next => exact hOpen.proceed hProper hSound hIdle hApart h
    next b hBuf =>
      obtain rfl := Option.some.inj h
      refine ⟨values, hOpen.enter (t := t) hProper hSound hIdle rfl rfl (fun _ _ => kept_rfl)
        (fun y hy => ?_) (by simp) (by simp)⟩
      exact Function.update_of_ne (by rintro rfl; exact hy hTarget) _ _

/-- A fresh allocation for the object that the call constructs. -/
theorem Open.alloc {fresh : Address} {elements : List α} (hOpen : s.Open op values)
    (hSound : s.Sound) (hIdle : s.running t = none) (hApart : s.Apart t op)
    (hTarget : op.target = some dst) (hWrites : op.writes = [dst]) (hShown : op.shown values = [])
    (hFits : elements.length < uint32Size)
    (hEffect : op.effect values dst = some ⟨elements, 0, elements.length, by omega, hFits⟩)
    (h : s.alloc t op dst fresh elements = some s') : ∃ values', s'.Follows values' := by
  unfold Memory.alloc at h
  split at h
  next => cases h
  next hFresh =>
    obtain rfl := Option.some.inj h
    refine ⟨_, hOpen.complete hSound hIdle hApart (update_idle hIdle) (by rw [hShown]; rfl)
      (fun _ _ => kept_fresh (by simpa using hFresh)) (fun x hx => ?_) (fun x hx => ?_)⟩
    · exact Function.update_of_ne (Op.ne_of_not_mem_writes hTarget hx) _ _
    · obtain rfl : x = dst := by simpa [hWrites] using hx
      rw [hEffect]
      have hBlock : Function.update s.heap fresh (some ⟨1, elements⟩) fresh = some ⟨1, elements⟩ :=
        Function.update_self fresh _ s.heap
      simpa [ret, setThread, setVar, setBlock] using cell_alloc hBlock rfl hFits

/-- The call has nothing to do. -/
theorem Follows.returns (hFollows : s.Follows values) (hSound : s.Sound)
    (hIdle : s.running t = none) (hAllowed : s.Allowed (.start t op b)) (hReady : op.Ready s.vars)
    (hShown : op.shown values = []) (hEffect : op.effect values = values) :
    ∃ values', (s.ret t op []).Follows values' := by
  refine ⟨_, (hFollows.begin hAllowed hReady).complete hSound hIdle
    (fun u other stage _ hAt => hAllowed u other stage hAt) (update_idle hIdle)
    (by rw [hShown]; rfl) (fun _ _ => kept_rfl) (fun _ _ => rfl) (fun x hx => ?_)⟩
  rw [hEffect]
  exact hFollows.cell_of_footprint hAllowed (.inl hx)

/-- The first step of a call. -/
theorem Follows.start (hFollows : s.Follows values) (hSound : s.Sound) {fresh : Address}
    (hAllowed : s.Allowed (.start t op fresh)) (h : s.start t op fresh = some s') :
    ∃ values', s'.Follows values' := by
  unfold Memory.start at h
  split at h
  next => cases h
  next hMay =>
    obtain ⟨hIdle, hReady⟩ : s.running t = none ∧ op.Ready s.vars := by
      simpa only [not_or, Bool.not_eq_true, Option.isSome_eq_false_iff, Option.isNone_iff_eq_none,
        not_not] using hMay
    have hApart : s.Apart t op := fun u other stage _ hAt => hAllowed u other stage hAt
    have hOpen := hFollows.begin hAllowed hReady
    cases op with
    | «from» dst data =>
        dsimp only at h
        split at h
        next hEmpty =>
          obtain rfl := Option.some.inj h
          have hNil : data = [] := by simpa using hEmpty
          refine hOpen.put hSound hIdle hApart rfl rfl rfl ?_
          rw [Op.effect, Function.update_self, hNil]
          exact cell_default
        next hSome =>
          have hMod := Nat.mod_lt data.length (show 0 < uint32Size by decide)
          have hLength : (data.take (data.length % uint32Size)).length =
              data.length % uint32Size := by
            rw [List.length_take, Nat.min_eq_left (Nat.mod_le _ _)]
          refine hOpen.alloc hSound hIdle hApart rfl rfl rfl (by omega) ?_ h
          rw [Op.effect, Function.update_self, Chunk.from, if_neg hSome]
          simp only [hLength]
    | singleton dst value =>
        exact hOpen.alloc hSound hIdle hApart rfl rfl rfl (by simp)
          (Function.update_self dst _ values) h
    | build dst capacity filled hFilled hCapacity =>
        dsimp only at h
        split at h
        next hZero =>
          have hNil : filled = [] := List.eq_nil_of_length_eq_zero (by omega)
          exact hOpen.proceed hNil hSound hIdle hApart h
        next =>
          split at h
          next hEmpty =>
            have hNil : filled = [] := by simpa using hEmpty
            split at h
            next => cases h
            next hFresh =>
              obtain rfl := Option.some.inj h
              refine ⟨values, hOpen.enter (t := t) hNil hSound hIdle rfl rfl
                (fun _ _ => kept_fresh (by simpa using hFresh)) (fun _ _ => rfl) (by simp)
                (by simp)⟩
          next =>
            exact hOpen.alloc hSound hIdle hApart rfl rfl rfl (by omega)
              (Function.update_self dst _ values) h
    | default dst => exact hOpen.proceed trivial hSound hIdle hApart h
    | copy dst src => exact hOpen.proceed trivial hSound hIdle hApart h
    | move dst src => exact hOpen.proceed trivial hSound hIdle hApart h
    | slice dst src off len => exact hOpen.proceed trivial hSound hIdle hApart h
    | visit x => exact hOpen.proceed trivial hSound hIdle hApart h
    | destroy x => exact hOpen.drop trivial hSound hIdle hApart rfl h
    | assign dst src =>
        dsimp only at h
        split at h
        next hEq =>
          obtain rfl := Option.some.inj h
          subst hEq
          exact hFollows.returns hSound hIdle hAllowed hReady rfl (by simp [Op.effect])
        next hNe => exact hOpen.drop hNe hSound hIdle hApart rfl h
    | moveAssign dst src =>
        dsimp only at h
        split at h
        next hEq =>
          obtain rfl := Option.some.inj h
          subst hEq
          exact hFollows.returns hSound hIdle hAllowed hReady rfl (by simp [Op.effect])
        next hNe => exact hOpen.drop hNe hSound hIdle hApart rfl h

/-- The thread takes the last reference away. -/
theorem Follows.«last» {block : ArcBuf α} (hFollows : s.Follows values)
    (hAt : s.running t = some (op, .release b)) (hBlock : s.heap b = some block)
    (refs : BitVec 32) :
    ((s.setBlock b (some { block with refs })).setThread t (some (op, .free b))).Follows
      values := by
  have hMine : ((s.setBlock b (some { block with refs })).setThread t
      (some (op, .free b))).running t = some (op, .free b) := running_setThread _ t _
  have hWhere : ∀ u other stage, ((s.setBlock b (some { block with refs })).setThread t
      (some (op, .free b))).running u = some (other, stage) →
      (other = op ∧ stage = .free b) ∨ s.running u = some (other, stage) := by
    intro u other stage hOther
    by_cases hu : u = t
    · subst hu
      rw [hMine] at hOther
      cases hOther
      exact .inl ⟨rfl, rfl⟩
    · exact .inr ((Function.update_of_ne hu _ _).symm.trans hOther)
  constructor
  · exact hFollows.history
  · intro u other stage hOther
    rcases hWhere u other stage hOther with ⟨rfl, -⟩ | hBefore
    · exact hFollows.ready t other _ hAt
    · exact hFollows.ready u other stage hBefore
  · intro x hSettled
    refine (hFollows.cells x fun u other stage hOther => ?_).keep fun _ _ => kept_refs hBlock refs
    by_cases hu : u = t
    · subst hu
      rw [hAt] at hOther
      cases hOther
      exact hSettled u op _ hMine
    · exact hSettled u other stage ((Function.update_of_ne hu _ _).trans hOther)
  · intro u other c dst slot hOther
    rcases hWhere u other _ hOther with ⟨-, hStage⟩ | hBefore
    · cases hStage
    · obtain ⟨hWrites, hShown, hCell⟩ := hFollows.taken u other c dst slot hBefore
      exact ⟨hWrites, hShown, hCell.keep fun _ _ => kept_refs hBlock refs⟩
  · intro u other x hOther
    rcases hWhere u other _ hOther with ⟨-, hStage⟩ | hBefore
    · cases hStage
    · exact hFollows.seeing u other x hBefore

/-- A thread that holds no reference of its own may be taken out. -/
theorem Sound.stops {stage : Stage Var} (hSound : s.Sound) (hAt : s.running t = some (op, stage))
    (hHands : s.held (.inr t) = none) (hNot : ∀ b, stage ≠ .free b) :
    (s.setThread t none).Sound := by
  have hHeld : (s.setThread t none).held = s.held := by
    rw [held_setThread]
    exact update_held hHands
  refine hSound.returns (hSound.apart_of_running hAt) (fun other b hOther => ?_) rfl rfl
    (fun _ _ => rfl) rfl (fun b n hCounted => hHeld ▸ hCounted)
  rw [hAt] at hOther
  exact hNot b (Prod.mk.inj (Option.some.inj hOther)).2

/-- Every later step of a call. -/
theorem Follows.advance (hFollows : s.Follows values) (hSound : s.Sound)
    (h : s.advance t = some s') : ∃ values', s'.Follows values' := by
  unfold Memory.advance at h
  split at h
  next => cases h
  next op b dst slot hAt =>
    obtain ⟨hTarget, -, src, -, hHeld⟩ := hSound.acquiring t op b dst slot hAt
    obtain ⟨⟨block, hBlock⟩, -⟩ := hSound.live hHeld
    simp only [hBlock] at h
    obtain rfl := Option.some.inj h
    obtain ⟨hWrites, hShown, hCell⟩ := hFollows.taken t op b dst slot hAt
    have hOpen : (s.setThread t none).Open op values :=
      hFollows.open hSound hAt rfl rfl rfl (fun _ _ => kept_rfl)
    have hStopped := hSound.stops hAt (by simp [held, heldBy, hAt]) (by simp)
    refine ⟨_, hOpen.complete hStopped (running_setThread s t none)
      ((hSound.apart_of_running hAt).of_others fun u hu => Function.update_of_ne hu _ _) rfl
      (by rw [hShown]; rfl) (fun _ _ => kept_refs hBlock _) (fun x hx => ?_) (fun x hx => ?_)⟩
    · exact Function.update_of_ne (Op.ne_of_not_mem_writes hTarget hx) _ _
    · obtain rfl : x = dst := by simpa [hWrites] using hx
      have hNow := hCell.keep fun _ _ => kept_refs hBlock (block.refs + 1)
      simpa [ret, setThread, setVar, setBlock] using hNow
  next op b hAt =>
    obtain ⟨⟨block, hBlock⟩, -⟩ := hSound.live (show s.held (.inr t) = some b by
      simp [held, heldBy, hAt])
    simp only [hBlock] at h
    split at h
    next =>
      obtain rfl := Option.some.inj h
      exact ⟨values, hFollows.last hAt hBlock _⟩
    next hMore =>
      have hOpen : ((s.setBlock b (some { block with refs := block.refs - 1 })).setThread t
          none).Open op values :=
        hFollows.open hSound hAt rfl rfl rfl (fun _ _ => kept_refs hBlock _)
      exact hOpen.proceed (hFollows.ready t op _ hAt).2
        (hSound.release none hAt hBlock (if_neg hMore).symm) (running_setThread _ t none)
        ((hSound.apart_of_running hAt).of_others fun u hu => Function.update_of_ne hu _ _) h
  next op b hAt =>
    obtain ⟨hSome, hZero, -⟩ := hSound.freeing t b ⟨op, hAt⟩
    split at h
    next hNone => simp [hNone] at hSome
    next =>
      have hOpen : ((s.setBlock b none).setThread t none).Open op values :=
        hFollows.open hSound hAt rfl rfl rfl (kept_of_uncounted hZero)
      exact hOpen.proceed (hFollows.ready t op _ hAt).2 (hSound.free hAt)
        (running_setThread _ t none)
        ((hSound.apart_of_running hAt).of_others fun u hu => Function.update_of_ne hu _ _) h
  next op x hAt =>
    have hVisit := hFollows.seeing t op x hAt
    subst hVisit
    have hApart := hSound.apart_of_running hAt
    have hOpen : (s.setThread t none).Open (.visit x) values :=
      hFollows.open hSound hAt rfl rfl rfl (fun _ _ => kept_rfl)
    have hStopped := hSound.stops hAt (by simp [held, heldBy, hAt]) (by simp)
    have hAlone : (s.setThread t none).Apart t (.visit x) :=
      hApart.of_others fun u hu => Function.update_of_ne hu _ _
    have hCell : Cell s.heap (s.vars x) (values x) :=
      hOpen.source (x := x) (running_setThread s t none) hAlone (.inr (by simp [Op.reads]))
        (by simp [Op.target])
    have hReturns : ∀ seen, Op.shown (.visit x) values = seen →
        ∃ values', (s.ret t (.visit x) seen).Follows values' := fun seen hSeen =>
      ⟨_, hOpen.complete hStopped (running_setThread s t none) hAlone rfl (by rw [hSeen]; rfl)
        (fun _ _ => kept_rfl) (fun _ _ => rfl) (by simp [Op.writes])⟩
    split at h
    next => cases h
    next slot hSlot =>
      obtain ⟨c, hValue, hOffset, hLength, hBuffer⟩ :
          ∃ c, values x = some c ∧ slot.Shows s.heap c := by
        rw [hSlot] at hCell
        cases hValue : values x with
        | none => simp [hValue, Cell] at hCell
        | some c => exact ⟨c, rfl, by simpa [hValue, Cell] using hCell⟩
      split at h
      next hBuf =>
        obtain rfl := Option.some.inj h
        rw [hBuf] at hBuffer
        exact hReturns [] (by simp [Op.shown, hValue, Chunk.toList, hBuffer])
      next b hBuf =>
        rw [hBuf] at hBuffer
        obtain ⟨block, hBlock, hElements⟩ := hBuffer
        simp only [hBlock] at h
        obtain rfl := Option.some.inj h
        refine hReturns _ ?_
        simp [Op.shown, hValue, Chunk.toList, hElements, hOffset, hLength]

/-- Every state of a run is sound and has its values. -/
def Valued (s : Memory α Var Thread) : Prop := s.Sound ∧ ∃ values, s.Follows values

theorem Valued.step {label : Label α Var Thread} (hValued : s.Valued) (hAllowed : s.Allowed label)
    (h : s.step label = some s') : s'.Valued := by
  obtain ⟨hSound, values, hFollows⟩ := hValued
  refine ⟨hSound.step hAllowed h, ?_⟩
  cases label with
  | start t op fresh => exact hFollows.start hSound hAllowed h
  | advance t => exact hFollows.advance hSound h

theorem valued_of_run (run : Transition.RunsWhere Allowed step initial s) : s.Valued :=
  run.preserves (fun _ _ _ hValued hAllowed h => hValued.step hAllowed h)
    ⟨sound_initial, _, follows_initial⟩

/-- A call whose target has let go can go on. -/
theorem Open.proceed_isSome (hOpen : s.Open op values) (hProper : op.Proper)
    (hIdle : s.running t = none) (hApart : s.Apart t op) : (s.proceed t op).isSome := by
  have hSource : ∀ x, x ∈ op.uses → op.target ≠ some x → (s.vars x).isSome := by
    intro x hUses hNot
    rw [(hOpen.source hIdle hApart (Op.mem_footprint_of_uses hUses) hNot).isSome_eq]
    exact hOpen.mine.2 x hUses
  have hNew : ∀ dst src, dst ∈ op.constructs → src ∈ op.uses → dst ≠ src :=
    fun dst src hDst hSrc => hOpen.mine.ne hDst hSrc
  cases op with
  | «from» dst data => exact absurd hProper id
  | singleton dst value => exact absurd hProper id
  | default | build | destroy | visit => rfl
  | copy dst src | move dst src | slice dst src =>
      have hNe := hNew dst src (by simp [Op.constructs]) (by simp [Op.uses])
      have hSome := hSource src (by simp [Op.uses]) (by simpa [Op.target] using hNe)
      simpa [Memory.proceed] using hSome
  | assign dst src | moveAssign dst src =>
      have hNe : dst ≠ src := hProper
      have hSome := hSource src (by simp [Op.uses]) (by simpa [Op.target] using hNe)
      simpa [Memory.proceed] using hSome

/-- A call that has begun can always make its next step. -/
theorem Follows.advance_isSome {stage : Stage Var} (hFollows : s.Follows values) (hSound : s.Sound)
    (hAt : s.running t = some (op, stage)) : (s.advance t).isSome := by
  have hProper := (hFollows.ready t op stage hAt).2
  have hApart := hSound.apart_of_running hAt
  cases stage with
  | acquire b dst slot =>
      simp only [Memory.advance, hAt]
      split <;> rfl
  | release b =>
      simp only [Memory.advance, hAt]
      split
      next => rfl
      next block hBlock =>
        split
        next => rfl
        next =>
          have hOpen : ((s.setBlock b (some { block with refs := block.refs - 1 })).setThread t
              none).Open op values :=
            hFollows.open hSound hAt rfl rfl rfl (fun _ _ => kept_refs hBlock _)
          exact hOpen.proceed_isSome hProper (running_setThread _ t none)
            (hApart.of_others fun u hu => Function.update_of_ne hu _ _)
  | free b =>
      obtain ⟨-, hZero, -⟩ := hSound.freeing t b ⟨op, hAt⟩
      simp only [Memory.advance, hAt]
      split
      next => rfl
      next =>
        have hOpen : ((s.setBlock b none).setThread t none).Open op values :=
          hFollows.open hSound hAt rfl rfl rfl (kept_of_uncounted hZero)
        exact hOpen.proceed_isSome hProper (running_setThread _ t none)
          (hApart.of_others fun u hu => Function.update_of_ne hu _ _)
  | visit x =>
      have hVisit := hFollows.seeing t op x hAt
      subst hVisit
      have hOpen : (s.setThread t none).Open (.visit x) values :=
        hFollows.open hSound hAt rfl rfl rfl (fun _ _ => kept_rfl)
      have hCell : Cell s.heap (s.vars x) (values x) :=
        hOpen.source (running_setThread s t none)
          (hApart.of_others fun u hu => Function.update_of_ne hu _ _) (.inr (by simp [Op.reads]))
          (by simp [Op.target])
      have hSome : (s.vars x).isSome := by
        rw [hCell.isSome_eq]
        exact hOpen.mine.2 x (by simp [Op.uses])
      simp only [Memory.advance, hAt]
      split
      next hNone => simp [hNone] at hSome
      next =>
        split
        next => rfl
        next => split <;> rfl

/-- How many steps are left of a call, at most. -/
def stepsLeft : Option (Op α Var × Stage Var) → Nat
  | none => 0
  | some (_, .acquire ..) | some (_, .visit _) => 1
  | some (_, .free _) => 2
  | some (_, .release _) => 3

/-- A step of one thread leaves so many steps of its call, and the other calls as they are. -/
def Leaves (s s' : Memory α Var Thread) (t : Thread) (n : Nat) : Prop :=
  ∃ now, s'.running = Function.update s.running t now ∧ stepsLeft now ≤ n

omit [DecidableEq Var] in
theorem Leaves.mono {n m : Nat} (h : Leaves s s' t n) (hLe : n ≤ m) : Leaves s s' t m := by
  obtain ⟨now, hRunning, hNow⟩ := h
  exact ⟨now, hRunning, hNow.trans hLe⟩

theorem leaves_take (s : Memory α Var Thread) (t : Thread) (op : Op α Var) (dst : Var)
    (slot : Slot) : Leaves s (s.take t op dst slot) t 1 := by
  unfold Memory.take
  split
  next => exact ⟨none, rfl, Nat.zero_le _⟩
  next => exact ⟨_, rfl, le_rfl⟩

theorem leaves_proceed (h : s.proceed t op = some s') : Leaves s s' t 1 := by
  cases op with
  | copy dst src | assign dst src | slice dst src =>
      obtain ⟨slot, -, rfl⟩ := Option.map_eq_some_iff.mp h
      exact leaves_take s t _ dst _
  | move dst src | moveAssign dst src =>
      obtain ⟨slot, -, rfl⟩ := Option.map_eq_some_iff.mp h
      exact ⟨none, rfl, Nat.zero_le _⟩
  | default | build | destroy =>
      obtain rfl := Option.some.inj h
      exact ⟨none, rfl, Nat.zero_le _⟩
  | visit x =>
      obtain rfl := Option.some.inj h
      exact ⟨_, rfl, le_rfl⟩
  | «from» dst data => cases h
  | singleton dst value => cases h

theorem leaves_drop (h : s.drop t op x = some s') : Leaves s s' t 3 := by
  unfold Memory.drop at h
  split at h
  next => cases h
  next =>
    split at h
    next => exact (leaves_proceed h).mono (by decide)
    next =>
      obtain rfl := Option.some.inj h
      exact ⟨_, rfl, le_rfl⟩

theorem leaves_alloc {fresh : Address} {elements : List α}
    (h : s.alloc t op dst fresh elements = some s') : Leaves s s' t 3 := by
  unfold Memory.alloc at h
  split at h
  next => cases h
  next =>
    obtain rfl := Option.some.inj h
    exact ⟨none, rfl, Nat.zero_le _⟩

theorem leaves_start {fresh : Address} (h : s.start t op fresh = some s') :
    Leaves s s' t 3 := by
  have hReturns : ∀ {s₁ : Memory α Var Thread}, s₁.running = s.running →
      ∀ seen, Leaves s (s₁.ret t op seen) t 3 := fun hRunning _ =>
    ⟨none, by rw [← hRunning]; rfl, Nat.zero_le _⟩
  have hProceeds : s.proceed t op = some s' → Leaves s s' t 3 := fun hProceed =>
    (leaves_proceed hProceed).mono (by decide)
  have hAssigns : ∀ {dst src}, (if dst = src then some (s.ret t op []) else s.drop t op dst) =
      some s' → Leaves s s' t 3 := by
    intro dst src hAssign
    split at hAssign
    next =>
      obtain rfl := Option.some.inj hAssign
      exact hReturns rfl []
    next => exact leaves_drop hAssign
  unfold Memory.start at h
  split at h
  next => cases h
  next =>
    split at h
    next =>
      split at h
      next =>
        obtain rfl := Option.some.inj h
        exact hReturns rfl []
      next => exact leaves_alloc h
    next => exact leaves_alloc h
    next =>
      split at h
      next => exact hProceeds h
      next =>
        split at h
        next =>
          split at h
          next => cases h
          next =>
            obtain rfl := Option.some.inj h
            exact ⟨_, rfl, le_rfl⟩
        next => exact leaves_alloc h
    next => exact hAssigns h
    next => exact hAssigns h
    next => exact leaves_drop h
    next => exact hProceeds h

/-- A step that touches no freed memory brings its call nearer to the end. -/
theorem leaves_advance (h : s.advance t = some s') (hUnharmed : s'.fault = false) :
    ∃ n, Leaves s s' t n ∧ n < stepsLeft (s.running t) := by
  have hProceeds : ∀ {s₁ : Memory α Var Thread} {op},
      (s₁.setThread t none).proceed t op = some s' → s₁.running = s.running →
        Leaves s s' t 1 := by
    intro s₁ op hProceed hRunning
    obtain ⟨now, hNow, hLeft⟩ := leaves_proceed hProceed
    refine ⟨now, hNow.trans ?_, hLeft⟩
    rw [setThread, Function.update_idem, hRunning]
  unfold Memory.advance at h
  split at h
  next => cases h
  next op b dst slot hAt =>
    rw [hAt]
    split at h
    next =>
      obtain rfl := Option.some.inj h
      cases hUnharmed
    next =>
      obtain rfl := Option.some.inj h
      exact ⟨0, ⟨none, rfl, le_rfl⟩, Nat.zero_lt_one⟩
  next op b hAt =>
    rw [hAt]
    split at h
    next =>
      obtain rfl := Option.some.inj h
      cases hUnharmed
    next =>
      dsimp only at h
      split at h
      next =>
        obtain rfl := Option.some.inj h
        exact ⟨2, ⟨_, rfl, le_rfl⟩, Nat.lt_succ_self 2⟩
      next => exact ⟨1, hProceeds h rfl, (Nat.lt_succ_self 1).trans (Nat.lt_succ_self 2)⟩
  next op b hAt =>
    rw [hAt]
    split at h
    next =>
      obtain rfl := Option.some.inj h
      cases hUnharmed
    next => exact ⟨1, hProceeds h rfl, Nat.lt_succ_self 1⟩
  next op x hAt =>
    rw [hAt]
    split at h
    next => cases h
    next =>
      split at h
      next =>
        obtain rfl := Option.some.inj h
        exact ⟨0, ⟨none, rfl, le_rfl⟩, Nat.zero_lt_one⟩
      next =>
        split at h
        next =>
          obtain rfl := Option.some.inj h
          cases hUnharmed
        next =>
          obtain rfl := Option.some.inj h
          exact ⟨0, ⟨none, rfl, le_rfl⟩, Nat.zero_lt_one⟩

omit [DecidableEq Var] in
theorem Leaves.elsewhere {n : Nat} (h : Leaves s s' t n) (hOther : u ≠ t) :
    s'.running u = s.running u := by
  obtain ⟨now, hRunning, -⟩ := h
  rw [hRunning, Function.update_of_ne hOther]

omit [DecidableEq Var] in
theorem Leaves.own {n : Nat} (h : Leaves s s' t n) : stepsLeft (s'.running t) ≤ n := by
  obtain ⟨now, hRunning, hNow⟩ := h
  rwa [hRunning, Function.update_self]

omit [DecidableEq Var] in
theorem stepsLeft_le (call : Option (Op α Var × Stage Var)) : stepsLeft call ≤ 3 := by
  unfold stepsLeft
  split <;> decide

/-- What is left of a call and the steps that its thread has made since are no more than what
was left. -/
theorem Valued.countedStep {p p' : Memory α Var Thread × Nat} {n : Nat}
    {label : Label α Var Thread} (hValued : p.1.Valued)
    (hLeft : p.2 + stepsLeft (p.1.running t) ≤ n) (hAllowed : p.1.Allowed label)
    (h : countedStep t p label = some p') :
    p'.1.Valued ∧ p'.2 + stepsLeft (p'.1.running t) ≤ n := by
  cases label with
  | start u op fresh =>
      by_cases hOwn : u = t
      · simp [Memory.countedStep, hOwn] at h
      · rw [Memory.countedStep, if_neg hOwn] at h
        obtain ⟨s', hStart, rfl⟩ := Option.map_eq_some_iff.mp h
        refine ⟨hValued.step hAllowed hStart, ?_⟩
        rwa [(leaves_start hStart).elsewhere (Ne.symm hOwn)]
  | advance u =>
      obtain ⟨s', hAdvance, rfl⟩ := Option.map_eq_some_iff.mp h
      have hNext : s'.Valued := hValued.step hAllowed hAdvance
      obtain ⟨left, hLeaves, hLess⟩ := leaves_advance hAdvance hNext.1.unharmed
      refine ⟨hNext, ?_⟩
      by_cases hOwn : u = t
      · subst hOwn
        have hNow := hLeaves.own
        rw [if_pos rfl]
        dsimp only
        omega
      · rw [if_neg hOwn]
        dsimp only
        rwa [hLeaves.elsewhere (Ne.symm hOwn)]

/-- Threads may call the member functions side by side, as long as there is no data race and
no count overflows. Nobody touches freed memory. A call that has begun can always make its next
step, and after three of them at most it has returned. The calls have the results that they
would have on plain values, one after another as they returned, and an object that no call is
changing shows its value. -/
theorem calls_agree_with_values (run : Transition.RunsWhere Allowed step initial s) :
    s.fault = false ∧ (∀ t, (s.running t).isSome → (s.step (.advance t)).isSome) ∧
      (∀ t s' n, Transition.RunsWhere (fun p => p.1.Allowed) (countedStep t) (s, 0) (s', n) →
        n ≤ 3) ∧
      ∃ values, Sequential s.history values ∧
        ∀ x, s.Settled x → s.shown x = (values x).map Chunk.toList := by
  obtain ⟨hSound, values, hFollows⟩ := valued_of_run run
  refine ⟨hSound.unharmed, fun t hRunning => ?_, fun t s' n path => ?_, values, hFollows.history,
    fun x hSettled => shown_of_cell (hFollows.cells x hSettled)⟩
  · obtain ⟨⟨op, stage⟩, hAt⟩ := Option.isSome_iff_exists.mp hRunning
    exact hFollows.advance_isSome hSound hAt
  · have hStart : s.Valued ∧ 0 + stepsLeft (s.running t) ≤ 3 :=
      ⟨⟨hSound, values, hFollows⟩, (Nat.zero_add _).trans_le (stepsLeft_le _)⟩
    have hStep : ∀ (p : Memory α Var Thread × Nat) label p',
        p.1.Valued ∧ p.2 + stepsLeft (p.1.running t) ≤ 3 → p.1.Allowed label →
          countedStep t p label = some p' →
            p'.1.Valued ∧ p'.2 + stepsLeft (p'.1.running t) ≤ 3 :=
      fun p label p' hInv hAllowed h => hInv.1.countedStep hInv.2 hAllowed h
    exact (Nat.le_add_right _ _).trans (path.preserves hStep hStart).2

/-- The slice of a shared buffer shows its part. -/
theorem calls_agree_with_values_shared : ∃ s : Memory Nat Nat Bool,
    s.vars 2 = some ⟨some 5, 1, 1⟩ ∧ s.fault = false ∧
    (∀ t, (s.running t).isSome → (s.step (.advance t)).isSome) ∧
    (∀ t s' n, Transition.RunsWhere (fun p => p.1.Allowed) (countedStep t) (s, 0) (s', n) →
      n ≤ 3) ∧
    ∃ values, Sequential s.history values ∧
      ∀ x, s.Settled x → s.shown x = (values x).map Chunk.toList := by
  obtain ⟨s, run, -, -, hSlice⟩ := shared_run
  exact ⟨s, hSlice, calls_agree_with_values run⟩

end Memory
end CelerMem.Sharing
