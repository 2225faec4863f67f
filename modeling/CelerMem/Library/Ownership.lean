import CelerMem.Library.Custody
import CelerMem.Library.Transition
import Mathlib

/-! Objects with one owner each. A value owns some objects, releases them when it ends, and
gives them away when it is moved; copies of it cannot be made. -/
namespace Ownership
universe u

variable {Var Value Object : Type u}

/-! ## The heap -/

structure Heap (Object : Type u) where
  live : List Object
  fault : Bool := false

namespace Heap
variable [DecidableEq Object] {heap : Heap Object} {objects : List Object}

/-- To free what is not live is a fault. -/
def free (heap : Heap Object) (object : Object) : Heap Object :=
  ⟨heap.live.erase object, heap.fault || !decide (object ∈ heap.live)⟩

def freeAll (heap : Heap Object) (objects : List Object) : Heap Object :=
  objects.foldl free heap

theorem freeAll_append (heap : Heap Object) (first second : List Object) :
    heap.freeAll (first ++ second) = (heap.freeAll first).freeAll second :=
  List.foldl_append

/-- Freeing live objects, each once. -/
theorem freeAll_of_live (hLive : heap.live.Nodup) (hOnce : objects.Nodup)
    (hAll : ∀ o ∈ objects, o ∈ heap.live) :
    (heap.freeAll objects).fault = heap.fault ∧ (heap.freeAll objects).live.Nodup ∧
      ∀ o, o ∈ (heap.freeAll objects).live ↔ o ∈ heap.live ∧ o ∉ objects := by
  induction objects generalizing heap with
  | nil => exact ⟨rfl, hLive, fun o => by simp [freeAll]⟩
  | cons object objects ih =>
      obtain ⟨hNew, hRest⟩ := List.nodup_cons.mp hOnce
      have hLater : ∀ o ∈ objects, o ∈ (heap.free object).live := by
        intro o hMem
        have hOther : o ≠ object := fun hSame => hNew (hSame ▸ hMem)
        exact (List.mem_erase_of_ne hOther).mpr (hAll o (List.mem_cons_of_mem _ hMem))
      obtain ⟨hFault, hNodup, hIff⟩ := ih (hLive.erase object) hRest hLater
      refine ⟨?_, hNodup, fun o => ?_⟩
      · have hThis : (heap.free object).fault = heap.fault := by
          simp [free, hAll object List.mem_cons_self]
        exact hFault.trans hThis
      · have hErase : o ∈ (heap.free object).live ↔ o ≠ object ∧ o ∈ heap.live :=
          hLive.mem_erase_iff
        rw [freeAll, List.foldl_cons, ← freeAll, hIff, hErase, List.mem_cons, not_or]
        exact ⟨fun h => ⟨h.1.2, h.1.1, h.2⟩, fun h => ⟨⟨h.2.1, h.1⟩, h.2.2⟩⟩

end Heap

/-! ## Who owns what -/

variable {Place : Type u}

/-- What is live is owned by exactly one place, and nothing has been freed twice. -/
structure Sound (held : Place → List Object) (heap : Heap Object) : Prop where
  noFault : heap.fault = false
  nodup : heap.live.Nodup
  exclusive : Custody.Exclusive held
  live_iff : ∀ o, o ∈ heap.live ↔ ∃ p, o ∈ held p

namespace Sound
variable {held held' : Place → List Object} {heap : Heap Object} {p q : Place}
  {objects : List Object}

/-- The same objects in another order. -/
theorem perm (h : Sound held heap) (hPerm : ∀ p, (held' p).Perm (held p)) : Sound held' heap where
  noFault := h.noFault
  nodup := h.nodup
  exclusive := by
    refine ⟨fun p => (hPerm p).nodup_iff.mpr (h.exclusive.nodup p), fun p q o hp hq => ?_⟩
    exact h.exclusive.unique p q o ((hPerm p).mem_iff.mp hp) ((hPerm q).mem_iff.mp hq)
  live_iff := fun o => (h.live_iff o).trans (exists_congr fun p => (hPerm p).mem_iff.symm)

theorem nothing (hNone : ∀ p, held p = []) : Sound held (⟨[], false⟩ : Heap Object) where
  noFault := rfl
  nodup := List.nodup_nil
  exclusive := by
    refine ⟨fun p => (hNone p).symm ▸ List.nodup_nil, fun p q o hp _ => ?_⟩
    rw [hNone p] at hp
    cases hp
  live_iff := by
    intro o
    refine ⟨fun h => absurd h List.not_mem_nil, fun ⟨p, hp⟩ => ?_⟩
    rw [hNone p] at hp
    cases hp

/-- When nobody owns anything, nothing is left. -/
theorem live_eq_nil (h : Sound held heap) (hNone : ∀ p, held p = []) : heap.live = [] := by
  rw [List.eq_nil_iff_forall_not_mem]
  intro o ho
  obtain ⟨p, hp⟩ := (h.live_iff o).mp ho
  rw [hNone p] at hp
  cases hp

variable [DecidableEq Place]

/-- New objects come to a place. -/
theorem gain (h : Sound held heap) (p : Place) (hOnce : objects.Nodup)
    (hNew : ∀ o ∈ objects, o ∉ heap.live) :
    Sound (Function.update held p (held p ++ objects)) { heap with live := objects ++ heap.live } := by
  have hMem : ∀ {q o}, o ∈ Function.update held p (held p ++ objects) q →
      o ∈ held q ∨ q = p ∧ o ∈ objects := by
    intro q o ho
    by_cases hq : q = p
    · subst hq
      rw [Function.update_self, List.mem_append] at ho
      exact ho.imp id fun hNew => ⟨rfl, hNew⟩
    · rw [Function.update_of_ne hq] at ho
      exact .inl ho
  have hOld : ∀ {q o}, o ∈ held q → o ∈ Function.update held p (held p ++ objects) q := by
    intro q o ho
    by_cases hq : q = p
    · subst hq
      rw [Function.update_self]
      exact List.mem_append_left _ ho
    · rwa [Function.update_of_ne hq]
  refine ⟨h.noFault, ?_, ⟨?_, ?_⟩, ?_⟩
  · exact List.nodup_append.mpr ⟨hOnce, h.nodup, fun o ho o' ho' hSame => hNew o ho (hSame ▸ ho')⟩
  · intro q
    by_cases hq : q = p
    · subst hq
      rw [Function.update_self]
      refine List.nodup_append.mpr ⟨h.exclusive.nodup q, hOnce, fun o ho o' ho' hSame => ?_⟩
      exact hNew o' ho' (hSame ▸ (h.live_iff o).mpr ⟨q, ho⟩)
    · rw [Function.update_of_ne hq]
      exact h.exclusive.nodup q
  · intro q q' o hq hq'
    rcases hMem hq with hHeld | ⟨rfl, hIn⟩
    · rcases hMem hq' with hHeld' | ⟨-, hIn⟩
      · exact h.exclusive.unique q q' o hHeld hHeld'
      · exact absurd ((h.live_iff o).mpr ⟨q, hHeld⟩) (hNew o hIn)
    · rcases hMem hq' with hHeld' | ⟨rfl, -⟩
      · exact absurd ((h.live_iff o).mpr ⟨q', hHeld'⟩) (hNew o hIn)
      · rfl
  · intro o
    rw [List.mem_append, h.live_iff]
    constructor
    · rintro (hIn | ⟨q, hq⟩)
      · exact ⟨p, by rw [Function.update_self]; exact List.mem_append_right _ hIn⟩
      · exact ⟨q, hOld hq⟩
    · rintro ⟨q, hq⟩
      exact (hMem hq).elim (fun hHeld => .inr ⟨q, hHeld⟩) (fun hIn => .inl hIn.2)

/-- A place gives all it has to another one. -/
theorem pass (h : Sound held heap) (hOther : q ≠ p) :
    Sound (Function.update (Function.update held q (held q ++ held p)) p []) heap := by
  have hMem : ∀ {r o}, o ∈ Function.update (Function.update held q (held q ++ held p)) p [] r →
      r ≠ p ∧ (o ∈ held r ∨ r = q ∧ o ∈ held p) := by
    intro r o ho
    by_cases hp : r = p
    · subst hp
      rw [Function.update_self] at ho
      cases ho
    · rw [Function.update_of_ne hp] at ho
      refine ⟨hp, ?_⟩
      by_cases hq : r = q
      · subst hq
        rw [Function.update_self, List.mem_append] at ho
        exact ho.imp id fun hIn => ⟨rfl, hIn⟩
      · rw [Function.update_of_ne hq] at ho
        exact .inl ho
  refine ⟨h.noFault, h.nodup, ⟨?_, ?_⟩, ?_⟩
  · intro r
    by_cases hp : r = p
    · subst hp
      rw [Function.update_self]
      exact List.nodup_nil
    · rw [Function.update_of_ne hp]
      by_cases hq : r = q
      · subst hq
        rw [Function.update_self]
        refine List.nodup_append.mpr
          ⟨h.exclusive.nodup r, h.exclusive.nodup p, fun o ho o' ho' hSame => ?_⟩
        exact hOther (h.exclusive.unique r p o ho (hSame ▸ ho'))
      · rw [Function.update_of_ne hq]
        exact h.exclusive.nodup r
  · intro r r' o hr hr'
    obtain ⟨hp, hHeld | ⟨hq, hGiven⟩⟩ := hMem hr
    · obtain ⟨-, hHeld' | ⟨-, hGiven'⟩⟩ := hMem hr'
      · exact h.exclusive.unique r r' o hHeld hHeld'
      · exact absurd (h.exclusive.unique r p o hHeld hGiven') hp
    · obtain ⟨hp', hHeld' | ⟨hq', -⟩⟩ := hMem hr'
      · exact absurd (h.exclusive.unique r' p o hHeld' hGiven) hp'
      · exact hq.trans hq'.symm
  · intro o
    rw [h.live_iff]
    constructor
    · rintro ⟨r, hr⟩
      by_cases hp : r = p
      · subst hp
        exact ⟨q, by simp [Function.update_of_ne hOther, hr]⟩
      · refine ⟨r, ?_⟩
        rw [Function.update_of_ne hp]
        by_cases hq : r = q
        · subst hq
          simp [hr]
        · rwa [Function.update_of_ne hq]
    · rintro ⟨r, hr⟩
      exact (hMem hr).2.elim (fun hHeld => ⟨r, hHeld⟩) (fun hIn => ⟨p, hIn.2⟩)

/-- A place frees all it has, in any order. -/
theorem drop [DecidableEq Object] (h : Sound held heap) (hPerm : objects.Perm (held p)) :
    Sound (Function.update held p []) (heap.freeAll objects) := by
  have hOnce : objects.Nodup := hPerm.nodup_iff.mpr (h.exclusive.nodup p)
  have hAll : ∀ o ∈ objects, o ∈ heap.live :=
    fun o ho => (h.live_iff o).mpr ⟨p, hPerm.mem_iff.mp ho⟩
  obtain ⟨hFault, hNodup, hIff⟩ := Heap.freeAll_of_live h.nodup hOnce hAll
  have hMem : ∀ {r o}, o ∈ Function.update held p [] r ↔ o ∈ held r ∧ r ≠ p := by
    intro r o
    by_cases hr : r = p
    · subst hr
      simp
    · simp [hr]
  refine ⟨hFault.trans h.noFault, hNodup, ⟨?_, ?_⟩, ?_⟩
  · intro r
    by_cases hr : r = p
    · subst hr
      rw [Function.update_self]
      exact List.nodup_nil
    · rw [Function.update_of_ne hr]
      exact h.exclusive.nodup r
  · intro r r' o hr hr'
    exact h.exclusive.unique r r' o (hMem.mp hr).1 (hMem.mp hr').1
  · intro o
    rw [hIff, h.live_iff]
    constructor
    · rintro ⟨⟨r, hr⟩, hKept⟩
      refine ⟨r, hMem.mpr ⟨hr, fun hSame => hKept (hPerm.mem_iff.mpr (hSame ▸ hr))⟩⟩
    · rintro ⟨r, hr⟩
      obtain ⟨hHeld, hOther⟩ := hMem.mp hr
      exact ⟨⟨r, hHeld⟩, fun hIn =>
        hOther (h.exclusive.unique r p o hHeld (hPerm.mem_iff.mp hIn))⟩

end Sound
/-! ## Values that can only be moved -/

/-- A class without copies. What a move leaves behind owns nothing, and the destructor frees what
the value owns. -/
structure MoveOnly (Value Object : Type u) [DecidableEq Object] where
  owns : Value → List Object
  movedFrom : Value → Value
  release : Value → Heap Object → Heap Object
  owns_movedFrom : ∀ value, owns (movedFrom value) = []
  release_eq : ∀ value heap, ∃ objects, objects.Perm (owns value) ∧
    release value heap = heap.freeAll objects

/-- The variables that are in scope. -/
structure Frame (Var Value Object : Type u) where
  vars : Var → Option Value
  heap : Heap Object

/-- A variable is declared with a value that owns new objects only, and a value may come to own
some more. -/
inductive Statement (Var Value : Type u) where
  | declare (x : Var) (value : Value)
  | extend (x : Var) (value : Value)
  | moveConstruct (x y : Var)
  | moveAssign (x y : Var)
  | clear (x : Var)
  | leave (x : Var)

/-- A variable that holds nothing takes over from another one. -/
theorem Sound.take [DecidableEq Var] {held : Var → List Object} {heap : Heap Object} {x y : Var}
    (h : Sound held heap) (hOther : x ≠ y) (hNone : held x = []) :
    Sound (Function.update (Function.update held x (held y)) y []) heap := by
  have hPass := h.pass hOther
  rwa [hNone, List.nil_append] at hPass

namespace MoveOnly
variable [DecidableEq Object] (c : MoveOnly Value Object)

def heldBy (vars : Var → Option Value) (x : Var) : List Object := (vars x).elim [] c.owns

theorem heldBy_of_some {vars : Var → Option Value} {x : Var} {value : Value}
    (h : vars x = some value) : c.heldBy vars x = c.owns value := by
  rw [heldBy, h]
  rfl

theorem heldBy_of_none {vars : Var → Option Value} {x : Var} (h : vars x = none) :
    c.heldBy vars x = [] := by
  rw [heldBy, h]
  rfl

variable [DecidableEq Var]

/-- What the objects of a value that are not in another one are. -/
def added (old value : Value) : List Object := (c.owns value).drop (c.owns old).length

/-- A variable is declared once, and used while it is in scope. -/
def step (s : Frame Var Value Object) : Statement Var Value → Option (Frame Var Value Object)
  | .declare x value =>
      if (s.vars x).isSome then none
      else some ⟨Function.update s.vars x (some value),
        { s.heap with live := c.owns value ++ s.heap.live }⟩
  | .extend x value => do
      let old ← s.vars x
      some ⟨Function.update s.vars x (some value),
        { s.heap with live := c.added old value ++ s.heap.live }⟩
  | .moveConstruct x y => do
      let value ← s.vars y
      if (s.vars x).isSome then none
      else some ⟨Function.update (Function.update s.vars x (some value)) y
        (some (c.movedFrom value)), s.heap⟩
  | .moveAssign x y => do
      let old ← s.vars x
      let value ← s.vars y
      if x = y then some s
      else some ⟨Function.update (Function.update s.vars x (some value)) y
        (some (c.movedFrom value)), c.release old s.heap⟩
  | .clear x => do
      let value ← s.vars x
      some ⟨Function.update s.vars x (some (c.movedFrom value)), c.release value s.heap⟩
  | .leave x => do
      let value ← s.vars x
      some ⟨Function.update s.vars x none, c.release value s.heap⟩

/-- `new` does not return the address of a live object. -/
def Allowed (s : Frame Var Value Object) : Statement Var Value → Prop
  | .declare _ value => (c.owns value).Nodup ∧ ∀ o ∈ c.owns value, o ∉ s.heap.live
  | .extend x value => ∀ old ∈ s.vars x, c.owns value = c.owns old ++ c.added old value ∧
      (c.added old value).Nodup ∧ ∀ o ∈ c.added old value, o ∉ s.heap.live
  | _ => True

/-- The program is sound so far. -/
def Owned (s : Frame Var Value Object) : Prop := Sound (c.heldBy s.vars) s.heap

variable {c} {s s' : Frame Var Value Object}

theorem heldBy_update (vars : Var → Option Value) (x : Var) (value : Option Value) :
    c.heldBy (Function.update vars x value) =
      Function.update (c.heldBy vars) x (value.elim [] c.owns) := by
  funext z
  by_cases hz : z = x
  · subst hz
    simp [heldBy]
  · simp [heldBy, hz]

/-- What a variable owned is freed, and it holds nothing then. -/
theorem Owned.release (h : c.Owned s) {x : Var} {value : Value} (hAt : s.vars x = some value) :
    Sound (Function.update (c.heldBy s.vars) x []) (c.release value s.heap) := by
  obtain ⟨objects, hPerm, hRelease⟩ := c.release_eq value s.heap
  rw [hRelease]
  exact h.drop (hPerm.trans (by rw [c.heldBy_of_some hAt]))

theorem Owned.step (h : c.Owned s) {statement : Statement Var Value}
    (hAllowed : c.Allowed s statement) (hStep : c.step s statement = some s') : c.Owned s' := by
  cases statement with
  | declare x value =>
      obtain ⟨hOnce, hNew⟩ := hAllowed
      rw [MoveOnly.step] at hStep
      split at hStep
      next => cases hStep
      next hScope =>
        obtain rfl := Option.some.inj hStep
        have hNone : c.heldBy s.vars x = [] :=
          c.heldBy_of_none (Option.not_isSome_iff_eq_none.mp hScope)
        have hGain := Sound.gain h x hOnce hNew
        rw [hNone, List.nil_append] at hGain
        rw [Owned, heldBy_update]
        exact hGain
  | extend x value =>
      obtain ⟨old, hAt, hNext⟩ := Option.bind_eq_some_iff.mp hStep
      obtain rfl := Option.some.inj hNext
      obtain ⟨hOwns, hOnce, hNew⟩ := hAllowed old hAt
      have hGain := Sound.gain h x hOnce hNew
      rw [c.heldBy_of_some hAt, ← hOwns] at hGain
      rw [Owned, heldBy_update]
      exact hGain
  | moveConstruct x y =>
      obtain ⟨value, hAt, hNext⟩ := Option.bind_eq_some_iff.mp hStep
      split at hNext
      next => cases hNext
      next hScope =>
        obtain rfl := Option.some.inj hNext
        have hFree : s.vars x = none := Option.not_isSome_iff_eq_none.mp hScope
        have hOther : x ≠ y := by
          rintro rfl
          rw [hAt] at hFree
          cases hFree
        have hTake := Sound.take h hOther (c.heldBy_of_none hFree)
        rw [c.heldBy_of_some hAt] at hTake
        rw [Owned, heldBy_update, heldBy_update]
        exact (c.owns_movedFrom value).symm ▸ hTake
  | moveAssign x y =>
      obtain ⟨old, hOld, hNext⟩ := Option.bind_eq_some_iff.mp hStep
      obtain ⟨value, hAt, hNext⟩ := Option.bind_eq_some_iff.mp hNext
      split at hNext
      next =>
        obtain rfl := Option.some.inj hNext
        exact h
      next hOther =>
        obtain rfl := Option.some.inj hNext
        have hNone : Function.update (c.heldBy s.vars) x [] x = [] := Function.update_self ..
        have hTake := (h.release hOld).take hOther hNone
        rw [Function.update_of_ne (Ne.symm hOther), c.heldBy_of_some hAt,
          Function.update_idem] at hTake
        rw [Owned, heldBy_update, heldBy_update]
        exact (c.owns_movedFrom value).symm ▸ hTake
  | clear x =>
      obtain ⟨value, hAt, hNext⟩ := Option.bind_eq_some_iff.mp hStep
      obtain rfl := Option.some.inj hNext
      rw [Owned, heldBy_update]
      exact (c.owns_movedFrom value).symm ▸ h.release hAt
  | leave x =>
      obtain ⟨value, hAt, hNext⟩ := Option.bind_eq_some_iff.mp hStep
      obtain rfl := Option.some.inj hNext
      rw [Owned, heldBy_update]
      exact h.release hAt

/-- However values are moved about, nothing is freed twice, and what is live has one owner. -/
theorem owned_of_run (hRun : Transition.RunsWhere c.Allowed c.step
    (⟨fun _ => none, ⟨[], false⟩⟩ : Frame Var Value Object) s) : c.Owned s := by
  have hStart : c.Owned (⟨fun _ => none, ⟨[], false⟩⟩ : Frame Var Value Object) :=
    Sound.nothing fun _ => rfl
  exact Transition.RunsWhere.preserves (fun _ _ _ h hAllowed hStep => h.step hAllowed hStep) hRun
    hStart

end MoveOnly
end Ownership
