import CelerMem.Core.Dispatch
import CelerMem.Library.Ownership
import Mathlib

/-! Handles and resource stacks. Both can be moved but not copied, and free what they own when
they end. Addresses are used again after what was at them has been freed. -/
namespace CelerMem

open Ownership

variable {σ VTable : Type}

/-! ## Handles -/

/-- The two pointers of `BackendHandle`, `StreamHandle` and `AsyncStreamHandle`. -/
structure ErasedHandle (VTable : Type) where
  ctx : Option ℕ
  vtable : Option VTable

namespace ErasedHandle

def valid (h : ErasedHandle VTable) : Bool := h.ctx.isSome && h.vtable.isSome

/-- The destructor; no vtable is without the function that it calls. -/
def destroy (h : ErasedHandle VTable) (heap : Heap ℕ) : Heap ℕ :=
  match h.ctx, h.vtable with
  | some ctx, some _ => heap.free ctx
  | _, _ => heap

/-- `std::exchange` takes both pointers away. -/
def movedFrom (_ : ErasedHandle VTable) : ErasedHandle VTable := ⟨none, none⟩

/-- The address of a valid handle. -/
def contexts (h : ErasedHandle VTable) : List ℕ :=
  match h.ctx, h.vtable with
  | some ctx, some _ => [ctx]
  | _, _ => []

theorem destroy_eq (h : ErasedHandle VTable) (heap : Heap ℕ) :
    h.destroy heap = heap.freeAll h.contexts := by
  rcases h with ⟨_ | ctx, _ | vtable⟩ <;> rfl

theorem mem_contexts_iff {h : ErasedHandle VTable} {ctx : ℕ} :
    ctx ∈ h.contexts ↔ h.valid = true ∧ h.ctx = some ctx := by
  rcases h with ⟨_ | c, _ | vtable⟩
  · simp [contexts, valid]
  · simp [contexts, valid]
  · simp [contexts, valid]
  · simp [contexts, valid, eq_comm]

def moveOnly : MoveOnly (ErasedHandle VTable) ℕ where
  owns := contexts
  movedFrom := movedFrom
  release := destroy
  owns_movedFrom := fun _ => rfl
  release_eq := fun h heap => ⟨h.contexts, .refl _, h.destroy_eq heap⟩

/-- In a program with handles, of whatever kind, none is ever destroyed twice: a valid handle
has a live object behind it that no other handle has, and no object is left when the last handle
has gone. -/
theorem handles_own {Var : Type} [DecidableEq Var] {s : Frame Var (ErasedHandle VTable) ℕ}
    (hRun : Transition.RunsWhere moveOnly.Allowed moveOnly.step ⟨fun _ => none, ⟨[], false⟩⟩ s) :
    s.heap.fault = false ∧
    (∀ x h ctx, s.vars x = some h → h.valid = true → h.ctx = some ctx → ctx ∈ s.heap.live ∧
      ∀ y h', s.vars y = some h' → h'.valid = true → h'.ctx = some ctx → y = x) ∧
    ((∀ x h, s.vars x = some h → h.valid = false) → s.heap.live = []) := by
  have hOwned : Sound (moveOnly.heldBy s.vars) s.heap := MoveOnly.owned_of_run hRun
  have hHeld : ∀ {x h ctx}, s.vars x = some h → h.valid = true → h.ctx = some ctx →
      ctx ∈ moveOnly.heldBy s.vars x := by
    intro x h ctx hAt hValid hCtx
    rw [MoveOnly.heldBy_of_some _ hAt]
    exact mem_contexts_iff.mpr ⟨hValid, hCtx⟩
  refine ⟨hOwned.noFault, ?_, ?_⟩
  · intro x h ctx hAt hValid hCtx
    refine ⟨(hOwned.live_iff ctx).mpr ⟨x, hHeld hAt hValid hCtx⟩, ?_⟩
    intro y h' hAt' hValid' hCtx'
    exact hOwned.exclusive.unique y x ctx (hHeld hAt' hValid' hCtx') (hHeld hAt hValid hCtx)
  · intro hInvalid
    apply hOwned.live_eq_nil
    intro x
    cases hAt : s.vars x with
    | none => exact MoveOnly.heldBy_of_none _ hAt
    | some h =>
        rw [MoveOnly.heldBy_of_some _ hAt, List.eq_nil_iff_forall_not_mem]
        intro ctx hMem
        have hValid := (mem_contexts_iff.mp hMem).1
        rw [hInvalid x h hAt] at hValid
        cases hValid

/-- A handle and its clone; the address of the clone is freed and used again. -/
theorem handles_own_clone : ∃ s : Frame ℕ (ErasedHandle Unit) ℕ, s.heap.live = [8, 7] ∧
    s.heap.fault = false ∧
    (∀ x h ctx, s.vars x = some h → h.valid = true → h.ctx = some ctx → ctx ∈ s.heap.live ∧
      ∀ y h', s.vars y = some h' → h'.valid = true → h'.ctx = some ctx → y = x) ∧
    ((∀ x h, s.vars x = some h → h.valid = false) → s.heap.live = []) := by
  have hMade : Transition.RunsWhere moveOnly.Allowed moveOnly.step
      (⟨fun _ => none, ⟨[], false⟩⟩ : Frame ℕ (ErasedHandle Unit) ℕ) _ :=
    .tail .refl (.declare 0 ⟨some 7, some ()⟩) ⟨by decide, by decide⟩ rfl
  have hCloned := hMade.tail (.declare 1 ⟨some 8, some ()⟩) ⟨by decide, by decide⟩ rfl
  have hMoved := hCloned.tail (.moveConstruct 2 0) trivial rfl
  have hAssigned := hMoved.tail (.moveAssign 1 2) trivial rfl
  have hSelf := hAssigned.tail (.moveAssign 1 1) trivial rfl
  have hLeft := hSelf.tail (.leave 0) trivial rfl
  have hAgain := hLeft.tail (.declare 3 ⟨some 8, some ()⟩) ⟨by decide, by decide⟩ rfl
  exact ⟨_, rfl, handles_own hAgain⟩

end ErasedHandle

/-! ## Resource stacks -/

structure ResourceEntry where
  resource : Option ℕ
  hasDestroy : Bool
  label : String

/-- What the entry is there for; without a function there is nothing to do. -/
def ResourceEntry.resources (e : ResourceEntry) : List ℕ :=
  if e.hasDestroy then e.resource.toList else []

abbrev ResourceStack := List ResourceEntry

namespace ResourceStack

def push (stack : ResourceStack) (label : String) (resource : Option ℕ) (hasDestroy : Bool) :
    ResourceStack :=
  stack ++ [⟨resource, hasDestroy, label⟩]

/-- A pass of the loop of `teardown`. -/
def tearDownEntry (heap : Heap ℕ) (e : ResourceEntry) : Heap ℕ :=
  match e.hasDestroy, e.resource with
  | true, some resource => heap.free resource
  | _, _ => heap

/-- The last one that was pushed goes first. -/
def teardown (stack : ResourceStack) (heap : Heap ℕ) : Heap ℕ :=
  stack.reverse.foldl tearDownEntry heap

/-- What the stack is to destroy. -/
def resources (stack : ResourceStack) : List ℕ := stack.flatMap ResourceEntry.resources

theorem teardown_eq (stack : ResourceStack) (heap : Heap ℕ) :
    stack.teardown heap = heap.freeAll (resources stack.reverse) := by
  rw [teardown]
  induction stack.reverse generalizing heap with
  | nil => rfl
  | cons e entries ih =>
      have hEntry : tearDownEntry heap e = heap.freeAll e.resources := by
        rcases e with ⟨_ | resource, _ | _, label⟩ <;> rfl
      have hRest : resources (e :: entries) = e.resources ++ resources entries :=
        List.flatMap_cons
      rw [List.foldl_cons, ih, hEntry, hRest, Heap.freeAll_append]

/-- A vector that was moved from is empty, and so is one that was cleared. -/
def moveOnly : MoveOnly ResourceStack ℕ where
  owns := resources
  movedFrom := fun _ => []
  release := teardown
  owns_movedFrom := fun _ => rfl
  release_eq := fun stack heap =>
    ⟨resources stack.reverse, (List.reverse_perm stack).flatMap_right _, stack.teardown_eq heap⟩

end ResourceStack
end CelerMem
