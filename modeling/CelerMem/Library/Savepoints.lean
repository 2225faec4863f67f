import Mathlib

/-! A store with savepoints: each keeps what was stored when it was set, the last one comes
first. Nothing here depends on what is stored. -/
namespace Savepoints
universe u v

structure Session (Name : Type u) (State : Type v) where
  current : State
  savepoints : List (Name × State)

namespace Session
variable {Name : Type u} {State : Type v}

def savepoint (s : Session Name State) (name : Name) : Session Name State :=
  { s with savepoints := (name, s.current) :: s.savepoints }

/-- The whole transaction is given up. -/
def rollback (s : Session Name State) : Session Name State :=
  match s.savepoints.getLast? with
  | none => s
  | some saved => ⟨saved.2, []⟩

/-- What is stored changes. -/
def put (s : Session Name State) (state : State) : Session Name State := { s with current := state }

variable [DecidableEq Name]

/-- Closes a savepoint with all that were set after it. -/
def release (s : Session Name State) (name : Name) : Option (Session Name State) :=
  match s.savepoints.dropWhile fun saved => saved.1 ≠ name with
  | [] => none
  | _ :: older => some { s with savepoints := older }

/-- Goes back to a savepoint, which stays open. -/
def rollbackTo (s : Session Name State) (name : Name) : Option (Session Name State) :=
  match s.savepoints.dropWhile fun saved => saved.1 ≠ name with
  | [] => none
  | saved :: older => some ⟨saved.2, saved :: older⟩

variable {s : Session Name State} {name : Name} {state before : State}
  {older : List (Name × State)}

theorem release_of_closed (h : s.savepoints = []) : s.release name = none := by
  rw [release, h]
  rfl

theorem rollbackTo_of_closed (h : s.savepoints = []) : s.rollbackTo name = none := by
  rw [rollbackTo, h]
  rfl

@[simp] theorem release_last :
    (Session.mk state ((name, before) :: older)).release name = some ⟨state, older⟩ := by
  simp [release]

@[simp] theorem rollbackTo_last :
    (Session.mk state ((name, before) :: older)).rollbackTo name =
      some ⟨before, (name, before) :: older⟩ := by
  simp [rollbackTo]

end Session
end Savepoints
