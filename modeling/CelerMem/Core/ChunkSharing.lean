import CelerMem.Core.Chunk
import CelerMem.Library.Transition

/-! The reference counts behind `Chunk<T>`. Each `Chunk` object holds a pointer to an
`ArcBuf`, and threads run its member functions side by side. A step is one access to the
count, or what a thread does on its own between two of them. -/
namespace CelerMem.Sharing

abbrev Address := Nat

/-- The header and the constructed elements of one allocation. -/
structure ArcBuf (α : Type) where
  refs : BitVec 32
  elements : List α

/-- The fields of a `Chunk` object. -/
structure Slot where
  buf : Option Address
  offset : Nat
  length : Nat
  deriving DecidableEq

namespace Slot

/-- The fields of a default-constructed object, and of one that was moved from. -/
def default : Slot := ⟨none, 0, 0⟩

def slice (s : Slot) (off len : Nat) : Slot :=
  if s.buf.isNone ∨ s.length ≤ off then default
  else
    let avail := s.length - off
    let realOff := (s.offset + off % uint32Size) % uint32Size
    let realLen := min len avail % uint32Size
    if realLen = 0 then default else ⟨s.buf, realOff, realLen⟩

end Slot

/-- The member functions, with the objects they are called on. The filler of `build`
returns how many elements it has constructed, at most the capacity. -/
inductive Op (α Var : Type) where
  | default (dst : Var)
  | «from» (dst : Var) (data : List α)
  | singleton (dst : Var) (value : α)
  | build (dst : Var) (capacity : Nat) (filled : List α) (hFilled : filled.length ≤ capacity)
      (hCapacity : capacity < uint32Size)
  | copy (dst src : Var)
  | move (dst src : Var)
  | assign (dst src : Var)
  | moveAssign (dst src : Var)
  | slice (dst src : Var) (off len : Nat)
  | destroy (x : Var)
  | visit (x : Var)

/-- Where a thread stands inside a member function. -/
inductive Stage (Var : Type) where
  /-- `buf_->acquire()`, after which `dst` has these fields. -/
  | acquire (b : Address) (dst : Var) (slot : Slot)
  /-- `refs.fetch_sub(1)`. -/
  | release (b : Address)
  /-- The count was one: the elements are destroyed and the allocation is deleted. -/
  | free (b : Address)
  /-- The thread walks from `begin()` to `end()`. -/
  | visit (x : Var)

namespace Op
variable {α Var : Type}

/-- The objects that the call constructs. -/
def constructs : Op α Var → List Var
  | default dst | «from» dst _ | singleton dst _ | build dst .. | copy dst _ | move dst _
  | slice dst .. => [dst]
  | _ => []

/-- The objects that have to exist. -/
def uses : Op α Var → List Var
  | copy _ src | move _ src | slice _ src .. => [src]
  | assign dst src | moveAssign dst src => [dst, src]
  | destroy x | visit x => [x]
  | _ => []

/-- The objects whose fields the call changes. -/
def writes : Op α Var → List Var
  | default dst | «from» dst _ | singleton dst _ | build dst .. | copy dst _ | assign dst _
  | slice dst .. => [dst]
  | move dst src | moveAssign dst src => [dst, src]
  | destroy x => [x]
  | visit _ => []

/-- The objects whose fields the call only reads. -/
def reads : Op α Var → List Var
  | copy _ src | assign _ src | slice _ src .. => [src]
  | visit x => [x]
  | _ => []

/-- The object that is without a value of its own while the call runs. -/
def target : Op α Var → Option Var
  | default dst | «from» dst _ | singleton dst _ | build dst .. | copy dst _ | move dst _
  | slice dst .. => some dst
  | assign dst _ | moveAssign dst _ => some dst
  | destroy x => some x
  | visit _ => none

/-- The language's conditions on a call: what is constructed is not there yet, and what is
used is there. -/
def Ready {Value : Type} (op : Op α Var) (values : Var → Option Value) : Prop :=
  (∀ x ∈ op.constructs, values x = none) ∧ ∀ x ∈ op.uses, (values x).isSome

instance {Value : Type} (op : Op α Var) (values : Var → Option Value) :
    Decidable (op.Ready values) :=
  inferInstanceAs (Decidable ((∀ x ∈ op.constructs, values x = none) ∧
    ∀ x ∈ op.uses, (values x).isSome))

/-- Two calls are no data race: neither changes an object that the other looks at. -/
def Independent (op other : Op α Var) : Prop :=
  (∀ x ∈ op.writes, x ∉ other.writes ∧ x ∉ other.reads) ∧ ∀ x ∈ op.reads, x ∉ other.writes

end Op

/-- `history` lists the calls that have returned, and what a walk has seen; `fault` records
an access to an allocation that is not there. -/
structure Memory (α Var Thread : Type) where
  heap : Address → Option (ArcBuf α)
  vars : Var → Option Slot
  running : Thread → Option (Op α Var × Stage Var)
  history : List (Op α Var × List α)
  fault : Bool

/-- `start` has the address that `operator new` returns, for the calls that allocate. -/
inductive Label (α Var Thread : Type) where
  | start (t : Thread) (op : Op α Var) (fresh : Address)
  | advance (t : Thread)

namespace Memory
variable {α Var Thread : Type}

def initial : Memory α Var Thread :=
  ⟨fun _ => none, fun _ => none, fun _ => none, [], false⟩

variable [DecidableEq Var] [DecidableEq Thread]

def setVar (s : Memory α Var Thread) (x : Var) (slot : Option Slot) : Memory α Var Thread :=
  { s with vars := Function.update s.vars x slot }

def setBlock (s : Memory α Var Thread) (b : Address) (block : Option (ArcBuf α)) :
    Memory α Var Thread :=
  { s with heap := Function.update s.heap b block }

def setThread (s : Memory α Var Thread) (t : Thread) (now : Option (Op α Var × Stage Var)) :
    Memory α Var Thread :=
  { s with running := Function.update s.running t now }

def ret (s : Memory α Var Thread) (t : Thread) (op : Op α Var) (seen : List α) :
    Memory α Var Thread :=
  { s.setThread t none with history := s.history ++ [(op, seen)] }

/-- `ArcBuf::alloc`, the construction of the elements, and the object that refers to them. -/
def alloc (s : Memory α Var Thread) (t : Thread) (op : Op α Var) (dst : Var) (fresh : Address)
    (elements : List α) : Option (Memory α Var Thread) :=
  if (s.heap fresh).isSome then none
  else
    some (((s.setBlock fresh (some ⟨1, elements⟩)).setVar dst
      (some ⟨some fresh, 0, elements.length⟩)).ret t op [])

/-- The fields are copied; a pointer among them is acquired before anybody sees them. -/
def take (s : Memory α Var Thread) (t : Thread) (op : Op α Var) (dst : Var) (slot : Slot) :
    Memory α Var Thread :=
  match slot.buf with
  | none => (s.setVar dst (some slot)).ret t op []
  | some b => s.setThread t (some (op, .acquire b dst slot))

/-- What a call does once its target refers to nothing any more. -/
def proceed (s : Memory α Var Thread) (t : Thread) (op : Op α Var) :
    Option (Memory α Var Thread) :=
  match op with
  | .copy dst src | .assign dst src => (s.vars src).map fun slot => s.take t op dst slot
  | .slice dst src off len => (s.vars src).map fun slot => s.take t op dst (slot.slice off len)
  | .move dst src | .moveAssign dst src =>
      (s.vars src).map fun slot =>
        ((s.setVar dst (some slot)).setVar src (some Slot.default)).ret t op []
  | .default dst | .build dst .. => some ((s.setVar dst (some Slot.default)).ret t op [])
  | .destroy x => some ((s.setVar x none).ret t op [])
  | .visit x => some (s.setThread t (some (op, .visit x)))
  | .from .. | .singleton .. => none

/-- `if (buf_) buf_->release()`. The pointer is taken out of the object at once: until the
call is over nobody else may look at it. -/
def drop (s : Memory α Var Thread) (t : Thread) (op : Op α Var) (x : Var) :
    Option (Memory α Var Thread) :=
  match s.vars x with
  | none => none
  | some slot =>
      match slot.buf with
      | none => s.proceed t op
      | some b =>
          some ((s.setVar x (some Slot.default)).setThread t (some (op, .release b)))

/-- The first step of a call. -/
def start (s : Memory α Var Thread) (t : Thread) (op : Op α Var) (fresh : Address) :
    Option (Memory α Var Thread) :=
  if (s.running t).isSome ∨ ¬ op.Ready s.vars then none
  else
    match op with
    | .from dst data =>
        if data.isEmpty then some ((s.setVar dst (some Slot.default)).ret t op [])
        else s.alloc t op dst fresh (data.take (data.length % uint32Size))
    | .singleton dst value => s.alloc t op dst fresh [value]
    | .build dst capacity filled .. =>
        if capacity = 0 then s.proceed t op
        else if filled.isEmpty then
          if (s.heap fresh).isSome then none
          else some ((s.setBlock fresh (some ⟨1, []⟩)).setThread t (some (op, .release fresh)))
        else s.alloc t op dst fresh filled
    | .assign dst src | .moveAssign dst src =>
        if dst = src then some (s.ret t op []) else s.drop t op dst
    | .destroy x => s.drop t op x
    | _ => s.proceed t op

/-- The next step of a call that has begun. -/
def advance (s : Memory α Var Thread) (t : Thread) : Option (Memory α Var Thread) :=
  match s.running t with
  | none => none
  | some (op, .acquire b dst slot) =>
      match s.heap b with
      | none => some { s with fault := true }
      | some block =>
          some (((s.setBlock b (some { block with refs := block.refs + 1 })).setVar dst
            (some slot)).ret t op [])
  | some (op, .release b) =>
      match s.heap b with
      | none => some { s with fault := true }
      | some block =>
          let s' := s.setBlock b (some { block with refs := block.refs - 1 })
          if block.refs = 1 then some (s'.setThread t (some (op, .free b)))
          else (s'.setThread t none).proceed t op
  | some (op, .free b) =>
      match s.heap b with
      | none => some { s with fault := true }
      | some _ => ((s.setBlock b none).setThread t none).proceed t op
  | some (op, .visit x) =>
      match s.vars x with
      | none => none
      | some slot =>
          match slot.buf with
          | none => some (s.ret t op [])
          | some b =>
              match s.heap b with
              | none => some { s with fault := true }
              | some block =>
                  some (s.ret t op ((block.elements.drop slot.offset).take slot.length))

def step (s : Memory α Var Thread) : Label α Var Thread → Option (Memory α Var Thread)
  | .start t op fresh => s.start t op fresh
  | .advance t => s.advance t

/-- What the callers have to see to: no data race, and no count that passes the end of
the 32 bits it has. -/
def Allowed (s : Memory α Var Thread) : Label α Var Thread → Prop
  | .start _ op _ => ∀ u other stage, s.running u = some (other, stage) → op.Independent other
  | .advance t => ∀ op b dst slot block, s.running t = some (op, .acquire b dst slot) →
      s.heap b = some block → block.refs ≠ -1

/-- The steps of a thread are counted while it makes no new call. -/
def countedStep (t : Thread) (p : Memory α Var Thread × Nat) :
    Label α Var Thread → Option (Memory α Var Thread × Nat)
  | .start u op fresh => if u = t then none else (p.1.start u op fresh).map fun s => (s, p.2)
  | .advance u => (p.1.advance u).map fun s => (s, if u = t then p.2 + 1 else p.2)

end Memory

/-! The same calls on plain values, one after another. -/
namespace Op
variable {α Var : Type} [DecidableEq Var]

def effect (op : Op α Var) (values : Var → Option (Chunk α)) : Var → Option (Chunk α) :=
  match op with
  | default dst => Function.update values dst (some Chunk.none)
  | «from» dst data => Function.update values dst (some (Chunk.from data))
  | singleton dst value => Function.update values dst (some (Chunk.singleton value))
  | build dst capacity filled hFilled hCapacity =>
      Function.update values dst (some (Chunk.build capacity filled hFilled hCapacity))
  | copy dst src | assign dst src => Function.update values dst (values src)
  | move dst src => Function.update (Function.update values dst (values src)) src (some Chunk.none)
  | moveAssign dst src =>
      if dst = src then values
      else Function.update (Function.update values dst (values src)) src (some Chunk.none)
  | slice dst src off len =>
      Function.update values dst ((values src).map fun c => c.slice off len)
  | destroy x => Function.update values x none
  | visit _ => values

/-- What a walk over the object sees. -/
def shown (op : Op α Var) (values : Var → Option (Chunk α)) : List α :=
  match op with
  | visit x => ((values x).map Chunk.toList).getD []
  | _ => []

end Op

/-- The calls, each with what it saw, run on plain values and lead to these. -/
inductive Sequential {α Var : Type} [DecidableEq Var] :
    List (Op α Var × List α) → (Var → Option (Chunk α)) → Prop where
  | nil : Sequential [] fun _ => none
  | snoc {history : List (Op α Var × List α)} {values : Var → Option (Chunk α)} {op : Op α Var}
      (prior : Sequential history values) (hReady : op.Ready values) :
      Sequential (history ++ [(op, op.shown values)]) (op.effect values)

end CelerMem.Sharing
