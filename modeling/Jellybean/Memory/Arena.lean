import Jellybean.Framework.Align
import Jellybean.Framework.Linked
import Jellybean.Framework.System

namespace Jellybean.Memory

/-- The header of a block. Pointers to blocks are `none` when null. -/
structure Block where
  next : Option Nat
  size : Nat
  used : Nat
  deriving DecidableEq, Inhabited

/-- `sizeof(Block)`. -/
def sizeofBlock : Nat := 48

/-- `offsetof(Block, data)`. -/
def dataOffset : Nat := 32

/-- The headers by address, and the regions that `malloc` gave out and that are not freed. -/
structure Heap where
  block : Nat → Block
  allocated : List Region

namespace Heap

/-- `ptr` is the choice of `malloc`; after a null pointer the program aborts. -/
def malloc (h : Heap) (bytes ptr : Nat) : Option Heap :=
  if ptr ≠ 0 ∧ ptr + bytes ≤ 2^64 ∧
      ∀ r ∈ h.allocated, r.base ≠ ptr ∧ r.Disjoint ⟨ptr, bytes⟩ then
    some { h with allocated := h.allocated ++ [⟨ptr, bytes⟩] }
  else none

/-- Only a pointer from `malloc` may be freed, and only once. -/
def free (h : Heap) (ptr : Nat) : Option Heap :=
  if ptr ∈ h.allocated.map Region.base then
    some { h with allocated := h.allocated.filter (·.base ≠ ptr) }
  else none

def setBlock (h : Heap) (ptr : Nat) (b : Block) : Heap :=
  { h with block := Function.update h.block ptr b }

def next (h : Heap) (ptr : Nat) : Option Nat := (h.block ptr).next

/-- The blocks that a loop along `next` visits. -/
def chain (h : Heap) (first : Option Nat) : Option (List Nat) :=
  traverse h.next h.allocated.length first

/-- The loop of the destructor and of the move assignment. -/
def freeChain (h : Heap) (first : Option Nat) : Option Heap :=
  (h.chain first).bind fun blocks => blocks.foldlM free h

end Heap

structure ArenaAllocator where
  current : Nat := 0
  end_ : Nat := 0
  head : Option Nat := none
  firstBlock : Option Nat := none
  blockSize : Nat
  totalAllocated : Nat := 0
  deriving DecidableEq

/-- `(cur + alignment - 1) & ~(alignment - 1)` on `uintptr_t`. -/
def alignAddress (cur alignment : Nat) : Nat :=
  ((cur + alignment + (2^64 - 1)) % 2^64) &&& (2^64 - 1 - (alignment + (2^64 - 1)) % 2^64)

/-- An `assert` stops the program unless it was compiled with `NDEBUG`. -/
def fails (ndebug : Bool) (p : Prop) [Decidable p] : Bool := !ndebug && !decide p

namespace ArenaAllocator

def allocateBlock (h : Heap) (a : ArenaAllocator) (minSize ptr : Nat) :
    Option (Heap × ArenaAllocator) :=
  let size := max a.blockSize minSize
  (h.malloc ((sizeofBlock + size - 1) % 2^64) ptr).bind fun h =>
    let h := h.setBlock ptr ⟨none, size, 0⟩
    let total := (a.totalAllocated + size) % 2^64
    match a.firstBlock, a.head with
    | none, _ =>
      some (h, { a with firstBlock := some ptr, head := some ptr, totalAllocated := total })
    | some _, some head =>
      some (h.setBlock head { h.block head with next := some ptr },
        { a with head := some ptr, totalAllocated := total })
    | some _, none => none

/-- `if (head_) head_->used = current_ - head_->data`. -/
def recordUsed (h : Heap) (a : ArenaAllocator) : Heap :=
  match a.head with
  | some head =>
    h.setBlock head { h.block head with used := (a.current + 2^64 - (head + dataOffset)) % 2^64 }
  | none => h

/-- The heap, the arena and the pointer returned. -/
def allocateSlow (h : Heap) (a : ArenaAllocator) (size alignment ptr : Nat) :
    Option (Heap × ArenaAllocator × Nat) :=
  let minSize := (size + alignment) % 2^64
  (a.allocateBlock (a.recordUsed h) minSize ptr).map fun (h, a) =>
    let aligned := alignAddress (ptr + dataOffset) alignment
    (h, { a with
      current := (aligned + size) % 2^64
      end_ := (ptr + dataOffset + (h.block ptr).size) % 2^64 }, aligned)

def allocate (ndebug : Bool) (h : Heap) (a : ArenaAllocator) (size alignment ptr : Nat) :
    Option (Heap × ArenaAllocator × Nat) :=
  if fails ndebug (alignment ≠ 0) then none
  else if fails ndebug (alignment &&& (alignment - 1) = 0) then none
  else
    let aligned := alignAddress a.current alignment
    if fails ndebug (aligned ≥ a.current) then none
    else
      let next := (aligned + size) % 2^64
      if fails ndebug (next ≥ aligned) then none
      else if next ≤ a.end_ then some (h, { a with current := next }, aligned)
      else a.allocateSlow h size alignment ptr

/-- `construct` of an object of the given size and alignment. -/
def construct (ndebug : Bool) (h : Heap) (a : ArenaAllocator) (sizeofT alignofT ptr : Nat) :
    Option (Heap × ArenaAllocator × Nat) :=
  a.allocate ndebug h sizeofT alignofT ptr

/-- What one turn of the loop in `bytes_allocated` adds. -/
def blockBytesUsed (h : Heap) (a : ArenaAllocator) (curr : Nat) : Nat :=
  if some curr = a.head then (a.current + 2^64 - (curr + dataOffset)) % 2^64
  else (h.block curr).used

def bytesAllocated (h : Heap) (a : ArenaAllocator) : Option Nat :=
  (h.chain a.firstBlock).map fun blocks =>
    blocks.foldl (fun total curr => (total + a.blockBytesUsed h curr) % 2^64) 0

def bytesWasted (h : Heap) (a : ArenaAllocator) : Option Nat :=
  (a.bytesAllocated h).map fun bytes => (a.totalAllocated + 2^64 - bytes) % 2^64

def reset (h : Heap) (a : ArenaAllocator) : Option (Heap × ArenaAllocator) :=
  match a.firstBlock with
  | none => some (h, a)
  | some first =>
    (h.chain a.firstBlock).map fun blocks =>
      ({ h with block := fun p => if p ∈ blocks then { h.block p with used := 0 } else h.block p },
        { a with
          head := some first
          current := first + dataOffset
          end_ := (first + dataOffset + (h.block first).size) % 2^64 })

/-- What a move leaves behind. -/
def movedFrom (a : ArenaAllocator) : ArenaAllocator := { blockSize := a.blockSize }

end ArenaAllocator

/-- A range that an arena returned, with the alignment asked for. -/
structure Range extends Region where
  alignment : Nat
  deriving DecidableEq

/-- The arenas of a program. `live` and `owned` are history: the ranges an arena has returned
since its last `reset`, and the blocks it has obtained from `malloc` and not freed, oldest first.
Both travel with a move. -/
structure World where
  heap : Heap
  arenas : Nat → Option ArenaAllocator
  live : Nat → List Range
  owned : Nat → List Nat

inductive Action where
  | create (i blockSize : Nat)
  | allocate (i size alignment ptr : Nat)
  | construct (i sizeofT alignofT ptr : Nat)
  | reset (i : Nat)
  | moveConstruct (i source : Nat)
  | moveAssign (i source : Nat)
  | destroy (i : Nat)
  deriving DecidableEq

namespace World

/-- `i` got a pointer. What `malloc` gave out in the call is at the end of `allocated`. -/
def returned (w : World) (i size alignment : Nat) (r : Heap × ArenaAllocator × Nat) : World where
  heap := r.1
  arenas := Function.update w.arenas i (some r.2.1)
  live := Function.update w.live i (w.live i ++ [⟨⟨r.2.2, size⟩, alignment⟩])
  owned := Function.update w.owned i
    (w.owned i ++ (r.1.allocated.drop w.heap.allocated.length).map Region.base)

/-- The state `a` of `source` goes to `i`. -/
def transfer (w : World) (h : Heap) (i source : Nat) (a : ArenaAllocator) : World where
  heap := h
  arenas := Function.update (Function.update w.arenas i (some a)) source (some a.movedFrom)
  live := Function.update (Function.update w.live i (w.live source)) source []
  owned := Function.update (Function.update w.owned i (w.owned source)) source []

def step (ndebug : Bool) (w : World) : Action → Option World
  | .create i blockSize =>
    if w.arenas i = none ∧ blockSize < 2^64 then
      some { w with arenas := Function.update w.arenas i (some { blockSize := blockSize }) }
    else none
  | .allocate i size alignment ptr =>
    (w.arenas i).bind fun a =>
      (a.allocate ndebug w.heap size alignment ptr).map (w.returned i size alignment)
  | .construct i sizeofT alignofT ptr =>
    (w.arenas i).bind fun a =>
      (a.construct ndebug w.heap sizeofT alignofT ptr).map (w.returned i sizeofT alignofT)
  | .reset i =>
    (w.arenas i).bind fun a =>
      (a.reset w.heap).map fun (h, a) =>
        { w with
          heap := h
          arenas := Function.update w.arenas i (some a)
          live := Function.update w.live i [] }
  | .moveConstruct i source =>
    if w.arenas i = none then (w.arenas source).map (w.transfer w.heap i source) else none
  | .moveAssign i source =>
    (w.arenas i).bind fun a => (w.arenas source).bind fun b =>
      if i = source then some w
      else (w.heap.freeChain a.firstBlock).map fun h => w.transfer h i source b
  | .destroy i =>
    (w.arenas i).bind fun a =>
      (w.heap.freeChain a.firstBlock).map fun h =>
        { heap := h
          arenas := Function.update w.arenas i none
          live := Function.update w.live i []
          owned := Function.update w.owned i [] }

def initial : World := ⟨⟨fun _ => default, []⟩, fun _ => none, fun _ => [], fun _ => []⟩

def system (ndebug : Bool) : System World Action where
  init w := w = initial
  step := step ndebug

end World

end Jellybean.Memory
