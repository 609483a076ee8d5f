import Jellybean.Framework.Linked
import Jellybean.Framework.System

namespace Jellybean.Memory.Slab

/-- The address of `slots[index]` of a chunk. -/
structure SlotPtr where
  chunk : Nat
  index : Nat
  deriving DecidableEq

/-- The union `Slot`. -/
inductive Slot (α : Type) where
  | storage (object : α)
  | nextFree (p : Option SlotPtr)

/-- The contents of the slots, and the chunks that are allocated. -/
structure Storage (α : Type) where
  slot : SlotPtr → Slot α
  chunks : List Nat

structure SlabAllocator where
  chunks : List Nat := []
  freeListHead : Option SlotPtr := none
  deriving DecidableEq

/-- What a program sees of the type `T` and of the parameter `ChunkObjects`. -/
structure Params (α : Type) where
  chunkObjects : Nat
  /-- The bytes of an object read as a pointer. -/
  asPointer : α → Option SlotPtr

variable {α : Type}

namespace Storage

def set (m : Storage α) (p : SlotPtr) (s : Slot α) : Storage α :=
  { m with slot := Function.update m.slot p s }

/-- `slot->next_free`, whatever the union holds. -/
def next (T : Params α) (m : Storage α) (p : SlotPtr) : Option SlotPtr :=
  match m.slot p with
  | .storage object => T.asPointer object
  | .nextFree q => q

/-- The slots of a chunk go back to the system. -/
def freeChunks (m : Storage α) (chunks : List Nat) : Storage α :=
  { m with chunks := m.chunks.filter (· ∉ chunks) }

end Storage

namespace SlabAllocator

/-- `slot->next_free = free_list_head_; free_list_head_ = slot;`. -/
def push (r : Storage α × SlabAllocator) (p : SlotPtr) : Storage α × SlabAllocator :=
  (r.1.set p (.nextFree r.2.freeListHead), { r.2 with freeListHead := some p })

/-- The loop over the slots of a new chunk. -/
def chainSlots (chunk n : Nat) (r : Storage α × SlabAllocator) : Storage α × SlabAllocator :=
  (List.range n).foldl (fun r i => push r ⟨chunk, i⟩) r

/-- `chunk` is where the new chunk happens to lie. -/
def allocateChunk (T : Params α) (m : Storage α) (a : SlabAllocator) (chunk : Nat) :
    Option (Storage α × SlabAllocator) :=
  if chunk ∈ m.chunks then none
  else
    let r := chainSlots chunk T.chunkObjects ({ m with chunks := m.chunks ++ [chunk] }, a)
    some (r.1, { r.2 with chunks := r.2.chunks ++ [chunk] })

/-- `if (!free_list_head_) allocate_chunk();`. -/
def refill (T : Params α) (m : Storage α) (a : SlabAllocator) (chunk : Nat) :
    Option (Storage α × SlabAllocator) :=
  if a.freeListHead = none then a.allocateChunk T m chunk else some (m, a)

/-- `object` is `none` when the constructor throws; no pointer is returned then. -/
def allocate (T : Params α) (m : Storage α) (a : SlabAllocator) (object : Option α) (chunk : Nat) :
    Option (Storage α × SlabAllocator × Option SlotPtr) :=
  (a.refill T m chunk).bind fun (m, a) =>
    a.freeListHead.map fun slot =>
      let a := { a with freeListHead := m.next T slot }
      match object with
      | some v => (m.set slot (.storage v), a, some slot)
      | none => (m, a, none)

def deallocate (m : Storage α) (a : SlabAllocator) (ptr : Option SlotPtr) :
    Storage α × SlabAllocator :=
  match ptr with
  | none => (m, a)
  | some p => push (m, a) p

/-- What a defaulted move leaves behind: the vector is empty, the pointer is copied. -/
def movedFrom (a : SlabAllocator) : SlabAllocator := { a with chunks := [] }

end SlabAllocator

/-- The allocators of a program for one type. `live` and `maxLive` are history: the objects that an
allocator has handed out and not taken back, and the largest number of them so far. -/
structure World (α : Type) where
  storage : Storage α
  slabs : Nat → Option SlabAllocator
  live : Nat → List SlotPtr
  maxLive : Nat → Nat

inductive Action (α : Type) where
  | create (i : Nat)
  | allocate (i : Nat) (object : Option α) (chunk : Nat)
  | deallocate (i : Nat) (ptr : Option SlotPtr)
  | moveConstruct (i source : Nat)
  | moveAssign (i source : Nat)
  | destroy (i : Nat)
  deriving DecidableEq

namespace World

def allocated (w : World α) (i : Nat) (r : Storage α × SlabAllocator × Option SlotPtr) :
    World α where
  storage := r.1
  slabs := Function.update w.slabs i (some r.2.1)
  live := Function.update w.live i (r.2.2.toList ++ w.live i)
  maxLive := Function.update w.maxLive i (max (w.maxLive i) (r.2.2.toList ++ w.live i).length)

/-- The members of `source` are moved one by one to `i`. -/
def transfer (w : World α) (m : Storage α) (i source : Nat) (a : SlabAllocator) : World α where
  storage := m
  slabs := Function.update (Function.update w.slabs i (some a)) source (some a.movedFrom)
  live := Function.update (Function.update w.live i (w.live source)) source []
  maxLive := Function.update (Function.update w.maxLive i (w.maxLive source)) source 0

/-- Callers give back only what they got from the allocator, or null. A self-assignment moves the
vector of chunks into itself, which frees them. -/
def step (T : Params α) (w : World α) : Action α → Option (World α)
  | .create i =>
    if w.slabs i = none then
      some { w with
        slabs := Function.update w.slabs i (some {})
        maxLive := Function.update w.maxLive i 0 }
    else none
  | .allocate i object chunk =>
    (w.slabs i).bind fun a => (a.allocate T w.storage object chunk).map (w.allocated i)
  | .deallocate i ptr =>
    (w.slabs i).bind fun a =>
      if ∀ p ∈ ptr, p ∈ w.live i then
        let r := a.deallocate w.storage ptr
        some { w with
          storage := r.1
          slabs := Function.update w.slabs i (some r.2)
          live := Function.update w.live i ((w.live i).filter (some · ≠ ptr)) }
      else none
  | .moveConstruct i source =>
    if w.slabs i = none then (w.slabs source).map (w.transfer w.storage i source) else none
  | .moveAssign i source =>
    (w.slabs i).bind fun a => (w.slabs source).map fun b =>
      w.transfer (w.storage.freeChunks a.chunks) i source b
  | .destroy i =>
    (w.slabs i).map fun a =>
      { storage := w.storage.freeChunks a.chunks
        slabs := Function.update w.slabs i none
        live := Function.update w.live i []
        maxLive := Function.update w.maxLive i 0 }

def initial : World α := ⟨⟨fun _ => .nextFree none, []⟩, fun _ => none, fun _ => [], fun _ => 0⟩

end World

/-- Numbers, two in a chunk. -/
def pairs : Params Nat := ⟨2, fun _ => none⟩

def system (T : Params α) : System (World α) (Action α) where
  init w := w = World.initial
  step := World.step T

end Jellybean.Memory.Slab
