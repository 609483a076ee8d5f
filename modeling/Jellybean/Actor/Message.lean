import Jellybean.Framework.Heap
import Jellybean.Server.WireProtocol

namespace Jellybean.Actor

open Server (leBytes leNat length_leBytes leNat_leBytes leNat_lt)

/-- The bytes of the union of a message, `INLINE_SIZE` of them. -/
abbrev Storage := Vector UInt8 48

namespace Storage

def read (s : Storage) (offset n : Nat) : List UInt8 := (s.toList.drop offset).take n

/-- `memcpy` to the bytes from `offset` on. -/
def write (s : Storage) (offset : Nat) (bytes : List UInt8) : Storage :=
  Vector.ofFn fun i => if offset ≤ i then (bytes[i - offset]?).getD s[i] else s[i]

/-- `heap_data.ptr`. -/
def ptr (s : Storage) : Nat := leNat (s.read 0 8)

/-- `heap_data.size`. -/
def size (s : Storage) : Nat := leNat (s.read 8 8)

def setPtr (s : Storage) (p : Nat) : Storage := s.write 0 (leBytes 8 p)

def setSize (s : Storage) (n : Nat) : Storage := s.write 8 (leBytes 8 n)

def zero : Storage := Vector.replicate 48 0

theorem getElem?_read (s : Storage) (offset n i : Nat) :
    (s.read offset n)[i]? = if i < n then s.toList[offset + i]? else none := by
  rw [read, List.getElem?_take, List.getElem?_drop]

theorem getElem?_write (s : Storage) {offset : Nat} {bytes : List UInt8}
    (h : offset + bytes.length ≤ 48) (i : Nat) :
    (s.write offset bytes).toList[i]? =
      if offset ≤ i ∧ i < offset + bytes.length then bytes[i - offset]? else s.toList[i]? := by
  rw [write, Vector.toList_ofFn, List.getElem?_ofFn]
  by_cases hi : i < 48
  · have hold : s.toList[i]? = some s[i] := by simp [hi]
    rw [dif_pos hi, hold]
    by_cases ho : offset ≤ i
    · by_cases hb : i < offset + bytes.length
      · have : i - offset < bytes.length := by omega
        simp [ho, hb, this]
      · have : bytes.length ≤ i - offset := by omega
        simp [ho, hb, this]
    · simp [ho]
  · have hold : s.toList[i]? = none := by simp; omega
    rw [dif_neg hi, hold, if_neg (by omega)]

theorem read_write (s : Storage) {offset n : Nat} {bytes : List UInt8} (hn : bytes.length = n)
    (h : offset + n ≤ 48) : (s.write offset bytes).read offset n = bytes := by
  subst hn
  apply List.ext_getElem?
  intro i
  rw [getElem?_read, getElem?_write s h]
  by_cases hi : i < bytes.length
  · simp [hi]
  · rw [if_neg hi, List.getElem?_eq_none (Nat.le_of_not_lt hi)]

/-- Bytes that a write does not touch. -/
theorem read_write_of_disjoint (s : Storage) {offset : Nat} {bytes : List UInt8} {offset' n : Nat}
    (h : offset + bytes.length ≤ 48) (hd : offset' + n ≤ offset ∨ offset + bytes.length ≤ offset') :
    (s.write offset bytes).read offset' n = s.read offset' n := by
  apply List.ext_getElem?
  intro i
  rw [getElem?_read, getElem?_read]
  by_cases hi : i < n
  · rw [if_pos hi, if_pos hi, getElem?_write s h, if_neg (by omega)]
  · rw [if_neg hi, if_neg hi]

theorem length_read (s : Storage) {offset n : Nat} (h : offset + n ≤ 48) :
    (s.read offset n).length = n := by
  simp only [read, List.length_take, List.length_drop, Vector.length_toList]
  omega

@[simp] theorem ptr_setPtr (s : Storage) (p : Nat) : (s.setPtr p).ptr = p % 2^64 := by
  rw [ptr, setPtr, read_write s (length_leBytes 8 p) (by omega), leNat_leBytes]
  norm_num

@[simp] theorem size_setSize (s : Storage) (n : Nat) : (s.setSize n).size = n % 2^64 := by
  rw [size, setSize, read_write s (length_leBytes 8 n) (by omega), leNat_leBytes]
  norm_num

@[simp] theorem size_setPtr (s : Storage) (p : Nat) : (s.setPtr p).size = s.size := by
  rw [size, setPtr, read_write_of_disjoint s (by simp) (.inr (by simp)), size]

@[simp] theorem ptr_setSize (s : Storage) (n : Nat) : (s.setSize n).ptr = s.ptr := by
  rw [ptr, setSize, read_write_of_disjoint s (by simp) (.inl (by simp)), ptr]

theorem size_lt (s : Storage) : s.size < 2^64 := by
  have hlen : (s.read 8 8).length = 8 := length_read s (by omega)
  have := leNat_lt (s.read 8 8)
  rw [hlen] at this
  exact this

/-- Copying the sixteen bytes of `heap_data` copies both members. -/
theorem heapData_write (s t : Storage) :
    (s.write 0 (t.read 0 16)).ptr = t.ptr ∧ (s.write 0 (t.read 0 16)).size = t.size := by
  have hlen : (t.read 0 16).length = 16 := length_read t (by omega)
  have hread : (s.write 0 (t.read 0 16)).read 0 16 = t.read 0 16 := read_write s hlen (by omega)
  have hptr : ∀ u : Storage, u.read 0 8 = (u.read 0 16).take 8 := by
    intro u
    simp [read, List.take_take]
  have hsize : ∀ u : Storage, u.read 8 8 = (u.read 0 16).drop 8 := by
    intro u
    simp [read, List.drop_take]
  constructor
  · rw [ptr, hptr, hread, ptr, ← hptr]
  · rw [size, hsize, hread, size, ← hsize]

end Storage

/-- How an operation can end a run: the caller uses a message that does not exist, `abort` after a
`malloc` that returned null, an access that the language leaves undefined, or an endless loop. -/
inductive Fault where
  | misuse
  | abort
  | undefined
  | endless
  deriving DecidableEq

abbrev Buffers := Heap (List UInt8)

/-- The value of a trivially copyable type; its `sizeof` is a `size_t`. -/
abbrev Payload := { bytes : List UInt8 // bytes.length < 2^64 }

/-- `malloc`, with the null check, and the `memcpy` that fills the block. The answer of `malloc` is
a choice of the run; what is null or no address of a new block counts as null. -/
def malloc (answer : Option Nat) (bytes : List UInt8) (heap : Buffers) :
    Except Fault (Nat × Buffers) :=
  match answer with
  | none => .error .abort
  | some a =>
    if 0 < a ∧ a < 2^64 ∧ (heap.blocks a).isNone then .ok (a, heap.alloc a bytes)
    else .error .abort

/-- The first `n` bytes of the block at the address. -/
def load (heap : Buffers) (a n : Nat) : Except Fault (List UInt8) :=
  match heap.blocks a with
  | none => .error .undefined
  | some b => if n ≤ b.content.length then .ok (b.content.take n) else .error .undefined

def free (heap : Buffers) (a : Nat) : Except Fault Buffers :=
  match heap.free a with
  | none => .error .undefined
  | some heap => .ok heap

structure Message where
  typeId : UInt32 := 0
  senderShard : UInt32 := 0
  senderId : UInt64 := 0
  data : Storage
  isInline : Bool := true

namespace Message

def default : Message := { data := .zero }

def destroy (m : Message) (heap : Buffers) : Except Fault (Message × Buffers) :=
  if m.isInline = false ∧ m.data.ptr ≠ 0 then do
    let heap ← free heap m.data.ptr
    return ({ m with data := (m.data.setPtr 0).setSize 0, isInline := true }, heap)
  else return (m, heap)

/-- The copy constructor, and the copy assignment after `destroy`; `raw` is what the bytes of the
union were before. -/
def copy (raw : Storage) (other : Message) (answer : Option Nat) (heap : Buffers) :
    Except Fault (Message × Buffers) :=
  if other.isInline then return ({ other with data := raw.write 0 (other.data.read 0 48) }, heap)
  else do
    let bytes ← load heap other.data.ptr other.data.size
    let (ptr, heap) ← malloc answer bytes heap
    return ({ other with data := (raw.setSize other.data.size).setPtr ptr }, heap)

/-- The move constructor, and the move assignment after `destroy`: the new message and what is left
of the other. -/
def move (raw : Storage) (other : Message) : Message × Message :=
  if other.isInline then ({ other with data := raw.write 0 (other.data.read 0 48) }, other)
  else ({ other with data := raw.write 0 (other.data.read 0 16) },
    { other with data := .zero, isInline := true })

/-- `set`, after `destroy`. -/
def fill (m : Message) (val : Payload) (answer : Option Nat) (heap : Buffers) :
    Except Fault (Message × Buffers) :=
  if val.1.length ≤ 48 then return ({ m with data := m.data.write 0 val.1, isInline := true }, heap)
  else do
    let (ptr, heap) ← malloc answer val.1 heap
    return ({ m with data := (m.data.setSize val.1.length).setPtr ptr, isInline := false }, heap)

/-- The bytes that `as<T>()` refers to, for a type of `n` bytes. -/
def as (m : Message) (heap : Buffers) (n : Nat) : Except Fault (List UInt8) :=
  if m.isInline then
    if n ≤ 48 then .ok (m.data.read 0 n) else .error .undefined
  else load heap m.data.ptr n

/-- The buffer that the message owns. -/
def owned (m : Message) : Option Nat := if m.isInline then none else some m.data.ptr

end Message

end Jellybean.Actor
