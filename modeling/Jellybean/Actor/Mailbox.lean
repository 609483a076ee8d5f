import Jellybean.Actor.Message
import Jellybean.Concurrency.MpmcQueue

namespace Jellybean.Actor

open Concurrency (MpmcQueue.Capacity)

theorem two_le_capacity : 2 ≤ 1024 := by decide

theorem capacity_pow_two : 1024 &&& (1024 - 1) = 0 := by decide

theorem capacity_fits : 64 * 1024 < 2^64 := by decide

/-- `MpmcQueue<Message, 1024>`. -/
def capacity : MpmcQueue.Capacity := ⟨1024, two_le_capacity, capacity_pow_two, capacity_fits⟩

/-- The counters of the queue of a mailbox, as one thread after another uses it. -/
structure Mailbox where
  sequence : Nat → Nat
  enqueuePos : Nat
  dequeuePos : Nat

def Mailbox.empty : Mailbox := ⟨id, 0, 0⟩

/-- Where a message can be: a variable or an optional of the program, the storage of a slot of a
mailbox, and the local variable of `try_pop`. -/
inductive Place where
  | pool (i : Nat)
  | slot (box : Nat) (j : Nat)
  | item
  deriving DecidableEq

structure State where
  objects : Place → Option Message
  heap : Buffers
  boxes : Nat → Mailbox

namespace State

def initial : State := ⟨fun _ => none, .empty, fun _ => .empty⟩

def get (s : State) (p : Place) : Except Fault Message :=
  match s.objects p with
  | none => .error .undefined
  | some m => .ok m

def put (s : State) (p : Place) (m : Message) (heap : Buffers) : State :=
  { s with objects := Function.update s.objects p (some m), heap := heap }

/-- A constructor runs on storage that holds no message. -/
def vacant (s : State) (p : Place) : Except Fault Unit :=
  match s.objects p with
  | none => .ok ()
  | some _ => .error .undefined

def construct (p : Place) (s : State) : Except Fault State := do
  s.vacant p
  return s.put p .default s.heap

def destroy (p : Place) (s : State) : Except Fault State := do
  let (m, heap) ← (← s.get p).destroy s.heap
  return s.put p m heap

def copyTo (p : Place) (raw : Storage) (q : Place) (answer : Option Nat) (s : State) :
    Except Fault State := do
  let (m, heap) ← Message.copy raw (← s.get q) answer s.heap
  return s.put p m heap

def moveTo (p : Place) (raw : Storage) (q : Place) (s : State) : Except Fault State := do
  let (m, rest) := Message.move raw (← s.get q)
  return (s.put q rest s.heap).put p m s.heap

def copyConstruct (p : Place) (raw : Storage) (q : Place) (answer : Option Nat) (s : State) :
    Except Fault State := do
  s.vacant p
  s.copyTo p raw q answer

def moveConstruct (p : Place) (raw : Storage) (q : Place) (s : State) : Except Fault State := do
  s.vacant p
  s.moveTo p raw q

def copyAssign (p q : Place) (answer : Option Nat) (s : State) : Except Fault State :=
  if p = q then .ok s
  else do
    let s ← s.destroy p
    s.copyTo p (← s.get p).data q answer

def moveAssign (p q : Place) (s : State) : Except Fault State :=
  if p = q then .ok s
  else do
    let s ← s.destroy p
    s.moveTo p (← s.get p).data q

def set (p : Place) (val : Payload) (answer : Option Nat) (s : State) : Except Fault State := do
  let s ← s.destroy p
  let (m, heap) ← (← s.get p).fill val answer s.heap
  return s.put p m heap

/-- Writes to the public members. -/
def setHeader (p : Place) (typeId senderShard : UInt32) (senderId : UInt64) (s : State) :
    Except Fault State := do
  let m ← s.get p
  return s.put p { m with typeId := typeId, senderShard := senderShard, senderId := senderId } s.heap

def destruct (p : Place) (s : State) : Except Fault State := do
  let s ← s.destroy p
  return { s with objects := Function.update s.objects p none }

/-- `try_push(std::move(msg))`, and whether it succeeded. With no other thread the position that is
loaded again is the same one. -/
def tryPush (b : Nat) (p : Place) (raw : Storage) (s : State) : Except Fault (State × Bool) :=
  let box := s.boxes b
  let pos := box.enqueuePos
  let diff := (box.sequence (capacity.slot pos) : Int) - pos
  if diff = 0 then do
    let s ← s.moveConstruct (.slot b (capacity.slot pos)) raw p
    let box := { box with
      enqueuePos := pos + 1
      sequence := Function.update box.sequence (capacity.slot pos) (pos + 1) }
    return ({ s with boxes := Function.update s.boxes b box }, true)
  else if diff < 0 then .ok (s, false)
  else .error .endless

/-- `try_pop`, with the place of the optional that it returns, and whether that has a value. -/
def tryPop (b : Nat) (p : Place) (rawItem raw : Storage) (s : State) :
    Except Fault (State × Bool) :=
  let box := s.boxes b
  let pos := box.dequeuePos
  let diff := (box.sequence (capacity.slot pos) : Int) - (pos + 1 : Nat)
  if diff = 0 then do
    let s ← s.moveConstruct .item rawItem (.slot b (capacity.slot pos))
    let s ← s.destruct (.slot b (capacity.slot pos))
    let box := { box with
      dequeuePos := pos + 1
      sequence := Function.update box.sequence (capacity.slot pos) (pos + capacity.mask + 1) }
    let s := { s with boxes := Function.update s.boxes b box }
    let s ← s.moveConstruct p raw .item
    let s ← s.destruct .item
    return (s, true)
  else if diff < 0 then .ok (s, false)
  else .error .endless

end State

/-- The operations of the program on its messages and mailboxes, with what the storage of a new
message held before and the answer of `malloc`. -/
inductive Op where
  | construct (p : Nat)
  | copyConstruct (p : Nat) (raw : Storage) (q : Nat) (answer : Option Nat)
  | moveConstruct (p : Nat) (raw : Storage) (q : Nat)
  | copyAssign (p q : Nat) (answer : Option Nat)
  | moveAssign (p q : Nat)
  | set (p : Nat) (val : Payload) (answer : Option Nat)
  | setHeader (p : Nat) (typeId senderShard : UInt32) (senderId : UInt64)
  | destroy (p : Nat)
  | destruct (p : Nat)
  | tryPush (b p : Nat) (raw : Storage)
  | tryPop (b p : Nat) (rawItem raw : Storage)

namespace Op

/-- Messages that an operation uses exist, and those that it constructs do not. -/
def allowed (s : State) : Op → Bool
  | .construct p | .tryPop _ p _ _ => (s.objects (.pool p)).isNone
  | .copyConstruct p _ q _ | .moveConstruct p _ q =>
    (s.objects (.pool p)).isNone && (s.objects (.pool q)).isSome
  | .copyAssign p q _ | .moveAssign p q =>
    (s.objects (.pool p)).isSome && (s.objects (.pool q)).isSome
  | .set p _ _ | .setHeader p _ _ _ | .destroy p | .destruct p | .tryPush _ p _ =>
    (s.objects (.pool p)).isSome

def perform (s : State) : Op → Except Fault State
  | .construct p => s.construct (.pool p)
  | .copyConstruct p raw q answer => s.copyConstruct (.pool p) raw (.pool q) answer
  | .moveConstruct p raw q => s.moveConstruct (.pool p) raw (.pool q)
  | .copyAssign p q answer => s.copyAssign (.pool p) (.pool q) answer
  | .moveAssign p q => s.moveAssign (.pool p) (.pool q)
  | .set p val answer => s.set (.pool p) val answer
  | .setHeader p typeId senderShard senderId =>
    s.setHeader (.pool p) typeId senderShard senderId
  | .destroy p => s.destroy (.pool p)
  | .destruct p => s.destruct (.pool p)
  | .tryPush b p raw => (s.tryPush b (.pool p) raw).map Prod.fst
  | .tryPop b p rawItem raw => (s.tryPop b (.pool p) rawItem raw).map Prod.fst

def exec (s : State) (op : Op) : Except Fault State :=
  if op.allowed s then op.perform s else .error .misuse

end Op

/-- The state after a sequence of operations of the program. -/
def run (ops : List Op) : Except Fault State := ops.foldlM Op.exec .initial

/-- What a message carries: its header, and its value if it has one. -/
structure Carried where
  typeId : UInt32
  senderShard : UInt32
  senderId : UInt64
  value : Option (List UInt8)

/-- What stays in a message that was moved from or destroyed: a value that is kept inline is not
wiped. -/
def Carried.left (c : Carried) : Carried :=
  { c with value := c.value.filter fun v => v.length ≤ 48 }

/-- Messages as values and mailboxes as bounded queues of values. -/
structure Contents where
  pool : Nat → Option Carried
  boxes : Nat → List Carried

namespace Contents

def initial : Contents := ⟨fun _ => none, fun _ => []⟩

def copy (a : Contents) (p q : Nat) : Contents :=
  { a with pool := Function.update a.pool p (a.pool q) }

def move (a : Contents) (p q : Nat) : Contents :=
  { a with pool :=
      Function.update (Function.update a.pool q ((a.pool q).map Carried.left)) p (a.pool q) }

def modify (a : Contents) (p : Nat) (f : Carried → Carried) : Contents :=
  { a with pool := Function.update a.pool p ((a.pool p).map f) }

def apply (a : Contents) : Op → Contents
  | .construct p => { a with pool := Function.update a.pool p (some ⟨0, 0, 0, none⟩) }
  | .copyConstruct p _ q _ | .copyAssign p q _ => a.copy p q
  | .moveConstruct p _ q => a.move p q
  | .moveAssign p q => if p = q then a else a.move p q
  | .set p val _ => a.modify p fun c => { c with value := some val.1 }
  | .setHeader p typeId senderShard senderId =>
    a.modify p fun c => ⟨typeId, senderShard, senderId, c.value⟩
  | .destroy p => a.modify p Carried.left
  | .destruct p => { a with pool := Function.update a.pool p none }
  | .tryPush b p _ =>
    match a.pool p with
    | none => a
    | some c =>
      if (a.boxes b).length < 1024 then
        ⟨Function.update a.pool p (some c.left), Function.update a.boxes b (a.boxes b ++ [c])⟩
      else a
  | .tryPop b p _ _ =>
    match a.boxes b with
    | [] => a
    | c :: cs => ⟨Function.update a.pool p (some c), Function.update a.boxes b cs⟩

/-- What every message carries after a sequence of operations. -/
def after (ops : List Op) : Contents := ops.foldl apply initial

end Contents

end Jellybean.Actor
