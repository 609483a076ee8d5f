import Jellybean.Server.InferClient
import Jellybean.Server.SessionPayload
import Jellybean.Server.SessionRead
import Jellybean.Server.SessionValidation

namespace Jellybean.Server.Conversation

open Inference

variable {α : Type*}

/-- Where the loop of `infer_client.py` stands, with the number of its turns that are left after
this one. -/
inductive Client where
  | sending (left : Nat) (unsent : List UInt8)
  | receiving (left : Nat)
  | done
  deriving DecidableEq

/-- Where the session stands: in a read, in `co_await infer_future`, or before the writes that are
still to come. -/
inductive Session where
  | reading (pc : SessionRead.Pc)
  | inferring (r : Request)
  | writing (writes : List (List UInt8))
  deriving DecidableEq

/-- A client and its session. The bytes `toServer` are on their way, `arrived` are in the socket of
the session; `decoded`, `exchanges` and `replies` record what each side has got. -/
structure State (α : Type*) where
  client : Client
  toServer : List UInt8
  arrived : List UInt8
  session : Session
  toClient : List UInt8
  decoded : List Request
  exchanges : List (Exchange α)
  replies : List Reply

/-- What the runtime does with a request. -/
structure Answer (req : InferenceRequest α) where
  response : InferenceResponse
  outputBuf : List UInt8
  responds : Responds req response
  length_outputBuf : outputBuf.length = 4 * req.outputBuffer.length

def Answer.exchange {req : InferenceRequest α} (x : Answer req) : Exchange α :=
  ⟨req, x.response, x.outputBuf, x.responds, x.length_outputBuf⟩

/-- `build` is how a session makes its request to the runtime. -/
inductive Action (build : Request → InferenceRequest α) where
  /-- `sock.send` accepts `k` bytes. -/
  | send (k : Nat)
  /-- The network hands over `k` bytes. -/
  | deliver (k : Nat)
  /-- The read that the session waits for. -/
  | read
  | respond (answer : (r : Request) → Answer (build r))
  /-- `::send` accepts `k` bytes of the write. -/
  | write (k : Nat)
  /-- `::send` reports `EAGAIN`. -/
  | refuse
  /-- The reading half of the client's turn, which waits for all of its bytes. -/
  | receive

/-- The loop goes on with the next turn, which sends `bytes`. -/
def Client.next (bytes : List UInt8) : Nat → Client
  | 0 => .done
  | left + 1 => .sending left bytes

/-- `while view`. -/
def Client.sendAll (left : Nat) (unsent : List UInt8) : Client :=
  if unsent = [] then .receiving left else .sending left unsent

/-- The session goes on to its next read or has a request. -/
def Session.accepted : SessionRead.Pc × List Request → Session
  | (pc, []) => .reading pc
  | (_, r :: _) => .inferring r

def Session.afterWrite : List (List UInt8) → Session
  | [] => .reading .readLen
  | w :: ws => .writing (w :: ws)

def initial (bytes : List UInt8) (requests : Nat) : State α :=
  ⟨.next bytes requests, [], [], .reading .readLen, [], [], [], []⟩

/-- The session is resumed when there are bytes or the client has hung up. -/
def readable (s : State α) : Bool :=
  !s.arrived.isEmpty || (s.toServer.isEmpty && s.client == .done)

variable {build : Request → InferenceRequest α}

def step (bytes : List UInt8) (s : State α) : Action build → Option (State α)
  | .send k =>
    match s.client with
    | .sending left unsent =>
      if 0 < k ∧ k ≤ unsent.length then
        some { s with
          client := .sendAll left (unsent.drop k)
          toServer := s.toServer ++ unsent.take k }
      else none
    | _ => none
  | .deliver k =>
    if 0 < k ∧ k ≤ s.toServer.length then
      some { s with toServer := s.toServer.drop k, arrived := s.arrived ++ s.toServer.take k }
    else none
  | .read =>
    match s.session with
    | .reading .closed => none
    | .reading pc =>
      if readable s = true then
        let got := s.arrived.take pc.want
        if got = [] then some { s with session := .reading .closed }
        else
          some { s with
            arrived := s.arrived.drop pc.want
            session := .accepted (pc.accept got)
            decoded := s.decoded ++ (pc.accept got).2 }
      else none
    | _ => none
  | .respond answer =>
    match s.session with
    | .inferring r =>
      some { s with
        session := .writing (answer r).exchange.sent.writes
        exchanges := s.exchanges ++ [(answer r).exchange] }
    | _ => none
  | .write k =>
    match s.session with
    | .writing (w :: ws) =>
      if 0 < k ∧ k ≤ w.length then
        some { s with session := .afterWrite ws, toClient := s.toClient ++ w.take k }
      else none
    | _ => none
  | .refuse =>
    match s.session with
    | .writing (_ :: ws) => some { s with session := .afterWrite ws }
    | _ => none
  | .receive =>
    match s.client with
    | .receiving left =>
      (readResponse s.toClient).map fun got =>
        { s with
          client := .next bytes left
          toClient := got.2
          replies := s.replies ++ [got.1] }
    | _ => none

def system (build : Request → InferenceRequest α) (bytes : List UInt8) (requests : Nat) :
    System (State α) (Action build) where
  init s := s = initial bytes requests
  step := step bytes

/-- Only the payload is read in a loop; any other field has to have arrived whole. -/
def Session.FieldArrived (arrived : List UInt8) : Session → Prop
  | .reading (.readPayload _ _ _) => True
  | .reading pc => arrived = [] ∨ pc.want ≤ arrived.length
  | .inferring _ | .writing _ => True

def Session.Whole (k : Nat) : Session → Prop
  | .writing (w :: _) => k = w.length
  | _ => True

/-- No read of a field finds only a part of it, and every write is complete. -/
def Undisturbed (s : State α) : Action build → Prop
  | .read => s.session.FieldArrived s.arrived
  | .write k => s.session.Whole k
  | .refuse => False
  | .send _ | .deliver _ | .respond _ | .receive => True

instance (arrived : List UInt8) : (x : Session) → Decidable (x.FieldArrived arrived)
  | .reading (.readPayload _ _ _) | .inferring _ | .writing _ => .isTrue trivial
  | .reading .readLen | .reading (.readModelId _) | .reading (.readInputElems _)
  | .reading .closed => inferInstanceAs (Decidable (_ ∨ _))

instance (k : Nat) : (x : Session) → Decidable (x.Whole k)
  | .writing (w :: _) => inferInstanceAs (Decidable (k = w.length))
  | .writing [] | .reading _ | .inferring _ => .isTrue trivial

instance (s : State α) : (a : Action build) → Decidable (Undisturbed s a)
  | .read => inferInstanceAs (Decidable (s.session.FieldArrived s.arrived))
  | .write k => inferInstanceAs (Decidable (s.session.Whole k))
  | .refuse => .isFalse id
  | .send _ | .deliver _ | .respond _ | .receive => .isTrue trivial

/-! What each step can do. -/

variable {bytes : List UInt8} {s t : State α} {k : Nat}

theorem send_cases (ht : step bytes s (.send k : Action build) = some t) :
    ∃ left unsent, s.client = .sending left unsent ∧ 0 < k ∧ k ≤ unsent.length ∧
      t = { s with
        client := .sendAll left (unsent.drop k)
        toServer := s.toServer ++ unsent.take k } := by
  unfold step at ht
  dsimp only at ht
  split at ht
  · rename_i left unsent hc
    obtain ⟨⟨hpos, hle⟩, ht⟩ := Option.ite_none_right_eq_some.mp ht
    cases ht
    exact ⟨left, unsent, hc, hpos, hle, rfl⟩
  · cases ht

theorem deliver_cases (ht : step bytes s (.deliver k : Action build) = some t) :
    0 < k ∧ k ≤ s.toServer.length ∧
      t = { s with toServer := s.toServer.drop k, arrived := s.arrived ++ s.toServer.take k } := by
  obtain ⟨⟨hpos, hle⟩, ht⟩ := Option.ite_none_right_eq_some.mp ht
  cases ht
  exact ⟨hpos, hle, rfl⟩

theorem read_cases (ht : step bytes s (.read : Action build) = some t) :
    ∃ pc, s.session = .reading pc ∧ pc ≠ .closed ∧ readable s = true ∧
      (s.arrived.take pc.want = [] ∧ t = { s with session := .reading .closed } ∨
        s.arrived.take pc.want ≠ [] ∧ t = { s with
          arrived := s.arrived.drop pc.want
          session := .accepted (pc.accept (s.arrived.take pc.want))
          decoded := s.decoded ++ (pc.accept (s.arrived.take pc.want)).2 }) := by
  unfold step at ht
  dsimp only at ht
  split at ht
  · cases ht
  · rename_i pc hopen hs
    obtain ⟨hreadable, ht⟩ := Option.ite_none_right_eq_some.mp ht
    refine ⟨pc, hs, hopen, hreadable, ?_⟩
    split_ifs at ht with hgot
    · cases ht
      exact .inl ⟨hgot, rfl⟩
    · cases ht
      exact .inr ⟨hgot, rfl⟩
  · cases ht

theorem respond_cases {answer : (r : Request) → Answer (build r)}
    (ht : step bytes s (.respond answer) = some t) :
    ∃ r, s.session = .inferring r ∧ t = { s with
      session := .writing (answer r).exchange.sent.writes
      exchanges := s.exchanges ++ [(answer r).exchange] } := by
  unfold step at ht
  dsimp only at ht
  split at ht
  · rename_i r hs
    cases ht
    exact ⟨r, hs, rfl⟩
  · cases ht

theorem write_cases (ht : step bytes s (.write k : Action build) = some t) :
    ∃ w ws, s.session = .writing (w :: ws) ∧ 0 < k ∧ k ≤ w.length ∧
      t = { s with session := .afterWrite ws, toClient := s.toClient ++ w.take k } := by
  unfold step at ht
  dsimp only at ht
  split at ht
  · rename_i w ws hs
    obtain ⟨⟨hpos, hle⟩, ht⟩ := Option.ite_none_right_eq_some.mp ht
    cases ht
    exact ⟨w, ws, hs, hpos, hle, rfl⟩
  · cases ht

theorem receive_cases (ht : step bytes s (.receive : Action build) = some t) :
    ∃ left reply rest, s.client = .receiving left ∧
      readResponse s.toClient = some (reply, rest) ∧
      t = { s with
        client := .next bytes left
        toClient := rest
        replies := s.replies ++ [reply] } := by
  unfold step at ht
  dsimp only at ht
  split at ht
  · rename_i left hc
    obtain ⟨⟨reply, rest⟩, hread, rfl⟩ := Option.map_eq_some_iff.mp ht
    exact ⟨left, reply, rest, hc, hread, rfl⟩
  · cases ht

end Jellybean.Server.Conversation
