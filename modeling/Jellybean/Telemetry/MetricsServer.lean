import Jellybean.Framework.System
import Jellybean.Telemetry.MetricsExport

namespace Jellybean.Telemetry.MetricsServer

/-- What `executors_` holds when it is iterated; its keys are different. -/
structure Snapshot where
  executors : List (List Char × ExecutorTelemetry)
  nodup : (executors.map Prod.fst).Nodup

def utf8 (text : List Char) : List UInt8 := text.flatMap String.utf8EncodeChar

/-- `data.decode("utf-8")`. -/
def decodeUtf8 (data : List UInt8) : Option (List Char) :=
  data.toByteArray.utf8Decode?.map Array.toList

theorem decodeUtf8_utf8 (text : List Char) : decodeUtf8 (utf8 text) = some text := by
  have hdecode := List.utf8Decode?_utf8Encode (l := text)
  unfold List.utf8Encode at hdecode
  unfold decodeUtf8 utf8
  rw [hdecode]
  rfl

def Snapshot.json (x : Snapshot) : List UInt8 := utf8 (serializeMetricsJson x.executors)

/-- A listening socket. -/
inductive Socket where
  | unopened
  | opened
  | listening
  | shut
  | closed
  deriving DecidableEq

/-- Where the thread that owns the server stands in `start` or `stop`; `destroying` is a `stop` of
the destructor. -/
inductive Control where
  | idle
  | startCas
  | socket
  | bind
  | listen
  | abandon
  | forget
  | storeStopped
  | spawn
  | stopCas (destroying : Bool)
  | shutdown (destroying : Bool)
  | close (destroying : Bool)
  | forgetClosed (destroying : Bool)
  | join (destroying : Bool)
  | leave (destroying : Bool)
  | destroyed
  deriving DecidableEq

/-- Where `accept_loop` stands. -/
inductive Loop (ι : Type*) where
  | none
  | check
  | load
  | accept (fd : Option Nat)
  | failed
  | checkWrite (i : ι) (rest : List UInt8)
  | writing (i : ι) (rest : List UInt8)
  | closing (i : ι)
  | exited
  deriving DecidableEq

/-- Where `metrics_client.py` stands; `gone` is a client that was reset or gave up. -/
inductive Phase where
  | away
  | reading
  | finished
  | gone
  deriving DecidableEq

/-- A connection as the server sees it: in the backlog of a listening socket, or with the
descriptor that `accept` made for it. -/
inductive Conn where
  | none
  | queued (fd : Nat)
  | opened
  | closed
  deriving DecidableEq

/-- A client with its connection: what is on its way and what was read. `served` records what the
server read of the executors for it, `cut` that the server was stopped before all was written. -/
structure Client where
  phase : Phase
  conn : Conn
  buffer : List UInt8
  data : List UInt8
  served : Option Snapshot
  cut : Bool

/-- `misuse` is set where a descriptor is closed that is not open, or where the thread object
would call `std::terminate`; `killed` where `SIGPIPE` ends the process. -/
structure State (ι : Type*) where
  stopped : Bool
  listenFd : Option Nat
  joinable : Bool
  control : Control
  loop : Loop ι
  sockets : Nat → Socket
  made : Nat
  clients : ι → Client
  killed : Bool
  misuse : Bool

def initial {ι : Type*} : State ι where
  stopped := true
  listenFd := none
  joinable := false
  control := .idle
  loop := .none
  sockets := fun _ => .unopened
  made := 0
  clients := fun _ => ⟨.away, .none, [], [], none, false⟩
  killed := false
  misuse := false

inductive Action (ι : Type*) where
  | start
  | stop (destroying : Bool)
  /-- The next access or system call of the owning thread; `ok` is whether the latter succeeds. -/
  | control (ok : Bool)
  /-- The next access of `accept_loop`. -/
  | loop
  | accept (i : ι) (x : Snapshot)
  /-- `accept` fails although the socket is listening. -/
  | acceptError
  /-- `::write` accepts `k` bytes. -/
  | write (k : Nat)
  | writeError
  | sigpipe
  | connect (i : ι) (fd : Nat)
  /-- `s.recv(4096)` returns `k` bytes. -/
  | recv (i : ι) (k : Nat)
  | eof (i : ι)
  /-- The client is reset, times out or hangs up. -/
  | give (i : ι)

variable {ι : Type*}

/-- `::close` of the listening socket. -/
def closeSocket (s : State ι) (fd : Nat) (next : Control) : State ι :=
  match s.sockets fd with
  | .unopened | .closed => { s with control := next, misuse := true }
  | _ => { s with control := next, sockets := Function.update s.sockets fd .closed }

/-- The step of the owning thread. -/
def controlStep (s : State ι) (ok : Bool) : Option (State ι) :=
  match s.control with
  | .idle | .destroyed => none
  | .startCas =>
    if s.stopped then some { s with stopped := false, control := .socket }
    else some { s with control := .idle }
  | .socket =>
    if ok then
      some { s with
        listenFd := some s.made
        sockets := Function.update s.sockets s.made .opened
        made := s.made + 1
        control := .bind }
    else some { s with listenFd := none, control := .storeStopped }
  | .bind => some { s with control := if ok then .listen else .abandon }
  | .listen =>
    match s.listenFd with
    | some fd =>
      if ok then
        some { s with sockets := Function.update s.sockets fd .listening, control := .spawn }
      else some { s with control := .abandon }
    | none => some { s with control := .abandon }
  | .abandon =>
    match s.listenFd with
    | some fd => some (closeSocket s fd .forget)
    | none => some { s with control := .forget }
  | .forget => some { s with listenFd := none, control := .storeStopped }
  | .storeStopped => some { s with stopped := true, control := .idle }
  | .spawn =>
    if s.joinable then some { s with misuse := true, control := .idle }
    else some { s with joinable := true, loop := .check, control := .idle }
  | .stopCas d =>
    if s.stopped then some { s with control := .leave d }
    else some { s with stopped := true, control := .shutdown d }
  | .shutdown d =>
    match s.listenFd with
    | some fd =>
      match s.sockets fd with
      | .listening =>
        some { s with sockets := Function.update s.sockets fd .shut, control := .close d }
      | _ => some { s with control := .close d }
    | none => some { s with control := .join d }
  | .close d =>
    match s.listenFd with
    | some fd => some (closeSocket s fd (.forgetClosed d))
    | none => some { s with control := .forgetClosed d }
  | .forgetClosed d => some { s with listenFd := none, control := .join d }
  | .join d =>
    if s.joinable then
      match s.loop with
      | .exited => some { s with joinable := false, loop := .none, control := .leave d }
      | _ => none
    else some { s with control := .leave d }
  | .leave d =>
    if d then
      if s.joinable then some { s with misuse := true, control := .destroyed }
      else some { s with control := .destroyed }
    else some { s with control := .idle }

variable [DecidableEq ι]

def setClient (s : State ι) (i : ι) (c : Client) : State ι :=
  { s with clients := Function.update s.clients i c }

/-- A step of `accept_loop` apart from its system calls; `accept` fails on a socket that does not
listen. -/
def loopStep (s : State ι) : Option (State ι) :=
  match s.loop with
  | .none | .exited | .writing _ _ => none
  | .check => some { s with loop := if s.stopped then .exited else .load }
  | .load => some { s with loop := .accept s.listenFd }
  | .accept fd =>
    match fd.map s.sockets with
    | some .listening => none
    | _ => some { s with loop := .failed }
  | .failed => some { s with loop := if s.stopped then .exited else .check }
  | .checkWrite i rest =>
    if rest = [] then some { s with loop := .closing i }
    else if s.stopped then
      some { setClient s i { s.clients i with cut := true } with loop := .closing i }
    else some { s with loop := .writing i rest }
  | .closing i =>
    match (s.clients i).conn with
    | .opened => some { setClient s i { s.clients i with conn := .closed } with loop := .check }
    | _ => some { s with loop := .check, misuse := true }

/-- `accept` also returns the connection of a client that is gone by now. -/
def accept (s : State ι) (i : ι) (x : Snapshot) : Option (State ι) :=
  match s.loop, (s.clients i).conn with
  | .accept (some fd), .queued fd' =>
    if fd = fd' ∧ s.sockets fd = .listening then
      some { setClient s i { s.clients i with conn := .opened, served := some x } with
        loop := .checkWrite i x.json }
    else none
  | _, _ => none

/-- `::write` to a client that is gone may still seem to succeed. -/
def write (capacity : Nat) (s : State ι) (k : Nat) : Option (State ι) :=
  match s.loop with
  | .writing i rest =>
    if 0 < k ∧ k ≤ rest.length ∧ (s.clients i).buffer.length + k ≤ capacity then
      some { setClient s i
          { s.clients i with buffer := (s.clients i).buffer ++ rest.take k } with
        loop := .checkWrite i (rest.drop k) }
    else none
  | _ => none

/-- Only a client that is gone makes `::write` fail. -/
def writeError (s : State ι) (killed : Bool) : Option (State ι) :=
  match s.loop with
  | .writing i _ =>
    if (s.clients i).phase = .gone then some { s with loop := .closing i, killed := killed }
    else none
  | _ => none

def clientStep (s : State ι) (i : ι) : Action ι → Option (State ι)
  | .connect _ fd =>
    if (s.clients i).phase = .away ∧ s.sockets fd = .listening then
      some (setClient s i { s.clients i with phase := .reading, conn := .queued fd })
    else none
  | .recv _ k =>
    if (s.clients i).phase = .reading ∧ 0 < k ∧ k ≤ 4096 ∧ k ≤ (s.clients i).buffer.length then
      some (setClient s i { s.clients i with
        buffer := (s.clients i).buffer.drop k
        data := (s.clients i).data ++ (s.clients i).buffer.take k })
    else none
  | .eof _ =>
    if (s.clients i).phase = .reading ∧ (s.clients i).buffer = [] ∧
        (s.clients i).conn = .closed then
      some (setClient s i { s.clients i with phase := .finished })
    else none
  | .give _ =>
    if (s.clients i).phase = .reading then
      some (setClient s i { s.clients i with phase := .gone })
    else none
  | _ => none

def step (capacity : Nat) (s : State ι) (a : Action ι) : Option (State ι) :=
  if s.killed then none
  else
    match a with
    | .start =>
      match s.control with
      | .idle => some { s with control := .startCas }
      | _ => none
    | .stop d =>
      match s.control with
      | .idle => some { s with control := .stopCas d }
      | _ => none
    | .control ok => controlStep s ok
    | .loop => loopStep s
    | .accept i x => accept s i x
    | .acceptError =>
      match s.loop with
      | .accept _ => some { s with loop := .failed }
      | _ => none
    | .write k => write capacity s k
    | .writeError => writeError s false
    | .sigpipe => writeError s true
    | .connect i _ | .recv i _ | .eof i | .give i => clientStep s i a

/-- The server, whose socket buffers take `capacity` bytes, with its owner and its clients. -/
def system (ι : Type*) [DecidableEq ι] (capacity : Nat) : System (State ι) (Action ι) where
  init s := s = initial
  step := step capacity

end Jellybean.Telemetry.MetricsServer
