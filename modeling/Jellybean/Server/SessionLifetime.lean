import Jellybean.Framework.System
import Jellybean.Server.WireProtocol

namespace Jellybean.Server.SessionLifetime

/-- Where a `session` coroutine is suspended. -/
inductive Point where
  | initial
  | readModelIdLen
  | readModelId (modelIdLen : Nat)
  | readInputElems
  | readPayload (bytesToRead bytesRead : Nat)
  | inferFuture
  | writeStatus (ok : Bool) (outElems : Nat)
  | writeLatency (ok : Bool) (outElems : Nat)
  | writeOutElems (ok : Bool) (outElems : Nat)
  | writeOutput
  | final
  deriving DecidableEq

/-- What the code meets between one suspension and the next. -/
structure Wakeup where
  /-- Result of the awaited read. -/
  n : Int := 1
  /-- The value now in `model_id_len` or `input_elems`. -/
  value : Nat := 0
  /-- A `resize`, `infer_async` or the `get` of a ready future throws. -/
  throws : Bool := false
  /-- `await_ready` of the future. -/
  ready : Bool := false
  ok : Bool := true
  outElems : Nat := 0
  /-- Result of `accept`; `none` for an error. -/
  clientFd : Option Nat := none
  deriving DecidableEq

/-- `while (g_running)`. -/
def loopHead (gRunning : Bool) : Point := if gRunning then .readModelIdLen else .final

/-- `output_buf.resize`, `infer_async` and the `co_await` on its future. -/
def inferAsync (w : Wakeup) : Point :=
  if w.throws then .final else if w.ready then .writeStatus w.ok w.outElems else .inferFuture

/-- `while (bytes_read < bytes_to_read)`. -/
def payloadLoop (w : Wakeup) (bytesToRead bytesRead : Nat) : Point :=
  if bytesRead < bytesToRead then .readPayload bytesToRead bytesRead else inferAsync w

/-- The body of `session` from one suspension to the next. Every exception it can meet is caught
and runs into the same `co_return`. The results of the writes are only logged. -/
def session (gRunning : Bool) (w : Wakeup) : Point → Point
  | .initial => loopHead gRunning
  | .readModelIdLen => if w.n ≤ 0 ∨ w.throws then .final else .readModelId w.value
  | .readModelId _ => if w.n ≤ 0 then .final else .readInputElems
  | .readInputElems =>
    if w.n ≤ 0 then .final
    else if w.value > maxElems then .final
    else if w.throws then .final
    else payloadLoop w (w.value * 4) 0
  | .readPayload bytesToRead bytesRead =>
    if w.n ≤ 0 then .final else payloadLoop w bytesToRead (bytesRead + w.n.toNat)
  | .inferFuture => .writeStatus w.ok w.outElems
  | .writeStatus ok outElems => .writeLatency ok outElems
  | .writeLatency ok outElems => .writeOutElems ok outElems
  | .writeOutElems ok outElems =>
    if ok ∧ outElems > 0 then .writeOutput else loopHead gRunning
  | .writeOutput => loopHead gRunning
  | .final => .final

/-- `fd_` is `none` for -1. -/
structure AsyncSocket where
  fd : Option Nat
  deriving DecidableEq

/-- The new socket and the one moved from. -/
def AsyncSocket.move (sock : AsyncSocket) : AsyncSocket × AsyncSocket := (⟨sock.fd⟩, ⟨none⟩)

/-- A frame of `session` with its parameter `sock`. -/
structure CoroutineFrame where
  sock : AsyncSocket
  point : Point
  deriving DecidableEq

inductive Handle where
  | acceptLoop
  | session (i : Nat)
  deriving DecidableEq

inductive AcceptPoint where
  | initial
  | accepting
  | final
  deriving DecidableEq

/-- Where the thread of the reactor is in `run`. -/
inductive Phase where
  | outside
  | loopHead
  | fibers
  | poll
  | dispatch
  deriving DecidableEq

structure State where
  gRunning : Bool
  running : Bool
  phase : Phase
  acceptPoint : AcceptPoint
  /-- The frames of the sessions in order of creation, `none` for a destroyed one. -/
  frames : List (Option CoroutineFrame)
  openFds : List Nat
  runQueue : List Handle
  scratchQueue : List Handle
  externalQueue : List Handle
  /-- Armed registrations. -/
  epoll : List Handle
  events : List Handle
  /-- Tasks of the `ContinuationPool`. -/
  pool : List Handle
  deriving DecidableEq

namespace State

/-- `~AsyncSocket`. -/
def closeSocket (s : State) (sock : AsyncSocket) : State :=
  match sock.fd with
  | some fd => { s with openFds := s.openFds.erase fd }
  | none => s

/-- `handle.destroy()`; the registration goes with the descriptor. -/
def destroy (s : State) (i : Nat) : State :=
  match s.frames[i]? with
  | some (some f) =>
    { s.closeSocket f.sock with
      frames := s.frames.set i none
      epoll := s.epoll.erase (.session i) }
  | _ => s

/-- On the thread of the reactor. -/
def schedule (s : State) (h : Handle) : State := { s with runQueue := s.runQueue ++ [h] }

/-- `epoll_ctl` with `EPOLLONESHOT`. -/
def arm (s : State) (h : Handle) : State := { s with epoll := s.epoll.insert h }

end State

/-- `Task<>` of a session. -/
structure Task where
  handle : Option Nat

/-- The handle and the task afterwards. -/
def Task.release (t : Task) : Option Nat × Task := (t.handle, ⟨none⟩)

/-- `~Task`. -/
def Task.drop (t : Task) (s : State) : State :=
  match t.handle with
  | some i => s.destroy i
  | none => s

namespace State

/-- `while (g_running)` of `accept_loop`, up to the suspension. -/
def acceptHead (s : State) : State :=
  if s.gRunning then { s with acceptPoint := .accepting }.arm .acceptLoop
  else { s with acceptPoint := .final }

/-- The call of `session`: the frame is built and the socket moved into it. -/
def callSession (s : State) (sock : AsyncSocket) : State × Task :=
  let moved := sock.move
  let t : State := { s with frames := s.frames ++ [some ⟨moved.1, .initial⟩] }
  (t.closeSocket moved.2, ⟨some s.frames.length⟩)

/-- The body of `accept_loop` from one suspension to the next. -/
def acceptLoop (s : State) (clientFd : Option Nat) : State :=
  match s.acceptPoint, clientFd with
  | .initial, _ => s.acceptHead
  | .accepting, some fd =>
    let t := State.callSession { s with openFds := s.openFds ++ [fd] } ⟨some fd⟩
    let released := t.2.release
    let u := match released.1 with
      | some i => t.1.schedule (.session i)
      | none => t.1
    (released.2.drop u).acceptHead
  | .accepting, none => s.acceptHead
  | .final, _ => s

/-- A session suspends. `final_suspend` is `suspend_always`, so at the end nothing happens. -/
def suspend (s : State) (i : Nat) (f : CoroutineFrame) (p : Point) : State :=
  let t := { s with frames := s.frames.set i (some { f with point := p }) }
  match p with
  | .initial => t
  | .inferFuture => { t with pool := t.pool ++ [.session i] }
  | .final => t
  | _ => t.arm (.session i)

/-- `if (h && !h.done()) h.resume()`; the handle of a destroyed frame must not be used. -/
def resume (s : State) (w : Wakeup) : Handle → Option State
  | .acceptLoop =>
    if ∃ fd ∈ w.clientFd, fd ∈ s.openFds then none else some (s.acceptLoop w.clientFd)
  | .session i =>
    match s.frames[i]? with
    | some (some f) =>
      if f.point = .final then some s else some (s.suspend i f (session s.gRunning w f.point))
    | _ => none

end State

inductive Action where
  /-- `main` calls `reactor.run()`. -/
  | run
  /-- The loop head with `process_external_queue` and the swap of the queues. -/
  | loop
  /-- The next handle of `scratch_queue_`, or the end of this loop and the timers. -/
  | fiber (w : Wakeup)
  /-- `epoll_wait`. -/
  | poll (ready : List Handle)
  /-- The next event, or the end of `poll`. -/
  | event (w : Wakeup)
  /-- A task of the pool has its future's value and schedules the coroutine. -/
  | poolDone (h : Handle)
  /-- `signal_handler`; `Reactor::current()` is null on a thread without a reactor. -/
  | signal (onReactor : Bool)
  deriving DecidableEq

def step (s : State) : Action → Option State
  | .run =>
    if s.phase = .outside ∧ s.gRunning then some { s with phase := .loopHead, running := true }
    else none
  | .loop =>
    if s.phase = .loopHead then
      if s.running then
        some { s with phase := .fibers, scratchQueue := s.runQueue ++ s.externalQueue, runQueue := [],
                      externalQueue := [] }
      else some { s with phase := .outside }
    else none
  | .fiber w =>
    if s.phase = .fibers then
      match s.scratchQueue with
      | [] => some { s with phase := .poll }
      | h :: hs => { s with scratchQueue := hs }.resume w h
    else none
  | .poll ready =>
    if s.phase = .poll ∧ ready.Nodup ∧ (∀ h ∈ ready, h ∈ s.epoll) ∧ ready.length ≤ 128 then
      some { s with phase := .dispatch, events := ready, epoll := s.epoll.filter (· ∉ ready) }
    else none
  | .event w =>
    if s.phase = .dispatch then
      match s.events with
      | [] => some { s with phase := .loopHead }
      | h :: hs => { s with events := hs }.resume w h
    else none
  | .poolDone h =>
    if h ∈ s.pool ∧ s.externalQueue.length < 1024 then
      some { s with pool := s.pool.erase h, externalQueue := s.externalQueue ++ [h] }
    else none
  | .signal onReactor =>
    some { s with gRunning := false, running := if onReactor then false else s.running }

/-- `main` has scheduled `accept_loop`; no thread of a reactor is known yet, so its handle is in
`external_queue_`. -/
def initial : State where
  gRunning := true
  running := false
  phase := .outside
  acceptPoint := .initial
  frames := []
  openFds := []
  runQueue := []
  scratchQueue := []
  externalQueue := [.acceptLoop]
  epoll := []
  events := []
  pool := []

def system : System State Action where
  init s := s = initial
  step := step

/-! What a step does to the frames and to the descriptors. -/

/-- The resumption from `p` runs into a `co_return`. -/
def Ends (gRunning : Bool) (w : Wakeup) : Point → Prop
  | .initial | .writeOutput => gRunning = false
  | .readModelIdLen => w.n ≤ 0 ∨ w.throws = true
  | .readModelId _ => w.n ≤ 0
  | .readInputElems => w.n ≤ 0 ∨ w.value > maxElems ∨ w.throws = true
  | .readPayload bytesToRead bytesRead =>
    w.n ≤ 0 ∨ bytesToRead ≤ bytesRead + w.n.toNat ∧ w.throws = true
  | .writeOutElems ok outElems => gRunning = false ∧ ¬ (ok = true ∧ outElems > 0)
  | _ => False

theorem loopHead_eq_final {gRunning : Bool} : loopHead gRunning = .final ↔ gRunning = false := by
  cases gRunning <;> simp [loopHead]

theorem inferAsync_eq_final {w : Wakeup} : inferAsync w = .final ↔ w.throws = true := by
  unfold inferAsync
  split_ifs with ht hr <;> simp [ht]

theorem payloadLoop_eq_final {w : Wakeup} {total got : Nat} :
    payloadLoop w total got = .final ↔ total ≤ got ∧ w.throws = true := by
  unfold payloadLoop
  split_ifs with h
  · simp [h]
  · rw [inferAsync_eq_final]
    simp [Nat.le_of_not_lt h]

theorem session_eq_final {gRunning : Bool} {w : Wakeup} {p : Point} (hp : p ≠ .final) :
    session gRunning w p = .final ↔ Ends gRunning w p := by
  cases p with
  | initial => exact loopHead_eq_final
  | writeOutput => exact loopHead_eq_final
  | readModelIdLen =>
    simp only [session, Ends]
    split_ifs with h <;> simp [h]
  | readModelId len => simp [session, Ends]
  | readInputElems =>
    simp only [session, Ends]
    split_ifs with hn hv ht
    · simp [hn]
    · simp [hv]
    · simp [ht]
    · simp [payloadLoop_eq_final, hn, hv, ht]
  | readPayload total got =>
    simp only [session, Ends]
    split_ifs with hn
    · simp [hn]
    · simp [payloadLoop_eq_final, hn]
  | inferFuture => simp [session, Ends]
  | writeStatus ok e => simp [session, Ends]
  | writeLatency ok e => simp [session, Ends]
  | writeOutElems ok e =>
    simp only [session, Ends]
    split_ifs with h
    · simp [h]
    · simp [loopHead_eq_final, h]
  | final => exact absurd rfl hp

/-- The session that the action resumes, with what it meets. -/
def State.resumes (s : State) : Action → Option (Handle × Wakeup)
  | .fiber w => if s.phase = .fibers then s.scratchQueue.head?.map (·, w) else none
  | .event w => if s.phase = .dispatch then s.events.head?.map (·, w) else none
  | _ => none

/-- The action resumes a session that ends. -/
def EndsSession (s : State) (a : Action) : Prop :=
  ∃ i w f, s.resumes a = some (.session i, w) ∧ s.frames[i]? = some (some f) ∧ f.point ≠ .final ∧
    Ends s.gRunning w f.point

instance (gRunning : Bool) (w : Wakeup) : (p : Point) → Decidable (Ends gRunning w p)
  | .initial | .writeOutput => inferInstanceAs (Decidable (gRunning = false))
  | .readModelIdLen => inferInstanceAs (Decidable (w.n ≤ 0 ∨ w.throws = true))
  | .readModelId _ => inferInstanceAs (Decidable (w.n ≤ 0))
  | .readInputElems =>
    inferInstanceAs (Decidable (w.n ≤ 0 ∨ w.value > maxElems ∨ w.throws = true))
  | .readPayload bytesToRead bytesRead =>
    inferInstanceAs (Decidable
      (w.n ≤ 0 ∨ bytesToRead ≤ bytesRead + w.n.toNat ∧ w.throws = true))
  | .writeOutElems ok outElems =>
    inferInstanceAs (Decidable (gRunning = false ∧ ¬ (ok = true ∧ outElems > 0)))
  | .inferFuture | .writeStatus .. | .writeLatency .. | .final => .isFalse id

def State.frame (s : State) : Handle → Option CoroutineFrame
  | .acceptLoop => none
  | .session i => s.frames[i]?.join

instance (s : State) (a : Action) : Decidable (EndsSession s a) :=
  decidable_of_iff (∃ r ∈ s.resumes a, ∃ f ∈ s.frame r.1, f.point ≠ .final ∧
      Ends s.gRunning r.2 f.point) <| by
    constructor
    · rintro ⟨⟨h, w⟩, hr, f, hf, hp, he⟩
      cases h with
      | acceptLoop => cases hf
      | session i => exact ⟨i, w, f, hr, Option.join_eq_some_iff.mp hf, hp, he⟩
    · rintro ⟨i, w, f, hr, hf, hp, he⟩
      exact ⟨(.session i, w), hr, f, Option.join_eq_some_iff.mpr hf, hp, he⟩

/-- Everything that a step can do to `frames` and `openFds`. -/
inductive Effect (s t : State) : Option (Handle × Wakeup) → Prop
  | quiet {r} : t.frames = s.frames → t.openFds = s.openFds →
      (∀ i w f, r = some (.session i, w) → s.frames[i]? = some (some f) → f.point = .final) →
      Effect s t r
  | accepted {w} (fd : Nat) : t.frames = s.frames ++ [some ⟨⟨some fd⟩, .initial⟩] →
      t.openFds = s.openFds ++ [fd] → Effect s t (some (.acceptLoop, w))
  | resumed {i w} (f : CoroutineFrame) : s.frames[i]? = some (some f) → f.point ≠ .final →
      t.frames = s.frames.set i (some { f with point := session s.gRunning w f.point }) →
      t.openFds = s.openFds → Effect s t (some (.session i, w))

@[simp] theorem State.arm_frames (s : State) (h : Handle) : (s.arm h).frames = s.frames := rfl
@[simp] theorem State.arm_openFds (s : State) (h : Handle) : (s.arm h).openFds = s.openFds := rfl

theorem State.acceptHead_frames (s : State) :
    s.acceptHead.frames = s.frames ∧ s.acceptHead.openFds = s.openFds := by
  unfold State.acceptHead
  split <;> exact ⟨rfl, rfl⟩

theorem State.acceptLoop_effect (s : State) (w : Wakeup) :
    Effect s (s.acceptLoop w.clientFd) (some (.acceptLoop, w)) := by
  have hquiet : Effect s s.acceptHead (some (.acceptLoop, w)) :=
    .quiet s.acceptHead_frames.1 s.acceptHead_frames.2 (by simp)
  unfold State.acceptLoop
  split
  · exact hquiet
  · next fd _ _ =>
    apply Effect.accepted fd
    · apply (State.acceptHead_frames _).1.trans
      rfl
    · apply (State.acceptHead_frames _).2.trans
      rfl
  · exact hquiet
  · exact .quiet rfl rfl (by simp)

theorem State.suspend_frames (s : State) (i : Nat) (f : CoroutineFrame) (p : Point) :
    (s.suspend i f p).frames = s.frames.set i (some { f with point := p }) ∧
      (s.suspend i f p).openFds = s.openFds := by
  cases p <;> exact ⟨rfl, rfl⟩

theorem State.resume_effect {s t : State} {w : Wakeup} {h : Handle} (ht : s.resume w h = some t) :
    Effect s t (some (h, w)) := by
  cases h with
  | acceptLoop =>
    simp only [State.resume] at ht
    split at ht
    · cases ht
    · cases ht
      exact s.acceptLoop_effect w
  | session i =>
    simp only [State.resume] at ht
    split at ht
    · next f hf =>
      split at ht
      · next hp =>
        cases ht
        refine .quiet rfl rfl ?_
        intro j v g hj hg
        cases hj
        rw [hf] at hg
        cases hg
        exact hp
      · next hp =>
        cases ht
        exact .resumed f hf hp (s.suspend_frames i f _).1 (s.suspend_frames i f _).2
    · cases ht

theorem Effect.of_eq {s s' t : State} {r : Option (Handle × Wakeup)} (h : Effect s' t r)
    (hf : s'.frames = s.frames) (ho : s'.openFds = s.openFds) (hg : s'.gRunning = s.gRunning) :
    Effect s t r := by
  cases h with
  | quiet h1 h2 h3 => exact .quiet (h1.trans hf) (h2.trans ho) (hf ▸ h3)
  | accepted fd h1 h2 => exact .accepted fd (hf ▸ h1) (ho ▸ h2)
  | resumed f h1 h2 h3 h4 =>
    apply Effect.resumed f (hf ▸ h1) h2
    · rw [h3, hf, hg]
    · exact h4.trans ho

theorem step_effect {s t : State} {a : Action} (ht : step s a = some t) :
    Effect s t (s.resumes a) := by
  cases a with
  | run =>
    simp only [step] at ht
    split at ht <;> cases ht
    exact .quiet rfl rfl (by simp [State.resumes])
  | loop =>
    simp only [step] at ht
    split_ifs at ht <;> cases ht <;> exact .quiet rfl rfl (by simp [State.resumes])
  | fiber w =>
    simp only [step] at ht
    split at ht
    · next hp =>
      simp only [State.resumes, if_pos hp]
      split at ht
      · next hq =>
        cases ht
        exact .quiet rfl rfl (by simp [hq])
      · next h hs hq =>
        rw [hq]
        exact (State.resume_effect ht).of_eq rfl rfl rfl
    · cases ht
  | poll ready =>
    simp only [step] at ht
    split at ht <;> cases ht
    exact .quiet rfl rfl (by simp [State.resumes])
  | event w =>
    simp only [step] at ht
    split at ht
    · next hp =>
      simp only [State.resumes, if_pos hp]
      split at ht
      · next hq =>
        cases ht
        exact .quiet rfl rfl (by simp [hq])
      · next h hs hq =>
        rw [hq]
        exact (State.resume_effect ht).of_eq rfl rfl rfl
    · cases ht
  | poolDone h =>
    simp only [step] at ht
    split at ht <;> cases ht
    exact .quiet rfl rfl (by simp [State.resumes])
  | signal onReactor =>
    cases ht
    exact .quiet rfl rfl (by simp [State.resumes])

/-! No frame is destroyed, so every accepted descriptor stays open. -/

def State.fds (s : State) : List (Option Nat) := s.frames.map fun x => x.bind (·.sock.fd)

/-- Every session still has its frame, and its socket is open. -/
def Owned (s : State) : Prop := s.fds = s.openFds.map some

def Finished (s : State) : Prop :=
  ∃ (i : Nat) (f : CoroutineFrame), s.frames[i]? = some (some f) ∧ f.point = .final

theorem Owned.effect {s t : State} {r : Option (Handle × Wakeup)} (ho : Owned s)
    (h : Effect s t r) : Owned t := by
  unfold Owned State.fds at *
  cases h with
  | quiet h1 h2 h3 => rw [h1, h2, ho]
  | accepted fd h1 h2 =>
    rw [h1, h2, List.map_append, List.map_append, ho]
    rfl
  | @resumed i w f h1 h2 h3 h4 =>
    obtain ⟨hi, hf⟩ := List.getElem?_eq_some_iff.mp h1
    have hself : (s.frames.map fun x => x.bind (·.sock.fd)).set i f.sock.fd =
        s.frames.map fun x => x.bind (·.sock.fd) := by
      apply List.ext_getElem?
      intro j
      rw [List.getElem?_set]
      split_ifs with hj hlt
      · subst hj
        simp [h1]
      · simp only [List.length_map] at hlt
        omega
      · rfl
    rw [h3, h4, List.map_set, ← ho]
    exact hself

theorem Owned.of_reachable {s : State} (h : system.Reachable s) : Owned s := by
  apply h.invariant
  · intro s hs
    rw [show s = initial from hs]
    rfl
  · intro s a t hp ht
    exact hp.effect (step_effect ht)

/-- A session finishes in the steps that end one, and stays finished. -/
theorem finished_step {s t : State} {a : Action} (ht : step s a = some t) :
    Finished t ↔ Finished s ∨ EndsSession s a := by
  unfold Finished EndsSession
  have h := step_effect ht
  generalize s.resumes a = r at h
  cases h with
  | quiet h1 h2 h3 =>
    have hnot : ¬ ∃ i w f, r = some (.session i, w) ∧ s.frames[i]? = some (some f) ∧
        f.point ≠ .final ∧ Ends s.gRunning w f.point := by
      rintro ⟨i, w, f, hr, hf, hp, -⟩
      exact hp (h3 i w f hr hf)
    rw [h1, or_iff_left hnot]
  | @accepted w fd h1 h2 =>
    have hnot : ¬ ∃ i v f, some (Handle.acceptLoop, w) = some (Handle.session i, v) ∧
        s.frames[i]? = some (some f) ∧ f.point ≠ .final ∧ Ends s.gRunning v f.point := by
      rintro ⟨i, v, f, hr, -⟩
      cases hr
    rw [h1, or_iff_left hnot]
    constructor
    · rintro ⟨i, f, hi, hp⟩
      rw [List.getElem?_append] at hi
      split_ifs at hi with hlt
      · exact ⟨i, f, hi, hp⟩
      · -- the new frame is at its initial suspend point
        obtain ⟨hlt', hf⟩ := List.getElem?_eq_some_iff.mp hi
        rw [List.getElem_singleton] at hf
        cases hf
        cases hp
    · rintro ⟨i, f, hi, hp⟩
      refine ⟨i, f, ?_, hp⟩
      rw [List.getElem?_append_left (List.getElem?_eq_some_iff.mp hi).1]
      exact hi
  | @resumed i w f h1 h2 h3 h4 =>
    have hlt : i < s.frames.length := (List.getElem?_eq_some_iff.mp h1).1
    constructor
    · rintro ⟨j, g, hj, hp⟩
      rw [h3, List.getElem?_set] at hj
      split_ifs at hj with hij
      · cases hj
        right
        exact ⟨i, w, f, rfl, h1, h2, (session_eq_final h2).mp hp⟩
      · exact .inl ⟨j, g, hj, hp⟩
    · rintro (⟨j, g, hj, hp⟩ | ⟨j, v, g, hr, hg, hne, he⟩)
      · refine ⟨j, g, ?_, hp⟩
        rw [h3, List.getElem?_set_ne]
        · exact hj
        · rintro rfl
          rw [h1] at hj
          cases hj
          exact h2 hp
      · cases hr
        rw [h1] at hg
        cases hg
        refine ⟨i, { f with point := session s.gRunning w f.point }, ?_, (session_eq_final h2).mpr he⟩
        rw [h3, List.getElem?_set_self hlt]

theorem finished_run {s t : State} {as : List Action} (hr : system.run s as = some t) :
    Finished t ↔ Finished s ∨ ¬ system.Complies (fun u a => ¬ EndsSession u a) s as := by
  induction as generalizing s with
  | nil =>
    cases hr
    simp [System.Complies]
  | cons a as ih =>
    obtain ⟨u, hu, hrun⟩ := Option.bind_eq_some_iff.mp hr
    rw [ih hrun, finished_step hu]
    simp only [System.Complies, hu, Option.mem_some_iff, forall_eq']
    tauto

/-- A session that has reached its final suspend point has no frame any more, and the open client
descriptors are those of the sessions that have not. -/
def Released (s : State) : Prop :=
  (∀ (i : Nat) (f : CoroutineFrame), s.frames[i]? = some (some f) → f.point ≠ .final) ∧
    s.openFds.length = s.frames.countP fun x => x.any (·.point ≠ .final)

theorem released_iff_not_finished {s : State} (ho : Owned s) : Released s ↔ ¬ Finished s := by
  constructor
  · rintro ⟨hf, -⟩ ⟨i, f, hi, hp⟩
    exact hf i f hi hp
  · intro hn
    have hlive : ∀ (i : Nat) (f : CoroutineFrame), s.frames[i]? = some (some f) →
        f.point ≠ .final := by
      intro i f hi hp
      exact hn ⟨i, f, hi, hp⟩
    refine ⟨hlive, ?_⟩
    have hlen : s.openFds.length = s.frames.length := by
      have := congrArg List.length ho
      simpa [State.fds] using this.symm
    rw [hlen, eq_comm, List.countP_eq_length]
    intro x hx
    obtain ⟨i, hi, rfl⟩ := List.getElem_of_mem hx
    cases hx' : s.frames[i] with
    | none =>
      have hfd := congrArg (·[i]?) ho
      simp [State.fds, hi, hx'] at hfd
    | some f =>
      have := hlive i f (by rw [List.getElem?_eq_getElem hi, hx'])
      simp [this]

/-- No one destroys a frame: `accept_loop` releases the task, `Reactor::run` and
`EpollBackend::poll` only look at `done()`. The descriptors are accounted for exactly as long as no
session ends. -/
theorem released_iff_no_session_ends (as : List Action) (s : State)
    (hr : system.run initial as = some s) :
    Released s ↔ system.Complies (fun t a => ¬ EndsSession t a) initial as := by
  have hreach : system.Reachable s := System.Reachable.run (.init rfl) hr
  have hinit : ¬ Finished initial := by
    rintro ⟨i, f, hi, -⟩
    cases hi
  rw [released_iff_not_finished (.of_reachable hreach), finished_run hr, or_iff_right hinit, not_not]

/-- One client connects; its session waits for the first byte. -/
def connect : List Action :=
  [.run, .loop, .fiber {}, .fiber {}, .poll [.acceptLoop], .event { clientFd := some 7 }, .event {},
    .loop, .fiber {}, .fiber {}]

theorem released_iff_no_session_ends_connect :
    ∃ s, system.run initial connect = some s ∧ s.openFds = [7] ∧ Released s := by
  have hrun : (system.run initial connect).map State.openFds = some [7] := by
    decide +kernel
  obtain ⟨s, hs, ho⟩ := Option.map_eq_some_iff.mp hrun
  refine ⟨s, hs, ho, (released_iff_no_session_ends connect s hs).mpr ?_⟩
  decide +kernel

/-- The client disconnects, and the reactor goes round its loop once more. -/
def disconnect : List Action :=
  connect ++ [.poll [.session 0], .event { n := 0 }, .event {}, .loop, .fiber {}, .poll [], .event {}]

theorem disconnect_not_released :
    ∃ s, system.Reachable s ∧ s.phase = .loopHead ∧ s.openFds = [7] ∧ ¬ Released s := by
  have hrun : (system.run initial disconnect).map (fun s => (s.phase, s.openFds, s.frames)) =
      some (.loopHead, [7], [some ⟨⟨some 7⟩, .final⟩]) := by
    decide +kernel
  obtain ⟨s, hs, he⟩ := Option.map_eq_some_iff.mp hrun
  simp only [Prod.mk.injEq] at he
  obtain ⟨hp, ho, hf⟩ := he
  refine ⟨s, System.Reachable.run (.init rfl) hs, hp, ho, ?_⟩
  rintro ⟨hgone, -⟩
  exact hgone 0 ⟨⟨some 7⟩, .final⟩ (by rw [hf]; rfl) rfl

end Jellybean.Server.SessionLifetime
