import Jellybean.Server.SessionLifetime

namespace Jellybean.Server.SessionLifetime

/-- What a suspended coroutine waits for: its turn, readiness of a descriptor, or a value. -/
inductive Cause where
  | turn
  | descriptor
  | future
  deriving DecidableEq

def Point.cause : Point → Option Cause
  | .initial => some .turn
  | .inferFuture => some .future
  | .final => none
  | .readModelIdLen | .readModelId _ | .readInputElems | .readPayload _ _ | .writeStatus _ _
  | .writeLatency _ _ | .writeOutElems _ _ | .writeOutput => some .descriptor

def AcceptPoint.cause : AcceptPoint → Option Cause
  | .initial => some .turn
  | .accepting => some .descriptor
  | .final => none

namespace State

/-- `none` for a coroutine that is done, and for a frame that does not exist. -/
def cause (s : State) : Handle → Option Cause
  | .acceptLoop => s.acceptPoint.cause
  | .session i => (s.frame (.session i)).bind fun f => f.point.cause

/-- The handles that `run` is to resume in this turn of its loop or in the next. -/
def scheduled (s : State) : List Handle := s.runQueue ++ s.scratchQueue ++ s.externalQueue

/-- Everywhere a handle is kept. -/
def places (s : State) : List Handle := s.scheduled ++ s.epoll ++ s.events ++ s.pool

/-- Where the handle of a coroutine is while it waits. -/
def holders (s : State) : Cause → List Handle
  | .turn => s.scheduled
  | .descriptor => s.epoll ++ s.events
  | .future => s.pool ++ s.scheduled

end State

/-- Every unfinished coroutine is kept once, where it is to be, and no other one is. -/
structure Balanced (s : State) : Prop where
  count : ∀ h, s.places.count h = if (s.cause h).isSome then 1 else 0
  held : ∀ h c, s.cause h = some c → h ∈ s.holders c

/-- The same while `x` runs, which nobody keeps then. -/
structure Running (x : Handle) (s : State) : Prop where
  live : (s.cause x).isSome
  count : ∀ h, s.places.count h = if (s.cause h).isSome ∧ h ≠ x then 1 else 0
  held : ∀ h c, h ≠ x → s.cause h = some c → h ∈ s.holders c

variable {s t : State} {x : Handle}

theorem State.count_places (s : State) (h : Handle) :
    s.places.count h = s.runQueue.count h + s.scratchQueue.count h + s.externalQueue.count h +
      s.epoll.count h + s.events.count h + s.pool.count h := by
  simp only [places, scheduled, List.count_append]

theorem State.cause_session {i : Nat} {f : CoroutineFrame} (hf : s.frames[i]? = some (some f)) :
    s.cause (.session i) = f.point.cause := by
  simp only [cause, frame, hf, Option.join_some, Option.bind_some]

theorem State.cause_congr (ha : t.acceptPoint = s.acceptPoint) (hf : t.frames = s.frames)
    (h : Handle) : t.cause h = s.cause h := by
  cases h with
  | acceptLoop => exact congrArg AcceptPoint.cause ha
  | session i => simp only [cause, frame, hf]

/-- Handles change places. -/
theorem Balanced.move (hs : Balanced s) (ha : t.acceptPoint = s.acceptPoint)
    (hf : t.frames = s.frames) (hcount : ∀ h, t.places.count h = s.places.count h)
    (hheld : ∀ c, ∀ h ∈ s.holders c, h ∈ t.holders c) : Balanced t := by
  constructor
  · intro h
    rw [hcount, hs.count, State.cause_congr ha hf]
  · intro h c hc
    apply hheld
    apply hs.held
    rwa [State.cause_congr ha hf] at hc

/-- The coroutine that runs suspends, and its handle goes where it is to be. -/
theorem Running.suspend (hs : Running x s) (hother : ∀ h, h ≠ x → t.cause h = s.cause h)
    (hcount : ∀ h, t.places.count h =
      s.places.count h + if (t.cause x).isSome ∧ h = x then 1 else 0)
    (hheld : ∀ c, ∀ h ∈ s.holders c, h ∈ t.holders c)
    (hx : ∀ c, t.cause x = some c → x ∈ t.holders c) : Balanced t := by
  constructor
  · intro h
    rw [hcount, hs.count]
    by_cases hh : h = x
    · simp [hh]
    · simp [hh, hother h hh]
  · intro h c hc
    by_cases hh : h = x
    · rw [hh] at hc ⊢
      exact hx c hc
    · rw [hother h hh] at hc
      exact hheld c h (hs.held h c hh hc)

theorem Running.not_mem (hs : Running x s) : x ∉ s.places := by
  rw [← List.count_eq_zero, hs.count, if_neg]
  intro h
  exact h.2 rfl

theorem Running.not_mem_epoll (hs : Running x s) : x ∉ s.epoll := by
  intro h
  apply hs.not_mem
  simp [State.places, h]

/-- Waiting for its descriptor, the coroutine is armed. -/
theorem Running.arm {u : State} (hs : Running x s) (hother : ∀ h, h ≠ x → u.cause h = s.cause h)
    (hx : u.cause x = some .descriptor) (hrun : u.runQueue = s.runQueue)
    (hscratch : u.scratchQueue = s.scratchQueue) (hext : u.externalQueue = s.externalQueue)
    (hepoll : u.epoll = s.epoll) (hevents : u.events = s.events) (hpool : u.pool = s.pool) :
    Balanced (u.arm x) := by
  have hcause (h : Handle) : (u.arm x).cause h = u.cause h := State.cause_congr rfl rfl h
  have harmed : (u.arm x).epoll = x :: s.epoll := by
    change u.epoll.insert x = x :: s.epoll
    rw [hepoll, List.insert_of_not_mem hs.not_mem_epoll]
  apply hs.suspend
  · intro h hh
    rw [hcause, hother h hh]
  · intro h
    rw [hcause, hx, State.count_places, State.count_places, harmed, List.count_cons]
    simp only [State.arm, hrun, hscratch, hext, hevents, hpool, beq_iff_eq, Option.isSome_some,
      true_and, @eq_comm _ x h]
    omega
  · intro c h hh
    cases c with
    | turn =>
      simp only [State.holders, State.scheduled, State.arm, hrun, hscratch, hext] at hh ⊢
      exact hh
    | descriptor =>
      simp only [State.holders, harmed, List.cons_append, List.mem_cons] at hh ⊢
      right
      simpa only [State.arm, hevents] using hh
    | future =>
      simp only [State.holders, State.scheduled, State.arm, hrun, hscratch, hext, hpool] at hh ⊢
      exact hh
  · intro c hc
    rw [hcause, hx] at hc
    cases hc
    simp [State.holders, harmed]

/-! What a coroutine does before it suspends again. -/

theorem Running.acceptHead (hs : Running .acceptLoop s) : Balanced s.acceptHead := by
  unfold State.acceptHead
  split
  · apply hs.arm
    · intro h hh
      cases h with
      | acceptLoop => exact absurd rfl hh
      | session i => rfl
    all_goals rfl
  · apply hs.suspend
    · intro h hh
      cases h with
      | acceptLoop => exact absurd rfl hh
      | session i => rfl
    · intro h
      simp [State.places, State.scheduled, State.cause, AcceptPoint.cause]
    · intro c h hh
      exact hh
    · intro c hc
      cases hc

/-- `accept_loop` makes a session and schedules it, and goes on. -/
theorem Running.accepted (hs : Running .acceptLoop s) (fd : Nat)
    (hf : t.frames = s.frames ++ [some ⟨⟨some fd⟩, .initial⟩])
    (hrun : t.runQueue = s.runQueue ++ [.session s.frames.length])
    (haccept : t.acceptPoint = s.acceptPoint) (hscratch : t.scratchQueue = s.scratchQueue)
    (hext : t.externalQueue = s.externalQueue) (hepoll : t.epoll = s.epoll)
    (hevents : t.events = s.events) (hpool : t.pool = s.pool) : Running .acceptLoop t := by
  have hnew : t.cause (.session s.frames.length) = some .turn := by
    simp [State.cause, State.frame, hf, Point.cause]
  have hnone : s.cause (.session s.frames.length) = none := by
    simp [State.cause, State.frame]
  have hold (h : Handle) (hh : h ≠ .session s.frames.length) : t.cause h = s.cause h := by
    cases h with
    | acceptLoop => exact congrArg AcceptPoint.cause haccept
    | session i =>
      have hi : i ≠ s.frames.length := fun he => hh (he ▸ rfl)
      simp only [State.cause, State.frame, hf, List.getElem?_append]
      split
      · rfl
      · rw [List.getElem?_eq_none (by simp; omega), List.getElem?_eq_none (by omega)]
  constructor
  · rw [hold .acceptLoop (by simp)]
    exact hs.live
  · intro h
    have hcount : t.places.count h =
        s.places.count h + if h = .session s.frames.length then 1 else 0 := by
      simp only [State.count_places, hrun, hscratch, hext, hepoll, hevents, hpool,
        List.count_append, List.count_singleton, beq_iff_eq, @eq_comm _ _ h]
      omega
    rw [hcount, hs.count]
    by_cases hh : h = .session s.frames.length
    · simp [hh, hnew, hnone]
    · simp [hh, hold h hh]
  · intro h c hne hc
    by_cases hh : h = .session s.frames.length
    · rw [hh, hnew] at hc
      cases hc
      simp [State.holders, State.scheduled, hrun, hh]
    · rw [hold h hh] at hc
      have := hs.held h c hne hc
      cases c with
      | turn =>
        simp only [State.holders, State.scheduled, hrun, hscratch, hext, List.mem_append] at this ⊢
        tauto
      | descriptor =>
        simpa only [State.holders, hepoll, hevents] using this
      | future =>
        simp only [State.holders, State.scheduled, hrun, hscratch, hext, hpool,
          List.mem_append] at this ⊢
        tauto

theorem Running.acceptLoop (hs : Running .acceptLoop s) (clientFd : Option Nat) :
    Balanced (s.acceptLoop clientFd) := by
  have hlive := hs.live
  unfold State.acceptLoop
  split
  · exact hs.acceptHead
  · next _ fd _ =>
    apply Running.acceptHead
    exact hs.accepted fd rfl rfl rfl rfl rfl rfl rfl rfl
  · exact hs.acceptHead
  · next _ hp =>
    simp [State.cause, hp, AcceptPoint.cause] at hlive

theorem session_ne_initial (gRunning : Bool) (w : Wakeup) (p : Point) :
    session gRunning w p ≠ .initial := by
  have hhead : loopHead gRunning ≠ .initial := by
    unfold loopHead
    split <;> simp
  have hinfer : inferAsync w ≠ .initial := by
    unfold inferAsync
    split_ifs <;> simp
  have hpayload (total got : Nat) : payloadLoop w total got ≠ .initial := by
    unfold payloadLoop
    split_ifs
    · simp
    · exact hinfer
  cases p with
  | initial | writeOutput => exact hhead
  | readModelIdLen | readModelId =>
    simp only [session]
    split_ifs <;> simp
  | readInputElems | readPayload =>
    simp only [session]
    split_ifs <;> first | exact hpayload _ _ | simp
  | writeOutElems =>
    simp only [session]
    split_ifs
    · simp
    · exact hhead
  | inferFuture | writeStatus | writeLatency | final => simp [session]

theorem Running.session {i : Nat} {f : CoroutineFrame} (hs : Running (.session i) s)
    (hf : s.frames[i]? = some (some f)) {p : Point} (hp : p ≠ .initial) :
    Balanced (s.suspend i f p) := by
  obtain ⟨hi, -⟩ := List.getElem?_eq_some_iff.mp hf
  let u : State := { s with frames := s.frames.set i (some { f with point := p }) }
  have hself : u.cause (.session i) = p.cause := by
    simp [u, State.cause, State.frame, hi]
  have hother (h : Handle) (hh : h ≠ .session i) : u.cause h = s.cause h := by
    cases h with
    | acceptLoop => rfl
    | session j =>
      have hj : i ≠ j := fun he => hh (he ▸ rfl)
      simp only [u, State.cause, State.frame, List.getElem?_set_ne hj]
  have harm (hc : p.cause = some .descriptor) : Balanced (u.arm (.session i)) :=
    hs.arm hother (hself.trans hc) rfl rfl rfl rfl rfl rfl
  cases p with
  | initial => exact absurd rfl hp
  | final =>
    change Balanced u
    apply hs.suspend hother
    · intro h
      rw [hself]
      simp [Point.cause, u, State.places, State.scheduled]
    · intro c h hh
      exact hh
    · intro c hc
      rw [hself] at hc
      cases hc
  | inferFuture =>
    let v : State := { u with pool := u.pool ++ [.session i] }
    have hcause (h : Handle) : v.cause h = u.cause h := State.cause_congr rfl rfl h
    change Balanced v
    apply hs.suspend
    · intro h hh
      rw [hcause, hother h hh]
    · intro h
      rw [hcause, hself]
      simp only [State.count_places, v, u, List.count_append, List.count_singleton, beq_iff_eq,
        Point.cause, Option.isSome_some, true_and, @eq_comm _ (Handle.session i) h]
      omega
    · intro c h hh
      cases c with
      | turn | descriptor => exact hh
      | future =>
        simp only [State.holders, State.scheduled, v, u, List.mem_append] at hh ⊢
        tauto
    · intro c hc
      rw [hcause, hself] at hc
      cases hc
      simp [State.holders, v]
  | readModelIdLen | readModelId | readInputElems | readPayload | writeStatus | writeLatency
  | writeOutElems | writeOutput => exact harm rfl

/-- A coroutine that is resumed is unfinished, and suspends in good order. -/
theorem Running.resume (hs : Running x s) {w : Wakeup} (ht : s.resume w x = some t) :
    Balanced t := by
  cases x with
  | acceptLoop =>
    unfold State.resume at ht
    dsimp only at ht
    split at ht
    · cases ht
    · cases ht
      exact hs.acceptLoop w.clientFd
  | session i =>
    unfold State.resume at ht
    dsimp only at ht
    split at ht
    · next f hf =>
      have hlive := hs.live
      rw [State.cause_session hf] at hlive
      split at ht
      · next hp =>
        rw [hp] at hlive
        cases hlive
      · cases ht
        exact hs.session hf (session_ne_initial s.gRunning w f.point)
    · cases ht

/-- The next handle is taken out of the queue in which it is. -/
theorem Balanced.take (hs : Balanced s) (ha : t.acceptPoint = s.acceptPoint)
    (hf : t.frames = s.frames)
    (hcount : ∀ h, t.places.count h + (if h = x then 1 else 0) = s.places.count h)
    (hheld : ∀ c, ∀ h ∈ s.holders c, h ∈ t.holders c ∨ h = x) : Running x t := by
  have hx := hcount x
  rw [if_pos rfl, hs.count] at hx
  constructor
  · rw [State.cause_congr ha hf]
    by_contra hn
    rw [if_neg hn] at hx
    omega
  · intro h
    have hh := hcount h
    rw [hs.count] at hh
    rw [State.cause_congr ha hf]
    by_cases he : h = x
    · rw [if_neg (fun hn => hn.2 he), he]
      split_ifs at hx
      omega
    · rw [if_neg he] at hh
      simpa [he] using hh
  · intro h c hne hc
    rw [State.cause_congr ha hf] at hc
    exact (hheld c h (hs.held h c hc)).resolve_right hne

theorem Balanced.take_scratch (hs : Balanced s) {rest : List Handle}
    (hq : s.scratchQueue = x :: rest) : Running x { s with scratchQueue := rest } := by
  apply hs.take (t := { s with scratchQueue := rest }) rfl rfl
  · intro h
    simp only [State.count_places, hq, List.count_cons, beq_iff_eq, @eq_comm _ h x]
    omega
  · intro c h hh
    cases c with
    | descriptor => exact .inl hh
    | turn | future =>
      simp only [State.holders, State.scheduled, hq, List.mem_append, List.mem_cons] at hh ⊢
      tauto

theorem Balanced.take_events (hs : Balanced s) {rest : List Handle} (hq : s.events = x :: rest) :
    Running x { s with events := rest } := by
  apply hs.take (t := { s with events := rest }) rfl rfl
  · intro h
    simp only [State.count_places, hq, List.count_cons, beq_iff_eq, @eq_comm _ h x]
    omega
  · intro c h hh
    cases c with
    | turn | future => exact .inl hh
    | descriptor =>
      simp only [State.holders, hq, List.mem_append, List.mem_cons] at hh ⊢
      tauto

/-- What a coroutine leaves alone. -/
structure Untouched (s t : State) : Prop where
  phase : t.phase = s.phase
  scratchQueue : t.scratchQueue = s.scratchQueue
  events : t.events = s.events
  externalQueue : t.externalQueue = s.externalQueue
  running : t.running = s.running
  gRunning : t.gRunning = s.gRunning

theorem State.acceptHead_untouched (s : State) : Untouched s s.acceptHead := by
  unfold State.acceptHead
  split
  · exact ⟨rfl, rfl, rfl, rfl, rfl, rfl⟩
  · exact ⟨rfl, rfl, rfl, rfl, rfl, rfl⟩

theorem State.acceptLoop_untouched (s : State) (clientFd : Option Nat) :
    Untouched s (s.acceptLoop clientFd) := by
  unfold State.acceptLoop
  split
  · exact s.acceptHead_untouched
  · obtain ⟨h1, h2, h3, h4, h5, h6⟩ := State.acceptHead_untouched _
    exact ⟨h1, h2, h3, h4, h5, h6⟩
  · exact s.acceptHead_untouched
  · exact ⟨rfl, rfl, rfl, rfl, rfl, rfl⟩

theorem State.resume_untouched {w : Wakeup} (ht : s.resume w x = some t) : Untouched s t := by
  cases x with
  | acceptLoop =>
    unfold State.resume at ht
    dsimp only at ht
    split at ht
    · cases ht
    · cases ht
      exact s.acceptLoop_untouched w.clientFd
  | session i =>
    unfold State.resume at ht
    dsimp only at ht
    split at ht
    · next f _ =>
      split at ht
      · cases ht
        exact ⟨rfl, rfl, rfl, rfl, rfl, rfl⟩
      · cases ht
        cases SessionLifetime.session s.gRunning w f.point <;> exact ⟨rfl, rfl, rfl, rfl, rfl, rfl⟩
    · cases ht

theorem State.acceptLoop_openFds (s : State) (clientFd : Option Nat) :
    (s.acceptLoop clientFd).openFds = s.openFds ∨
      ∃ fd, clientFd = some fd ∧ (s.acceptLoop clientFd).openFds = s.openFds ++ [fd] := by
  unfold State.acceptLoop
  split
  · exact .inl s.acceptHead_frames.2
  · next fd _ =>
    right
    refine ⟨fd, rfl, ?_⟩
    apply (State.acceptHead_frames _).2.trans
    rfl
  · exact .inl s.acceptHead_frames.2
  · exact .inl rfl

/-- The system hands out no descriptor that is open. -/
theorem State.resume_openFds {w : Wakeup} (ht : s.resume w x = some t) (hs : s.openFds.Nodup) :
    t.openFds.Nodup := by
  cases x with
  | acceptLoop =>
    unfold State.resume at ht
    dsimp only at ht
    split at ht
    · cases ht
    · next hfresh =>
      cases ht
      obtain he | ⟨fd, hfd, he⟩ := s.acceptLoop_openFds w.clientFd
      · rwa [he]
      · rw [he, List.nodup_append_comm]
        apply List.nodup_cons.mpr
        exact ⟨fun hm => hfresh ⟨fd, hfd, hm⟩, hs⟩
  | session i =>
    unfold State.resume at ht
    dsimp only at ht
    split at ht
    · next f _ =>
      split at ht
      · cases ht
        exact hs
      · cases ht
        rwa [(s.suspend_frames i f _).2]
    · cases ht

structure Accounted (s : State) : Prop where
  balanced : Balanced s
  scratch : s.phase ≠ .fibers → s.scratchQueue = []
  events : s.phase ≠ .dispatch → s.events = []
  fds : s.openFds.Nodup

theorem Accounted.initial : Accounted initial where
  balanced := by
    constructor
    · intro h
      cases h with
      | acceptLoop => decide
      | session i =>
        simp [State.places, State.scheduled, State.cause, State.frame, SessionLifetime.initial]
    · intro h c hc
      cases h with
      | acceptLoop =>
        cases hc
        decide
      | session i => simp [State.cause, State.frame, SessionLifetime.initial] at hc
  scratch _ := rfl
  events _ := rfl
  fds := List.nodup_nil

/-- The next handle of a queue is taken out and resumed. -/
theorem Accounted.resume (hs : Accounted s) {u : State} {w : Wakeup} (hrun : Running x u)
    (hopen : u.openFds = s.openFds) (hscratch : u.phase ≠ .fibers → u.scratchQueue = [])
    (hevents : u.phase ≠ .dispatch → u.events = []) (ht : u.resume w x = some t) :
    Accounted t := by
  have hsame := State.resume_untouched ht
  constructor
  · exact hrun.resume ht
  · rw [hsame.phase, hsame.scratchQueue]
    exact hscratch
  · rw [hsame.phase, hsame.events]
    exact hevents
  · apply State.resume_openFds ht
    rw [hopen]
    exact hs.fds

theorem Accounted.fiber (hs : Accounted s) {w : Wakeup} (ht : step s (.fiber w) = some t) :
    Accounted t := by
  obtain ⟨hp, ht⟩ := Option.ite_none_right_eq_some.mp ht
  have hnone := hs.events (by simp [hp])
  split at ht
  · next hq =>
    cases ht
    refine ⟨hs.balanced.move rfl rfl (fun _ => rfl) (fun _ _ hh => hh), ?_, ?_, hs.fds⟩
    · intro _
      exact hq
    · intro _
      exact hnone
  · next x rest hq =>
    apply hs.resume (hs.balanced.take_scratch hq) rfl _ _ ht
    · intro hne
      exact absurd hp hne
    · intro _
      exact hnone

theorem Accounted.event (hs : Accounted s) {w : Wakeup} (ht : step s (.event w) = some t) :
    Accounted t := by
  obtain ⟨hp, ht⟩ := Option.ite_none_right_eq_some.mp ht
  have hnone := hs.scratch (by simp [hp])
  split at ht
  · next hq =>
    cases ht
    refine ⟨hs.balanced.move rfl rfl (fun _ => rfl) (fun _ _ hh => hh), ?_, ?_, hs.fds⟩
    · intro _
      exact hnone
    · intro _
      exact hq
  · next x rest hq =>
    apply hs.resume (hs.balanced.take_events hq) rfl _ _ ht
    · intro _
      exact hnone
    · intro hne
      exact absurd hp hne

/-- `run` takes over what was scheduled. -/
theorem Accounted.loop (hs : Accounted s) (ht : step s .loop = some t) : Accounted t := by
  obtain ⟨hp, ht⟩ := Option.ite_none_right_eq_some.mp ht
  have hscratch := hs.scratch (by simp [hp])
  have hevents := hs.events (by simp [hp])
  split_ifs at ht
  · cases ht
    refine ⟨hs.balanced.move rfl rfl ?_ ?_, ?_, ?_, hs.fds⟩
    · intro h
      simp only [State.count_places, hscratch, List.count_append, List.count_nil]
      omega
    · intro c h hh
      cases c with
      | descriptor => exact hh
      | turn | future =>
        simp only [State.holders, State.scheduled, hscratch, List.mem_append] at hh ⊢
        tauto
    · intro hne
      exact absurd rfl hne
    · intro _
      exact hevents
  · cases ht
    refine ⟨hs.balanced.move rfl rfl (fun _ => rfl) (fun _ _ hh => hh), ?_, ?_, hs.fds⟩
    · intro _
      exact hscratch
    · intro _
      exact hevents

/-- What `epoll_wait` reports is armed no longer. -/
theorem Accounted.poll (hs : Accounted s) {ready : List Handle}
    (ht : step s (.poll ready) = some t) : Accounted t := by
  obtain ⟨⟨hp, hnodup, harmed, -⟩, ht⟩ := Option.ite_none_right_eq_some.mp ht
  cases ht
  have hscratch := hs.scratch (by simp [hp])
  have hevents := hs.events (by simp [hp])
  refine ⟨hs.balanced.move rfl rfl ?_ ?_, ?_, ?_, hs.fds⟩
  · intro h
    have hle : s.epoll.count h ≤ 1 := by
      have := hs.balanced.count h
      rw [State.count_places] at this
      split_ifs at this <;> omega
    simp only [State.count_places, hevents, List.count_nil]
    by_cases hh : h ∈ ready
    · have hcount := List.count_eq_one_of_mem hnodup hh
      have hpos := List.count_pos_iff.mpr (harmed h hh)
      have hout : (s.epoll.filter (· ∉ ready)).count h = 0 := by
        rw [List.count_eq_zero]
        simp [hh]
      omega
    · have hzero := List.count_eq_zero.mpr hh
      have hin : (s.epoll.filter (· ∉ ready)).count h = s.epoll.count h := by
        apply List.count_filter
        simp [hh]
      omega
  · intro c h hh
    cases c with
    | turn | future => exact hh
    | descriptor =>
      simp only [State.holders, hevents, List.append_nil, List.mem_append, List.mem_filter,
        decide_eq_true_eq] at hh ⊢
      tauto
  · intro _
    exact hscratch
  · intro hne
    exact absurd rfl hne

theorem Accounted.poolDone (hs : Accounted s) (ht : step s (.poolDone x) = some t) :
    Accounted t := by
  obtain ⟨⟨hm, -⟩, ht⟩ := Option.ite_none_right_eq_some.mp ht
  cases ht
  refine ⟨hs.balanced.move rfl rfl ?_ ?_, hs.scratch, hs.events, hs.fds⟩
  · intro h
    have hpos := List.count_pos_iff.mpr hm
    simp only [State.count_places, List.count_append, List.count_singleton, List.count_erase,
      beq_iff_eq]
    split_ifs with hh
    · rw [← hh]
      omega
    · omega
  · intro c h hh
    cases c with
    | turn =>
      simp only [State.holders, State.scheduled, List.mem_append] at hh ⊢
      tauto
    | descriptor => exact hh
    | future =>
      by_cases hx : h = x
      · simp [State.holders, State.scheduled, hx]
      · simp only [State.holders, State.scheduled, List.mem_append,
          List.mem_erase_of_ne hx] at hh ⊢
        tauto

theorem Accounted.step (hs : Accounted s) {a : Action} (ht : step s a = some t) :
    Accounted t := by
  cases a with
  | run =>
    obtain ⟨⟨hp, -⟩, ht⟩ := Option.ite_none_right_eq_some.mp ht
    cases ht
    refine ⟨hs.balanced.move rfl rfl (fun _ => rfl) (fun _ _ hh => hh), ?_, ?_, hs.fds⟩
    · intro _
      exact hs.scratch (by simp [hp])
    · intro _
      exact hs.events (by simp [hp])
  | loop => exact hs.loop ht
  | fiber w => exact hs.fiber ht
  | poll ready => exact hs.poll ht
  | event w => exact hs.event ht
  | poolDone h => exact hs.poolDone ht
  | signal onReactor =>
    cases ht
    exact ⟨hs.balanced.move rfl rfl (fun _ => rfl) (fun _ _ hh => hh), hs.scratch, hs.events,
      hs.fds⟩

theorem Accounted.of_reachable (hr : system.Reachable s) : Accounted s := by
  apply hr.invariant
  · intro s hs
    rw [show s = SessionLifetime.initial from hs]
    exact .initial
  · intro s a t hs ht
    exact hs.step ht

theorem Balanced.nodup (hs : Balanced s) : s.places.Nodup := by
  apply List.nodup_iff_count.mpr
  intro h
  rw [hs.count]
  split_ifs <;> omega

theorem Balanced.mem_places (hs : Balanced s) (h : Handle) :
    h ∈ s.places ↔ (s.cause h).isSome := by
  rw [← List.count_pos_iff, hs.count]
  split_ifs with hc <;> simp [hc]

theorem State.mem_places_of_resumes {a : Action} {w : Wakeup} (h : s.resumes a = some (x, w)) :
    x ∈ s.places := by
  have hhead (q : List Handle) (v : Wakeup) (hq : q.head?.map (·, v) = some (x, w)) : x ∈ q := by
    obtain ⟨y, hy, he⟩ := Option.map_eq_some_iff.mp hq
    cases he
    exact List.mem_of_mem_head? hy
  cases a with
  | fiber v =>
    obtain ⟨-, h⟩ := Option.ite_none_right_eq_some.mp h
    have := hhead _ _ h
    simp [State.places, State.scheduled, this]
  | event v =>
    obtain ⟨-, h⟩ := Option.ite_none_right_eq_some.mp h
    have := hhead _ _ h
    simp [State.places, this]
  | run | loop | poll | poolDone | signal => cases h

/-- However connections, requests, readiness and results interleave, the server keeps the handle of
each unfinished coroutine once, where what the coroutine waits for will find it, and keeps no other:
nothing is resumed twice, or after it is done. Sessions do not share descriptors. -/
theorem handles_accounted (s : State) (hr : system.Reachable s) :
    s.places.Nodup ∧ (∀ h, h ∈ s.places ↔ (s.cause h).isSome) ∧
      (∀ h c, s.cause h = some c → h ∈ s.holders c) ∧
      (∀ a x w, s.resumes a = some (x, w) → (s.cause x).isSome) ∧ s.fds.Nodup := by
  have h := Accounted.of_reachable hr
  refine ⟨h.balanced.nodup, h.balanced.mem_places, h.balanced.held, ?_, ?_⟩
  · intro a x w hx
    exact (h.balanced.mem_places x).mp (State.mem_places_of_resumes hx)
  · rw [show s.fds = s.openFds.map some from Owned.of_reachable hr]
    exact h.fds.map (Option.some_injective _)

/-- Two clients have connected; one waits for its turn, the other for its first byte. -/
def twoClients : List Action :=
  connect ++ [.poll [.acceptLoop], .event { clientFd := some 8 }, .event {}]

theorem handles_accounted_twoClients :
    ∃ s, system.run initial twoClients = some s ∧
      s.places = [.session 1, .acceptLoop, .session 0] ∧
      (∀ h, h ∈ s.places ↔ (s.cause h).isSome) ∧ s.fds.Nodup := by
  have hrun : (system.run initial twoClients).map State.places =
      some [.session 1, .acceptLoop, .session 0] := by
    decide +kernel
  obtain ⟨s, hs, hplaces⟩ := Option.map_eq_some_iff.mp hrun
  obtain ⟨-, hmem, -, -, hfds⟩ := handles_accounted s (System.Reachable.run (.init rfl) hs)
  exact ⟨s, hs, hplaces, hmem, hfds⟩

end Jellybean.Server.SessionLifetime
