import Jellybean.Model.ModelExecutor

namespace Jellybean.Model.ModelExecutor

open Concurrency Inference

variable {α : Type*} {cfg : Config} {s u : State α}

/-! What a call of the queue does to the queue and to the calling thread. -/

theorem queueStep_callPush {x : Tid} {t : Task α} {q : MpmcQueue.State Tid (Task α)}
    (h : queueStep s (.callPush x t) = some q) : q = s.queue.set x (.pushLoadPos t) :=
  (MpmcQueue.step_callPush h).2

theorem queueStep_callPop {x : Tid} {q : MpmcQueue.State Tid (Task α)}
    (h : queueStep s (.callPop x) = some q) : q = s.queue.set x .popLoadPos :=
  (MpmcQueue.step_callPop h).2

theorem queueStep_ret {x : Tid} {q : MpmcQueue.State Tid (Task α)}
    (h : queueStep s (.ret x) = some q) : q = s.queue.set x .idle :=
  MpmcQueue.step_ret h

theorem queueStep_advance {x : Tid} {b : Bool} {q : MpmcQueue.State Tid (Task α)}
    (h : queueStep s (.advance x b) = some q) : MpmcQueue.Moves capacity s.queue x q :=
  MpmcQueue.moves_of_advance h

theorem set_frame (s : State α) {x : Tid} {l : MpmcQueue.Local (Task α)} (y : Tid) (hy : y ≠ x) :
    (s.queue.set x l).threads y = s.queue.threads y := s.queue.set_frame hy

@[simp] theorem WorkerPc.isAsleep_iff (pc : WorkerPc α) : pc.isAsleep = true ↔ pc = .asleep := by
  cases pc <;> simp [WorkerPc.isAsleep]

@[simp] theorem WorkerPc.isExited_iff (pc : WorkerPc α) : pc.isExited = true ↔ pc = .exited := by
  cases pc <;> simp [WorkerPc.isExited]

/-- Some sleeping workers have been woken. -/
def Woken (f g : Nat → WorkerPc α) : Prop := ∀ w, g w = f w ∨ f w = .asleep ∧ g w = .reacquire

theorem Woken.refl (f : Nat → WorkerPc α) : Woken f f := fun _ => .inl rfl

theorem woken_wakeOne {w : Nat} (ha : (s.workers w).isAsleep = true) :
    Woken s.workers (wakeOne s w) := by
  intro v
  rcases eq_or_ne v w with rfl | hv
  · exact .inr ⟨by simpa using ha, Function.update_self ..⟩
  · exact .inl (Function.update_of_ne hv ..)

theorem woken_wakeAll (s : State α) : Woken s.workers (wakeAll s) := by
  intro v
  unfold wakeAll
  split_ifs with ha
  · exact .inr ⟨by simpa using ha, rfl⟩
  · exact .inl rfl

/-- The operation of the queue that a thread outside is in. -/
def CallerFits : CallerPc α → MpmcQueue.Phase (Task α) → Prop
  | .pushing t _, ph => ph = .offering t ∨ ph = .offered
  | _, ph => ph = .idle

/-- The operation of the queue that a worker is in. -/
def WorkerFits : WorkerPc α → MpmcQueue.Phase (Task α) → Prop
  | .popping _ _ _, ph => ph = .seeking ∨ ∃ k, ph = .took k
  | _, ph => ph = .idle

def State.phase (s : State α) (x : Tid) : MpmcQueue.Phase (Task α) := (s.queue.threads x).phase

/-- The ring invariant, and every thread is inside the operation its program counter says. -/
structure Coherent (s : State α) : Prop where
  ring : MpmcQueue.RingInv capacity s.queue
  callers : ∀ i, CallerFits (s.callers i) (s.phase (.caller i))
  workers : ∀ w, WorkerFits (s.workers w) (s.phase (.worker w))
  unborn : ∀ w, s.spawned ≤ w → s.workers w = .unborn

theorem coherent_initial (ready : Bool) : Coherent (initial ready : State α) where
  ring := MpmcQueue.RingInv.of_initial
  callers := fun _ => rfl
  workers := fun _ => rfl
  unborn := fun _ _ => rfl

namespace Coherent

/-- A thread outside takes a step that touches no other operation of the queue. -/
theorem callerTurn (h : Coherent s) {i : Nat} {pc : CallerPc α}
    (hr : MpmcQueue.RingInv capacity u.queue)
    (hf : ∀ x, x ≠ .caller i → u.queue.threads x = s.queue.threads x)
    (hc : u.callers = Function.update s.callers i pc) (hw : u.workers = s.workers)
    (hs : u.spawned = s.spawned) (hp : CallerFits pc (u.phase (.caller i))) : Coherent u where
  ring := hr
  callers := fun j => by
    rw [hc]
    rcases eq_or_ne j i with rfl | hj
    · rwa [Function.update_self]
    · rw [Function.update_of_ne hj, State.phase, hf _ (by simpa using hj)]
      exact h.callers j
  workers := fun w => by
    rw [hw, State.phase, hf _ (by simp)]
    exact h.workers w
  unborn := fun w hle => by
    rw [hw]
    exact h.unborn w (hs ▸ hle)

theorem workerTurn (h : Coherent s) {w : Nat} {pc : WorkerPc α}
    (hr : MpmcQueue.RingInv capacity u.queue)
    (hf : ∀ x, x ≠ .worker w → u.queue.threads x = s.queue.threads x)
    (hc : u.callers = s.callers) (hw : u.workers = Function.update s.workers w pc)
    (hs : u.spawned = s.spawned) (hb : s.workers w ≠ .unborn)
    (hp : WorkerFits pc (u.phase (.worker w))) : Coherent u where
  ring := hr
  callers := fun i => by
    rw [hc, State.phase, hf _ (by simp)]
    exact h.callers i
  workers := fun v => by
    rw [hw]
    rcases eq_or_ne v w with rfl | hv
    · rwa [Function.update_self]
    · rw [Function.update_of_ne hv, State.phase, hf _ (by simpa using hv)]
      exact h.workers v
  unborn := fun v hle => by
    have hv : v ≠ w := fun e => hb (e ▸ h.unborn v (hs ▸ hle))
    rw [hw, Function.update_of_ne hv]
    exact h.unborn v (hs ▸ hle)

/-- A thread outside goes on and the queue stays as it is. -/
theorem caller (h : Coherent s) {i : Nat} {pc : CallerPc α} (hq : u.queue = s.queue)
    (hc : u.callers = Function.update s.callers i pc) (hw : u.workers = s.workers)
    (hs : u.spawned = s.spawned) (hp : CallerFits pc (s.phase (.caller i))) : Coherent u :=
  h.callerTurn (hq ▸ h.ring) (fun _ _ => by rw [hq]) hc hw hs (by rwa [State.phase, hq])

theorem worker (h : Coherent s) {w : Nat} {pc : WorkerPc α} (hq : u.queue = s.queue)
    (hc : u.callers = s.callers) (hw : u.workers = Function.update s.workers w pc)
    (hs : u.spawned = s.spawned) (hb : s.workers w ≠ .unborn)
    (hp : WorkerFits pc (s.phase (.worker w))) : Coherent u :=
  h.workerTurn (hq ▸ h.ring) (fun _ _ => by rw [hq]) hc hw hs hb (by rwa [State.phase, hq])

theorem woken (h : Coherent s) (hq : u.queue = s.queue) (hc : u.callers = s.callers)
    (hw : Woken s.workers u.workers) (hs : u.spawned = s.spawned) : Coherent u where
  ring := hq ▸ h.ring
  callers := fun i => by
    rw [hc, State.phase, hq]
    exact h.callers i
  workers := fun w => by
    rw [State.phase, hq]
    have hf := h.workers w
    rcases hw w with he | ⟨ha, he⟩
    · rwa [he]
    · rw [ha] at hf
      rwa [he]
  unborn := fun w hle => by
    have hn := h.unborn w (hs ▸ hle)
    rcases hw w with he | ⟨ha, -⟩
    · rw [he, hn]
    · rw [ha] at hn
      cases hn

theorem spawn (h : Coherent s) (hq : u.queue = s.queue) (hc : u.callers = s.callers)
    (hw : u.workers = Function.update s.workers s.spawned .loopHead)
    (hs : u.spawned = s.spawned + 1) : Coherent u where
  ring := hq ▸ h.ring
  callers := fun i => by
    rw [hc, State.phase, hq]
    exact h.callers i
  workers := fun w => by
    rw [hw, State.phase, hq]
    rcases eq_or_ne w s.spawned with rfl | hne
    · have hf := h.workers s.spawned
      rw [h.unborn _ le_rfl] at hf
      rwa [Function.update_self]
    · rw [Function.update_of_ne hne]
      exact h.workers w
  unborn := fun w hle => by
    rw [hs] at hle
    rw [hw, Function.update_of_ne (by omega)]
    exact h.unborn w (by omega)

/-- A worker outside `try_pop` has no operation running. -/
theorem worker_idle (h : Coherent s) {w : Nat} (hp : ∀ b ws f, s.workers w ≠ .popping b ws f) :
    s.phase (.worker w) = .idle := by
  have hw := h.workers w
  revert hp hw
  cases s.workers w <;> simp [WorkerFits]

theorem caller_idle (h : Coherent s) {i : Nat} (hp : ∀ t d, s.callers i ≠ .pushing t d) :
    s.phase (.caller i) = .idle := by
  have hi := h.callers i
  revert hp hi
  cases s.callers i <;> simp [CallerFits]

/-- An advancing push either keeps its item or has claimed a ticket. -/
theorem push_advance (h : Coherent s) {i : Nat} {t : Task α} {d : Nat} {b : Bool}
    {q : MpmcQueue.State Tid (Task α)} (hc : s.callers i = .pushing t d)
    (hq : queueStep s (.advance (.caller i) b) = some q) :
    CallerFits (.pushing t d) (q.threads (.caller i)).phase := by
  have hi := h.callers i
  rw [hc] at hi
  cases (queueStep_advance hq).effect with
  | quiet hl _ _ =>
    rw [hl]
    exact hi
  | claimedPush h0 h1 _ _ => exact .inr h1
  | claimedPop h0 _ _ _ =>
    rcases hi with hi | hi <;> simp [State.phase, h0] at hi

theorem pop_advance (h : Coherent s) {w : Nat} {batch : List (Task α)} {waits : List Nat}
    {first : Nat} {b : Bool} {q : MpmcQueue.State Tid (Task α)}
    (hw : s.workers w = .popping batch waits first)
    (hq : queueStep s (.advance (.worker w) b) = some q) :
    WorkerFits (.popping batch waits first) (q.threads (.worker w)).phase := by
  have hi := h.workers w
  rw [hw] at hi
  cases (queueStep_advance hq).effect with
  | quiet hl _ _ =>
    rw [hl]
    exact hi
  | claimedPush h0 _ _ _ =>
    rcases hi with hi | ⟨k, hi⟩ <;> simp [State.phase, h0] at hi
  | claimedPop _ h1 _ _ => exact .inr ⟨_, h1⟩

theorem callerMoves (h : Coherent s) {i : Nat} (hm : CallerMoves cfg s i u) : Coherent u := by
  have hi := h.callers i
  cases hm with
  | ready hc | notReady hc | executorStopped hc | timeout hc | retry hc | notifyNone hc _
  | started hc _ | startRefused hc | spawnedAll hc _ | stopRefused hc _ | stopping hc _
  | stopLocked hc _ | stopUnlocked hc | joined hc _ _ | stopDone hc _ =>
    rw [hc] at hi
    exact h.caller rfl rfl rfl rfl hi
  | beginPush hc _ hq =>
    have := queueStep_callPush hq
    refine h.callerTurn (h.ring.step hq) ?_ rfl rfl rfl ?_
    · intro x hx
      simp [this, Function.update_of_ne hx]
    · simp [State.phase, this, CallerFits, MpmcQueue.Local.phase]
  | pushed hc _ hq | refused hc _ hq =>
    have := queueStep_ret hq
    refine h.callerTurn (h.ring.step hq) ?_ rfl rfl rfl ?_
    · intro x hx
      simp [this, Function.update_of_ne hx]
    · simp [State.phase, this, CallerFits, MpmcQueue.Local.phase]
  | pushStep hc hq =>
    refine h.callerTurn (h.ring.step hq) (fun x hx => (queueStep_advance hq).frame hx) ?_ rfl rfl
      (h.push_advance hc hq)
    exact (Function.update_eq_self_iff.mpr hc.symm).symm
  | notifyOne hc _ ha =>
    rw [hc] at hi
    have hn : Coherent { s with callers := Function.update s.callers i .idle } :=
      h.caller rfl rfl rfl rfl hi
    exact hn.woken rfl rfl (woken_wakeOne ha) rfl
  | notifyAll hc =>
    rw [hc] at hi
    have hn : Coherent { s with callers := Function.update s.callers i (.joining 0) } :=
      h.caller rfl rfl rfl rfl hi
    exact hn.woken rfl rfl (woken_wakeAll s) rfl
  | @spawn n hc _ =>
    rw [hc] at hi
    have hn : Coherent { s with callers := Function.update s.callers i (.spawning (n + 1)) } :=
      h.caller rfl rfl rfl rfl hi
    exact hn.spawn rfl rfl rfl rfl

theorem workerFits_leaveInner (batch : List (Task α)) (waits : List Nat) :
    WorkerFits (leaveInner batch waits) .idle := by
  unfold leaveInner
  split_ifs <;> rfl

theorem workerMoves (h : Coherent s) {w : Nat} (hm : WorkerMoves cfg s w u) : Coherent u := by
  have hi := h.workers w
  cases hm with
  | exit hw _ | enter hw | fetchSub hw | sizePositive hw | sizeZero hw _ | sawStopped hw
  | predicateFalse hw | sleep hw | unlocked hw | available hw | gone hw | answer hw _ _ _
  | answered hw _ | refuse hw _ | refusedAll hw _ =>
    rw [hw] at hi
    exact h.worker rfl rfl rfl rfl (by simp [hw]) hi
  | locked hw _ =>
    refine h.worker rfl rfl rfl rfl ?_ ?_
    · rcases hw with hw | hw <;> simp [hw]
    · rcases hw with hw | hw <;> simpa [hw, WorkerFits] using hi
  | leave hw =>
    rw [hw] at hi
    refine h.worker rfl rfl rfl rfl (by simp [hw]) ?_
    rw [hi]
    exact workerFits_leaveInner ..
  | beginPop hw hq =>
    have := queueStep_callPop hq
    refine h.workerTurn (h.ring.step hq) ?_ rfl rfl rfl (by simp [hw]) ?_
    · intro x hx
      simp [this, Function.update_of_ne hx]
    · simp [State.phase, this, WorkerFits, MpmcQueue.Local.phase]
  | popped hw _ hq =>
    have := queueStep_ret hq
    refine h.workerTurn (h.ring.step hq) ?_ rfl rfl rfl (by simp [hw]) ?_
    · intro x hx
      simp [this, Function.update_of_ne hx]
    · simp [State.phase, this, WorkerFits, MpmcQueue.Local.phase]
  | popFailed hw _ hq hpc =>
    have := queueStep_ret hq
    refine h.workerTurn (h.ring.step hq) ?_ rfl rfl rfl (by simp [hw]) ?_
    · intro x hx
      simp [this, Function.update_of_ne hx]
    · simp only [State.phase, this, MpmcQueue.State.set_threads, Function.update_self,
        MpmcQueue.Local.phase]
      rcases hpc with rfl | rfl
      · exact workerFits_leaveInner ..
      · rfl
  | popStep hw hq =>
    refine h.workerTurn (h.ring.step hq) (fun x hx => (queueStep_advance hq).frame hx) rfl ?_ rfl
      (by simp [hw]) (h.pop_advance hw hq)
    exact (Function.update_eq_self_iff.mpr hw.symm).symm

theorem moves (h : Coherent s) {a : Action α} (hm : Moves cfg s a u) : Coherent u := by
  cases hm with
  | @inferAsync i _ _ hc | @callStart i hc | @callStop i hc =>
    have hi := h.callers i
    rw [hc] at hi
    exact h.caller rfl rfl rfl rfl hi
  | caller hm => exact h.callerMoves hm
  | worker hm => exact h.workerMoves hm
  | @inferBatch w _ _ _ _ hw _ =>
    have hi := h.workers w
    rw [hw] at hi
    exact h.worker rfl rfl rfl rfl (by simp [hw]) hi
  | spuriousWake ha => exact h.woken rfl rfl (woken_wakeOne ha) rfl
  | tick _ | setReady _ => exact ⟨h.ring, h.callers, h.workers, h.unborn⟩

theorem of_reachable (h : (system cfg).Reachable s) : Coherent s := by
  refine h.invariant ?_ fun _ _ _ hp ht => hp.moves (moves_of_step ht)
  rintro _ ⟨ready, rfl⟩
  exact coherent_initial ready

end Coherent

end Jellybean.Model.ModelExecutor
