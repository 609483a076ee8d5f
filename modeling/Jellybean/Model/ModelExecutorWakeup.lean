import Jellybean.Framework.SideCounter
import Jellybean.Model.ModelExecutorInvariant

namespace Jellybean.Model.ModelExecutor

open Concurrency Inference

variable {α : Type*} {cfg : Config} {s u : State α}

/-- A producer between its push and its `notify_one`. -/
def Announcing (s : State α) (i : Nat) : Prop :=
  s.queue.threads (.caller i) = .pushSucceeded ∨ ∃ t, s.callers i = .notify t

/-- A task is published in `queue_` and no pop has claimed it. -/
def QueueHolds (s : State α) : Prop :=
  ∃ k, s.queue.dequeuePos ≤ k ∧ s.queue.sequence (capacity.slot k) = k + 1

/-- The executor runs and all its workers are created, none of them is awake, every push has been
announced, and a task is waiting. -/
structure LostWakeup (cfg : Config) (s : State α) : Prop where
  running : s.stopped = false
  created : s.base + cfg.numWorkers ≤ s.spawned
  asleep : ∀ w < s.spawned, s.workers w = .asleep ∨ s.workers w = .exited
  announced : ∀ i, ¬ Announcing s i
  task : QueueHolds s

/-! At most one thread holds `cv_mu_`. -/

def WorkerPc.locked : WorkerPc α → Bool
  | .evalSize | .evalStopped | .goSleep | .unlock => true
  | _ => false

def CallerPc.locked : CallerPc α → Bool
  | .stopUnlock => true
  | _ => false

def HoldsMutex (s : State α) : Tid → Prop
  | .caller i => (s.callers i).locked = true
  | .worker w => (s.workers w).locked = true

def MutexInv (s : State α) : Prop := ∀ x, HoldsMutex s x → s.mutex = some x

namespace MutexInv

theorem keep (h : MutexInv s) (hm : u.mutex = s.mutex)
    (hx : ∀ x, HoldsMutex u x → HoldsMutex s x) : MutexInv u :=
  fun x hu => hm.trans (h x (hx x hu))

theorem acquire (h : MutexInv s) {y : Tid} (hn : s.mutex = none) (hm : u.mutex = some y)
    (hx : ∀ x, x ≠ y → HoldsMutex u x → HoldsMutex s x) : MutexInv u := by
  intro x hu
  rcases eq_or_ne x y with rfl | hne
  · exact hm
  · have := h x (hx x hne hu)
    rw [hn] at this
    cases this

theorem release (h : MutexInv s) {y : Tid} (hy : HoldsMutex s y) (hn : ¬ HoldsMutex u y)
    (hx : ∀ x, x ≠ y → HoldsMutex u x → HoldsMutex s x) : MutexInv u := by
  intro x hu
  rcases eq_or_ne x y with rfl | hne
  · exact absurd hu hn
  · have := (h x (hx x hne hu)).symm.trans (h y hy)
    exact absurd (Option.some.inj this) hne

theorem unique (h : MutexInv s) {x y : Tid} (hx : HoldsMutex s x) (hy : HoldsMutex s y) : x = y :=
  Option.some.inj ((h x hx).symm.trans (h y hy))

end MutexInv

theorem holdsMutex_caller {x : Tid} (h : HoldsMutex u x) {i : Nat} {pc : CallerPc α}
    (hc : u.callers = Function.update s.callers i pc) (hw : Woken s.workers u.workers)
    (hx : x ≠ .caller i) : HoldsMutex s x := by
  cases x with
  | caller j =>
    have hj : j ≠ i := fun e => hx (by rw [e])
    simpa [HoldsMutex, hc, hj] using h
  | worker w =>
    rcases hw w with he | ⟨ha, he⟩
    · simpa [HoldsMutex, he] using h
    · simp [HoldsMutex, he, WorkerPc.locked] at h

theorem holdsMutex_worker {x : Tid} (h : HoldsMutex u x) {w : Nat} {pc : WorkerPc α}
    (hc : u.callers = s.callers) (hw : u.workers = Function.update s.workers w pc)
    (hx : x ≠ .worker w) : HoldsMutex s x := by
  cases x with
  | caller i => simpa [HoldsMutex, hc] using h
  | worker v =>
    have hv : v ≠ w := fun e => hx (by rw [e])
    simpa [HoldsMutex, hw, hv] using h

namespace MutexInv

theorem caller (h : MutexInv s) {i : Nat} {pc : CallerPc α} (hm : u.mutex = s.mutex)
    (hc : u.callers = Function.update s.callers i pc) (hw : Woken s.workers u.workers)
    (hp : pc.locked = false) : MutexInv u := by
  refine h.keep hm fun x hu => ?_
  rcases eq_or_ne x (.caller i) with rfl | hx
  · simp [HoldsMutex, hc, hp] at hu
  · exact holdsMutex_caller hu hc hw hx

theorem worker (h : MutexInv s) {w : Nat} {pc : WorkerPc α} (hm : u.mutex = s.mutex)
    (hc : u.callers = s.callers) (hw : u.workers = Function.update s.workers w pc)
    (hp : pc.locked = true → (s.workers w).locked = true) : MutexInv u := by
  refine h.keep hm fun x hu => ?_
  rcases eq_or_ne x (.worker w) with rfl | hx
  · exact hp (by simpa [HoldsMutex, hw] using hu)
  · exact holdsMutex_worker hu hc hw hx

theorem callerMoves (h : MutexInv s) {i : Nat} (hm : CallerMoves cfg s i u) : MutexInv u := by
  cases hm with
  | ready _ | notReady _ | executorStopped _ | timeout _ | retry _ | notifyNone _ _ | started _ _
  | startRefused _ | spawnedAll _ _ | stopRefused _ _ | stopping _ _ | joined _ _ _ | stopDone _ _
  | beginPush _ _ _ | pushed _ _ _ | refused _ _ _ =>
    exact h.caller rfl rfl (.refl _) rfl
  | pushStep _ _ => exact h.keep rfl fun _ hu => hu
  | notifyOne _ _ ha => exact h.caller rfl rfl (woken_wakeOne ha) rfl
  | notifyAll _ => exact h.caller rfl rfl (woken_wakeAll s) rfl
  | @spawn n _ _ =>
    have hn : MutexInv { s with callers := Function.update s.callers i (.spawning (n + 1)) } :=
      h.caller rfl rfl (.refl _) rfl
    exact hn.worker rfl rfl rfl (by simp [WorkerPc.locked])
  | stopLocked _ hn =>
    exact h.acquire hn rfl fun x hx hu => holdsMutex_caller hu rfl (.refl _) hx
  | stopUnlocked hc =>
    refine h.release (y := .caller i) ?_ ?_ fun x hx hu => holdsMutex_caller hu rfl (.refl _) hx
    · simp [HoldsMutex, hc, CallerPc.locked]
    · simp [HoldsMutex, CallerPc.locked]

theorem locked_leaveInner (batch : List (Task α)) (waits : List Nat) :
    (leaveInner batch waits).locked = false := by
  unfold leaveInner
  split_ifs <;> rfl

theorem workerMoves (h : MutexInv s) {w : Nat} (hm : WorkerMoves cfg s w u) : MutexInv u := by
  cases hm with
  | exit _ _ | enter _ | fetchSub _ | available _ | gone _ | answer _ _ _ _ | answered _ _
  | refuse _ _ | refusedAll _ _ | beginPop _ _ | popped _ _ _ =>
    exact h.worker rfl rfl rfl (by simp [WorkerPc.locked])
  | sizePositive hw | sizeZero hw _ | sawStopped hw | predicateFalse hw =>
    exact h.worker rfl rfl rfl (by simp [hw, WorkerPc.locked])
  | leave _ => exact h.worker rfl rfl rfl (by simp [locked_leaveInner])
  | popFailed _ _ _ hpc =>
    refine h.worker rfl rfl rfl ?_
    rcases hpc with rfl | rfl
    · simp [locked_leaveInner]
    · simp [WorkerPc.locked]
  | popStep _ _ => exact h.keep rfl fun _ hu => hu
  | locked _ hn => exact h.acquire hn rfl fun x hx hu => holdsMutex_worker hu rfl rfl hx
  | sleep hw | unlocked hw =>
    refine h.release (y := .worker w) ?_ ?_ fun x hx hu => holdsMutex_worker hu rfl rfl hx
    · simp [HoldsMutex, hw, WorkerPc.locked]
    · simp [HoldsMutex, WorkerPc.locked]

theorem moves (h : MutexInv s) {a : Action α} (hm : Moves cfg s a u) : MutexInv u := by
  cases hm with
  | inferAsync _ _ _ | callStart _ | callStop _ => exact h.caller rfl rfl (.refl _) rfl
  | caller hm => exact h.callerMoves hm
  | worker hm => exact h.workerMoves hm
  | inferBatch _ _ => exact h.worker rfl rfl rfl (by simp [WorkerPc.locked])
  | spuriousWake ha =>
    refine h.keep rfl fun x hu => ?_
    cases x with
    | caller i => exact hu
    | worker v =>
      rcases woken_wakeOne ha v with he | ⟨-, he⟩
      · simpa [HoldsMutex, he] using hu
      · simp [HoldsMutex, he, WorkerPc.locked] at hu
  | tick _ | setReady _ => exact h.keep rfl fun _ hu => hu

end MutexInv

/-! `queue_size_` runs behind the queue on both sides: by the producers that have claimed a ticket
and not added it, and by the workers that have claimed one and not subtracted it. -/

def WorkerPc.isFetchSub : WorkerPc α → Bool
  | .fetchSub _ _ _ => true
  | _ => false

def Owing (s : State α) (w : Nat) : Prop :=
  (∃ k, s.phase (.worker w) = .took k) ∨ (s.workers w).isFetchSub = true

def Counted (s : State α) : Prop :=
  ∃ P W : Finset Nat, (∀ i, i ∈ P ↔ s.phase (.caller i) = .offered) ∧ (∀ w, w ∈ W ↔ Owing s w) ∧
    s.queueSize = s.queue.pushed.length - s.queue.popped.length - P.card + W.card

/-- The tasks whose ticket has been claimed by a producer and by no worker. -/
def queued (s : State α) : ℤ := s.queue.pushed.length - s.queue.popped.length

theorem counted_iff : Counted s ↔
    SideCounter (fun i => s.phase (.caller i) = .offered) (Owing s) s.queueSize (queued s) := by
  unfold Counted SideCounter queued
  simp only [Int.cast_id]

theorem phase_frame {x y : Tid} (hf : ∀ x, x ≠ y → u.queue.threads x = s.queue.threads x)
    (hx : x ≠ y) : u.phase x = s.phase x := by
  rw [State.phase, hf x hx, State.phase]

theorem owing_frame {w : Nat} (hp : u.phase (.worker w) = s.phase (.worker w))
    (hw : (u.workers w).isFetchSub = (s.workers w).isFetchSub) : Owing u w ↔ Owing s w := by
  rw [Owing, hp, hw, Owing]

theorem isFetchSub_woken (hw : Woken s.workers u.workers) (w : Nat) :
    (u.workers w).isFetchSub = (s.workers w).isFetchSub := by
  rcases hw w with he | ⟨ha, he⟩
  · rw [he]
  · rw [he, ha]
    rfl

theorem isFetchSub_update {w : Nat} {pc : WorkerPc α}
    (hw : u.workers = Function.update s.workers w pc)
    (hp : pc.isFetchSub = (s.workers w).isFetchSub) (v : Nat) :
    (u.workers v).isFetchSub = (s.workers v).isFetchSub := by
  rcases eq_or_ne v w with rfl | hv
  · rw [hw, Function.update_self, hp]
  · rw [hw, Function.update_of_ne hv]

namespace Counted

theorem congr (h : Counted s) (hp : ∀ i, u.phase (.caller i) = .offered ↔
      s.phase (.caller i) = .offered) (hw : ∀ w, Owing u w ↔ Owing s w)
    (hpu : u.queue.pushed.length = s.queue.pushed.length)
    (hpo : u.queue.popped.length = s.queue.popped.length) (hz : u.queueSize = s.queueSize) :
    Counted u := by
  obtain ⟨P, W, hP, hW, hs⟩ := h
  exact ⟨P, W, fun i => (hP i).trans (hp i).symm, fun w => (hW w).trans (hw w).symm,
    by rw [hz, hpu, hpo, hs]⟩

theorem sameQueue (h : Counted s) (hq : u.queue = s.queue)
    (hw : ∀ w, (u.workers w).isFetchSub = (s.workers w).isFetchSub)
    (hz : u.queueSize = s.queueSize) : Counted u := by
  have hp (x : Tid) : u.phase x = s.phase x := by rw [State.phase, hq, State.phase]
  exact h.congr (fun i => by rw [hp]) (fun w => owing_frame (hp _) (hw w)) (by rw [hq])
    (by rw [hq]) hz

/-- A thread outside takes a step of its push that claims nothing. -/
theorem callerTurn (h : Counted s) {i : Nat}
    (hf : ∀ x, x ≠ .caller i → u.queue.threads x = s.queue.threads x)
    (hp : u.phase (.caller i) = .offered ↔ s.phase (.caller i) = .offered)
    (hw : u.workers = s.workers) (hpu : u.queue.pushed = s.queue.pushed)
    (hpo : u.queue.popped = s.queue.popped) (hz : u.queueSize = s.queueSize) : Counted u := by
  refine h.congr (fun j => ?_) (fun w => owing_frame (phase_frame hf (by simp)) (by rw [hw]))
    (by rw [hpu]) (by rw [hpo]) hz
  rcases eq_or_ne j i with rfl | hj
  · exact hp
  · rw [phase_frame hf (by simpa using hj)]

theorem workerTurn (h : Counted s) {w : Nat}
    (hf : ∀ x, x ≠ .worker w → u.queue.threads x = s.queue.threads x)
    (hv : ∀ v, v ≠ w → u.workers v = s.workers v) (ho : Owing u w ↔ Owing s w)
    (hpu : u.queue.pushed = s.queue.pushed) (hpo : u.queue.popped = s.queue.popped)
    (hz : u.queueSize = s.queueSize) : Counted u := by
  refine h.congr (fun j => by rw [phase_frame hf (by simp)]) (fun v => ?_) (by rw [hpu])
    (by rw [hpo]) hz
  rcases eq_or_ne v w with rfl | hne
  · exact ho
  · exact owing_frame (phase_frame hf (by simpa using hne)) (by rw [hv v hne])

/-- A producer claims a ticket. -/
theorem claimPush (h : Counted s) {i : Nat}
    (hf : ∀ x, x ≠ .caller i → u.queue.threads x = s.queue.threads x)
    (h0 : s.phase (.caller i) ≠ .offered) (h1 : u.phase (.caller i) = .offered)
    (hw : u.workers = s.workers) (hpu : u.queue.pushed.length = s.queue.pushed.length + 1)
    (hpo : u.queue.popped = s.queue.popped) (hz : u.queueSize = s.queueSize) : Counted u := by
  have hheld : queued u = queued s + 1 := by
    unfold queued
    rw [hpu, hpo]
    push_cast
    ring
  rw [counted_iff, hz, hheld]
  refine ((counted_iff.mp h).put h0 ?_).congr (fun _ => Iff.rfl) fun w =>
    owing_frame (phase_frame hf (by simp)) (by rw [hw])
  intro j
  rcases eq_or_ne j i with rfl | hj
  · simp [h1]
  · rw [phase_frame hf (by simpa using hj)]
    simp [hj]

/-- A producer adds its ticket to the counter. -/
theorem fetchAdd (h : Counted s) {i : Nat}
    (hf : ∀ x, x ≠ .caller i → u.queue.threads x = s.queue.threads x)
    (h0 : s.phase (.caller i) = .offered) (h1 : u.phase (.caller i) ≠ .offered)
    (hw : u.workers = s.workers) (hpu : u.queue.pushed = s.queue.pushed)
    (hpo : u.queue.popped = s.queue.popped) (hz : u.queueSize = s.queueSize + 1) : Counted u := by
  have hheld : queued u = queued s := by rw [queued, hpu, hpo, queued]
  rw [counted_iff, hz, hheld]
  refine ((counted_iff.mp h).add h0 ?_).congr (fun _ => Iff.rfl) fun w =>
    owing_frame (phase_frame hf (by simp)) (by rw [hw])
  intro j
  rcases eq_or_ne j i with rfl | hj
  · simp [h1]
  · rw [phase_frame hf (by simpa using hj)]
    simp [hj]

/-- A worker claims a ticket. -/
theorem claimPop (h : Counted s) {w : Nat}
    (hf : ∀ x, x ≠ .worker w → u.queue.threads x = s.queue.threads x)
    (h0 : ¬ Owing s w) (h1 : Owing u w) (hw : u.workers = s.workers)
    (hpu : u.queue.pushed = s.queue.pushed)
    (hpo : u.queue.popped.length = s.queue.popped.length + 1) (hz : u.queueSize = s.queueSize) :
    Counted u := by
  have hheld : queued u = queued s - 1 := by
    unfold queued
    rw [hpu, hpo]
    push_cast
    ring
  rw [counted_iff, hz, hheld]
  refine ((counted_iff.mp h).take h0 ?_).congr (fun i => ?_) fun _ => Iff.rfl
  · intro v
    rcases eq_or_ne v w with rfl | hv
    · simp [h1]
    · rw [owing_frame (phase_frame hf (by simpa using hv)) (by rw [hw])]
      simp [hv]
  · rw [phase_frame hf (by simp)]

/-- A worker subtracts its ticket from the counter. -/
theorem fetchSub (h : Counted s) {w : Nat} {pc : WorkerPc α} (hq : u.queue = s.queue)
    (hws : u.workers = Function.update s.workers w pc) (h0 : Owing s w) (h1 : ¬ Owing u w)
    (hz : u.queueSize = s.queueSize - 1) : Counted u := by
  have hp (x : Tid) : u.phase x = s.phase x := by rw [State.phase, hq, State.phase]
  have hheld : queued u = queued s := by rw [queued, hq, queued]
  rw [counted_iff, hz, hheld]
  refine ((counted_iff.mp h).subtract h0 ?_).congr (fun i => by rw [hp]) fun _ => Iff.rfl
  intro v
  rcases eq_or_ne v w with rfl | hv
  · simp [h1]
  · rw [owing_frame (hp _) (by rw [hws, Function.update_of_ne hv])]
    simp [hv]

theorem initial (ready : Bool) : Counted (initial ready : State α) :=
  ⟨∅, ∅, by simp [State.phase, ModelExecutor.initial, MpmcQueue.initial, MpmcQueue.Local.phase],
    by simp [Owing, State.phase, ModelExecutor.initial, MpmcQueue.initial, MpmcQueue.Local.phase,
      WorkerPc.isFetchSub], rfl⟩

theorem callerMoves (h : Counted s) (hco : Coherent s) {i : Nat} (hm : CallerMoves cfg s i u) :
    Counted u := by
  have hi := hco.callers i
  cases hm with
  | ready _ | notReady _ | executorStopped _ | timeout _ | retry _ | notifyNone _ _ | started _ _
  | startRefused _ | spawnedAll _ _ | stopRefused _ _ | stopping _ _ | joined _ _ _ | stopDone _ _
  | stopLocked _ _ | stopUnlocked _ => exact h.sameQueue rfl (fun _ => rfl) rfl
  | notifyOne _ _ ha => exact h.sameQueue rfl (isFetchSub_woken (woken_wakeOne ha)) rfl
  | notifyAll _ => exact h.sameQueue rfl (isFetchSub_woken (woken_wakeAll s)) rfl
  | spawn _ _ =>
    refine h.sameQueue rfl (isFetchSub_update rfl ?_) rfl
    rw [hco.unborn _ le_rfl]
    rfl
  | beginPush hc _ hq =>
    obtain rfl := queueStep_callPush hq
    rw [hc] at hi
    refine h.callerTurn (set_frame s) ?_ rfl rfl rfl rfl
    rw [show s.phase (.caller i) = .idle from hi]
    simp [State.phase, MpmcQueue.Local.phase]
  | pushed _ hl hq =>
    obtain rfl := queueStep_ret hq
    refine h.fetchAdd (set_frame s) ?_ ?_ rfl rfl rfl rfl
    · simp [State.phase, hl, MpmcQueue.Local.phase]
    · simp [State.phase, MpmcQueue.Local.phase]
  | refused _ hl hq =>
    obtain rfl := queueStep_ret hq
    refine h.callerTurn (set_frame s) ?_ rfl rfl rfl rfl
    simp [State.phase, hl, MpmcQueue.Local.phase]
  | pushStep hc hq =>
    have hmv := queueStep_advance hq
    rw [hc] at hi
    cases hmv.effect with
    | quiet hl hp hd =>
      exact h.callerTurn (fun _ => hmv.frame) (by rw [State.phase, hl, State.phase]) rfl hp hd rfl
    | claimedPush h0 h1 hp hd =>
      refine h.claimPush (fun _ => hmv.frame) ?_ h1 rfl (by simp [hp]) hd rfl
      simp [State.phase, h0]
    | claimedPop h0 _ _ _ => simp [CallerFits, State.phase, h0] at hi

theorem isFetchSub_leaveInner (batch : List (Task α)) (waits : List Nat) :
    (leaveInner batch waits).isFetchSub = false := by
  unfold leaveInner
  split_ifs <;> rfl

theorem workerMoves (h : Counted s) (hco : Coherent s) {w : Nat} (hm : WorkerMoves cfg s w u) :
    Counted u := by
  have hi := hco.workers w
  cases hm with
  | exit hw _ | enter hw | available hw | gone hw | answer hw _ _ _ | answered hw _
  | refuse hw _ | refusedAll hw _ | sizePositive hw | sizeZero hw _ | sawStopped hw
  | predicateFalse hw | sleep hw | unlocked hw =>
    exact h.sameQueue rfl (isFetchSub_update rfl (by rw [hw]; rfl)) rfl
  | locked hw _ =>
    refine h.sameQueue rfl (isFetchSub_update rfl ?_) rfl
    rcases hw with hw | hw <;> rw [hw] <;> rfl
  | leave hw =>
    refine h.sameQueue rfl (isFetchSub_update rfl ?_) rfl
    rw [isFetchSub_leaveInner, hw]
    rfl
  | fetchSub hw =>
    rw [hw] at hi
    refine h.fetchSub rfl rfl (.inr (by rw [hw]; rfl)) ?_ rfl
    rintro (⟨k, hk⟩ | hf)
    · cases hk.symm.trans hi
    · simp [WorkerPc.isFetchSub] at hf
  | beginPop hw hq =>
    obtain rfl := queueStep_callPop hq
    rw [hw] at hi
    refine h.workerTurn (set_frame s) (fun v hv => Function.update_of_ne hv ..) ?_ rfl rfl rfl
    rw [Owing, Owing, show s.phase (.worker w) = .idle from hi, hw]
    simp [State.phase, MpmcQueue.Local.phase, WorkerPc.isFetchSub]
  | popped hw hl hq =>
    obtain rfl := queueStep_ret hq
    refine h.workerTurn (set_frame s) (fun v hv => Function.update_of_ne hv ..) ?_ rfl rfl rfl
    simp [Owing, State.phase, hl, MpmcQueue.Local.phase, WorkerPc.isFetchSub]
  | @popFailed _ _ _ pc _ hw hl hq hpc =>
    obtain rfl := queueStep_ret hq
    have hnew : pc.isFetchSub = false := by
      rcases hpc with rfl | rfl
      · exact isFetchSub_leaveInner ..
      · rfl
    have hold : (s.workers w).isFetchSub = false := by rw [hw]; rfl
    refine h.workerTurn (set_frame s) (fun v hv => Function.update_of_ne hv ..) ?_ rfl rfl rfl
    simp [Owing, State.phase, hl, MpmcQueue.Local.phase, hnew, hold]
  | popStep hw hq =>
    have hmv := queueStep_advance hq
    rw [hw] at hi
    cases hmv.effect with
    | quiet hl hp hd =>
      refine h.workerTurn (fun _ => hmv.frame) (fun _ _ => rfl) ?_ hp hd rfl
      exact owing_frame (by rw [State.phase, hl, State.phase]) rfl
    | claimedPush h0 _ _ _ => simp [WorkerFits, State.phase, h0] at hi
    | claimedPop h0 h1 hp hd =>
      refine h.claimPop (fun _ => hmv.frame) ?_ (.inl ⟨_, h1⟩) rfl hp (by simp [hd]) rfl
      simp [Owing, State.phase, h0, hw, WorkerPc.isFetchSub]

theorem moves (h : Counted s) (hco : Coherent s) {a : Action α} (hm : Moves cfg s a u) :
    Counted u := by
  cases hm with
  | inferAsync _ _ _ | callStart _ | callStop _ | tick _ | setReady _ =>
    exact h.sameQueue rfl (fun _ => rfl) rfl
  | caller hm => exact h.callerMoves hco hm
  | worker hm => exact h.workerMoves hco hm
  | inferBatch hw _ => exact h.sameQueue rfl (isFetchSub_update rfl (by rw [hw]; rfl)) rfl
  | spuriousWake ha => exact h.sameQueue rfl (isFetchSub_woken (woken_wakeOne ha)) rfl

end Counted

theorem pushing_of_offered {l : MpmcQueue.Local (Task α)} (hl : l.phase = .offered)
    (hs : l ≠ .pushSucceeded) : ∃ k, l.Pushing k := by
  cases l with
  | pushConstruct _ k | pushPublish k => exact ⟨k, rfl⟩
  | pushSucceeded => exact absurd rfl hs
  | _ => cases hl

/-- Once every push is announced the counter is positive as long as a task waits: the producers
that are still inside a push own tickets of their own. -/
theorem Counted.queueSize_pos (h : Counted s) (hco : Coherent s) (hq : QueueHolds s)
    (ha : ∀ i, ¬ Announcing s i) : 0 < s.queueSize := by
  obtain ⟨P, W, hP, -, hs⟩ := h
  obtain ⟨k, hk, hseq⟩ := hq
  have hr := hco.ring
  have hke : k < s.queue.enqueuePos := (hr.slot_holds hseq).2.2.2.1
  have hpush (i : Nat) (hi : i ∈ P) : ∃ pos, (s.queue.threads (.caller i)).Pushing pos :=
    pushing_of_offered ((hP i).mp hi) fun he => ha i (.inl he)
  choose! f hf using hpush
  have hmaps : ∀ i ∈ P, f i ∈ (Finset.Ico s.queue.dequeuePos s.queue.enqueuePos).erase k := by
    intro i hi
    obtain ⟨hsf, item, hc⟩ := hr.pushing_claim (hf i hi)
    have hlo := (hr.slot_free hsf).2.2.2.1
    have hhi := hr.pushed_lt hc
    rw [Finset.mem_erase, Finset.mem_Ico]
    refine ⟨fun he => ?_, hlo, hhi⟩
    rw [he] at hsf
    omega
  have hinj : Set.InjOn f P := by
    intro i hi j hj he
    obtain ⟨-, _, hci⟩ := hr.pushing_claim (hf i hi)
    obtain ⟨-, _, hcj⟩ := hr.pushing_claim (hf j hj)
    rw [he, hcj] at hci
    simpa using (congrArg MpmcQueue.PushClaim.thread (Option.some.inj hci)).symm
  have hcard := Finset.card_le_card_of_injOn f hmaps hinj
  rw [Finset.card_erase_of_mem (Finset.mem_Ico.mpr ⟨hk, hke⟩), Nat.card_Ico] at hcard
  rw [hs, hr.pushed_length, hr.popped_length]
  omega

/-- Neither asleep nor on its way to sleep with the predicate found false. -/
def WorkerPc.awake : WorkerPc α → Bool
  | .unborn | .asleep | .exited | .evalStopped | .goSleep => false
  | _ => true

/-- The workers of the latest start are there as long as nobody stops the executor. -/
structure Crew (s : State α) : Prop where
  born : ∀ w < s.spawned, s.workers w ≠ .unborn
  working : s.stopped = false → ∀ w, s.base ≤ w → s.workers w ≠ .exited

/-- Some worker is going to look at the queue again. -/
def Active (cfg : Config) (s : State α) : Prop :=
  s.stopped = false → s.base + cfg.numWorkers ≤ s.spawned → (∀ i, ¬ Announcing s i) →
    QueueHolds s → ∃ w < s.spawned, (s.workers w).awake = true

namespace Crew

theorem initial (ready : Bool) : Crew (initial ready : State α) where
  born := fun _ hlt => by cases hlt
  working := fun hs => by cases hs

theorem caller (h : Crew s) (hw : Woken s.workers u.workers) (hs : u.spawned = s.spawned)
    (hb : u.base = s.base) (hst : u.stopped = false → s.stopped = false) : Crew u where
  born := fun w hlt => by
    rcases hw w with he | ⟨-, he⟩
    · rw [he]
      exact h.born w (hs ▸ hlt)
    · simp [he]
  working := fun hf w hle => by
    rcases hw w with he | ⟨-, he⟩
    · rw [he]
      exact h.working (hst hf) w (hb ▸ hle)
    · simp [he]

theorem worker (h : Crew s) {w : Nat} {pc : WorkerPc α}
    (hw : u.workers = Function.update s.workers w pc) (hs : u.spawned = s.spawned)
    (hb : u.base = s.base) (hst : u.stopped = s.stopped) (hp : pc ≠ .unborn)
    (he : s.stopped = false → pc ≠ .exited) : Crew u where
  born := fun v hlt => by
    rw [hw]
    rcases eq_or_ne v w with rfl | hv
    · rwa [Function.update_self]
    · rw [Function.update_of_ne hv]
      exact h.born v (hs ▸ hlt)
  working := fun hf v hle => by
    rw [hst] at hf
    rw [hw]
    rcases eq_or_ne v w with rfl | hv
    · rw [Function.update_self]
      exact he hf
    · rw [Function.update_of_ne hv]
      exact h.working hf v (hb ▸ hle)

theorem callerMoves (h : Crew s) (hco : Coherent s) {i : Nat} (hm : CallerMoves cfg s i u) :
    Crew u := by
  cases hm with
  | ready _ | notReady _ | executorStopped _ | timeout _ | retry _ | notifyNone _ _
  | startRefused _ | spawnedAll _ _ | stopRefused _ _ | joined _ _ _ | stopDone _ _
  | stopLocked _ _ | stopUnlocked _ | beginPush _ _ _ | pushed _ _ _ | refused _ _ _
  | pushStep _ _ => exact h.caller (.refl _) rfl rfl id
  | stopping _ _ => exact h.caller (.refl _) rfl rfl (by simp)
  | notifyOne _ _ ha => exact h.caller (woken_wakeOne ha) rfl rfl id
  | notifyAll _ => exact h.caller (woken_wakeAll s) rfl rfl id
  | started _ _ =>
    refine ⟨h.born, fun _ w hle => ?_⟩
    change s.workers w ≠ .exited
    rw [hco.unborn w hle]
    simp
  | spawn _ _ =>
    refine ⟨fun w hlt => ?_, fun hf w hle => ?_⟩
    · rcases eq_or_ne w s.spawned with rfl | hw
      · simp
      · simp only [Function.update_of_ne hw]
        exact h.born w (by simp at hlt; omega)
    · rcases eq_or_ne w s.spawned with rfl | hw
      · simp
      · simp only [Function.update_of_ne hw]
        exact h.working hf w hle

theorem leaveInner_ne (batch : List (Task α)) (waits : List Nat) :
    leaveInner batch waits ≠ .unborn ∧ leaveInner batch waits ≠ .exited := by
  unfold leaveInner
  split_ifs <;> simp

theorem workerMoves (h : Crew s) {w : Nat} (hm : WorkerMoves cfg s w u) : Crew u := by
  cases hm with
  | exit _ hs => exact h.worker rfl rfl rfl rfl (by simp) (by simp [hs])
  | enter _ | available _ | gone _ | answer _ _ _ _ | answered _ _ | refuse _ _
  | refusedAll _ _ | sizePositive _ | sizeZero _ _ | sawStopped _ | predicateFalse _ | sleep _
  | unlocked _ | locked _ _ | fetchSub _ | beginPop _ _ | popped _ _ _ =>
    exact h.worker rfl rfl rfl rfl (by simp) (by simp)
  | @leave batch waits _ _ =>
    exact h.worker rfl rfl rfl rfl (leaveInner_ne batch waits).1
      fun _ => (leaveInner_ne batch waits).2
  | @popFailed batch waits _ _ _ _ _ _ hpc =>
    rcases hpc with rfl | rfl
    · exact h.worker rfl rfl rfl rfl (leaveInner_ne batch waits).1
        fun _ => (leaveInner_ne batch waits).2
    · exact h.worker rfl rfl rfl rfl (by simp) (by simp)
  | popStep _ _ => exact ⟨h.born, h.working⟩

theorem moves (h : Crew s) (hco : Coherent s) {a : Action α} (hm : Moves cfg s a u) : Crew u := by
  cases hm with
  | inferAsync _ _ _ | callStart _ | callStop _ | tick _ | setReady _ =>
    exact h.caller (.refl _) rfl rfl id
  | caller hm => exact h.callerMoves hco hm
  | worker hm => exact h.workerMoves hm
  | inferBatch _ _ => exact h.worker rfl rfl rfl rfl (by simp) (by simp)
  | spuriousWake ha => exact h.caller (woken_wakeOne ha) rfl rfl id

end Crew

/-- Only the publishing store of a push puts a task into the queue. -/
theorem queueHolds_advance {x : Tid} {q : MpmcQueue.State Tid (Task α)}
    (hm : MpmcQueue.Moves capacity s.queue x q) (h : QueueHolds { s with queue := q }) :
    QueueHolds s ∨ q.threads x = .pushSucceeded := by
  obtain ⟨k, hk, hseq⟩ := h
  cases hm with
  | publish _ => exact .inr (Function.update_self ..)
  | claimPop _ hq =>
    simp only at hk hseq
    exact .inl ⟨k, by omega, hseq⟩
  | @release pos _ _ =>
    refine .inl ⟨k, hk, ?_⟩
    simp only [Function.update_apply] at hseq
    split_ifs at hseq with he
    · have hsucc := capacity.slot_add_val pos
      rw [hseq, ← he] at hsucc
      exact absurd hsucc (capacity.slot_succ_ne k)
    · exact hseq
  | _ => exact .inl ⟨k, hk, hseq⟩

theorem announcing_frame {i : Nat} {pc : CallerPc α}
    (hc : u.callers = Function.update s.callers i pc)
    (hf : ∀ x, x ≠ .caller i → u.queue.threads x = s.queue.threads x) (hi : ¬ Announcing s i)
    (j : Nat) (h : Announcing s j) : Announcing u j := by
  have hj : j ≠ i := fun e => hi (e ▸ h)
  rcases h with h | ⟨t, h⟩
  · exact .inl (by rw [hf _ (by simpa using hj), h])
  · exact .inr ⟨t, by rw [hc, Function.update_of_ne hj, h]⟩

theorem Coherent.not_announcing (h : Coherent s) {i : Nat} (hn : ∀ t, s.callers i ≠ .notify t)
    (hp : ∀ t d, s.callers i ≠ .pushing t d) : ¬ Announcing s i := by
  rintro (hs | ⟨t, ht⟩)
  · have := h.caller_idle hp
    simp [State.phase, hs, MpmcQueue.Local.phase] at this
  · exact hn t ht

namespace Active

theorem keep (h : Active cfg s) (hs : u.stopped = s.stopped) (hb : u.base = s.base)
    (hn : u.spawned = s.spawned) (ha : ∀ i, Announcing s i → Announcing u i)
    (hq : QueueHolds u → QueueHolds s)
    (hw : ∀ w, (s.workers w).awake = true → (u.workers w).awake = true) : Active cfg u := by
  intro h1 h2 h3 h4
  obtain ⟨w, hlt, haw⟩ := h (hs ▸ h1) (hb ▸ hn ▸ h2) (fun i hi => h3 i (ha i hi)) (hq h4)
  exact ⟨w, hn ▸ hlt, hw w haw⟩

/-- A thread outside that is not about to notify goes on. -/
theorem caller (h : Active cfg s) {i : Nat} {pc : CallerPc α} (hs : u.stopped = s.stopped)
    (hb : u.base = s.base) (hn : u.spawned = s.spawned)
    (hc : u.callers = Function.update s.callers i pc)
    (hf : ∀ x, x ≠ .caller i → u.queue.threads x = s.queue.threads x)
    (hq : QueueHolds u → QueueHolds s) (hi : ¬ Announcing s i)
    (hw : Woken s.workers u.workers) : Active cfg u := by
  refine h.keep hs hb hn (announcing_frame hc hf hi) hq fun w haw => ?_
  · rcases hw w with he | ⟨ha, -⟩
    · rwa [he]
    · rw [ha] at haw
      cases haw

/-- If nobody was asleep at the notification, of two workers one is awake: a worker that found
the predicate false still holds the mutex. -/
theorem notifyNone (hcrew : Crew s) (hmu : MutexInv s) (hn : 2 ≤ cfg.numWorkers)
    (hst : s.stopped = false) (hcr : s.base + cfg.numWorkers ≤ s.spawned)
    (ha : ∀ w < s.spawned, ¬ (s.workers w).isAsleep = true) :
    ∃ w < s.spawned, (s.workers w).awake = true := by
  have alive (w : Nat) (h1 : s.base ≤ w) (h2 : w < s.spawned) :
      (s.workers w).awake = true ∨ HoldsMutex s (.worker w) := by
    have hb := hcrew.born w h2
    have he := hcrew.working hst w h1
    have hs := ha w h2
    change _ ∨ (s.workers w).locked = true
    revert hb he hs
    cases s.workers w <;> simp [WorkerPc.awake, WorkerPc.locked]
  rcases alive s.base le_rfl (by omega) with h0 | h0
  · exact ⟨_, by omega, h0⟩
  · rcases alive (s.base + 1) (by omega) (by omega) with h1 | h1
    · exact ⟨_, by omega, h1⟩
    · have := hmu.unique h0 h1
      simp at this

theorem callerMoves (h : Active cfg s) (hco : Coherent s) (hcrew : Crew s) (hmu : MutexInv s)
    (hn : 2 ≤ cfg.numWorkers) {i : Nat} (hm : CallerMoves cfg s i u) : Active cfg u := by
  cases hm with
  | ready hc | notReady hc | executorStopped hc | timeout hc | retry hc | startRefused hc
  | spawnedAll hc _ | stopRefused hc _ | joined hc _ _ | stopDone hc _ | stopLocked hc _
  | stopUnlocked hc =>
    have hi := hco.not_announcing (i := i) (by simp [hc]) (by simp [hc])
    exact h.caller rfl rfl rfl rfl (fun _ _ => rfl) id hi (.refl _)
  | notifyAll hc =>
    have hi := hco.not_announcing (i := i) (by simp [hc]) (by simp [hc])
    exact h.caller rfl rfl rfl rfl (fun _ _ => rfl) id hi (woken_wakeAll s)
  | stopping _ _ => exact fun hs => by cases hs
  | started _ _ =>
    intro _ hcr
    simp only at hcr
    omega
  | spawn _ _ => exact fun _ _ _ _ => ⟨s.spawned, Nat.lt_succ_self _, by simp [WorkerPc.awake]⟩
  | @notifyOne _ w _ hlt _ => exact fun _ _ _ _ => ⟨w, hlt, by simp [wakeOne, WorkerPc.awake]⟩
  | notifyNone _ ha =>
    intro hst hcr _ _
    have := Active.notifyNone hcrew hmu hn hst hcr ha
    exact this
  | pushed _ _ _ => exact fun _ _ han _ => absurd (.inr ⟨_, Function.update_self ..⟩) (han i)
  | beginPush hc _ hq =>
    have hi := hco.not_announcing (i := i) (by simp [hc]) (by simp [hc])
    obtain rfl := queueStep_callPush hq
    exact h.caller rfl rfl rfl rfl (set_frame s) id hi (.refl _)
  | refused hc hl hq =>
    obtain rfl := queueStep_ret hq
    exact h.caller rfl rfl rfl rfl (set_frame s) id (by simp [Announcing, hc, hl]) (.refl _)
  | @pushStep _ _ _ q hc hq =>
    have hmv := queueStep_advance hq
    have hi : ¬ Announcing s i := by
      rintro (hs | ⟨t, ht⟩)
      · simp [queueStep, MpmcQueue.step, MpmcQueue.advance, hs] at hq
      · simp [hc] at ht
    intro h1 h2 h3 h4
    rcases queueHolds_advance hmv h4 with hold | hpub
    · refine h h1 h2 (fun j hj => h3 j ?_) hold
      exact announcing_frame (u := { s with queue := q }) (Function.update_eq_self i s.callers).symm
        (fun _ => hmv.frame) hi j hj
    · exact absurd (.inl hpub) (h3 i)

theorem awake_leaveInner (batch : List (Task α)) (waits : List Nat) :
    (leaveInner batch waits).awake = true := by
  unfold leaveInner
  split_ifs <;> rfl

/-- A worker that moves and stays awake is enough. -/
theorem worker (hco : Coherent s) {w : Nat} {pc : WorkerPc α} (hb : s.workers w ≠ .unborn)
    (hs : u.spawned = s.spawned) (hw : u.workers = Function.update s.workers w pc)
    (hp : pc.awake = true) : Active cfg u := by
  have hlt : w < s.spawned := by
    by_contra hge
    exact hb (hco.unborn w (by omega))
  exact fun _ _ _ _ => ⟨w, hs ▸ hlt, by rw [hw, Function.update_self, hp]⟩

/-- A worker that was not awake before does not matter. -/
theorem drowsy (h : Active cfg s) {w : Nat} {pc : WorkerPc α} (hs : u.stopped = s.stopped)
    (hb : u.base = s.base) (hn : u.spawned = s.spawned) (hc : u.callers = s.callers)
    (hq : u.queue = s.queue) (hw : u.workers = Function.update s.workers w pc)
    (ha : (s.workers w).awake = false) : Active cfg u := by
  refine h.keep hs hb hn (fun i hi => ?_) (fun ho => ?_) fun v haw => ?_
  · rwa [Announcing, hc, hq]
  · rwa [QueueHolds, hq] at ho
  · have hv : v ≠ w := fun e => by simp [e, ha] at haw
    rwa [hw, Function.update_of_ne hv]

theorem workerMoves (h : Active cfg s) (hco : Coherent s) (hct : Counted s) {w : Nat}
    (hm : WorkerMoves cfg s w u) : Active cfg u := by
  cases hm with
  | exit _ hs => exact fun hst => absurd (hs.symm.trans hst) (by simp)
  | enter hw | available hw | gone hw | answer hw _ _ _ | answered hw _ | refuse hw _
  | refusedAll hw _ | sizePositive hw | sawStopped hw | unlocked hw | fetchSub hw | beginPop hw _
  | popped hw _ _ => exact worker hco (w := w) (by simp [hw]) rfl rfl rfl
  | locked hw _ =>
    refine worker hco (w := w) ?_ rfl rfl rfl
    rcases hw with hw | hw <;> simp [hw]
  | leave hw => exact worker hco (w := w) (by simp [hw]) rfl rfl (awake_leaveInner ..)
  | popFailed hw _ _ hpc =>
    refine worker hco (w := w) (by simp [hw]) rfl rfl ?_
    rcases hpc with rfl | rfl
    · exact awake_leaveInner ..
    · rfl
  | popStep hw _ =>
    exact worker hco (w := w) (by simp [hw]) rfl (Function.update_eq_self w s.workers).symm
      (by rw [hw]; rfl)
  | sizeZero hw hz =>
    intro _ _ h3 h4
    have hpos : 0 < s.queueSize := hct.queueSize_pos hco h4 h3
    omega
  | predicateFalse hw | sleep hw => exact h.drowsy rfl rfl rfl rfl rfl rfl (by rw [hw]; rfl)

theorem moves (h : Active cfg s) (hco : Coherent s) (hct : Counted s) (hcrew : Crew s)
    (hmu : MutexInv s) (hn : 2 ≤ cfg.numWorkers) {a : Action α} (hm : Moves cfg s a u) :
    Active cfg u := by
  cases hm with
  | @inferAsync i _ _ hc | @callStart i hc | @callStop i hc =>
    have hi := hco.not_announcing (i := i) (by simp [hc]) (by simp [hc])
    exact h.caller rfl rfl rfl rfl (fun _ _ => rfl) id hi (.refl _)
  | caller hm => exact h.callerMoves hco hcrew hmu hn hm
  | worker hm => exact h.workerMoves hco hct hm
  | @inferBatch w _ _ _ _ hw _ => exact worker hco (w := w) (by simp [hw]) rfl rfl rfl
  | @spuriousWake w ha =>
    have hw : s.workers w = .asleep := by simpa using ha
    exact worker hco (w := w) (by simp [hw]) rfl rfl rfl
  | tick _ | setReady _ => exact h.keep rfl rfl rfl (fun _ => id) id fun _ => id

end Active

/-- With two workers or more no wakeup is lost. -/
theorem not_lostWakeup (hn : 2 ≤ cfg.numWorkers) (hr : (system cfg).Reachable s) :
    ¬ LostWakeup cfg s := by
  have hinv : (Coherent s ∧ MutexInv s) ∧ Counted s ∧ Crew s ∧ Active cfg s := by
    refine hr.invariant (P := fun s => (Coherent s ∧ MutexInv s) ∧ Counted s ∧ Crew s ∧ Active cfg s)
      ?_ fun s a u hp ht => ?_
    · rintro _ ⟨ready, rfl⟩
      refine ⟨⟨coherent_initial ready, ?_⟩, .initial ready, .initial ready, ?_⟩
      · intro x hx
        cases x <;> cases hx
      · intro hs
        cases hs
    · obtain ⟨⟨hco, hmu⟩, hct, hcrew, hac⟩ := hp
      have hm := moves_of_step ht
      exact ⟨⟨hco.moves hm, hmu.moves hm⟩, hct.moves hco hm, hcrew.moves hco hm,
        hac.moves hco hct hcrew hmu hn hm⟩
  intro hl
  obtain ⟨w, hlt, haw⟩ := hinv.2.2.2 hl.running hl.created hl.announced hl.task
  rcases hl.asleep w hlt with he | he <;> simp [he, WorkerPc.awake] at haw

/-- The only worker finds the predicate false; then a producer pushes, adds to the counter and
notifies nobody; then the worker goes to sleep. -/
def missedNotify (req : InferenceRequest α) (steps : Nat) : List (Action α) :=
  List.flatten [[.callStart 0], List.replicate 3 (.caller 0 false none),
    List.replicate steps (.worker 0 false), [.inferAsync 1 req 0],
    List.replicate 9 (.caller 1 false none), [.worker 0 false]]

def announces (s : State α) (i : Nat) : Bool :=
  match s.queue.threads (.caller i), s.callers i with
  | .pushSucceeded, _ => true
  | _, .notify _ => true
  | _, _ => false

theorem announces_of_announcing {i : Nat} (h : Announcing s i) : announces s i = true := by
  unfold announces
  rcases h with h | ⟨t, h⟩ <;> rw [h]
  split <;> simp_all

/-- What is left to look at after that run. -/
def outcome (s : State α) : (Bool × Nat × Nat) × (Bool × Nat × Nat) × Bool × Bool × (Nat → Bool) :=
  ((s.stopped, s.base, s.spawned), ((s.workers 0).isAsleep, s.queue.dequeuePos, s.queue.sequence 0),
    announces s 0, announces s 1, fun i => announces s (i + 2))

theorem lostWakeup_of_outcome (hn : cfg.numWorkers = 1)
    (h : outcome s = ((false, 0, 1), (true, 0, 1), false, false, fun _ => false)) :
    LostWakeup cfg s := by
  simp only [outcome, Prod.mk.injEq, WorkerPc.isAsleep_iff] at h
  obtain ⟨⟨hst, hb, hsp⟩, ⟨has, hd, hseq⟩, h0, h1, h2⟩ := h
  refine ⟨hst, by omega, fun w hw => ?_, fun i hi => ?_, ⟨0, hd.le, hseq⟩⟩
  · obtain rfl : w = 0 := by omega
    exact .inl has
  · have := announces_of_announcing hi
    rcases i with _ | _ | i
    · simp [h0] at this
    · simp [h1] at this
    · simp [congrFun h2 i] at this

theorem lostWakeup_missedNotify (req : InferenceRequest α) (hn : cfg.numWorkers = 1) :
    ∃ s : State α, (system cfg).Reachable s ∧ LostWakeup cfg s := by
  have hrun : ∃ steps, ((system cfg).run (initial true) (missedNotify req steps)).map outcome =
      some ((false, 0, 1), (true, 0, 1), false, false, fun _ => false) := by
    obtain ⟨a, m, d⟩ := cfg
    match a, m, hn with
    | 0, 0, _ => exact ⟨5, by with_unfolding_all rfl⟩
    | 0, m + 1, _ => exact ⟨8, by with_unfolding_all rfl⟩
    | 1, 0, _ => exact ⟨5, by with_unfolding_all rfl⟩
    | 1, m + 1, _ => exact ⟨8, by with_unfolding_all rfl⟩
    | a + 2, _, hn => simp [Config.numWorkers] at hn
  obtain ⟨steps, hrun⟩ := hrun
  obtain ⟨s, hs, ho⟩ := Option.map_eq_some_iff.mp hrun
  exact ⟨s, System.Reachable.run (.init ⟨true, rfl⟩) hs, lostWakeup_of_outcome hn ho⟩

/-- `infer_async` notifies without the mutex, so with a single worker the notification can fall
between the predicate and the wait; a second worker is always awake or reached by it. -/
theorem lostWakeup_unreachable_iff [Inhabited α] (cfg : Config) :
    (∀ s : State α, (system cfg).Reachable s → ¬ LostWakeup cfg s) ↔ 2 ≤ cfg.numWorkers := by
  constructor
  · intro h
    by_contra hlt
    have hone : cfg.numWorkers = 1 := by
      unfold Config.numWorkers at hlt ⊢
      split_ifs at hlt ⊢ <;> omega
    obtain ⟨s, hr, hl⟩ := lostWakeup_missedNotify (α := α) ⟨"m", [], ⟨fun _ => default, 0⟩, []⟩ hone
    exact h s hr hl
  · exact fun hn s hr => not_lostWakeup hn hr

theorem lostWakeup_reached : ∃ s : State Nat, (system ⟨1, 1, 0⟩).Reachable s ∧
    LostWakeup ⟨1, 1, 0⟩ s :=
  lostWakeup_missedNotify ⟨"m", [], ⟨fun _ => 0, 0⟩, []⟩ rfl

end Jellybean.Model.ModelExecutor
