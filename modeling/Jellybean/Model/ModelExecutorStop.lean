import Jellybean.Model.ModelExecutorLifecycle
import Jellybean.Model.ModelExecutorWakeup

namespace Jellybean.Model.ModelExecutor

open Concurrency Inference

variable {α : Type*} {cfg : Config} {s u : State α}

/-- The call of `infer_async` is still executing. -/
def CallerPc.isInferring : CallerPc α → Bool
  | .checkReady _ | .checkStopped _ _ | .pushing _ _ | .checkDeadline _ _ | .notify _ => true
  | _ => false

/-- After `stop` returned and all calls of `infer_async` did, their futures hold values. -/
def AllAnswered (s : State α) : Prop :=
  s.stopReturned = true → (∀ i, (s.callers i).isInferring = false) →
    ∀ p ∈ s.returned, s.promises p ≠ []

/-- A thread is not inside `try_push`. -/
def Settled (s : State α) (i : Nat) : Prop :=
  s.queue.threads (.caller i) = .idle ∨ (s.queue.threads (.caller i)).Done

/-- Nothing is left for a worker to do. -/
def Drained (s : State α) : Prop :=
  s.queue.pushed.length = s.queue.popped.length ∧ ∀ i, Settled s i

/-- No `start` or `stop` overlaps another one, and the last worker leaves only when the queue is
empty and no push is under way. -/
def Admitted (s : State α) : Action α → Prop
  | .caller i _ _ =>
    s.callers i = .startCas ∨ s.callers i = .stopCas → ∀ j, (s.callers j).isChanging = false
  | .worker w _ =>
    s.workers w = .loopHead → s.stopped = true →
      (∀ v < s.spawned, v ≠ w → s.workers v = .exited) → Drained s
  | _ => True

/-- How far `start` and `stop` have come, and what that says about the workers. -/
structure Orderly (s : State α) : Prop where
  one : ∀ i j, (s.callers i).isChanging = true → (s.callers j).isChanging = true → i = j
  spawning : ∀ i n, s.callers i = .spawning n → s.stopped = false ∧ s.base + n ≤ s.spawned
  stopping : ∀ i, (s.callers i).isChanging = true → (∀ n, s.callers i ≠ .spawning n) →
    s.stopped = true
  running : (∀ i, (s.callers i).isChanging = false) → s.stopped = false → s.base < s.spawned
  listed : ∀ w, (s.workers w).isLive = true → w ∈ s.workerList
  joined : ∀ i n, s.callers i = .joining n → ∀ m < n, ∀ w, s.workerList[m]? = some w →
    (s.workers w).isLive = false
  down : (∀ i, (s.callers i).isChanging = false) → s.stopped = true →
    ∀ w, (s.workers w).isLive = false
  drained : s.stopped = true → (∀ w, (s.workers w).isLive = false) → Drained s
  returned : s.stopReturned = true → s.stopped = true ∧ ∀ i, (s.callers i).isChanging = false

theorem Config.numWorkers_pos (c : Config) : 0 < c.numWorkers := by
  unfold Config.numWorkers
  split_ifs <;> omega

theorem advance_settled {i : Nat} {b : Bool} {q : MpmcQueue.State Tid (Task α)}
    (h : Settled s i) : queueStep s (.advance (.caller i) b) ≠ some q := by
  simp only [queueStep, MpmcQueue.step, MpmcQueue.advance]
  revert h
  unfold Settled
  cases s.queue.threads (.caller i) <;> simp [MpmcQueue.Local.Done]

namespace Orderly

theorem lifecycle (h : Orderly s) : Lifecycle s where
  one := h.one
  spawning := fun i n hi => (h.spawning i n hi).1
  stopping := h.stopping
  listed := h.listed
  joined := h.joined
  down := h.down

theorem of_lifecycle (h : Lifecycle s)
    (hb : ∀ i n, s.callers i = .spawning n → s.base + n ≤ s.spawned)
    (hrun : (∀ i, (s.callers i).isChanging = false) → s.stopped = false → s.base < s.spawned)
    (hd : s.stopped = true → (∀ w, (s.workers w).isLive = false) → Drained s)
    (hr : s.stopReturned = true → s.stopped = true ∧ ∀ i, (s.callers i).isChanging = false) :
    Orderly s where
  one := h.one
  spawning := fun i n hi => ⟨h.spawning i n hi, hb i n hi⟩
  stopping := h.stopping
  running := hrun
  listed := h.listed
  joined := h.joined
  down := h.down
  drained := hd
  returned := hr

/-- A step that changes nothing about `start` and `stop`. -/
theorem keep (h : Orderly s)
    (hc : ∀ j, u.callers j = s.callers j ∨
      (u.callers j).isChanging = false ∧ (s.callers j).isChanging = false)
    (hst : u.stopped = s.stopped) (hb : u.base = s.base) (hsp : u.spawned = s.spawned)
    (hwl : u.workerList = s.workerList) (hr : u.stopReturned = s.stopReturned)
    (hl : ∀ w, (u.workers w).isLive = (s.workers w).isLive)
    (hd : s.stopped = true → (∀ w, (s.workers w).isLive = false) → Drained s → Drained u) :
    Orderly u := by
  have hch (j : Nat) : (u.callers j).isChanging = (s.callers j).isChanging := by
    rcases hc j with he | ⟨h1, h2⟩
    · rw [he]
    · rw [h1, h2]
  apply of_lifecycle (h.lifecycle.keep hc hst hwl hl)
  · intro i n hi
    rcases hc i with he | ⟨h1, -⟩
    · rw [hb, hsp]
      exact (h.spawning i n (he ▸ hi)).2
    · rw [hi] at h1
      cases h1
  · rw [hst, hb, hsp]
    exact fun hi hf => h.running (fun i => hch i ▸ hi i) hf
  · intro hs hn
    have hn' (w : Nat) : (s.workers w).isLive = false := hl w ▸ hn w
    exact hd (hst ▸ hs) hn' (h.drained (hst ▸ hs) hn')
  · intro hs
    have := h.returned (hr ▸ hs)
    exact ⟨hst.trans this.1, fun i => (hch i).trans (this.2 i)⟩

theorem caller (h : Orderly s) {i : Nat} {pc : CallerPc α}
    (hc : u.callers = Function.update s.callers i pc) (hp : pc.isChanging = false)
    (hi : (s.callers i).isChanging = false) (hst : u.stopped = s.stopped) (hb : u.base = s.base)
    (hsp : u.spawned = s.spawned) (hwl : u.workerList = s.workerList)
    (hr : u.stopReturned = s.stopReturned) (hw : Woken s.workers u.workers)
    (hd : s.stopped = true → Drained s → Drained u) : Orderly u :=
  h.keep (changing_update hc hp hi) hst hb hsp hwl hr (isLive_woken hw) fun hs _ => hd hs

/-- A worker goes on and stays in its loop. -/
theorem worker (h : Orderly s) {w : Nat} {pc : WorkerPc α} (hc : u.callers = s.callers)
    (hw : u.workers = Function.update s.workers w pc) (hp : pc.isLive = true)
    (hi : (s.workers w).isLive = true) (hst : u.stopped = s.stopped) (hb : u.base = s.base)
    (hsp : u.spawned = s.spawned) (hwl : u.workerList = s.workerList)
    (hr : u.stopReturned = s.stopReturned) : Orderly u := by
  refine h.keep (fun j => .inl (by rw [hc])) hst hb hsp hwl hr
    (isLive_update hw (hp.trans hi.symm)) fun _ hn => ?_
  rw [hn w] at hi
  cases hi

theorem drained_set {i : Nat} (hq : u.queue = s.queue.set (.caller i) .idle) (h : Drained s) :
    Drained u := by
  refine ⟨by rw [hq]; exact h.1, fun j => ?_⟩
  rw [Settled, hq]
  rcases eq_or_ne j i with rfl | hj
  · exact .inl (by simp)
  · simpa [hj, Settled] using h.2 j

theorem drained_eq (hq : u.queue = s.queue) (h : Drained s) : Drained u := by
  refine ⟨by rw [hq]; exact h.1, ?_⟩
  intro j
  rw [Settled, hq]
  exact h.2 j

/-- `stop` has left its compare-exchange behind and not returned. -/
theorem stopStep (h : Orderly s) (hl : Lifecycle u) {i : Nat} {pc : CallerPc α}
    (hc : u.callers = Function.update s.callers i pc) (h0 : (s.callers i).isChanging = true)
    (hp : pc.isChanging = true) (hp1 : ∀ n, pc ≠ .spawning n) (hst : u.stopped = s.stopped)
    (hq : u.queue = s.queue) (hr : u.stopReturned = s.stopReturned)
    (hw : Woken s.workers u.workers) : Orderly u := by
  have hu : u.callers i = pc := by rw [hc, Function.update_self]
  have hui : (u.callers i).isChanging = true := by rw [hu, hp]
  apply of_lifecycle hl
  · intro j n he
    obtain rfl := hl.one j i (by rw [he]; rfl) hui
    exact absurd (hu.symm.trans he) (hp1 n)
  · intro hn
    rw [hn i] at hui
    cases hui
  · intro hs hn
    exact drained_eq hq (h.drained (hst ▸ hs) fun w => isLive_woken hw w ▸ hn w)
  · intro hs
    have := (h.returned (hr ▸ hs)).2 i
    rw [h0] at this
    cases this

/-- `start` or `stop` wins its compare-exchange. -/
theorem begins (hl : Lifecycle u) {i : Nat} {pc : CallerPc α} (hu : u.callers i = pc)
    (hp : pc.isChanging = true) (hp0 : ∀ n, pc = .spawning n → n = 0) (hb : u.base ≤ u.spawned)
    (hr : u.stopReturned = false) (hd : u.stopped = true → ∃ w, (u.workers w).isLive = true) :
    Orderly u := by
  have hui : (u.callers i).isChanging = true := by rw [hu, hp]
  apply of_lifecycle hl
  · intro j n he
    obtain rfl := hl.one j i (by rw [he]; rfl) hui
    obtain rfl := hp0 n (hu.symm.trans he)
    exact hb
  · intro hf
    rw [hf i] at hui
    cases hui
  · intro hs hdead
    obtain ⟨w, hw⟩ := hd hs
    rw [hdead w] at hw
    cases hw
  · intro hs
    rw [hr] at hs
    cases hs

/-- `start` or `stop` returns. -/
theorem ends (h : Orderly s) (hl : Lifecycle u) {i : Nat}
    (hc : u.callers = Function.update s.callers i .idle)
    (hi : ∀ j, (s.callers j).isChanging = true → j = i) (hw : u.workers = s.workers)
    (hq : u.queue = s.queue) (hst : u.stopped = s.stopped)
    (hrun : u.stopped = false → u.base < u.spawned)
    (hr : u.stopReturned = true → u.stopped = true) : Orderly u := by
  have hn := Lifecycle.none_changing hc hi
  apply of_lifecycle hl
  · intro j n he
    have := hn j
    rw [he] at this
    cases this
  · exact fun _ => hrun
  · intro hs hd
    exact drained_eq hq (h.drained (hst ▸ hs) (hw ▸ hd))
  · exact fun hs => ⟨hr hs, hn⟩

theorem spawn (h : Orderly s) (hl : Lifecycle u) {i n : Nat} (hi : s.callers i = .spawning n)
    (hc : u.callers = Function.update s.callers i (.spawning (n + 1)))
    (hsp : u.spawned = s.spawned + 1) (hst : u.stopped = s.stopped) (hb : u.base = s.base)
    (hr : u.stopReturned = s.stopReturned) : Orderly u := by
  have hu : u.callers i = .spawning (n + 1) := by rw [hc, Function.update_self]
  have hui : (u.callers i).isChanging = true := by rw [hu]; rfl
  obtain ⟨hrun, hle⟩ := h.spawning i n hi
  apply of_lifecycle hl
  · intro j k he
    obtain rfl := hl.one j i (by rw [he]; rfl) hui
    obtain rfl : n + 1 = k := by simpa [hu] using he
    omega
  · intro hn
    rw [hn i] at hui
    cases hui
  · intro hs
    rw [hst, hrun] at hs
    cases hs
  · intro hs
    have := (h.returned (hr ▸ hs)).1
    rw [hrun] at this
    cases this

theorem callerMoves (h : Orderly s) (hcrew : Crew s) {i : Nat}
    (hadm : s.callers i = .startCas ∨ s.callers i = .stopCas →
      ∀ j, (s.callers j).isChanging = false) (hm : CallerMoves cfg s i u) : Orderly u := by
  have hl := h.lifecycle.callerMoves hadm hm
  cases hm with
  | ready hc | notReady hc | executorStopped hc | timeout hc | retry hc | notifyNone hc _
  | startRefused hc =>
    exact h.caller rfl rfl (by rw [hc]; rfl) rfl rfl rfl rfl rfl (.refl _) fun _ => id
  | notifyOne hc _ ha =>
    exact h.caller rfl rfl (by rw [hc]; rfl) rfl rfl rfl rfl rfl (woken_wakeOne ha) fun _ => id
  | beginPush hc hs _ =>
    refine h.caller rfl rfl (by rw [hc]; rfl) rfl rfl rfl rfl rfl (.refl _) fun hst => ?_
    rw [hs] at hst
    cases hst
  | pushed hc _ hq | refused hc _ hq =>
    obtain rfl := queueStep_ret hq
    exact h.caller rfl rfl (by rw [hc]; rfl) rfl rfl rfl rfl rfl (.refl _) fun _ => drained_set rfl
  | pushStep hc hq =>
    refine h.keep (fun _ => .inl rfl) rfl rfl rfl rfl rfl (fun _ => rfl) fun _ _ hd => ?_
    exact absurd hq (advance_settled (hd.2 i))
  | started hc _ =>
    exact begins hl (Function.update_self ..) rfl (by simp) le_rfl rfl (by simp)
  | stopping hc hs =>
    have hlt := h.running (hadm (.inr hc)) hs
    refine begins hl (Function.update_self ..) rfl (by simp) hlt.le ?_ fun _ => ⟨s.base, ?_⟩
    · by_contra hr
      have := (h.returned (by simpa using hr)).1
      rw [hs] at this
      cases this
    · have h1 := hcrew.born s.base hlt
      have h2 := hcrew.working hs s.base le_rfl
      revert h1 h2
      cases s.workers s.base <;> simp [WorkerPc.isLive]
  | spawn hc _ => exact h.spawn hl hc rfl rfl rfl rfl rfl
  | spawnedAll hc hn =>
    have h0 : (s.callers i).isChanging = true := by rw [hc]; rfl
    have hle := (h.spawning i _ hc).2
    refine h.ends hl rfl (fun j hj => h.one j i hj h0) rfl rfl rfl (fun _ => ?_)
      fun hr => (h.returned hr).1
    have := cfg.numWorkers_pos
    change s.base < s.spawned
    omega
  | stopRefused hc hs =>
    have hn := hadm (.inr hc)
    refine h.ends hl rfl (fun j hj => ?_) rfl rfl rfl (h.running hn) fun _ => hs
    rw [hn j] at hj
    cases hj
  | stopLocked hc _ | stopUnlocked hc | joined hc _ _ =>
    exact h.stopStep hl rfl (by rw [hc]; rfl) rfl (by simp) rfl rfl rfl (.refl _)
  | notifyAll hc =>
    exact h.stopStep hl rfl (by rw [hc]; rfl) rfl (by simp) rfl rfl rfl (woken_wakeAll s)
  | stopDone hc hn =>
    have h0 : (s.callers i).isChanging = true := by rw [hc]; rfl
    have hs := h.stopping i h0 (by simp [hc])
    exact h.ends hl rfl (fun j hj => h.one j i hj h0) rfl rfl rfl
      (fun hf => absurd (hs.symm.trans hf) (by simp)) fun _ => hs

/-- A worker leaves its loop. -/
theorem exit (h : Orderly s) (hcrew : Crew s) {w : Nat} (hw : s.workers w = .loopHead)
    (hs : s.stopped = true)
    (hadm : (∀ v < s.spawned, v ≠ w → s.workers v = .exited) → Drained s) :
    Orderly (setWorker s w .exited) := by
  apply of_lifecycle (h.lifecycle.exit hw hs)
  · exact fun i n hi => (h.spawning i n hi).2
  · exact h.running
  · intro _ hdead
    refine hadm fun v hv hne => ?_
    have hb := hcrew.born v hv
    have hd : (s.workers v).isLive = false := by simpa [setWorker, hne] using hdead v
    revert hb hd
    cases s.workers v <;> simp [WorkerPc.isLive]
  · exact h.returned

theorem workerMoves (h : Orderly s) (hcrew : Crew s) {w : Nat}
    (hadm : s.workers w = .loopHead → s.stopped = true →
      (∀ v < s.spawned, v ≠ w → s.workers v = .exited) → Drained s)
    (hm : WorkerMoves cfg s w u) : Orderly u := by
  cases hm with
  | exit hw hs => exact h.exit hcrew hw hs (hadm hw hs)
  | enter hw | available hw | gone hw | answer hw _ _ _ | answered hw _ | refuse hw _
  | refusedAll hw _ | sizePositive hw | sizeZero hw _ | sawStopped hw | predicateFalse hw
  | sleep hw | unlocked hw | fetchSub hw | beginPop hw _ | popped hw _ _ =>
    exact h.worker rfl rfl rfl (by rw [hw]; rfl) rfl rfl rfl rfl rfl
  | locked hw _ =>
    refine h.worker rfl rfl rfl ?_ rfl rfl rfl rfl rfl
    rcases hw with hw | hw <;> rw [hw] <;> rfl
  | leave hw =>
    exact h.worker rfl rfl (isLive_leaveInner ..) (by rw [hw]; rfl) rfl rfl rfl rfl rfl
  | popFailed hw _ _ hpc =>
    refine h.worker rfl rfl ?_ (by rw [hw]; rfl) rfl rfl rfl rfl rfl
    rcases hpc with rfl | rfl
    · exact isLive_leaveInner ..
    · rfl
  | popStep hw _ =>
    exact h.worker rfl (Function.update_eq_self w s.workers).symm (by rw [hw]; rfl)
      (by rw [hw]; rfl) rfl rfl rfl rfl rfl

theorem moves (h : Orderly s) (hcrew : Crew s) {a : Action α} (ha : Admitted s a)
    (hm : Moves cfg s a u) : Orderly u := by
  cases hm with
  | inferAsync _ _ hc | callStart hc | callStop hc =>
    exact h.caller rfl rfl (by rw [hc]; rfl) rfl rfl rfl rfl rfl (.refl _) fun _ => id
  | caller hm => exact h.callerMoves hcrew ha hm
  | worker hm => exact h.workerMoves hcrew ha hm
  | inferBatch hw _ => exact h.worker rfl rfl rfl (by rw [hw]; rfl) rfl rfl rfl rfl rfl
  | spuriousWake hs =>
    exact h.keep (fun _ => .inl rfl) rfl rfl rfl rfl rfl (isLive_woken (woken_wakeOne hs))
      fun _ _ => id
  | tick _ | setReady _ =>
    exact h.keep (fun _ => .inl rfl) rfl rfl rfl rfl rfl (fun _ => rfl) fun _ _ => id

theorem initial (ready : Bool) : Orderly (initial ready : State α) := by
  refine ⟨?_, ?_, ?_, ?_, ?_, ?_, ?_, fun _ _ => ⟨rfl, fun _ => .inl rfl⟩, ?_⟩ <;>
    simp [ModelExecutor.initial, CallerPc.isChanging, WorkerPc.isLive]

theorem of_reachable (h : (system cfg).ReachableUnder Admitted s) : Orderly s := by
  refine (h.invariant (P := fun s => Coherent s ∧ Crew s ∧ Orderly s) ?_ fun s a u hp ha ht => ?_).2.2
  · rintro _ ⟨ready, rfl⟩
    exact ⟨coherent_initial ready, .initial ready, .initial ready⟩
  · obtain ⟨hco, hcrew, ho⟩ := hp
    have hm := moves_of_step ht
    exact ⟨hco.moves hm, hcrew.moves hco hm, ho.moves hcrew ha hm⟩

end Orderly

/-- In every run in which the last worker leaves an empty queue behind, `stop` leaves no future
without a value. -/
theorem allAnswered_of_admitted (cfg : Config) (s : State α)
    (hr : (system cfg).ReachableUnder Admitted s) : AllAnswered s := by
  intro hret hidle p hp
  have ho := Orderly.of_reachable hr
  have hsound := sound_of_reachable hr.reachable
  have hco := Coherent.of_reachable hr.reachable
  obtain ⟨hst, hn⟩ := ho.returned hret
  have hdead := ho.down hn hst
  obtain ⟨l, hl, -⟩ := hsound.exclusive p
  cases l with
  | unissued =>
    have := (Provenance.of_reachable hr.reachable).returned p hp
    exact absurd hl (by simp [Ledger.Held, State.ledger]; omega)
  | caller i =>
    have hi := hidle i
    simp only [Ledger.Held, State.ledger] at hl
    revert hi hl
    cases s.callers i <;> simp [CallerPc.isInferring, CallerPc.offer]
  | ticket k =>
    have hd := (ho.drained hst hdead).1
    have hk := (List.getElem?_eq_some_iff.mp hl.2).1
    have hle := hl.1
    simp only [State.ledger, List.length_map] at hk hle
    omega
  | fetched w =>
    have hw : s.phase (.worker w) = .idle :=
      hco.worker_idle fun _ _ _ he => by simpa [he, WorkerPc.isLive] using hdead w
    obtain ⟨k, hk, -⟩ := hl
    simp [State.ledger, hw, ticketOf] at hk
  | batch w j =>
    have hw := hdead w
    simp only [Ledger.Held, State.ledger] at hl
    revert hw hl
    cases s.workers w <;> simp [WorkerPc.isLive, WorkerPc.unanswered]
  | fulfilled => exact List.ne_nil_of_length_pos (Nat.pos_of_ne_zero hl)

/-! A run of the threads below `n` can be checked by computation. -/

def Action.below (n : Nat) : Action α → Bool
  | .inferAsync i _ _ | .callStart i | .callStop i | .caller i _ _ => i < n
  | _ => true

def settled (s : State α) (i : Nat) : Bool :=
  match s.queue.threads (.caller i) with
  | .idle => true
  | l => l.Done

def admittedBelow (n : Nat) (s : State α) : Action α → Bool
  | .caller i _ _ =>
    match s.callers i with
    | .startCas | .stopCas => ∀ j < n, (s.callers j).isChanging = false
    | _ => i < n
  | .worker w _ =>
    match s.workers w with
    | .loopHead =>
      s.stopped = true → (∀ v < s.spawned, v ≠ w → (s.workers v).isExited = true) →
        s.queue.pushed.length = s.queue.popped.length ∧ ∀ i < n, settled s i = true
    | _ => true
  | a => a.below n

/-- No thread from `n` on has done anything. -/
def Untouched (n : Nat) (s : State α) : Prop :=
  ∀ i, n ≤ i → s.callers i = .idle ∧ s.queue.threads (.caller i) = .idle

theorem settled_iff {i : Nat} : settled s i = true ↔ Settled s i := by
  unfold settled Settled
  split
  · simp [*]
  · rename_i hne
    simpa using fun he => (hne he).elim

theorem CallerMoves.frame {i j : Nat} (hm : CallerMoves cfg s i u) (hj : j ≠ i) :
    u.callers j = s.callers j ∧ u.queue.threads (.caller j) = s.queue.threads (.caller j) := by
  have hx : Tid.caller j ≠ .caller i := by simpa using hj
  cases hm with
  | beginPush _ _ hq =>
    obtain rfl := queueStep_callPush hq
    simp [hj]
  | pushed _ _ hq | refused _ _ hq =>
    obtain rfl := queueStep_ret hq
    simp [hj]
  | pushStep _ hq => exact ⟨rfl, (queueStep_advance hq).frame hx⟩
  | _ => simp [setCaller, reply, hj]

theorem WorkerMoves.frame {w : Nat} (hm : WorkerMoves cfg s w u) (j : Nat) :
    u.callers j = s.callers j ∧ u.queue.threads (.caller j) = s.queue.threads (.caller j) := by
  cases hm with
  | beginPop _ hq =>
    obtain rfl := queueStep_callPop hq
    simp
  | popped _ _ hq | popFailed _ _ hq _ =>
    obtain rfl := queueStep_ret hq
    simp
  | popStep _ hq => exact ⟨rfl, (queueStep_advance hq).frame (by simp)⟩
  | _ => exact ⟨rfl, rfl⟩

theorem Untouched.moves {n : Nat} (h : Untouched n s) {a : Action α} (ha : a.below n = true)
    (hm : Moves cfg s a u) : Untouched n u := by
  intro j hj
  cases hm with
  | inferAsync _ _ _ | callStart _ | callStop _ =>
    have hne : j ≠ _ := (Nat.lt_of_lt_of_le (by simpa [Action.below] using ha) hj).ne'
    simpa [setCaller, hne] using h j hj
  | caller hm =>
    have hne : j ≠ _ := (Nat.lt_of_lt_of_le (by simpa [Action.below] using ha) hj).ne'
    rw [(hm.frame hne).1, (hm.frame hne).2]
    exact h j hj
  | worker hm =>
    rw [(hm.frame j).1, (hm.frame j).2]
    exact h j hj
  | _ => exact h j hj

theorem admitted_of_below {n : Nat} (h : Untouched n s) {a : Action α}
    (ha : admittedBelow n s a = true) : Admitted s a := by
  cases a with
  | caller i b wake =>
    intro hc j
    have hb : ∀ j < n, (s.callers j).isChanging = false := by
      rcases hc with hc | hc <;> simpa [admittedBelow, hc] using ha
    rcases Nat.lt_or_ge j n with hlt | hge
    · exact hb j hlt
    · rw [(h j hge).1]
      rfl
  | worker w b =>
    intro hw hs hv
    simp only [admittedBelow, hw, decide_eq_true_eq, WorkerPc.isExited_iff] at ha
    obtain ⟨hd, hset⟩ := ha hs hv
    refine ⟨hd, fun i => ?_⟩
    rcases Nat.lt_or_ge i n with hlt | hge
    · exact settled_iff.mp (hset i hlt)
    · exact .inl (h i hge).2
  | _ => trivial

theorem allAnswered_of_admitted_serveAndStop :
    ∃ s, (system oneWorker).run (initial true) serveAndStop = some s ∧ s.stopReturned = true ∧
      s.returned = [0] ∧ AllAnswered s := by
  have hrun : ((system oneWorker).run (initial true) serveAndStop).map (fun s =>
      (s.stopReturned, s.returned)) = some (true, [0]) := by
    decide +kernel
  obtain ⟨s, hs, he⟩ := Option.map_eq_some_iff.mp hrun
  simp only [Prod.mk.injEq] at he
  refine ⟨s, hs, he.1, he.2, allAnswered_of_admitted oneWorker s ?_⟩
  refine System.ReachableUnder.run_of
    (D := fun s a => a.below 2 = true ∧ admittedBelow 2 s a = true) (I := Untouched 2) ?_ ?_
    (.init ⟨true, rfl⟩) (fun _ _ => ⟨rfl, rfl⟩) (by decide +kernel) hs
  · intro s a u h hd hu
    exact h.moves hd.1 (moves_of_step hu)
  · intro s a h hd
    exact admitted_of_below h hd.2

/-- `stop` is called while the request is still in the queue. -/
def stopEarly : List (Action Nat) :=
  List.flatten [startAndAsk, [.callStop 0, .caller 0 false none, .worker 0 false],
    List.replicate 5 (.caller 0 false none)]

theorem stopEarly_unanswered :
    ∃ s : State Nat, (system oneWorker).Reachable s ∧ ¬ AllAnswered s := by
  have hrun : ((system oneWorker).run (initial true) stopEarly).map (fun s =>
      (s.stopReturned, s.returned, s.promises 0, (s.callers 0).isInferring,
        (s.callers 1).isInferring, fun i => (s.callers (i + 2)).isInferring)) =
      some (true, [0], [], false, false, fun _ => false) := by
    with_unfolding_all rfl
  obtain ⟨s, hs, he⟩ := Option.map_eq_some_iff.mp hrun
  simp only [Prod.mk.injEq] at he
  obtain ⟨hret, hp, hv, h0, h1, h2⟩ := he
  refine ⟨s, System.Reachable.run (.init ⟨true, rfl⟩) hs, fun ha => ?_⟩
  refine ha hret (fun i => ?_) 0 (by simp [hp]) hv
  match i with
  | 0 => exact h0
  | 1 => exact h1
  | i + 2 => exact congrFun h2 i

end Jellybean.Model.ModelExecutor
