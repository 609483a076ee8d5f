import Jellybean.Model.ModelExecutorPromises

namespace Jellybean.Model.ModelExecutor

open Concurrency Inference

variable {α : Type*} {cfg : Config} {s u : State α}

/-- Inside `start` or `stop`, behind a successful compare-exchange of `stopped_`. -/
def CallerPc.isChanging : CallerPc α → Bool
  | .spawning _ | .stopLock | .stopUnlock | .stopNotifyAll | .joining _ => true
  | _ => false

def WorkerPc.isLive : WorkerPc α → Bool
  | .unborn | .exited => false
  | _ => true

/-- `start` or `stop` is under way. -/
def CallerPc.isManaging : CallerPc α → Bool
  | .startCas | .stopCas => true
  | pc => pc.isChanging

/-- No `start` or `stop` reaches its compare-exchange while another one is at work. -/
def Serial (s : State α) : Action α → Prop
  | .caller i _ _ =>
    s.callers i = .startCas ∨ s.callers i = .stopCas → ∀ j, (s.callers j).isChanging = false
  | _ => True

/-- How far `start` and `stop` have come, and which workers can still be alive. -/
structure Lifecycle (s : State α) : Prop where
  one : ∀ i j, (s.callers i).isChanging = true → (s.callers j).isChanging = true → i = j
  spawning : ∀ i n, s.callers i = .spawning n → s.stopped = false
  stopping : ∀ i, (s.callers i).isChanging = true → (∀ n, s.callers i ≠ .spawning n) →
    s.stopped = true
  listed : ∀ w, (s.workers w).isLive = true → w ∈ s.workerList
  joined : ∀ i n, s.callers i = .joining n → ∀ m < n, ∀ w, s.workerList[m]? = some w →
    (s.workers w).isLive = false
  down : (∀ i, (s.callers i).isChanging = false) → s.stopped = true →
    ∀ w, (s.workers w).isLive = false

theorem isLive_woken (hw : Woken s.workers u.workers) (w : Nat) :
    (u.workers w).isLive = (s.workers w).isLive := by
  rcases hw w with he | ⟨ha, he⟩
  · rw [he]
  · rw [he, ha]
    rfl

theorem isLive_update {w : Nat} {pc : WorkerPc α}
    (hw : u.workers = Function.update s.workers w pc)
    (hp : pc.isLive = (s.workers w).isLive) (v : Nat) :
    (u.workers v).isLive = (s.workers v).isLive := by
  rcases eq_or_ne v w with rfl | hv
  · rw [hw, Function.update_self, hp]
  · rw [hw, Function.update_of_ne hv]

theorem changing_update {i : Nat} {pc : CallerPc α}
    (hc : u.callers = Function.update s.callers i pc) (hp : pc.isChanging = false)
    (hi : (s.callers i).isChanging = false) (j : Nat) :
    u.callers j = s.callers j ∨
      (u.callers j).isChanging = false ∧ (s.callers j).isChanging = false := by
  rcases eq_or_ne j i with rfl | hj
  · rw [hc, Function.update_self]
    exact .inr ⟨hp, hi⟩
  · rw [hc, Function.update_of_ne hj]
    exact .inl rfl

theorem isLive_leaveInner (batch : List (Task α)) (waits : List Nat) :
    (leaveInner batch waits).isLive = true := by
  unfold leaveInner
  split_ifs <;> rfl

namespace Lifecycle

theorem initial (ready : Bool) : Lifecycle (ModelExecutor.initial ready : State α) where
  one := fun _ _ hi => by cases hi
  spawning := fun _ _ hi => by cases hi
  stopping := fun _ hi => by cases hi
  listed := fun _ hw => by cases hw
  joined := fun _ _ hi => by cases hi
  down := fun _ _ _ => rfl

/-- A step that changes nothing about `start` and `stop`. -/
theorem keep (h : Lifecycle s)
    (hc : ∀ j, u.callers j = s.callers j ∨
      (u.callers j).isChanging = false ∧ (s.callers j).isChanging = false)
    (hst : u.stopped = s.stopped) (hwl : u.workerList = s.workerList)
    (hl : ∀ w, (u.workers w).isLive = (s.workers w).isLive) : Lifecycle u := by
  have hch (j : Nat) : (u.callers j).isChanging = (s.callers j).isChanging := by
    rcases hc j with he | ⟨h1, h2⟩
    · rw [he]
    · rw [h1, h2]
  have hsame (j : Nat) (hj : (u.callers j).isChanging = true) : u.callers j = s.callers j := by
    rcases hc j with he | ⟨h1, -⟩
    · exact he
    · rw [h1] at hj
      cases hj
  constructor
  case one =>
    intro i j hi hj
    exact h.one i j (hch i ▸ hi) (hch j ▸ hj)
  case spawning =>
    intro i n hi
    rw [hst]
    exact h.spawning i n (hsame i (by rw [hi]; rfl) ▸ hi)
  case stopping =>
    intro i hi hn
    rw [hst]
    exact h.stopping i (hch i ▸ hi) fun n he => hn n (hsame i hi ▸ he)
  case listed =>
    intro w hw
    rw [hwl]
    exact h.listed w (hl w ▸ hw)
  case joined =>
    intro i n hi m hm w hw
    rw [hl]
    exact h.joined i n (hsame i (by rw [hi]; rfl) ▸ hi) m hm w (hwl ▸ hw)
  case down =>
    intro hi hs w
    rw [hl]
    exact h.down (fun i => hch i ▸ hi i) (hst ▸ hs) w

/-- `stop` goes on between its compare-exchange and its return. -/
theorem stopStep (h : Lifecycle s) {i : Nat} {pc : CallerPc α}
    (hc : u.callers = Function.update s.callers i pc) (h0 : (s.callers i).isChanging = true)
    (h1 : ∀ n, s.callers i ≠ .spawning n) (hp : pc.isChanging = true)
    (hp1 : ∀ n, pc ≠ .spawning n) (hst : u.stopped = s.stopped) (hwl : u.workerList = s.workerList)
    (hw : Woken s.workers u.workers)
    (hj : ∀ n, pc = .joining n → ∀ m < n, ∀ w, s.workerList[m]? = some w →
      (s.workers w).isLive = false) : Lifecycle u := by
  have hu : u.callers i = pc := by rw [hc, Function.update_self]
  have hch (j : Nat) (hj : (u.callers j).isChanging = true) : j = i := by
    by_contra hne
    rw [hc, Function.update_of_ne hne] at hj
    exact hne (h.one j i hj h0)
  constructor
  case one =>
    intro j k hj hk
    exact (hch j hj).trans (hch k hk).symm
  case spawning =>
    intro j n he
    obtain rfl := hch j (by rw [he]; rfl)
    exact absurd (hu.symm.trans he) (hp1 n)
  case stopping => exact fun _ _ _ => hst.trans (h.stopping i h0 h1)
  case listed =>
    intro w hl
    rw [hwl]
    exact h.listed w (isLive_woken hw w ▸ hl)
  case joined =>
    intro j n he m hm w hw'
    obtain rfl := hch j (by rw [he]; rfl)
    rw [isLive_woken hw]
    exact hj n (hu.symm.trans he) m hm w (hwl ▸ hw')
  case down =>
    intro hn
    have := hn i
    rw [hu, hp] at this
    cases this

/-- `start` or `stop` wins its compare-exchange while no other one is under way. -/
theorem begins (h : Lifecycle s) {i : Nat} {pc : CallerPc α}
    (hn : ∀ j, (s.callers j).isChanging = false) (hc : u.callers = Function.update s.callers i pc)
    (hp : pc = .spawning 0 ∧ u.stopped = false ∨ pc = .stopLock ∧ u.stopped = true)
    (hw : u.workers = s.workers) (hwl : u.workerList = s.workerList) : Lifecycle u := by
  have hi : u.callers i = pc := by rw [hc, Function.update_self]
  have hu (j : Nat) (hj : (u.callers j).isChanging = true) : j = i := by
    by_contra hne
    rw [hc, Function.update_of_ne hne, hn j] at hj
    cases hj
  constructor
  case one =>
    intro j k hj hk
    exact (hu j hj).trans (hu k hk).symm
  case spawning =>
    intro j n he
    obtain rfl := hu j (by rw [he]; rfl)
    rcases hp with ⟨-, hst⟩ | ⟨rfl, -⟩
    · exact hst
    · simp [hi] at he
  case stopping =>
    intro j hj hne
    obtain rfl := hu j hj
    rcases hp with ⟨rfl, -⟩ | ⟨-, hst⟩
    · exact absurd hi (hne 0)
    · exact hst
  case listed =>
    intro w hl
    rw [hwl]
    exact h.listed w (hw ▸ hl)
  case joined =>
    intro j n he
    obtain rfl := hu j (by rw [he]; rfl)
    rcases hp with ⟨rfl, -⟩ | ⟨rfl, -⟩ <;> simp [hi] at he
  case down =>
    intro hf
    have := hf i
    rw [hi] at this
    rcases hp with ⟨rfl, -⟩ | ⟨rfl, -⟩ <;> cases this

theorem none_changing {i : Nat} (hc : u.callers = Function.update s.callers i .idle)
    (hi : ∀ j, (s.callers j).isChanging = true → j = i) (j : Nat) :
    (u.callers j).isChanging = false := by
  rw [hc]
  rcases eq_or_ne j i with rfl | hne
  · rw [Function.update_self]
    rfl
  · rw [Function.update_of_ne hne]
    by_contra hj
    exact hne (hi j (by simpa using hj))

/-- `start` or `stop` returns. -/
theorem ends {i : Nat} (hc : u.callers = Function.update s.callers i .idle)
    (hi : ∀ j, (s.callers j).isChanging = true → j = i) (hw : u.workers = s.workers)
    (hl : ∀ w, (s.workers w).isLive = true → w ∈ u.workerList)
    (hdown : u.stopped = true → ∀ w, (s.workers w).isLive = false) : Lifecycle u := by
  have hno {j : Nat} {P : Prop} (hj : (u.callers j).isChanging = true) : P := by
    rw [none_changing hc hi j] at hj
    cases hj
  constructor
  case one => exact fun _ _ hj => hno hj
  case spawning => exact fun j n he => hno (j := j) (by rw [he]; rfl)
  case stopping => exact fun j hj => hno hj
  case listed => exact fun w hw' => hl w (hw ▸ hw')
  case joined => exact fun j n he => hno (j := j) (by rw [he]; rfl)
  case down =>
    intro _ hs w
    rw [hw]
    exact hdown hs w

theorem spawn (h : Lifecycle s) {i n : Nat} (hi : s.callers i = .spawning n)
    (hc : u.callers = Function.update s.callers i (.spawning (n + 1)))
    (hw : u.workers = Function.update s.workers s.spawned .loopHead)
    (hwl : u.workerList = s.workerList ++ [s.spawned]) (hst : u.stopped = s.stopped) :
    Lifecycle u := by
  have h0 : (s.callers i).isChanging = true := by rw [hi]; rfl
  have hu : u.callers i = .spawning (n + 1) := by rw [hc, Function.update_self]
  have hone (j : Nat) (hj : (u.callers j).isChanging = true) : j = i := by
    by_contra hne
    rw [hc, Function.update_of_ne hne] at hj
    exact hne (h.one j i hj h0)
  constructor
  case one =>
    intro j k hj hk
    exact (hone j hj).trans (hone k hk).symm
  case spawning => exact fun _ _ _ => hst.trans (h.spawning i n hi)
  case stopping =>
    intro j hj hne
    obtain rfl := hone j hj
    exact absurd hu (hne _)
  case listed =>
    intro w hl
    rw [hwl, List.mem_append]
    rcases eq_or_ne w s.spawned with rfl | hne
    · exact .inr (List.mem_singleton_self _)
    · rw [hw, Function.update_of_ne hne] at hl
      exact .inl (h.listed w hl)
  case joined =>
    intro j k he
    obtain rfl := hone j (by rw [he]; rfl)
    simp [hu] at he
  case down =>
    intro hn
    have := hn i
    rw [hu] at this
    cases this

/-- When `stop` has joined the whole list, no worker is left. -/
theorem all_joined (h : Lifecycle s) {i n : Nat} (hc : s.callers i = .joining n)
    (hn : s.workerList[n]? = none) (w : Nat) : (s.workers w).isLive = false := by
  by_contra hl
  obtain ⟨m, hm⟩ := List.getElem?_of_mem (h.listed w (by simpa using hl))
  have hlt : m < n := by
    have := (List.getElem?_eq_some_iff.mp hm).1
    have := List.getElem?_eq_none_iff.mp hn
    omega
  exact hl (h.joined i n hc m hlt w hm)

theorem joined_next (h : Lifecycle s) {i n w : Nat} (hc : s.callers i = .joining n)
    (hw : s.workerList[n]? = some w) (he : (s.workers w).isExited = true) :
    ∀ m < n + 1, ∀ v, s.workerList[m]? = some v → (s.workers v).isLive = false := by
  intro m hm v hv
  rcases Nat.lt_succ_iff_lt_or_eq.mp hm with hlt | rfl
  · exact h.joined i n hc m hlt v hv
  · obtain rfl : w = v := by simpa [hw] using hv
    rw [(WorkerPc.isExited_iff _).mp he]
    rfl

theorem callerMoves (h : Lifecycle s) {i : Nat}
    (hadm : s.callers i = .startCas ∨ s.callers i = .stopCas →
      ∀ j, (s.callers j).isChanging = false) (hm : CallerMoves cfg s i u) : Lifecycle u := by
  cases hm with
  | ready hc | notReady hc | executorStopped hc | timeout hc | retry hc | notifyNone hc _
  | startRefused hc | beginPush hc _ _ | pushed hc _ _ | refused hc _ _ =>
    exact h.keep (changing_update rfl rfl (by rw [hc]; rfl)) rfl rfl fun _ => rfl
  | notifyOne hc _ ha =>
    exact h.keep (changing_update rfl rfl (by rw [hc]; rfl)) rfl rfl
      (isLive_woken (woken_wakeOne ha))
  | pushStep hc hq => exact h.keep (fun _ => .inl rfl) rfl rfl fun _ => rfl
  | started hc _ => exact h.begins (hadm (.inl hc)) rfl (.inl ⟨rfl, rfl⟩) rfl rfl
  | stopping hc _ => exact h.begins (hadm (.inr hc)) rfl (.inr ⟨rfl, rfl⟩) rfl rfl
  | spawn hc _ => exact h.spawn hc rfl rfl rfl rfl
  | @spawnedAll n hc _ =>
    have h0 : (s.callers i).isChanging = true := by rw [hc]; rfl
    have hs := h.spawning i n hc
    exact ends rfl (fun j hj => h.one j i hj h0) rfl h.listed
      fun hst => absurd (hs.symm.trans hst) (by simp)
  | stopRefused hc _ =>
    have hn := hadm (.inr hc)
    refine ends rfl (fun j hj => ?_) rfl h.listed (h.down hn)
    rw [hn j] at hj
    cases hj
  | stopLocked hc _ | stopUnlocked hc =>
    exact h.stopStep rfl (by rw [hc]; rfl) (by simp [hc]) rfl (by simp) rfl rfl (.refl _) (by simp)
  | notifyAll hc =>
    exact h.stopStep rfl (by rw [hc]; rfl) (by simp [hc]) rfl (by simp) rfl rfl
      (woken_wakeAll s) (by simp)
  | @joined n w hc hw he =>
    refine h.stopStep rfl (by rw [hc]; rfl) (by simp [hc]) rfl (by simp) rfl rfl (.refl _) ?_
    intro k hk
    obtain rfl : n + 1 = k := by simpa using hk
    exact h.joined_next hc hw he
  | stopDone hc hn =>
    have h0 : (s.callers i).isChanging = true := by rw [hc]; rfl
    have hdead := h.all_joined hc hn
    refine ends rfl (fun j hj => h.one j i hj h0) rfl (fun w hl => ?_) fun _ => hdead
    rw [hdead w] at hl
    cases hl

/-- A worker leaves its loop. -/
theorem exit (h : Lifecycle s) {w : Nat} (hw : s.workers w = .loopHead) (hs : s.stopped = true) :
    Lifecycle (setWorker s w .exited) := by
  have hlive : (s.workers w).isLive = true := by rw [hw]; rfl
  have hle (v : Nat) (hv : (s.workers v).isLive = false) :
      ((setWorker s w .exited).workers v).isLive = false := by
    have hne : v ≠ w := by
      rintro rfl
      rw [hv] at hlive
      cases hlive
    simpa [setWorker, hne] using hv
  refine ⟨h.one, h.spawning, h.stopping, ?_, ?_, ?_⟩
  · intro v hv
    apply h.listed
    by_contra hn
    rw [hle v (by simpa using hn)] at hv
    cases hv
  · intro i n hi m hm v hv
    exact hle v (h.joined i n hi m hm v hv)
  · intro hn _ v
    exact hle v (h.down hn hs v)

/-- A worker goes on and stays in its loop. -/
theorem worker (h : Lifecycle s) {w : Nat} {pc : WorkerPc α} (hc : u.callers = s.callers)
    (hw : u.workers = Function.update s.workers w pc) (hp : pc.isLive = true)
    (hi : (s.workers w).isLive = true) (hst : u.stopped = s.stopped)
    (hwl : u.workerList = s.workerList) : Lifecycle u :=
  h.keep (fun j => .inl (by rw [hc])) hst hwl (isLive_update hw (hp.trans hi.symm))

theorem workerMoves (h : Lifecycle s) {w : Nat} (hm : WorkerMoves cfg s w u) : Lifecycle u := by
  cases hm with
  | exit hw hs => exact h.exit hw hs
  | enter hw | available hw | gone hw | answer hw _ _ _ | answered hw _ | refuse hw _
  | refusedAll hw _ | sizePositive hw | sizeZero hw _ | sawStopped hw | predicateFalse hw
  | sleep hw | unlocked hw | fetchSub hw | beginPop hw _ | popped hw _ _ =>
    exact h.worker rfl rfl rfl (by rw [hw]; rfl) rfl rfl
  | locked hw _ =>
    refine h.worker rfl rfl rfl ?_ rfl rfl
    rcases hw with hw | hw <;> rw [hw] <;> rfl
  | leave hw => exact h.worker rfl rfl (isLive_leaveInner ..) (by rw [hw]; rfl) rfl rfl
  | popFailed hw _ _ hpc =>
    refine h.worker rfl rfl ?_ (by rw [hw]; rfl) rfl rfl
    rcases hpc with rfl | rfl
    · exact isLive_leaveInner ..
    · rfl
  | popStep hw _ => exact h.keep (fun _ => .inl rfl) rfl rfl fun _ => rfl

theorem moves (h : Lifecycle s) {a : Action α} (ha : Serial s a) (hm : Moves cfg s a u) :
    Lifecycle u := by
  cases hm with
  | inferAsync _ _ hc | callStart hc | callStop hc =>
    exact h.keep (changing_update rfl rfl (by rw [hc]; rfl)) rfl rfl fun _ => rfl
  | caller hm => exact h.callerMoves ha hm
  | worker hm => exact h.workerMoves hm
  | inferBatch hw _ => exact h.worker rfl rfl rfl (by rw [hw]; rfl) rfl rfl
  | spuriousWake hw =>
    exact h.keep (fun _ => .inl rfl) rfl rfl (isLive_woken (woken_wakeOne hw))
  | tick | setReady => exact h.keep (fun _ => .inl rfl) rfl rfl fun _ => rfl

theorem of_reachable (h : (system cfg).ReachableUnder Serial s) : Lifecycle s := by
  refine h.invariant ?_ ?_
  · rintro s ⟨ready, rfl⟩
    exact initial ready
  · intro s a u hs ha hu
    exact hs.moves ha (moves_of_step hu)

end Lifecycle

def WorkerPc.isInferring : WorkerPc α → Bool
  | .inferring _ _ => true
  | _ => false

/-- No worker is inside `infer_batch`. -/
def Quiet (s : State α) : Prop := ∀ w, (s.workers w).isInferring = false

/-- The executor has been stopped for good: nobody is inside `start` or `stop`. -/
structure Halted (s : State α) : Prop where
  unmanaged : ∀ j, (s.callers j).isManaging = false
  stopped : s.stopped = true

/-- Only thread `i` is at work on the executor, and it has called `stop`. -/
structure Halting (s : State α) (i : Nat) : Prop where
  only : ∀ j, j ≠ i → (s.callers j).isManaging = false
  noStart : s.callers i ≠ .startCas
  stop : s.callers i = .stopCas ∨ s.stopped = true

theorem CallerPc.isManaging_of_isChanging {pc : CallerPc α} (h : pc.isChanging = true) :
    pc.isManaging = true := by
  cases pc <;> first | rfl | cases h

theorem Halted.none_changing (h : Halted s) (j : Nat) : (s.callers j).isChanging = false := by
  by_contra hj
  have := CallerPc.isManaging_of_isChanging (by simpa using hj)
  rw [h.unmanaged j] at this
  cases this

/-- `stop` has joined the workers, so none is left to call the backend. -/
theorem Halted.quiet (h : Halted s) (hr : (system cfg).ReachableUnder Serial s) : Quiet s := by
  intro w
  have hd := (Lifecycle.of_reachable hr).down h.none_changing h.stopped w
  revert hd
  cases s.workers w <;> simp [WorkerPc.isLive, WorkerPc.isInferring]

theorem Halting.halted {i : Nat} (h : Halting s i) (hi : s.callers i = .idle) : Halted s where
  unmanaged := fun j => by
    rcases eq_or_ne j i with rfl | hj
    · rw [hi]
      rfl
    · exact h.only j hj
  stopped := by simpa [hi] using h.stop

theorem halting_callStop {i : Nat} (h : ∀ j, (s.callers j).isManaging = false) :
    Halting (setCaller s i .stopCas) i := by
  refine ⟨?_, ?_, ?_⟩
  · intro j hj
    simpa [setCaller, hj] using h j
  · simp [setCaller]
  · simp [setCaller]

theorem step_inferAsync {i ns : Nat} {req : InferenceRequest α}
    (h : step cfg s (.inferAsync i req ns) = some u) :
    ∃ t, u.callers = Function.update s.callers i (.checkReady t) ∧ u.stopped = s.stopped := by
  have hm := moves_of_step h
  cases hm
  exact ⟨_, rfl, rfl⟩

theorem Halted.asked (h : Halted s) {i : Nat} {t : Task α}
    (hc : u.callers = Function.update s.callers i (.checkReady t)) (hs : u.stopped = s.stopped) :
    Halted u := by
  refine ⟨?_, hs.trans h.stopped⟩
  intro j
  rw [hc]
  rcases eq_or_ne j i with rfl | hj
  · rw [Function.update_self]
    rfl
  · rw [Function.update_of_ne hj]
    exact h.unmanaged j

theorem Halting.asked {k : Nat} (h : Halting s k) {i : Nat} {t : Task α}
    (hc : u.callers = Function.update s.callers i (.checkReady t)) (hs : u.stopped = s.stopped)
    (hk : k ≠ i) : Halting u k := by
  refine ⟨?_, ?_, ?_⟩
  · intro j hj
    rw [hc]
    rcases eq_or_ne j i with rfl | hne
    · rw [Function.update_self]
      rfl
    · rw [Function.update_of_ne hne]
      exact h.only j hj
  · rw [hc, Function.update_of_ne hk]
    exact h.noStart
  · rw [hc, Function.update_of_ne hk, hs]
    exact h.stop

/-- The actions other than calls. -/
def Action.isInternal : Action α → Bool
  | .inferAsync _ _ _ | .callStart _ | .callStop _ => false
  | _ => true

/-- What such an action does to the callers: one that moves is inside a call, and it does not
begin another one. -/
structure Continues (s u : State α) : Prop where
  issued : u.issued = s.issued
  callers : ∀ j, u.callers j = s.callers j ∨ s.callers j ≠ .idle ∧ u.callers j ≠ .startCas ∧
    (s.callers j = .stopCas → u.stopped = true) ∧
    ((u.callers j).isManaging = true → (s.callers j).isManaging = true)
  stopped : s.stopped = true → (∀ j, s.callers j ≠ .startCas) → u.stopped = true

namespace Continues

theorem of_eq (hi : u.issued = s.issued) (hc : u.callers = s.callers)
    (hs : u.stopped = s.stopped) : Continues s u where
  issued := hi
  callers := fun j => .inl (by rw [hc])
  stopped := fun h _ => hs.trans h

theorem of_update {i : Nat} {pc : CallerPc α} (hi : u.issued = s.issued)
    (hc : u.callers = Function.update s.callers i pc) (h0 : s.callers i ≠ .idle)
    (hp : pc ≠ .startCas) (hcas : s.callers i = .stopCas → u.stopped = true)
    (hm : pc.isManaging = true → (s.callers i).isManaging = true)
    (hs : s.stopped = true → (∀ j, s.callers j ≠ .startCas) → u.stopped = true) :
    Continues s u := by
  refine ⟨hi, ?_, hs⟩
  intro j
  rcases eq_or_ne j i with rfl | hj
  · rw [hc, Function.update_self]
    exact .inr ⟨h0, hp, hcas, hm⟩
  · rw [hc, Function.update_of_ne hj]
    exact .inl rfl

theorem of_callerMoves {i : Nat} (hm : CallerMoves cfg s i u) : Continues s u := by
  cases hm with
  | pushStep hc hq => exact of_eq rfl rfl rfl
  | started hc _ =>
    refine of_update (i := i) rfl rfl ?_ ?_ ?_ ?_ ?_
    · simp [hc]
    · simp
    · simp [hc]
    · exact fun _ => by rw [hc]; rfl
    · exact fun _ hn => absurd hc (hn i)
  | stopping hc _ =>
    refine of_update (i := i) rfl rfl ?_ ?_ ?_ ?_ ?_
    · simp [hc]
    · simp
    · exact fun _ => rfl
    · exact fun _ => by rw [hc]; rfl
    · exact fun _ _ => rfl
  | stopRefused hc hs =>
    refine of_update (i := i) rfl rfl ?_ ?_ ?_ ?_ ?_
    · simp [hc]
    · simp
    · exact fun _ => hs
    · exact fun h => by cases h
    · exact fun h _ => h
  | ready hc | notReady hc | executorStopped hc | timeout hc | beginPush hc _ _ | pushed hc _ _
  | refused hc _ _ | retry hc | notifyOne hc _ _ | notifyNone hc _ | startRefused hc | spawn hc _
  | spawnedAll hc _ | stopLocked hc _ | stopUnlocked hc | notifyAll hc | joined hc _ _
  | stopDone hc _ =>
    refine of_update (i := i) rfl rfl ?_ ?_ ?_ ?_ ?_
    · simp [hc]
    · simp
    · simp [hc]
    · simp [hc, CallerPc.isManaging, CallerPc.isChanging]
    · exact fun h _ => h

theorem of_moves {a : Action α} (ha : a.isInternal = true) (hm : Moves cfg s a u) :
    Continues s u := by
  cases hm with
  | inferAsync | callStart | callStop => cases ha
  | caller hm => exact of_callerMoves hm
  | worker hm => cases hm <;> exact of_eq rfl rfl rfl
  | inferBatch | spuriousWake | tick | setReady => exact of_eq rfl rfl rfl

theorem managing (h : Continues s u) {j : Nat} (hj : (u.callers j).isManaging = true) :
    (s.callers j).isManaging = true := by
  rcases h.callers j with he | ⟨-, -, -, hm⟩
  · rwa [he] at hj
  · exact hm hj

theorem not_managing (h : Continues s u) {j : Nat} (hj : (s.callers j).isManaging = false) :
    (u.callers j).isManaging = false := by
  by_contra hn
  have := h.managing (by simpa using hn)
  rw [hj] at this
  cases this

theorem halted (h : Continues s u) (hs : Halted s) : Halted u where
  unmanaged := fun j => h.not_managing (hs.unmanaged j)
  stopped := by
    refine h.stopped hs.stopped fun j hj => ?_
    have := hs.unmanaged j
    rw [hj] at this
    cases this

theorem halting (h : Continues s u) {i : Nat} (hs : Halting s i) : Halting u i := by
  have hnone (j : Nat) : s.callers j ≠ .startCas := by
    intro hj
    rcases eq_or_ne j i with rfl | hne
    · exact hs.noStart hj
    · have := hs.only j hne
      rw [hj] at this
      cases this
  refine ⟨fun j hj => h.not_managing (hs.only j hj), ?_, ?_⟩
  · rcases h.callers i with he | ⟨-, hn, -, -⟩
    · rw [he]
      exact hs.noStart
    · exact hn
  · rcases hs.stop with hc | hstop
    · rcases h.callers i with he | ⟨-, -, hcas, -⟩
      · exact .inl (he.trans hc)
      · exact .inr (hcas hc)
    · exact .inr (h.stopped hstop hnone)

end Continues

/-- A batch on its way to the backend is not empty. -/
def WorkerPc.Batched : WorkerPc α → Prop
  | .checkBackend batch _ | .inferring batch _ => batch ≠ []
  | _ => True

def AllBatched (s : State α) : Prop := ∀ w, (s.workers w).Batched

theorem batched_leaveInner (batch : List (Task α)) (waits : List Nat) :
    (leaveInner batch waits).Batched := by
  unfold leaveInner
  split_ifs with hb
  · trivial
  · exact hb

theorem batched_woken (hw : Woken s.workers u.workers) (h : AllBatched s) : AllBatched u := by
  intro w
  rcases hw w with he | ⟨-, he⟩
  · rw [he]
    exact h w
  · rw [he]
    trivial

theorem batched_update {w : Nat} {pc : WorkerPc α} (hp : pc.Batched) (h : AllBatched s) (v : Nat) :
    (Function.update s.workers w pc v).Batched := by
  rcases eq_or_ne v w with rfl | hv
  · rwa [Function.update_self]
  · rw [Function.update_of_ne hv]
    exact h v

theorem batched_moves {a : Action α} (hm : Moves cfg s a u) (h : AllBatched s) : AllBatched u := by
  cases hm with
  | inferAsync | callStart | callStop | tick | setReady => exact h
  | caller hm =>
    cases hm with
    | notifyOne hc _ ha => exact batched_woken (woken_wakeOne ha) h
    | notifyAll hc => exact batched_woken (woken_wakeAll s) h
    | spawn hc _ => exact batched_update trivial h
    | _ => exact h
  | @worker w _ _ hm =>
    cases hm with
    | leave hw => exact batched_update (batched_leaveInner ..) h
    | popFailed hw _ _ hpc =>
      rcases hpc with rfl | rfl
      · exact batched_update (batched_leaveInner ..) h
      · exact batched_update trivial h
    | @available batch waits hw =>
      have hb := h w
      rw [hw] at hb
      exact batched_update hb h
    | popStep => exact h
    | _ => exact batched_update trivial h
  | inferBatch hw _ => exact batched_update trivial h
  | spuriousWake hw => exact batched_woken (woken_wakeOne hw) h

theorem batched_of_reachable (h : (system cfg).Reachable s) : AllBatched s := by
  refine h.invariant ?_ ?_
  · rintro s ⟨ready, rfl⟩ w
    trivial
  · intro s a u hs hu
    exact batched_moves (moves_of_step hu) hs

/-- An executor that was never asked anything has nothing to call the backend with. -/
theorem quiet_of_unasked (h : (system cfg).Reachable s) (hi : s.issued = []) : Quiet s := by
  intro w
  have hb := batched_of_reachable h w
  have hk := (Provenance.of_reachable h).workers w
  revert hb hk
  cases s.workers w with
  | inferring batch waits =>
    intro hb hk
    cases batch with
    | nil => exact absurd rfl hb
    | cons t batch =>
      have := Aligned.known hk (List.mem_cons_self (a := t) (l := batch))
      simp [Known, hi] at this
  | _ => exact fun _ _ => rfl

end Jellybean.Model.ModelExecutor
