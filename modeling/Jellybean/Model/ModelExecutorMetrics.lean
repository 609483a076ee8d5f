import Jellybean.Model.ModelExecutorPromises

namespace Jellybean.Model.ModelExecutor

open Concurrency Inference

variable {α : Type*} {cfg : Config} {s u : State α}

/-- A timeout was found. -/
def CallerPc.owes (clock : Nat) : CallerPc α → Bool
  | .checkDeadline _ deadline => deadline < clock
  | _ => false

/-- The response at the index of the loop is to be counted. -/
def WorkerPc.owes : WorkerPc α → Bool
  | .answering batch _ _ _ i => i < batch.length
  | _ => false

def CallerPc.due : CallerPc α → Option Nat
  | .checkDeadline t _ => some t.promise
  | _ => none

def WorkerPc.due : WorkerPc α → Option Nat
  | .answering batch _ _ _ i => batch[i]?.map Task.promise
  | _ => none

/-- The thread has to increment a counter before its next step. -/
def State.owes (s : State α) : Tid → Bool
  | .caller i => (s.callers i).owes s.clock
  | .worker w => (s.workers w).owes

/-- The promise that the thread sets then. -/
def State.due (s : State α) : Tid → Option Nat
  | .caller i => (s.callers i).due
  | .worker w => (s.workers w).due

/-- `RuntimeMetrics`. -/
structure RuntimeMetrics where
  requestsReceived : Nat := 0
  requestsCompleted : Nat := 0
  requestsRejected : Nat := 0
  queueTimeouts : Nat := 0
  deriving DecidableEq

/-- The increment before a promise is set. -/
def RuntimeMetrics.count (m : RuntimeMetrics) (s : State α) : Tid → RuntimeMetrics
  | .caller _ => { m with queueTimeouts := m.queueTimeouts + 1 }
  | .worker w =>
    match s.workers w with
    | .answering _ _ resps _ i =>
      if (resps[i]?).any (·.ok) then { m with requestsCompleted := m.requestsCompleted + 1 }
      else { m with requestsRejected := m.requestsRejected + 1 }
    | _ => m

/-- The executor with its counters. A thread in `counted` stands between its increment and
`set_value`; `recorded` lists the requests that a counter has recorded. -/
structure Metered (α : Type*) where
  exec : State α
  metrics : RuntimeMetrics
  counted : Tid → Bool
  recorded : List Nat

namespace Metered

inductive Action (α : Type*) where
  | exec (a : ModelExecutor.Action α)
  | count (x : Tid)

/-- The thread that an action of the executor belongs to, in the middle of a call. -/
def thread : ModelExecutor.Action α → Option Tid
  | .caller i _ _ => some (.caller i)
  | .worker w _ => some (.worker w)
  | _ => none

def receive (m : RuntimeMetrics) : ModelExecutor.Action α → RuntimeMetrics
  | .inferAsync _ _ _ => { m with requestsReceived := m.requestsReceived + 1 }
  | _ => m

def release (counted : Tid → Bool) : Option Tid → Tid → Bool
  | some x => Function.update counted x false
  | none => counted

def step (cfg : Config) (m : Metered α) : Action α → Option (Metered α)
  | .exec a =>
    if ∀ x ∈ thread a, m.exec.owes x = true → m.counted x = true then
      (ModelExecutor.step cfg m.exec a).map fun s =>
        { m with
          exec := s
          metrics := receive m.metrics a
          counted := release m.counted (thread a) }
    else none
  | .count x =>
    if m.exec.owes x = true ∧ m.counted x = false then
      some { m with
        metrics := m.metrics.count m.exec x
        counted := Function.update m.counted x true
        recorded := m.recorded ++ (m.exec.due x).toList }
    else none

def initial (ready : Bool) : Metered α := ⟨ModelExecutor.initial ready, {}, fun _ => false, []⟩

def system (cfg : Config) : System (Metered α) (Action α) where
  init m := ∃ ready, m = initial ready
  step := step cfg

/-- The requests received whose future is not yet fulfilled and which no counter has recorded. -/
def unsettled (m : Metered α) : Finset Nat :=
  (Finset.range m.exec.issued.length).filter fun p => m.exec.promises p = [] ∧ p ∉ m.recorded

/-- A call finds the model ready and the executor running, and a batch finds the backend. -/
def served (m : Metered α) : Action α → Bool
  | .exec (.caller i _ _) =>
    match m.exec.callers i with
    | .checkReady _ => m.exec.ready
    | .checkStopped _ _ => !m.exec.stopped
    | _ => true
  | .exec (.worker w _) =>
    match m.exec.workers w with
    | .checkBackend _ _ => m.exec.ready
    | _ => true
  | _ => true

end Metered

/-! What a step of the executor does to the promises and to the threads that have counted. -/

theorem woken_frame (hw : Woken s.workers u.workers) (w : Nat) :
    u.workers w = s.workers w ∨ s.workers w = .asleep ∨ s.workers w = .unborn := by
  rcases hw w with h | h
  · exact .inl h
  · exact .inr (.inl h.1)

theorem callerMoves_frame (hco : Coherent s) {i : Nat} (hm : CallerMoves cfg s i u) :
    (∀ j, j ≠ i → u.callers j = s.callers j) ∧ u.clock = s.clock ∧
      ∀ w, u.workers w = s.workers w ∨ s.workers w = .asleep ∨ s.workers w = .unborn := by
  have hother : ∀ (pc : CallerPc α) j, j ≠ i → Function.update s.callers i pc j = s.callers j := by
    intro pc j hj
    exact Function.update_of_ne hj _ _
  cases hm with
  | notifyOne hc hw ha => exact ⟨hother _, rfl, woken_frame (woken_wakeOne ha)⟩
  | notifyAll hc => exact ⟨hother _, rfl, woken_frame (woken_wakeAll s)⟩
  | spawn hc hn =>
    refine ⟨hother _, rfl, ?_⟩
    intro w
    by_cases hw : w = s.spawned
    · exact .inr (.inr (hco.unborn w (Nat.le_of_eq hw.symm)))
    · exact .inl (Function.update_of_ne hw _ _)
  | pushStep hc hq => exact ⟨fun _ _ => rfl, rfl, fun _ => .inl rfl⟩
  | ready | notReady | executorStopped | timeout | beginPush | pushed | refused | retry | notifyNone
  | started | startRefused | spawnedAll | stopRefused | stopping | stopLocked | stopUnlocked
  | joined | stopDone => exact ⟨hother _, rfl, fun _ => .inl rfl⟩

theorem workerMoves_frame {w : Nat} (hm : WorkerMoves cfg s w u) :
    u.callers = s.callers ∧ u.clock = s.clock ∧ ∀ v, v ≠ w → u.workers v = s.workers v := by
  have hother : ∀ (pc : WorkerPc α) v, v ≠ w → Function.update s.workers w pc v = s.workers v := by
    intro pc v hv
    exact Function.update_of_ne hv _ _
  cases hm with
  | popStep => exact ⟨rfl, rfl, fun _ _ => rfl⟩
  | exit | enter | beginPop | leave | popped | popFailed | fetchSub | locked | sizePositive | sizeZero
  | sawStopped | predicateFalse | sleep | unlocked | available | gone | answer | answered | refuse
  | refusedAll => exact ⟨rfl, rfl, hother _⟩

theorem owes_caller {j : Nat} (hc : u.callers j = s.callers j) (hclock : s.clock ≤ u.clock)
    (h : s.owes (.caller j) = true) :
    u.owes (.caller j) = true ∧ u.due (.caller j) = s.due (.caller j) := by
  simp only [State.owes, State.due, hc] at h ⊢
  refine ⟨?_, trivial⟩
  cases hpc : s.callers j with
  | checkDeadline t d =>
    rw [hpc] at h
    have : d < s.clock := of_decide_eq_true h
    exact decide_eq_true (by omega)
  | _ =>
    rw [hpc] at h
    cases h

theorem owes_worker {w : Nat}
    (hw : u.workers w = s.workers w ∨ s.workers w = .asleep ∨ s.workers w = .unborn)
    (h : s.owes (.worker w) = true) :
    u.owes (.worker w) = true ∧ u.due (.worker w) = s.due (.worker w) := by
  simp only [State.owes, State.due] at h ⊢
  rcases hw with hw | hw | hw
  · rw [hw]
    exact ⟨h, rfl⟩
  · rw [hw] at h
    cases h
  · rw [hw] at h
    cases h

/-- Another thread that owes an increment is not touched. -/
theorem owes_frame (hco : Coherent s) {a : Action α} (hm : Moves cfg s a u) {y : Tid}
    (hy : Metered.thread a ≠ some y) (h : s.owes y = true) :
    u.owes y = true ∧ u.due y = s.due y := by
  cases hm with
  | @caller i b wake _ hm =>
    obtain ⟨hcallers, hclock, hworkers⟩ := callerMoves_frame hco hm
    cases y with
    | caller j =>
      have hj : j ≠ i := by
        intro heq
        exact hy (by rw [heq]; rfl)
      exact owes_caller (hcallers j hj) (Nat.le_of_eq hclock.symm) h
    | worker w => exact owes_worker (hworkers w) h
  | @worker w b _ hm =>
    obtain ⟨hcallers, hclock, hworkers⟩ := workerMoves_frame hm
    cases y with
    | caller j => exact owes_caller (by rw [hcallers]) (Nat.le_of_eq hclock.symm) h
    | worker v =>
      have hv : v ≠ w := by
        intro heq
        exact hy (by rw [heq]; rfl)
      exact owes_worker (.inl (hworkers v hv)) h
  | @inferAsync i _ _ hc | @callStart i hc | @callStop i hc =>
    cases y with
    | caller j =>
      have hj : j ≠ i := by
        intro heq
        simp [State.owes, CallerPc.owes, heq, hc] at h
      exact owes_caller (Function.update_of_ne hj _ _) (Nat.le_refl _) h
    | worker w => exact owes_worker (.inl rfl) h
  | @inferBatch w batch waits resps e hw hr =>
    cases y with
    | caller j => exact owes_caller rfl (Nat.le_refl _) h
    | worker v =>
      have hv : v ≠ w := by
        intro heq
        simp [State.owes, WorkerPc.owes, heq, hw] at h
      exact owes_worker (.inl (Function.update_of_ne hv _ _)) h
  | spuriousWake ha =>
    cases y with
    | caller j => exact owes_caller rfl (Nat.le_refl _) h
    | worker w => exact owes_worker (woken_frame (woken_wakeOne ha) w) h
  | tick n =>
    cases y with
    | caller j => exact owes_caller rfl (Nat.le_add_right _ _) h
    | worker w => exact owes_worker (.inl rfl) h
  | setReady b =>
    cases y with
    | caller j => exact owes_caller rfl (Nat.le_refl _) h
    | worker w => exact owes_worker (.inl rfl) h

/-- The promises after a step: the one due to the thread is set if it owed an increment. -/
def Sets (s u : State α) (x : Tid) : Prop :=
  (s.owes x = true → ∃ p v, s.due x = some p ∧ u.promises = setValue s p v) ∧
    (s.owes x = false → u.promises = s.promises)

theorem sets_of_eq {x : Tid} (hx : s.owes x = false) (h : u.promises = s.promises) :
    Sets s u x := by
  refine ⟨?_, fun _ => h⟩
  intro ho
  rw [hx] at ho
  cases ho

theorem callerStep_sets {i : Nat} {b : Bool} {wake : Option Nat}
    (h : callerStep cfg s i b wake = some u)
    (hready : ∀ t, s.callers i = .checkReady t → s.ready = true)
    (hstopped : ∀ t d, s.callers i = .checkStopped t d → s.stopped = false) :
    Sets s u (.caller i) := by
  cases hpc : s.callers i with
  | checkReady t =>
    simp only [callerStep, hpc, hready t hpc, if_true] at h
    cases h
    exact sets_of_eq (by simp [State.owes, hpc, CallerPc.owes]) rfl
  | checkStopped t d =>
    simp only [callerStep, hpc, hstopped t d hpc, Bool.false_eq_true, if_false] at h
    obtain ⟨q, -, rfl⟩ := Option.map_eq_some_iff.mp h
    exact sets_of_eq (by simp [State.owes, hpc, CallerPc.owes]) rfl
  | checkDeadline t d =>
    simp only [callerStep, hpc] at h
    by_cases hd : d < s.clock
    · rw [if_pos hd] at h
      cases h
      have howes : s.owes (.caller i) = true := by simp [State.owes, hpc, CallerPc.owes, hd]
      refine ⟨fun _ => ⟨t.promise, _, by simp [State.due, hpc, CallerPc.due], rfl⟩, ?_⟩
      intro hf
      rw [howes] at hf
      cases hf
    · rw [if_neg hd] at h
      cases h
      exact sets_of_eq (by simp [State.owes, hpc, CallerPc.owes]; omega) rfl
  | _ =>
    apply sets_of_eq (by simp [State.owes, hpc, CallerPc.owes])
    have hm := callerMoves_of_callerStep h
    cases hm with
    | notReady hc | executorStopped hc | timeout hc =>
      rw [hpc] at hc
      cases hc
    | _ => rfl

theorem workerStep_sets {w : Nat} {b : Bool} (h : workerStep cfg s w b = some u)
    (hun : ∀ batch i, s.workers w ≠ .unavailable batch i) : Sets s u (.worker w) := by
  have hm := workerMoves_of_workerStep h
  cases hm with
  | @answer batch waits resps e i t wait r hw ht hwait hr =>
    have hi := (List.getElem?_eq_some_iff.mp ht).1
    have howes : s.owes (.worker w) = true := by simp [State.owes, hw, WorkerPc.owes, hi]
    refine ⟨fun _ => ⟨t.promise, _, by simp [State.due, hw, WorkerPc.due, ht], rfl⟩, ?_⟩
    intro hf
    rw [howes] at hf
    cases hf
  | answered hw hi => exact sets_of_eq (by simp [State.owes, hw, WorkerPc.owes, hi]) rfl
  | refuse hw => exact absurd hw (hun _ _)
  | locked hw _ =>
    rcases hw with hw | hw
    · exact sets_of_eq (by simp [State.owes, hw, WorkerPc.owes]) rfl
    · exact sets_of_eq (by simp [State.owes, hw, WorkerPc.owes]) rfl
  | exit hw | enter hw | beginPop hw | leave hw | popped hw | popFailed hw | popStep hw | fetchSub hw
  | sizePositive hw | sizeZero hw | sawStopped hw | predicateFalse hw | sleep hw | unlocked hw
  | available hw | gone hw | refusedAll hw =>
    exact sets_of_eq (by simp [State.owes, hw, WorkerPc.owes]) rfl

/-- Where the promise is that a thread sets next. -/
def State.dueAt (s : State α) : Tid → Place
  | .caller i => .caller i
  | .worker w =>
    match s.workers w with
    | .answering _ _ _ _ i => .batch w i
    | _ => .batch w 0

theorem dueAt_ne_fulfilled (s : State α) (x : Tid) : s.dueAt x ≠ .fulfilled := by
  cases x with
  | caller i => simp [State.dueAt]
  | worker w =>
    unfold State.dueAt
    dsimp only
    split <;> simp

theorem dueAt_ne_unissued (s : State α) (x : Tid) : s.dueAt x ≠ .unissued := by
  cases x with
  | caller i => simp [State.dueAt]
  | worker w =>
    unfold State.dueAt
    dsimp only
    split <;> simp

theorem dueAt_injective (s : State α) : Function.Injective s.dueAt := by
  have hbatch : ∀ w, ∃ j, s.dueAt (.worker w) = .batch w j := by
    intro w
    unfold State.dueAt
    dsimp only
    split
    · exact ⟨_, rfl⟩
    · exact ⟨0, rfl⟩
  intro x y h
  cases x with
  | caller i =>
    cases y with
    | caller j => exact congrArg _ (Place.caller.inj h)
    | worker w =>
      obtain ⟨j, hj⟩ := hbatch w
      rw [hj] at h
      cases h
  | worker v =>
    obtain ⟨k, hk⟩ := hbatch v
    rw [hk] at h
    cases y with
    | caller j => cases h
    | worker w =>
      obtain ⟨j, hj⟩ := hbatch w
      rw [hj] at h
      exact congrArg _ (Place.batch.inj h).1

theorem held_due {x : Tid} {p : Nat} (ho : s.owes x = true) (hd : s.due x = some p) :
    s.ledger.Held (s.dueAt x) p := by
  cases x with
  | caller i =>
    simp only [State.due] at hd
    cases hpc : s.callers i with
    | checkDeadline t d =>
      rw [hpc] at hd
      simpa [State.dueAt, Ledger.Held, State.ledger, hpc, CallerPc.offer, CallerPc.due] using hd
    | _ =>
      rw [hpc] at hd
      cases hd
  | worker w =>
    simp only [State.due] at hd
    cases hpc : s.workers w with
    | answering batch waits resps e i =>
      rw [hpc] at hd
      simpa [State.dueAt, Ledger.Held, State.ledger, hpc, WorkerPc.unanswered, WorkerPc.due] using hd
    | _ =>
      rw [hpc] at hd
      cases hd

theorem due_of_owes {x : Tid} (ho : s.owes x = true) : ∃ p, s.due x = some p := by
  cases x with
  | caller i =>
    simp only [State.owes, State.due] at ho ⊢
    cases hpc : s.callers i with
    | checkDeadline t d => exact ⟨t.promise, rfl⟩
    | _ =>
      rw [hpc] at ho
      cases ho
  | worker w =>
    simp only [State.owes, State.due] at ho ⊢
    cases hpc : s.workers w with
    | answering batch waits resps e i =>
      rw [hpc] at ho
      have hi : i < batch.length := of_decide_eq_true ho
      exact ⟨batch[i].promise, by simp [WorkerPc.due, hi]⟩
    | _ =>
      rw [hpc] at ho
      cases ho

/-- A promise that is due was not set, and to no other thread. -/
theorem due_unique (hs : s.ledger.Sound) {x : Tid} {p : Nat} (ho : s.owes x = true)
    (hd : s.due x = some p) :
    s.promises p = [] ∧ p < s.issued.length ∧
      ∀ y, s.owes y = true → s.due y = some p → y = x := by
  have hheld := held_due ho hd
  refine ⟨?_, ?_, ?_⟩
  · by_contra hne
    have hful : s.ledger.Held .fulfilled p := by
      simpa [Ledger.Held, State.ledger] using hne
    exact dueAt_ne_fulfilled s x (hs.exclusive.place_eq hheld hful)
  · by_contra hge
    have hun : s.ledger.Held .unissued p := Nat.le_of_not_lt hge
    exact dueAt_ne_unissued s x (hs.exclusive.place_eq hheld hun)
  · intro y hyo hyd
    exact dueAt_injective s (hs.exclusive.place_eq (held_due hyo hyd) hheld)

/-- No worker has found the backend gone. -/
def NoneUnavailable (s : State α) : Prop := ∀ w batch i, s.workers w ≠ .unavailable batch i

theorem noneUnavailable_worker (h : NoneUnavailable s) {w : Nat} {b : Bool}
    (hs : workerStep cfg s w b = some u)
    (hready : ∀ batch waits, s.workers w = .checkBackend batch waits → s.ready = true) :
    NoneUnavailable u := by
  have hframe := (workerMoves_frame (workerMoves_of_workerStep hs)).2.2
  have hleave : ∀ (batch : List (Task α)) waits batch' i,
      leaveInner batch waits ≠ .unavailable batch' i := by
    intro batch waits batch' i
    unfold leaveInner
    split <;> simp
  intro v batch i
  by_cases hv : v = w
  · subst hv
    cases hpc : s.workers v with
    | checkBackend batch' waits =>
      simp only [workerStep, hpc, hready _ _ hpc, if_true] at hs
      cases hs
      simp [setWorker]
    | _ =>
      have hm := workerMoves_of_workerStep hs
      cases hm with
      | gone hw | available hw =>
        rw [hpc] at hw
        cases hw
      | refuse hw => exact absurd hw (h v _ _)
      | popStep hq => exact h v batch i
      | popFailed hw hl hq hor =>
        simp only [Function.update_self]
        rcases hor with rfl | rfl
        · exact hleave _ _ _ _
        · simp
      | leave hw =>
        simp only [setWorker, Function.update_self]
        exact hleave _ _ _ _
      | _ => simp [setWorker]
  · rw [hframe v hv]
    exact h v batch i

theorem noneUnavailable_caller (h : NoneUnavailable s) {i : Nat} (hm : CallerMoves cfg s i u) :
    NoneUnavailable u := by
  have hwoken : Woken s.workers u.workers → NoneUnavailable u := by
    intro hw w batch k
    rcases hw w with hv | ⟨-, hv⟩
    · rw [hv]
      exact h w batch k
    · simp [hv]
  cases hm with
  | notifyOne hc hw ha => exact hwoken (woken_wakeOne ha)
  | notifyAll hc => exact hwoken (woken_wakeAll s)
  | spawn hc hn =>
    intro w batch k
    by_cases hw : w = s.spawned
    · simp [hw]
    · simp only [Function.update_of_ne hw]
      exact h w batch k
  | _ => exact h

namespace Metered

variable {m n : Metered α}

def total (m : RuntimeMetrics) : Nat := m.requestsCompleted + m.requestsRejected + m.queueTimeouts

/-- The counters record each request once, just before its promise is set. -/
structure Accounted (cfg : Config) (m : Metered α) : Prop where
  reachable : (ModelExecutor.system cfg).Reachable m.exec
  received : m.metrics.requestsReceived = m.exec.issued.length
  recorded_length : total m.metrics = m.recorded.length
  nodup : m.recorded.Nodup
  counted : ∀ x, m.counted x = true → m.exec.owes x = true
  recorded_iff : ∀ p, p ∈ m.recorded ↔
    m.exec.promises p ≠ [] ∨ ∃ x, m.counted x = true ∧ m.exec.due x = some p
  available : NoneUnavailable m.exec

theorem accounted_initial (ready : Bool) : Accounted cfg (initial ready : Metered α) where
  reachable := .init ⟨ready, rfl⟩
  received := rfl
  recorded_length := rfl
  nodup := List.nodup_nil
  counted := by
    intro x hx
    cases hx
  recorded_iff := by
    intro p
    simp [initial, ModelExecutor.initial]
  available := by
    intro w batch i hw
    cases hw

theorem count_spec (m : RuntimeMetrics) {x : Tid} (ho : s.owes x = true) :
    (m.count s x).requestsReceived = m.requestsReceived ∧ total (m.count s x) = total m + 1 := by
  cases x with
  | caller i => exact ⟨rfl, rfl⟩
  | worker w =>
    simp only [State.owes] at ho
    cases hpc : s.workers w with
    | answering batch waits resps e i =>
      simp only [RuntimeMetrics.count, hpc, total]
      cases (resps[i]?).any (·.ok) with
      | true => exact ⟨rfl, by simp only [if_true]; omega⟩
      | false => exact ⟨rfl, by simp only [Bool.false_eq_true, if_false]; omega⟩
    | _ =>
      rw [hpc] at ho
      cases ho

/-- Counting: the request is recorded for the first time. -/
theorem Accounted.count (h : Accounted cfg m) {x : Tid} (ho : m.exec.owes x = true)
    (hc : m.counted x = false) :
    Accounted cfg { m with
      metrics := m.metrics.count m.exec x
      counted := Function.update m.counted x true
      recorded := m.recorded ++ (m.exec.due x).toList } := by
  obtain ⟨p, hp⟩ := due_of_owes ho
  obtain ⟨hempty, -, hunique⟩ := due_unique (sound_of_reachable h.reachable) ho hp
  have hnew : p ∉ m.recorded := by
    rw [h.recorded_iff]
    intro hor
    rcases hor with hne | ⟨y, hy, hyp⟩
    · exact hne hempty
    · have := hunique y (h.counted y hy) hyp
      rw [this, hc] at hy
      cases hy
  have hlist : (m.exec.due x).toList = [p] := by rw [hp]; rfl
  obtain ⟨hreceived, htotal⟩ := count_spec m.metrics ho
  refine ⟨h.reachable, ?_, ?_, ?_, ?_, ?_, h.available⟩
  · exact hreceived.trans h.received
  · rw [hlist, List.length_append, htotal, h.recorded_length]
    rfl
  · rw [hlist]
    simpa [List.nodup_append] using ⟨h.nodup, fun a ha heq => hnew (heq ▸ ha)⟩
  · intro y hy
    by_cases hyx : y = x
    · rw [hyx]
      exact ho
    · simp only [Function.update_of_ne hyx] at hy
      exact h.counted y hy
  · intro q
    rw [hlist, List.mem_append, List.mem_singleton, h.recorded_iff, or_assoc]
    apply or_congr_right
    constructor
    · intro hor
      rcases hor with ⟨y, hy, hyq⟩ | rfl
      · have hyx : y ≠ x := by
          intro heq
          rw [heq, hc] at hy
          cases hy
        exact ⟨y, (Function.update_of_ne hyx _ _).trans hy, hyq⟩
      · exact ⟨x, Function.update_self _ _ _, hp⟩
    · intro ⟨y, hy, hyq⟩
      by_cases hyx : y = x
      · rw [hyx, hp] at hyq
        exact .inr (Option.some.inj hyq).symm
      · simp only [Function.update_of_ne hyx] at hy
        exact .inl ⟨y, hy, hyq⟩

theorem release_iff (counted : Tid → Bool) (t : Option Tid) (y : Tid) :
    release counted t y = true ↔ t ≠ some y ∧ counted y = true := by
  cases t with
  | none => simp [release]
  | some x =>
    by_cases hyx : y = x
    · simp [release, hyx]
    · have hxy : ¬ x = y := fun h => hyx h.symm
      simp [release, hyx, hxy]

theorem issued_moves {a : ModelExecutor.Action α} (hm : Moves cfg s a u) (m : RuntimeMetrics) :
    (receive m a).requestsReceived + s.issued.length = m.requestsReceived + u.issued.length ∧
      total (receive m a) = total m := by
  have hsame : u.issued = s.issued → m.requestsReceived + s.issued.length =
      m.requestsReceived + u.issued.length := by
    intro h
    rw [h]
  cases hm with
  | inferAsync => exact ⟨by simp [receive]; omega, rfl⟩
  | caller hm => exact ⟨hsame (by cases hm <;> rfl), rfl⟩
  | worker hm => exact ⟨hsame (by cases hm <;> rfl), rfl⟩
  | callStart | callStop | inferBatch | spuriousWake | tick | setReady => exact ⟨rfl, rfl⟩

theorem setValue_ne_nil (s : State α) (p q : Nat) (v : InferenceResponse) :
    setValue s p v q ≠ [] ↔ s.promises q ≠ [] ∨ q = p := by
  unfold setValue
  by_cases h : q = p
  · simp [h]
  · simp [h]

/-- A step of the executor that sets what is due to its thread, or no promise. -/
theorem Accounted.exec (h : Accounted cfg m) {a : ModelExecutor.Action α} {u : State α}
    (hs : ModelExecutor.step cfg m.exec a = some u)
    (hguard : ∀ x ∈ thread a, m.exec.owes x = true → m.counted x = true)
    (hsets : ∀ x ∈ thread a, Sets m.exec u x)
    (hquiet : thread a = none → u.promises = m.exec.promises) (hav : NoneUnavailable u) :
    Accounted cfg { m with
      exec := u
      metrics := receive m.metrics a
      counted := release m.counted (thread a) } := by
  have hm := moves_of_step hs
  have hframe := fun y => owes_frame (y := y) (Coherent.of_reachable h.reachable) hm
  obtain ⟨hissued, htotal⟩ := issued_moves hm m.metrics
  have hothers : ∀ p, (∃ y, release m.counted (thread a) y = true ∧ u.due y = some p) ↔
      ∃ y, thread a ≠ some y ∧ m.counted y = true ∧ m.exec.due y = some p := by
    intro p
    apply exists_congr
    intro y
    rw [release_iff, and_assoc]
    constructor
    · intro ⟨hne, hc, hd⟩
      rw [(hframe y hne (h.counted y hc)).2] at hd
      exact ⟨hne, hc, hd⟩
    · intro ⟨hne, hc, hd⟩
      rw [← (hframe y hne (h.counted y hc)).2] at hd
      exact ⟨hne, hc, hd⟩
  refine ⟨h.reachable.next hs, ?_, htotal.trans h.recorded_length, h.nodup, ?_, ?_, hav⟩
  · have := h.received
    simp only
    omega
  · intro y hy
    obtain ⟨hne, hc⟩ := (release_iff _ _ _).mp hy
    exact (hframe y hne (h.counted y hc)).1
  · intro p
    rw [h.recorded_iff, hothers]
    cases ht : thread a with
    | none => simp [hquiet ht]
    | some x =>
      obtain ⟨hpays, hidle⟩ := hsets x (by simp [ht])
      by_cases ho : m.exec.owes x = true
      · obtain ⟨q, v, hq, hpromises⟩ := hpays ho
        have hcx := hguard x (by simp [ht]) ho
        simp only [hpromises, setValue_ne_nil, or_assoc]
        apply or_congr_right
        constructor
        · intro ⟨y, hc, hd⟩
          by_cases hyx : y = x
          · rw [hyx, hq] at hd
            exact .inl (Option.some.inj hd).symm
          · exact .inr ⟨y, by simpa using fun heq => hyx heq.symm, hc, hd⟩
        · intro hor
          rcases hor with rfl | ⟨y, -, hc, hd⟩
          · exact ⟨x, hcx, hq⟩
          · exact ⟨y, hc, hd⟩
      · have hcx : m.counted x ≠ true := fun hc => ho (h.counted x hc)
        simp only [hidle (by simpa using ho)]
        apply or_congr_right
        apply exists_congr
        intro y
        constructor
        · intro ⟨hc, hd⟩
          refine ⟨?_, hc, hd⟩
          intro heq
          rw [Option.some.inj heq] at hcx
          exact hcx hc
        · intro ⟨_, hc, hd⟩
          exact ⟨hc, hd⟩

theorem Accounted.served (h : Accounted cfg m) {a : ModelExecutor.Action α} {u : State α}
    (hserved : served m (.exec a) = true) (hs : ModelExecutor.step cfg m.exec a = some u) :
    (∀ x ∈ thread a, Sets m.exec u x) ∧ (thread a = none → u.promises = m.exec.promises) ∧
      NoneUnavailable u := by
  cases a with
  | caller i b wake =>
    have hsets : Sets m.exec u (.caller i) := by
      apply callerStep_sets hs
      · intro t hpc
        simpa [Metered.served, hpc] using hserved
      · intro t d hpc
        simpa [Metered.served, hpc] using hserved
    refine ⟨?_, by simp [thread], noneUnavailable_caller h.available (callerMoves_of_callerStep hs)⟩
    intro x hx
    cases hx
    exact hsets
  | worker w b =>
    refine ⟨?_, by simp [thread], noneUnavailable_worker h.available hs ?_⟩
    · intro x hx
      cases hx
      exact workerStep_sets hs (h.available w)
    · intro batch waits hpc
      simpa [Metered.served, hpc] using hserved
  | inferBatch w resps e =>
    have hm := moves_of_step hs
    cases hm with
    | inferBatch hw hr =>
      refine ⟨by simp [thread], fun _ => rfl, ?_⟩
      intro v batch i
      by_cases hv : v = w
      · simp [hv]
      · simp only [Function.update_of_ne hv]
        exact h.available v batch i
  | spuriousWake w =>
    have hm := moves_of_step hs
    cases hm with
    | spuriousWake ha =>
      refine ⟨by simp [thread], fun _ => rfl, ?_⟩
      intro v batch i
      by_cases hv : v = w
      · simp [wakeOne, hv]
      · simp only [wakeOne, Function.update_of_ne hv]
        exact h.available v batch i
  | inferAsync i req r | callStart i | callStop i | tick n | setReady b =>
    have hm := moves_of_step hs
    cases hm
    exact ⟨by simp [thread], fun _ => rfl, h.available⟩

theorem Accounted.step (h : Accounted cfg m) {a : Action α} (hserved : Metered.served m a = true)
    (hs : Metered.step cfg m a = some n) : Accounted cfg n := by
  cases a with
  | exec a =>
    simp only [Metered.step] at hs
    split at hs
    · next hguard =>
      obtain ⟨u, hu, rfl⟩ := Option.map_eq_some_iff.mp hs
      obtain ⟨hsets, hquiet, hav⟩ := h.served hserved hu
      exact h.exec hu hguard hsets hquiet hav
    · cases hs
  | count x =>
    simp only [Metered.step] at hs
    split at hs
    · next hc =>
      cases hs
      exact h.count hc.1 hc.2
    · cases hs

/-- A request is unsettled until a counter has recorded it. -/
theorem Accounted.card_unsettled (h : Accounted cfg m) :
    m.exec.issued.length = m.recorded.length + m.unsettled.card := by
  have hsound := sound_of_reachable h.reachable
  have hlt : ∀ p ∈ m.recorded, p < m.exec.issued.length := by
    intro p hp
    rcases (h.recorded_iff p).mp hp with hne | ⟨x, hc, hd⟩
    · by_contra hge
      have hun : m.exec.ledger.Held .unissued p := Nat.le_of_not_lt hge
      have hful : m.exec.ledger.Held .fulfilled p := by
        simpa [Ledger.Held, State.ledger] using hne
      exact absurd (hsound.exclusive.place_eq hun hful) (by simp)
    · exact (due_unique hsound (h.counted x hc) hd).2.1
  have hunsettled : m.unsettled = Finset.range m.exec.issued.length \ m.recorded.toFinset := by
    ext p
    simp only [unsettled, Finset.mem_filter, Finset.mem_sdiff, List.mem_toFinset]
    constructor
    · intro hp
      exact ⟨hp.1, hp.2.2⟩
    · intro hp
      refine ⟨hp.1, ?_, hp.2⟩
      by_contra hne
      exact hp.2 ((h.recorded_iff p).mpr (.inl hne))
  have hsub : m.recorded.toFinset ⊆ Finset.range m.exec.issued.length := by
    intro p hp
    exact Finset.mem_range.mpr (hlt p (List.mem_toFinset.mp hp))
  have hcard := Finset.card_sdiff_add_card_eq_card hsub
  rw [Finset.card_range, List.toFinset_card_of_nodup h.nodup] at hcard
  rw [hunsettled]
  omega

theorem accounted_of_reachable (h : (system cfg).ReachableUnder (fun m a => served m a = true) m) :
    Accounted cfg m := by
  refine h.invariant (P := Accounted cfg) ?_ ?_
  · intro m ⟨ready, hm⟩
    subst hm
    exact accounted_initial ready
  · intro m a n hm hserved hs
    exact hm.step hserved hs

/-- In every run in which each call finds the model ready and the executor running, and each batch
finds the backend, the counters account for every request. -/
theorem requests_accounted (h : (system cfg).ReachableUnder (fun m a => served m a = true) m) :
    m.metrics.requestsReceived = m.metrics.requestsCompleted + m.metrics.requestsRejected +
        m.metrics.queueTimeouts + m.unsettled.card ∧
      ((∀ p < m.metrics.requestsReceived, m.exec.promises p ≠ []) →
        m.metrics.requestsReceived = m.metrics.requestsCompleted + m.metrics.requestsRejected +
          m.metrics.queueTimeouts) := by
  have hacc := accounted_of_reachable h
  have hcard := hacc.card_unsettled
  have htotal := hacc.recorded_length
  have hreceived := hacc.received
  unfold total at htotal
  refine ⟨by omega, ?_⟩
  intro hall
  have hempty : m.unsettled = ∅ := by
    apply Finset.filter_false_of_mem
    intro p hp hand
    rw [Finset.mem_range, ← hreceived] at hp
    exact hall p hp hand.1
  rw [hempty, Finset.card_empty] at hcard
  omega

/-- One request is served; the run ends before its promise is set. -/
def serveOne : List (Action Nat) :=
  List.flatten [startAndAsk.map .exec, List.replicate 12 (.exec (.worker 0 false)),
    [.exec (.inferBatch 0 [{ ok := true }] 3), .count (.worker 0)]]

theorem requests_accounted_serveOne :
    ∃ m, (system oneWorker).run (initial true) serveOne = some m ∧ m.metrics = ⟨1, 1, 0, 0⟩ ∧
      m.exec.promises 0 = [] ∧ m.metrics.requestsReceived = m.metrics.requestsCompleted +
        m.metrics.requestsRejected + m.metrics.queueTimeouts + m.unsettled.card := by
  have hrun : ((system oneWorker).run (initial true) serveOne).map (fun m =>
      (m.metrics, m.exec.promises 0)) = some (⟨1, 1, 0, 0⟩, []) := by
    decide +kernel
  have hc : (system oneWorker).Complies (fun m a => served m a = true) (initial true) serveOne := by
    decide +kernel
  obtain ⟨m, hm, he⟩ := Option.map_eq_some_iff.mp hrun
  simp only [Prod.mk.injEq] at he
  have h0 : (system oneWorker).ReachableUnder (fun m a => served m a = true)
      (initial true : Metered Nat) := .init ⟨true, rfl⟩
  exact ⟨m, hm, he.1, he.2, (requests_accounted (h0.run hc hm)).1⟩

/-- A request to a model that is not ready is received and answered, and no other counter knows
of it. -/
theorem not_ready_not_counted :
    ∃ m : Metered Nat, (system oneWorker).Reachable m ∧ m.metrics = ⟨1, 0, 0, 0⟩ ∧
      m.exec.promises 0 = [{ error := "model not ready: m" }] ∧ m.unsettled.card = 0 ∧
      m.metrics.requestsReceived ≠ m.metrics.requestsCompleted + m.metrics.requestsRejected +
        m.metrics.queueTimeouts + m.unsettled.card := by
  have hrun : ((system oneWorker).run (initial false)
      [.exec (.inferAsync 0 emptyRequest 0), .exec (.caller 0 false none)]).map (fun m =>
        (m.metrics, m.exec.promises 0, m.unsettled.card)) =
      some (⟨1, 0, 0, 0⟩, [{ error := "model not ready: m" }], 0) := by
    decide +kernel
  obtain ⟨m, hm, he⟩ := Option.map_eq_some_iff.mp hrun
  simp only [Prod.mk.injEq] at he
  have h0 : (system oneWorker).Reachable (initial false : Metered Nat) := .init ⟨false, rfl⟩
  refine ⟨m, h0.run hm, he.1, he.2.1, he.2.2, ?_⟩
  rw [he.1, he.2.2]
  decide

end Metered

end Jellybean.Model.ModelExecutor
