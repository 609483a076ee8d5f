import Jellybean.Model.ModelExecutorCustody

namespace Jellybean.Model.ModelExecutor

open Concurrency Inference

variable {α : Type*} {cfg : Config} {s u : State α}

/-- The task of a call of `infer_async`, unchanged since. -/
def Known (s : State α) (t : Task α) : Prop := s.issued[t.promise]? = some t

/-- The four responses that are made without the backend. -/
def FixedError (t : Task α) (v : InferenceResponse) : Prop :=
  v = { error := "model not ready: " ++ t.req.modelId } ∨ v = { error := "executor stopped" } ∨
    v = { error := "queue full timeout for model: " ++ t.req.modelId } ∨
    v = { error := "backend unavailable" }

/-- The time from the call of `infer_async` to a pop of this task. -/
def QueueWait (s : State α) (t : Task α) (n : Nat) : Prop :=
  ∃ e ∈ s.taken, e.promise = t.promise ∧ n = e.time - t.enqueueTime

/-- The response at the index of `t` in a batch that was passed to the backend, with the timings
of `t`. -/
def Served (s : State α) (t : Task α) (v : InferenceResponse) : Prop :=
  ∃ call ∈ s.batchCalls, ∃ (j : Nat) (r : InferenceResponse) (wait : Nat),
    call.tasks[j]? = some t ∧ call.resps[j]? = some r ∧ QueueWait s t wait ∧
      v = instrument r t.routingNs wait call.executionNs

def Answers (s : State α) (p : Nat) (v : InferenceResponse) : Prop :=
  ∃ t, s.issued[p]? = some t ∧ t.promise = p ∧ (FixedError t v ∨ Served s t v)

/-- `batch` and `queue_waits` have the same length and belong together index by index. -/
def Aligned (s : State α) (batch : List (Task α)) (waits : List Nat) : Prop :=
  List.Forall₂ (fun t n => Known s t ∧ QueueWait s t n) batch waits

def CallerPc.task : CallerPc α → Option (Task α)
  | .checkReady t | .checkStopped t _ | .pushing t _ | .checkDeadline t _ | .notify t => some t
  | _ => none

/-- What a worker knows about its local variables. -/
def WorkerKnows (s : State α) : WorkerPc α → Prop
  | .innerHead batch waits _ | .popping batch waits _ | .fetchSub batch waits _
  | .checkBackend batch waits | .inferring batch waits => Aligned s batch waits
  | .answering batch waits resps executionNs _ =>
    Aligned s batch waits ∧ ⟨batch, resps, executionNs⟩ ∈ s.batchCalls ∧
      resps.length = batch.length
  | .unavailable batch _ => ∀ t ∈ batch, Known s t
  | _ => True

structure Provenance (s : State α) : Prop where
  callers : ∀ i t, (s.callers i).task = some t → Known s t
  pushed : ∀ c ∈ s.queue.pushed, Known s c.item
  workers : ∀ w, WorkerKnows s (s.workers w)
  values : ∀ p, ∀ v ∈ s.promises p, Answers s p v
  returned : ∀ p ∈ s.returned, p < s.issued.length

/-- The records of a run only get longer. -/
structure Grows (s u : State α) : Prop where
  issued : s.issued <+: u.issued
  taken : s.taken ⊆ u.taken
  batchCalls : s.batchCalls ⊆ u.batchCalls

theorem Known.mono (hg : Grows s u) {t : Task α} (h : Known s t) : Known u t := by
  obtain ⟨r, hr⟩ := hg.issued
  unfold Known at h ⊢
  rw [← hr, List.getElem?_append_left (List.getElem?_eq_some_iff.mp h).1, h]

theorem QueueWait.mono (hg : Grows s u) {t : Task α} {n : Nat} (h : QueueWait s t n) :
    QueueWait u t n := by
  obtain ⟨e, he, hp⟩ := h
  exact ⟨e, hg.taken he, hp⟩

theorem Aligned.mono (hg : Grows s u) {batch : List (Task α)} {waits : List Nat}
    (h : Aligned s batch waits) : Aligned u batch waits :=
  h.imp fun _ _ hk => ⟨hk.1.mono hg, hk.2.mono hg⟩

theorem Aligned.known {batch : List (Task α)} {waits : List Nat} (h : Aligned s batch waits)
    {t : Task α} (ht : t ∈ batch) : Known s t := by
  obtain ⟨i, hi, rfl⟩ := List.getElem_of_mem ht
  exact (h.get hi (h.length_eq ▸ hi)).1

theorem Aligned.at_index {batch : List (Task α)} {waits : List Nat} (h : Aligned s batch waits)
    {i n : Nat} {t : Task α} (ht : batch[i]? = some t) (hn : waits[i]? = some n) :
    Known s t ∧ QueueWait s t n := by
  obtain ⟨hi, rfl⟩ := List.getElem?_eq_some_iff.mp ht
  obtain ⟨hj, rfl⟩ := List.getElem?_eq_some_iff.mp hn
  exact h.get hi hj

theorem WorkerKnows.mono (hg : Grows s u) {pc : WorkerPc α} (h : WorkerKnows s pc) :
    WorkerKnows u pc := by
  cases pc with
  | innerHead | popping | fetchSub | checkBackend | inferring => exact Aligned.mono hg h
  | answering => exact ⟨h.1.mono hg, hg.batchCalls h.2.1, h.2.2⟩
  | unavailable => exact fun t ht => (h t ht).mono hg
  | _ => trivial

theorem Answers.mono (hg : Grows s u) {p : Nat} {v : InferenceResponse} (h : Answers s p v) :
    Answers u p v := by
  obtain ⟨t, ht, rfl, hv⟩ := h
  refine ⟨t, Known.mono hg ht, rfl, hv.imp_right ?_⟩
  rintro ⟨call, hc, j, r, wait, hj, hr, hw, he⟩
  exact ⟨call, hg.batchCalls hc, j, r, wait, hj, hr, hw.mono hg, he⟩

theorem Grows.of_eq (hi : u.issued = s.issued) (ht : u.taken = s.taken)
    (hb : u.batchCalls = s.batchCalls) : Grows s u :=
  ⟨by rw [hi], by rw [ht]; exact List.Subset.refl _, by rw [hb]; exact List.Subset.refl _⟩

theorem Known.lt {t : Task α} (h : Known s t) : t.promise < s.issued.length :=
  (List.getElem?_eq_some_iff.mp h).1

theorem mem_setValue {p q : Nat} {v x : InferenceResponse} (h : x ∈ setValue s q v p) :
    x ∈ s.promises p ∨ p = q ∧ x = v := by
  unfold setValue at h
  rcases eq_or_ne p q with rfl | hne
  · simpa using h
  · rw [Function.update_of_ne hne] at h
    exact .inl h

theorem workerKnows_woken (hw : Woken s.workers u.workers) (w : Nat) :
    u.workers w = s.workers w ∨ WorkerKnows u (u.workers w) := by
  rcases hw w with he | ⟨-, he⟩
  · exact .inl he
  · rw [he]
    exact .inr trivial

theorem mem_returned {t : Task α} (h : Known s t) (p : Nat) (hm : p ∈ s.returned ++ [t.promise]) :
    p ∈ s.returned ∨ p < s.issued.length := by
  rcases List.mem_append.mp hm with hm | hm
  · exact .inl hm
  · exact .inr (List.mem_singleton.mp hm ▸ h.lt)

namespace Provenance

/-- It is enough to look at what a step changed. -/
theorem changed (h : Provenance s) (hg : Grows s u)
    (hc : ∀ i, u.callers i = s.callers i ∨ ∀ t, (u.callers i).task = some t → Known u t)
    (hq : ∀ c ∈ u.queue.pushed, c ∈ s.queue.pushed ∨ Known u c.item)
    (hw : ∀ w, u.workers w = s.workers w ∨ WorkerKnows u (u.workers w))
    (hv : ∀ p, ∀ v ∈ u.promises p, v ∈ s.promises p ∨ Answers u p v)
    (hr : ∀ p ∈ u.returned, p ∈ s.returned ∨ p < u.issued.length) : Provenance u where
  callers := fun i t ht => by
    rcases hc i with he | hk
    · exact (h.callers i t (he ▸ ht)).mono hg
    · exact hk t ht
  pushed := fun c hm => by
    rcases hq c hm with hm | hk
    · exact (h.pushed c hm).mono hg
    · exact hk
  workers := fun w => by
    rcases hw w with he | hk
    · rw [he]
      exact (h.workers w).mono hg
    · exact hk
  values := fun p v hm => by
    rcases hv p v hm with hm | ha
    · exact (h.values p v hm).mono hg
    · exact ha
  returned := fun p hm => by
    rcases hr p hm with hm | hlt
    · exact (h.returned p hm).trans_le hg.issued.length_le
    · exact hlt

/-- A thread outside goes on with a task it had. -/
theorem caller (h : Provenance s) {i : Nat} {pc : CallerPc α}
    (hc : u.callers = Function.update s.callers i pc)
    (hk : ∀ t, pc.task = some t → Known s t) (hq : u.queue.pushed = s.queue.pushed)
    (hw : ∀ w, u.workers w = s.workers w ∨ WorkerKnows u (u.workers w))
    (hi : u.issued = s.issued) (ht : u.taken = s.taken) (hb : u.batchCalls = s.batchCalls)
    (hp : ∀ p, ∀ v ∈ u.promises p, v ∈ s.promises p ∨ Answers s p v)
    (hr : ∀ p ∈ u.returned, p ∈ s.returned ∨ p < s.issued.length) : Provenance u := by
  have hg : Grows s u := .of_eq hi ht hb
  refine h.changed hg (fun j => ?_) (fun c hm => .inl (hq ▸ hm)) hw
    (fun p v hv => (hp p v hv).imp_right (.mono hg)) (fun p hm => by rw [hi]; exact hr p hm)
  rcases eq_or_ne j i with rfl | hj
  · refine .inr fun t he => (hk t ?_).mono hg
    rwa [hc, Function.update_self] at he
  · exact .inl (by rw [hc, Function.update_of_ne hj])

theorem worker (h : Provenance s) {w : Nat} {pc : WorkerPc α} (hg : Grows s u)
    (hc : u.callers = s.callers) (hq : u.queue.pushed = s.queue.pushed)
    (hw : u.workers = Function.update s.workers w pc) (hk : Grows s u → WorkerKnows u pc)
    (hp : ∀ p, ∀ v ∈ u.promises p, v ∈ s.promises p ∨ Answers u p v)
    (hr : u.returned = s.returned) : Provenance u := by
  refine h.changed hg (fun j => .inl (by rw [hc])) (fun c hm => .inl (hq ▸ hm)) (fun v => ?_) hp
    (fun p hm => .inl (hr ▸ hm))
  rcases eq_or_ne v w with rfl | hv
  · rw [hw, Function.update_self]
    exact .inr (hk hg)
  · exact .inl (by rw [hw, Function.update_of_ne hv])

theorem reply (h : Provenance s) {i : Nat} {t : Task α} {text : String}
    (ht : (s.callers i).task = some t) (hv : FixedError t { error := text }) :
    Provenance (reply s i t text) := by
  have hk := h.callers i t ht
  refine h.caller rfl (fun _ he => by cases he) rfl (fun _ => .inl rfl) rfl rfl rfl ?_ ?_
  · intro p v hm
    rcases mem_setValue hm with hm | ⟨rfl, rfl⟩
    · exact .inl hm
    · exact .inr ⟨t, hk, rfl, .inl hv⟩
  · exact mem_returned hk

theorem callerMoves (h : Provenance s) (hco : Coherent s) {i : Nat} (hm : CallerMoves cfg s i u) :
    Provenance u := by
  have hi := h.callers i
  cases hm with
  | ready hc | retry hc =>
    rw [hc] at hi
    exact h.caller rfl hi rfl (fun _ => .inl rfl) rfl rfl rfl (fun _ _ => .inl) (fun _ => .inl)
  | notReady hc => exact h.reply (by rw [hc]; rfl) (.inl rfl)
  | executorStopped hc => exact h.reply (by rw [hc]; rfl) (.inr (.inl rfl))
  | timeout hc => exact h.reply (by rw [hc]; rfl) (.inr (.inr (.inl rfl)))
  | started hc _ | startRefused hc | spawnedAll hc _ | stopRefused hc _ | stopping hc _
  | stopLocked hc _ | stopUnlocked hc | joined hc _ _ | stopDone hc _ =>
    exact h.caller rfl (fun _ he => by cases he) rfl (fun _ => .inl rfl) rfl rfl rfl
      (fun _ _ => .inl) (fun _ => .inl)
  | notifyOne hc _ ha =>
    rw [hc] at hi
    exact h.caller rfl (fun _ he => by cases he) rfl (workerKnows_woken (woken_wakeOne ha)) rfl rfl
      rfl (fun _ _ => .inl) (mem_returned (hi _ rfl))
  | notifyNone hc _ =>
    rw [hc] at hi
    exact h.caller rfl (fun _ he => by cases he) rfl (fun _ => .inl rfl) rfl rfl rfl
      (fun _ _ => .inl) (mem_returned (hi _ rfl))
  | notifyAll hc =>
    exact h.caller rfl (fun _ he => by cases he) rfl (workerKnows_woken (woken_wakeAll s)) rfl rfl
      rfl (fun _ _ => .inl) (fun _ => .inl)
  | spawn hc _ =>
    refine h.caller rfl (fun _ he => by cases he) rfl (fun w => ?_) rfl rfl rfl (fun _ _ => .inl)
      (fun _ => .inl)
    rcases eq_or_ne w s.spawned with rfl | hw
    · exact .inr (by simp [WorkerKnows])
    · exact .inl (Function.update_of_ne hw ..)
  | beginPush hc _ hq =>
    obtain rfl := queueStep_callPush hq
    rw [hc] at hi
    exact h.caller rfl hi rfl (fun _ => .inl rfl) rfl rfl rfl (fun _ _ => .inl) (fun _ => .inl)
  | pushed hc hl hq =>
    obtain rfl := queueStep_ret hq
    rw [hc] at hi
    exact h.caller rfl hi rfl (fun _ => .inl rfl) rfl rfl rfl (fun _ _ => .inl) (fun _ => .inl)
  | @refused t _ item _ hc hl hq =>
    obtain rfl := queueStep_ret hq
    have hf := hco.callers i
    rw [hc] at hi hf
    obtain rfl : item = t := by simpa [CallerFits, State.phase, hl, MpmcQueue.Local.phase] using hf
    exact h.caller rfl hi rfl (fun _ => .inl rfl) rfl rfl rfl (fun _ _ => .inl) (fun _ => .inl)
  | @pushStep t _ _ q hc hq =>
    have hf := hco.callers i
    rw [hc] at hi hf
    refine h.changed (.of_eq rfl rfl rfl) (fun _ => .inl rfl) (fun c hm => ?_) (fun _ => .inl rfl)
      (fun _ _ => .inl) (fun _ => .inl)
    cases (queueStep_advance hq).effect with
    | quiet _ hp _ | claimedPop _ _ hp _ => exact .inl (hp ▸ hm)
    | @claimedPush item h0 _ hp _ =>
      obtain rfl : item = t := by simpa [CallerFits, State.phase, h0] using hf
      rcases List.mem_append.mp (hp ▸ hm) with hm | hm
      · exact .inl hm
      · rw [List.mem_singleton.mp hm]
        exact .inr (hi _ rfl)

theorem workerKnows_leaveInner {batch : List (Task α)} {waits : List Nat}
    (h : Aligned s batch waits) : WorkerKnows s (leaveInner batch waits) := by
  unfold leaveInner
  split_ifs
  · trivial
  · exact h

theorem workerMoves (h : Provenance s) (hco : Coherent s) {w : Nat} (hm : WorkerMoves cfg s w u) :
    Provenance u := by
  have hi := h.workers w
  have hsame : Grows s s := .of_eq rfl rfl rfl
  cases hm with
  | exit hw _ | sizePositive hw | sizeZero hw _ | sawStopped hw | predicateFalse hw | sleep hw
  | unlocked hw | answered hw _ | refusedAll hw _ | locked hw _ =>
    exact h.worker (.of_eq rfl rfl rfl) rfl rfl rfl (fun _ => trivial) (fun _ _ => .inl) rfl
  | enter hw => exact h.worker (.of_eq rfl rfl rfl) rfl rfl rfl (fun _ => .nil) (fun _ _ => .inl) rfl
  | fetchSub hw | available hw =>
    rw [hw] at hi
    exact h.worker (.of_eq rfl rfl rfl) rfl rfl rfl (fun _ => hi) (fun _ _ => .inl) rfl
  | leave hw =>
    rw [hw] at hi
    exact h.worker (.of_eq rfl rfl rfl) rfl rfl rfl (fun _ => workerKnows_leaveInner hi)
      (fun _ _ => .inl) rfl
  | gone hw =>
    rw [hw] at hi
    exact h.worker (.of_eq rfl rfl rfl) rfl rfl rfl (fun _ _ ht => hi.known ht) (fun _ _ => .inl)
      rfl
  | beginPop hw hq =>
    obtain rfl := queueStep_callPop hq
    rw [hw] at hi
    exact h.worker (.of_eq rfl rfl rfl) rfl rfl rfl (fun _ => hi) (fun _ _ => .inl) rfl
  | popFailed hw hl hq hpc =>
    obtain rfl := queueStep_ret hq
    rw [hw] at hi
    refine h.worker (.of_eq rfl rfl rfl) rfl rfl rfl (fun _ => ?_) (fun _ _ => .inl) rfl
    rcases hpc with rfl | rfl
    · exact workerKnows_leaveInner hi
    · exact hi
  | popStep hw hq =>
    have hf := hco.workers w
    rw [hw] at hf
    refine h.changed (.of_eq rfl rfl rfl) (fun _ => .inl rfl) (fun c hm => ?_) (fun _ => .inl rfl)
      (fun _ _ => .inl) (fun _ => .inl)
    cases (queueStep_advance hq).effect with
    | quiet _ hp _ | claimedPop _ _ hp _ => exact .inl (hp ▸ hm)
    | claimedPush h0 _ _ _ => simp [WorkerFits, State.phase, h0] at hf
  | @popped batch waits _ _ t _ hw hl hq =>
    obtain rfl := queueStep_ret hq
    rw [hw] at hi
    obtain ⟨c, hc, he⟩ := hco.ring.popSucceeded_item hl
    obtain rfl : t = c.item := by simpa using he
    have hk := h.pushed c (List.mem_of_getElem? hc)
    refine h.worker ⟨List.prefix_rfl, List.subset_append_left .., List.Subset.refl _⟩ rfl rfl rfl
      (fun hg => List.rel_append (Aligned.mono hg hi) ?_) (fun _ _ => .inl) rfl
    refine .cons ⟨hk, ?_⟩ .nil
    exact ⟨⟨w, c.item.promise, s.clock⟩, by simp, rfl, rfl⟩
  | @answer batch waits resps executionNs i t wait r hw ht hwt hr =>
    rw [hw] at hi
    have hcall := hi.2.1
    obtain ⟨hk, hwait⟩ := hi.1.at_index ht hwt
    refine h.worker (.of_eq rfl rfl rfl) rfl rfl rfl (fun _ => hi) (fun p v hm => ?_) rfl
    rcases mem_setValue hm with hm | ⟨rfl, rfl⟩
    · exact .inl hm
    · exact .inr ⟨t, hk, rfl, .inr ⟨_, hcall, i, r, wait, ht, hr, hwait, rfl⟩⟩
  | @refuse batch i t hw ht =>
    rw [hw] at hi
    refine h.worker (.of_eq rfl rfl rfl) rfl rfl rfl (fun _ => hi) (fun p v hm => ?_) rfl
    rcases mem_setValue hm with hm | ⟨rfl, rfl⟩
    · exact .inl hm
    · exact .inr ⟨t, hi t (List.mem_of_getElem? ht), rfl, .inl (.inr (.inr (.inr rfl)))⟩

theorem moves (h : Provenance s) (hco : Coherent s) {a : Action α} (hm : Moves cfg s a u) :
    Provenance u := by
  cases hm with
  | @inferAsync i _ _ hc =>
    refine h.changed ⟨List.prefix_append .., List.Subset.refl _, List.Subset.refl _⟩ (fun j => ?_)
      (fun _ => .inl) (fun _ => .inl rfl) (fun _ _ => .inl) (fun _ => .inl)
    rcases eq_or_ne j i with rfl | hj
    · refine .inr fun t ht => ?_
      obtain rfl : _ = t := by simpa [CallerPc.task] using ht
      simp [Known]
    · exact .inl (Function.update_of_ne hj ..)
  | callStart hc | callStop hc =>
    exact h.caller rfl (fun _ he => by cases he) rfl (fun _ => .inl rfl) rfl rfl rfl
      (fun _ _ => .inl) (fun _ => .inl)
  | caller hm => exact h.callerMoves hco hm
  | worker hm => exact h.workerMoves hco hm
  | @inferBatch w _ _ _ _ hw hr =>
    have hi := h.workers w
    rw [hw] at hi
    exact h.worker ⟨List.prefix_rfl, List.Subset.refl _, List.subset_append_left ..⟩ rfl rfl rfl
      (fun hg => ⟨Aligned.mono hg hi, by simp, hr⟩) (fun _ _ => .inl) rfl
  | spuriousWake ha =>
    exact h.changed (.of_eq rfl rfl rfl) (fun _ => .inl rfl) (fun _ => .inl)
      (workerKnows_woken (woken_wakeOne ha)) (fun _ _ => .inl) (fun _ => .inl)
  | tick _ | setReady _ =>
    exact h.changed (.of_eq rfl rfl rfl) (fun _ => .inl rfl) (fun _ => .inl) (fun _ => .inl rfl)
      (fun _ _ => .inl) (fun _ => .inl)

theorem of_reachable (h : (system cfg).Reachable s) : Provenance s := by
  refine (h.invariant (P := fun s => Coherent s ∧ Provenance s) ?_ fun s a u hp ht => ?_).2
  · rintro _ ⟨ready, rfl⟩
    exact ⟨coherent_initial ready, by simp [initial, CallerPc.task],
      by simp [initial, MpmcQueue.initial], fun _ => trivial, by simp [initial], by simp [initial]⟩
  · have hm := moves_of_step ht
    exact ⟨hp.1.moves hm, hp.2.moves hp.1 hm⟩

end Provenance

/-- The three arrays of a batch are never read out of bounds. -/
theorem workerStep_answering (hr : (system cfg).Reachable s) {w e i : Nat} {b : Bool}
    {batch : List (Task α)} {waits : List Nat} {resps : List InferenceResponse}
    (hw : s.workers w = .answering batch waits resps e i) :
    (workerStep cfg s w b).isSome := by
  have hi := (Provenance.of_reachable hr).workers w
  rw [hw] at hi
  have h1 := hi.1.length_eq
  have h2 := hi.2.2
  simp only [workerStep, hw]
  split
  · rfl
  · rename_i hn
    have hi : batch.length ≤ i := by
      by_contra hlt
      exact hn batch[i] waits[i] resps[i] (List.getElem?_eq_getElem _) (List.getElem?_eq_getElem _)
        (List.getElem?_eq_getElem _)
    rw [if_pos hi]
    rfl

/-- Every promise is set at most once; a worker that has exited has set the promise of every
ticket it popped; and a value is the backend's response to that request or a fixed error. No
task is popped twice, so its queue wait is unique. -/
theorem promises_kept (cfg : Config) (s : State α) (hr : (system cfg).Reachable s) :
    (∀ p, (s.promises p).length ≤ 1) ∧
      (∀ w, s.workers w = .exited → ∀ claim ∈ s.queue.popped, claim.thread = .worker w →
        ∃ c, s.queue.pushed[claim.ticket]? = some c ∧ s.promises c.item.promise ≠ []) ∧
      (∀ p, ∀ v ∈ s.promises p, Answers s p v) ∧ (s.taken.map Taken.promise).Nodup := by
  have hs := sound_of_reachable hr
  have hco := Coherent.of_reachable hr
  refine ⟨hs.once, fun w hw claim hm hc => ?_, (Provenance.of_reachable hr).values,
    hs.collected_nodup⟩
  obtain ⟨k, hk⟩ := List.getElem?_of_mem hm
  obtain rfl : claim.ticket = k := hco.ring.popped_ticket k claim hk
  obtain ⟨c, hp⟩ : ∃ c, s.queue.pushed[claim.ticket]? = some c := by
    have h1 := hco.ring.popped_lt hk
    have h2 := hco.ring.dequeue_le_enqueue
    exact ⟨_, List.getElem?_eq_getElem (by rw [hco.ring.pushed_length]; omega)⟩
  refine ⟨c, hp, ?_⟩
  rcases hs.duty claim.ticket w c.item.promise (by simp [State.ledger, hk, hc])
    (by simp [State.ledger, hp]) with hf | ⟨j, hb⟩ | hv
  · have hidle := hco.worker_idle (w := w) (by simp [hw])
    simp [State.ledger, hidle, ticketOf] at hf
  · simp [State.ledger, hw, WorkerPc.unanswered] at hb
  · exact List.ne_nil_of_length_pos (Nat.pos_of_ne_zero hv)

/-- One worker that takes one request at a time. -/
def oneWorker : Config := ⟨1, 1, 0⟩

def emptyRequest : InferenceRequest Nat := ⟨"m", [], ⟨fun _ => 0, 0⟩, []⟩

/-- Thread 0 starts the executor, thread 1 asks for an inference and returns. -/
def startAndAsk : List (Action Nat) :=
  List.flatten [[.callStart 0], List.replicate 3 (.caller 0 false none), [.inferAsync 1 emptyRequest 7],
    List.replicate 9 (.caller 1 false none)]

/-- The worker serves the request, thread 0 stops the executor. -/
def serveAndStop : List (Action Nat) :=
  List.flatten [startAndAsk, List.replicate 12 (.worker 0 false), [.inferBatch 0 [{ ok := true }] 3],
    List.replicate 2 (.worker 0 false), [.callStop 0, .caller 0 false none, .worker 0 false],
    List.replicate 5 (.caller 0 false none)]

theorem promises_kept_serveAndStop :
    ∃ s, (system oneWorker).run (initial true) serveAndStop = some s ∧
      s.workers 0 = .exited ∧ s.queue.popped = [⟨0, .worker 0⟩] ∧
      s.promises 0 = [{ ok := true, routingNs := 7, executionNs := 3 }] ∧
      ∀ v ∈ s.promises 0, Answers s 0 v := by
  have hrun : ((system oneWorker).run (initial true) serveAndStop).map (fun s =>
      ((s.workers 0).isExited, s.queue.popped, s.promises 0)) =
      some (true, [⟨0, .worker 0⟩], [{ ok := true, routingNs := 7, executionNs := 3 }]) := by
    decide +kernel
  obtain ⟨s, hs, he⟩ := Option.map_eq_some_iff.mp hrun
  simp only [Prod.mk.injEq, WorkerPc.isExited_iff] at he
  have hr : (system oneWorker).Reachable s := System.Reachable.run (.init ⟨true, rfl⟩) hs
  exact ⟨s, hs, he.1, he.2.1, he.2.2, (promises_kept oneWorker s hr).2.2.1 0⟩

end Jellybean.Model.ModelExecutor
