import Jellybean.Concurrency.MpmcQueueFifo
import Jellybean.Model.ModelConfig
import Jellybean.Model.ModelExecutorPromises

namespace Jellybean.Concurrency.MpmcQueue

variable {ι α : Type*} [DecidableEq ι] {c : Capacity} {s u v : State ι α} {i : ι} {d n : Nat}

/-- Where the operation of a thread stands that has popped `n` items since the queue had popped
`d`, while nobody else took a step. -/
def Draining (u : State ι α) (d n : Nat) : Local α → Prop
  | .popLoadPos => u.popped.length = d + n
  | .popLoadSeq pos | .popCas pos => u.popped.length = d + n ∧ pos = u.dequeuePos
  | .popMove pos | .popDestroy pos _ | .popRelease pos _ | .popSucceeded pos _ =>
    pos = d + n ∧ u.popped.length = d + n + 1
  | .popFailed => u.popped.length = d + n ∧ u.enqueuePos = u.dequeuePos
  | _ => False

omit [DecidableEq ι] in
theorem RingInv.sequence_dequeue_le (h : RingInv c s) :
    s.sequence (c.slot s.dequeuePos) ≤ s.dequeuePos + 1 := by
  obtain ⟨t, ht, he, hd, hf⟩ := h.slots _ (c.slot_lt s.dequeuePos)
  have hseq : s.sequence (c.slot s.dequeuePos) ≤ t + 1 := by
    rcases hf with hf | hf
    · exact hf.1.trans_le (Nat.le_succ t)
    · exact hf.1.le
  rcases Nat.lt_or_ge s.dequeuePos (t + c.val) with hlt | hge
  · have heq := c.eq_of_slot ht hd hlt
    omega
  · omega

/-- Every push of a ticket before `n` has published its slot. -/
def PublishedBelow (s : State ι α) (n : Nat) : Prop := ∀ i k, (s.threads i).Pushing k → n ≤ k

omit [DecidableEq ι] in
theorem publishedBelow_of (h : ¬Unpublished s) (n : Nat) : PublishedBelow s n := by
  intro i k hk
  exact absurd ⟨i, k, hk⟩ h

omit [DecidableEq ι] in
/-- Where the head of the queue is not ready, there is none or its push is left unpublished. -/
theorem RingInv.behind_head (h : RingInv c s)
    (hq : s.sequence (c.slot s.dequeuePos) < s.dequeuePos + 1) :
    s.enqueuePos = s.dequeuePos ∨ ∃ i, (s.threads i).Pushing s.dequeuePos := by
  have hde := h.dequeue_le_enqueue
  obtain ⟨t, ht, he, hd, hf⟩ := h.slots _ (c.slot_lt s.dequeuePos)
  rcases hf with hf | hf
  · obtain ⟨h1, _, _, h4⟩ := hf
    rcases Nat.lt_or_ge s.dequeuePos s.enqueuePos with hlt | hge
    · have heq : t = s.dequeuePos := c.eq_of_slot ht hd (by omega)
      right
      rw [← heq]
      exact h4 (by omega)
    · left
      omega
  · obtain ⟨h1, _⟩ := hf
    have hgap := c.slot_gap ht (by omega)
    left
    omega

/-- A pop fails only on an empty queue when the push of the next ticket has published its slot. -/
theorem Draining.moves (h : RingInv c u) (hp : PublishedBelow u (d + n + 1))
    (hd : Draining u d n (u.threads i)) (hm : Moves c u i v) :
    Draining v d n (v.threads i) ∧ v.pushed = u.pushed := by
  have hlen := h.popped_length
  cases hm with
  | loadEnqueuePos hl | pushReady hl _ | pushFull hl _ | pushLate hl _ | claimPush hl _
  | retryPush hl | construct hl | publish hl =>
    rw [hl] at hd
    exact hd.elim
  | loadDequeuePos hl =>
    rw [hl] at hd
    simp only [State.set_threads, Function.update_self]
    exact ⟨⟨hd, rfl⟩, rfl⟩
  | popReady hl _ =>
    rw [hl] at hd
    simp only [State.set_threads, Function.update_self]
    exact ⟨hd, rfl⟩
  | popEmpty hl hq =>
    rw [hl] at hd
    simp only [State.set_threads, Function.update_self]
    obtain ⟨hn, hpos⟩ := hd
    subst hpos
    refine ⟨⟨hn, ?_⟩, rfl⟩
    rcases h.behind_head hq with hempty | hlate
    · exact hempty
    · obtain ⟨x, hx⟩ := hlate
      have hle := hp x _ hx
      omega
  | popLate hl _ =>
    rw [hl] at hd
    simp only [State.set_threads, Function.update_self]
    exact ⟨hd.1, rfl⟩
  | claimPop hl hq =>
    rw [hl] at hd
    simp only [Function.update_self]
    refine ⟨⟨?_, ?_⟩, trivial⟩
    · rw [hd.2, ← hlen, hd.1]
    · rw [List.length_append, List.length_singleton, hd.1]
  | retryPop hl =>
    rw [hl] at hd
    simp only [State.set_threads, Function.update_self]
    exact ⟨⟨hd.1, rfl⟩, rfl⟩
  | move hl =>
    rw [hl] at hd
    simp only [State.set_threads, Function.update_self]
    exact ⟨hd, rfl⟩
  | destroy hl | release hl =>
    rw [hl] at hd
    simp only [Function.update_self]
    exact ⟨hd, trivial⟩

/-- The steps that a pop running alone has left. -/
def Local.popRank : Local α → Nat
  | .popLoadPos => 8
  | .popLoadSeq _ => 7
  | .popCas _ => 6
  | .popMove _ => 5
  | .popDestroy _ _ => 4
  | .popRelease _ _ => 3
  | _ => 2

theorem Draining.progress (h : RingInv c u) (hd : Draining u d n (u.threads i))
    (hout : (u.threads i).outcome = none) :
    ∃ v, advance .ideal c u i false = some v ∧
      (v.threads i).popRank < (u.threads i).popRank := by
  have hle := h.sequence_dequeue_le
  cases hl : u.threads i <;> rw [hl] at hd hout
  case popLoadSeq pos =>
    obtain ⟨_, hpos⟩ := hd
    subst hpos
    rcases hle.lt_or_eq with hlt | heq
    · have hdiff : SizeT.ideal.diff (u.sequence (c.slot u.dequeuePos))
          (SizeT.ideal.wrap (u.dequeuePos + 1)) < 0 := by
        simp only [SizeT.ideal, id]
        omega
      have hempty : advance .ideal c u i false = some (u.set i .popFailed) := by
        unfold advance
        rw [hl]
        exact (if_neg hdiff.ne).trans (if_pos hdiff)
      exact ⟨_, hempty, by simp [Local.popRank]⟩
    · have hdiff : SizeT.ideal.diff (u.sequence (c.slot u.dequeuePos))
          (SizeT.ideal.wrap (u.dequeuePos + 1)) = 0 := by
        simp only [SizeT.ideal, id]
        omega
      have hready : advance .ideal c u i false = some (u.set i (.popCas u.dequeuePos)) := by
        unfold advance
        rw [hl]
        exact if_pos hdiff
      exact ⟨_, hready, by simp [Local.popRank]⟩
  case popCas pos =>
    obtain ⟨_, hpos⟩ := hd
    unfold advance
    rw [hl]
    simp only [hpos, and_self, if_true]
    exact ⟨_, rfl, by simp [Local.popRank]⟩
  case popLoadPos | popMove | popDestroy | popRelease =>
    unfold advance
    rw [hl]
    exact ⟨_, rfl, by simp [Local.popRank]⟩
  case popSucceeded | popFailed => cases hout
  all_goals exact hd.elim

theorem Local.phase_of_pushing {l : Local α} {k : Nat} (h : l.Pushing k) : l.phase = .offered := by
  cases l <;> simp_all [Local.Pushing, Local.phase]

omit [DecidableEq ι] in
theorem contents_drop (hp : u.pushed = s.pushed) (hl : u.popped.length = s.popped.length + n) :
    contents u = (contents s).drop n := by
  unfold contents
  rw [hp, hl, ← List.map_drop, List.drop_drop]

end Jellybean.Concurrency.MpmcQueue

namespace Jellybean.Model.ModelExecutor

open Concurrency Inference MpmcQueue

variable {α : Type*} {cfg : Config} {alloc : Nat → Bool} {taskSize : Nat} {s u v : State α}
  {w : Nat}

/-- Whether `vector::reserve(n)` returns: at most `max_size()` elements, and `operator new`
finds the memory. -/
def reserves (alloc : Nat → Bool) (elemSize n : Nat) : Bool :=
  n ≤ (2^63 - 1) / elemSize && (n = 0 || alloc (n * elemSize))

/-- The two calls of `reserve` at the head of `worker_loop`, on tasks and on `uint64_t`. -/
def reservesBatch (alloc : Nat → Bool) (taskSize : Nat) (cfg : Config) : Bool :=
  reserves alloc taskSize cfg.maxBatchSize && reserves alloc 8 cfg.maxBatchSize

/-- The process of the executor. An exception that leaves a worker thread ends it. -/
inductive Process (α : Type*) where
  | running (s : State α)
  | terminated

def WorkerPc.isLoopHead : WorkerPc α → Bool
  | .loopHead => true
  | _ => false

/-- A call of `reserve` that throws; nothing in `worker_loop` catches it. -/
def throws (alloc : Nat → Bool) (taskSize : Nat) (cfg : Config) (s : State α) : Action α → Bool
  | .worker w _ =>
    (s.workers w).isLoopHead && !s.stopped && !reservesBatch alloc taskSize cfg
  | _ => false

def process (alloc : Nat → Bool) (taskSize : Nat) (cfg : Config) :
    System (Process α) (Action α) where
  init p := ∃ ready, p = .running (initial ready)
  step
    | .terminated, _ => none
    | .running s, a =>
      if throws alloc taskSize cfg s a then some .terminated
      else (step cfg s a).map .running

/-- A step of worker `w`, an answer of the backend to it, or time that passes. -/
def Solo (w : Nat) : Action α → Prop
  | .worker v _ | .inferBatch v _ _ => v = w
  | .tick _ => True
  | _ => False

/-- Before the wait on `cv_`, back at the loop head, or out of the loop. -/
def WorkerPc.AtEnd : WorkerPc α → Prop
  | .loopHead | .lock | .exited => True
  | _ => False

/-- What worker `w` goes through alone, from the loop head at `s` to where it next waits or comes
back. -/
inductive Round (alloc : Nat → Bool) (taskSize : Nat) (cfg : Config) (w : Nat) (s : State α) :
    Process α → Prop
  | enter {b : Bool} {x : Process α} :
      (process alloc taskSize cfg).step (.running s) (.worker w b) = some x →
      Round alloc taskSize cfg w s x
  | next {u : State α} {a : Action α} {x : Process α} :
      Round alloc taskSize cfg w s (.running u) → ¬(u.workers w).AtEnd → Solo w a →
      (process alloc taskSize cfg).step (.running u) a = some x → Round alloc taskSize cfg w s x

/-- The first tasks of the queue, as many as a batch holds, were taken and given to the backend
or, where it is unavailable, answered. -/
structure BatchServed (cfg : Config) (s u : State α) : Prop where
  nonempty : (contents s.queue).take cfg.maxBatchSize ≠ []
  removed : contents u.queue = (contents s.queue).drop cfg.maxBatchSize
  dispatched : s.ready = true → ∃ resps executionNs, u.batchCalls =
    s.batchCalls ++ [⟨(contents s.queue).take cfg.maxBatchSize, resps, executionNs⟩]
  unavailable : s.ready = false → u.batchCalls = s.batchCalls
  answered : ∀ t ∈ (contents s.queue).take cfg.maxBatchSize,
    (s.promises t.promise).length < (u.promises t.promise).length
  others : ∀ p ∉ ((contents s.queue).take cfg.maxBatchSize).map Task.promise,
    u.promises p = s.promises p

/-- A round never ends the process, from everywhere in it the worker can go on to its end, and
there the worker has served a batch and is back at the loop head. -/
def BatchesRight (alloc : Nat → Bool) (taskSize : Nat) (cfg : Config) (w : Nat) (s : State α) :
    Prop :=
  ∀ x, Round alloc taskSize cfg w s x →
    (process alloc taskSize cfg).CanReach (Solo w)
      (fun y => ∃ v, y = .running v ∧ (v.workers w).AtEnd) x ∧
    ∃ u, x = .running u ∧
      ((u.workers w).AtEnd → u.workers w = .loopHead ∧ BatchServed cfg s u)

/-- What a round leaves alone. -/
structure Kept (w : Nat) (s u : State α) : Prop where
  coherent : Coherent u
  pushed : u.queue.pushed = s.queue.pushed
  others : ∀ x, x ≠ .worker w → u.queue.threads x = s.queue.threads x
  ready : u.ready = s.ready
  running : u.stopped = false

theorem worker_frame (hm : WorkerMoves cfg u w v) :
    (∀ x, x ≠ .worker w → v.queue.threads x = u.queue.threads x) ∧ v.ready = u.ready ∧
      v.stopped = u.stopped := by
  refine ⟨?_, ?_, ?_⟩
  · intro x hx
    cases hm with
    | beginPop _ hq =>
      rw [queueStep_callPop hq]
      exact set_frame u x hx
    | popped _ _ hq | popFailed _ _ hq _ =>
      rw [queueStep_ret hq]
      exact set_frame u x hx
    | popStep _ hq => exact (queueStep_advance hq).frame hx
    | _ => rfl
  · cases hm <;> rfl
  · cases hm <;> rfl

theorem worker_pushed (hc : Coherent u) (hm : WorkerMoves cfg u w v) :
    v.queue.pushed = u.queue.pushed := by
  cases hm with
  | beginPop _ hq =>
    rw [queueStep_callPop hq]
    rfl
  | popped _ _ hq | popFailed _ _ hq _ =>
    rw [queueStep_ret hq]
    rfl
  | popStep hw hq =>
    have hfit := hc.workers w
    rw [hw] at hfit
    cases (queueStep_advance hq).effect with
    | quiet _ hp _ => exact hp
    | claimedPush h0 _ _ _ =>
      rcases hfit with hfit | ⟨k, hfit⟩ <;> simp [State.phase, h0] at hfit
    | claimedPop _ _ hp _ => exact hp
  | _ => rfl

theorem Kept.worker (hk : Kept w s u) (hm : WorkerMoves cfg u w v) : Kept w s v := by
  obtain ⟨hf, hready, hstopped⟩ := worker_frame hm
  refine ⟨hk.coherent.workerMoves hm, (worker_pushed hk.coherent hm).trans hk.pushed, ?_,
    hready.trans hk.ready, hstopped.trans hk.running⟩
  intro x hx
  exact (hf x hx).trans (hk.others x hx)

/-- The worker itself pushes nothing. -/
theorem worker_not_pushing {k : Nat} (hc : Coherent u) :
    ¬(u.queue.threads (.worker w)).Pushing k := by
  intro hk
  have hphase := Local.phase_of_pushing hk
  have hfit := hc.workers w
  rw [State.phase, hphase] at hfit
  revert hfit
  cases u.workers w <;> simp [WorkerFits]

theorem Kept.published {n : Nat} (hk : Kept w s u) (hp : PublishedBelow s.queue n) :
    PublishedBelow u.queue n := by
  intro x k hx
  by_cases hw : x = .worker w
  · subst hw
    exact absurd hx (worker_not_pushing hk.coherent)
  · rw [hk.others x hw] at hx
    exact hp x k hx

/-- The tasks of the first batch are all in their slots. -/
abbrev BatchPublished (cfg : Config) (s : State α) : Prop :=
  PublishedBelow s.queue (s.queue.popped.length + cfg.maxBatchSize)

/-- Nothing has been given away yet. -/
def NothingGiven (s u : State α) : Prop := u.batchCalls = s.batchCalls ∧ u.promises = s.promises

/-- The batch is the beginning of the queue as the round found it. -/
structure Filling (cfg : Config) (s u : State α) (batch : List (Task α)) (waits : List Nat) :
    Prop where
  taken : batch = (contents s.queue).take batch.length
  bound : batch.length ≤ cfg.maxBatchSize
  waits : waits.length = batch.length
  nothingGiven : NothingGiven s u

structure Filled (cfg : Config) (s u : State α) (batch : List (Task α)) (waits : List Nat) :
    Prop where
  taken : batch = (contents s.queue).take cfg.maxBatchSize
  nonempty : batch ≠ []
  waits : waits.length = batch.length
  removed : contents u.queue = (contents s.queue).drop cfg.maxBatchSize

/-- The first `i` tasks of the batch have their answers. -/
structure Answered (s u : State α) (batch : List (Task α)) (i : Nat) : Prop where
  grown : ∀ p, (s.promises p).length ≤ (u.promises p).length
  answered : ∀ t ∈ batch.take i, (s.promises t.promise).length < (u.promises t.promise).length
  others : ∀ p ∉ batch.map Task.promise, u.promises p = s.promises p

/-- How far the round of worker `w` has come, by its program counter. -/
def Stage (cfg : Config) (s u : State α) (w : Nat) : WorkerPc α → Prop
  | .innerHead batch waits _ | .fetchSub batch waits _ =>
    Filling cfg s u batch waits ∧ u.queue.popped.length = s.queue.popped.length + batch.length
  | .popping batch waits _ =>
    Filling cfg s u batch waits ∧ batch.length < cfg.maxBatchSize ∧
      Draining u.queue s.queue.popped.length batch.length (u.queue.threads (.worker w))
  | .checkBackend batch waits => Filled cfg s u batch waits ∧ NothingGiven s u
  | .inferring batch waits => Filled cfg s u batch waits ∧ NothingGiven s u ∧ s.ready = true
  | .answering batch waits resps executionNs i =>
    Filled cfg s u batch waits ∧ resps.length = batch.length ∧
      u.batchCalls = s.batchCalls ++ [⟨batch, resps, executionNs⟩] ∧ s.ready = true ∧
      Answered s u batch i
  | .unavailable batch i =>
    (∃ waits, Filled cfg s u batch waits) ∧ u.batchCalls = s.batchCalls ∧ s.ready = false ∧
      Answered s u batch i
  | .loopHead => BatchServed cfg s u
  | _ => False

theorem Filling.congr {batch : List (Task α)} {waits : List Nat} (hf : Filling cfg s u batch waits)
    (hu : NothingGiven s v) : Filling cfg s v batch waits :=
  ⟨hf.taken, hf.bound, hf.waits, hu⟩

theorem Filled.congr {batch : List (Task α)} {waits : List Nat} (hf : Filled cfg s u batch waits)
    (hq : contents v.queue = contents u.queue) : Filled cfg s v batch waits :=
  ⟨hf.taken, hf.nonempty, hf.waits, hq.trans hf.removed⟩

theorem Answered.start (hu : u.promises = s.promises) (batch : List (Task α)) :
    Answered s u batch 0 := by
  refine ⟨?_, ?_, ?_⟩
  · intro p
    rw [hu]
  · intro t ht
    simp at ht
  · intro p _
    rw [hu]

theorem Answered.congr {batch : List (Task α)} {i : Nat} (ha : Answered s u batch i)
    (hp : v.promises = u.promises) : Answered s v batch i := by
  refine ⟨?_, ?_, ?_⟩
  · rw [hp]
    exact ha.grown
  · rw [hp]
    exact ha.answered
  · rw [hp]
    exact ha.others

theorem setWorker_self (u : State α) (w : Nat) (pc : WorkerPc α) :
    (setWorker u w pc).workers w = pc :=
  Function.update_self ..

theorem Answered.next {x : State α} {batch : List (Task α)} {i : Nat} {t : Task α} {v : InferenceResponse}
    (ha : Answered s u batch i) (ht : batch[i]? = some t)
    (hx : x.promises = setValue u t.promise v) : Answered s x batch (i + 1) := by
  have hself : x.promises t.promise = u.promises t.promise ++ [v] := by
    rw [hx]
    exact Function.update_self ..
  have hne : ∀ p, p ≠ t.promise → x.promises p = u.promises p := by
    intro p hp
    rw [hx]
    exact Function.update_of_ne hp ..
  have hgrow : ∀ p, (u.promises p).length ≤ (x.promises p).length := by
    intro p
    by_cases hp : p = t.promise
    · rw [hp, hself, List.length_append]
      omega
    · rw [hne p hp]
  refine ⟨?_, ?_, ?_⟩
  · intro p
    exact (ha.grown p).trans (hgrow p)
  · intro r hr
    rw [List.take_add_one, ht, List.mem_append] at hr
    rcases hr with hr | hr
    · exact (ha.answered r hr).trans_le (hgrow _)
    · have hrt : r = t := by simpa using hr
      have hle := ha.grown t.promise
      rw [hrt, hself, List.length_append, List.length_singleton]
      omega
  · intro p hp
    have hpt : p ≠ t.promise := by
      intro he
      exact hp (List.mem_map.mpr ⟨t, List.mem_of_getElem? ht, he.symm⟩)
    rw [hne p hpt]
    exact ha.others p hp

theorem Filling.filled {batch : List (Task α)} {waits : List Nat} (hf : Filling cfg s u batch waits)
    (hne : contents s.queue ≠ []) (hmax : 1 ≤ cfg.maxBatchSize) (hk : Kept w s u)
    (hlen : u.queue.popped.length = s.queue.popped.length + batch.length)
    (hall : batch.length = cfg.maxBatchSize ∨ contents u.queue = []) :
    Filled cfg s u batch waits := by
  have hcontents := contents_drop hk.pushed hlen
  rcases hall with hfull | hempty
  · refine ⟨hfull ▸ hf.taken, ?_, hf.waits, hfull ▸ hcontents⟩
    intro hnil
    rw [hnil] at hfull
    exact absurd hfull.symm (by simp; omega)
  · rw [hempty] at hcontents
    have hle := List.drop_eq_nil_iff.mp hcontents.symm
    have htaken := hf.taken
    rw [List.take_of_length_le hle] at htaken
    have hmaxle : (contents s.queue).length ≤ cfg.maxBatchSize := by
      rw [← htaken]
      exact hf.bound
    refine ⟨?_, ?_, hf.waits, ?_⟩
    · rw [List.take_of_length_le hmaxle]
      exact htaken
    · rw [htaken]
      exact hne
    · rw [hempty, List.drop_of_length_le hmaxle]

theorem Filling.push {batch : List (Task α)} {waits : List Nat} {t : Task α} {wait : Nat}
    (hf : Filling cfg s u batch waits) (ht : (contents s.queue)[batch.length]? = some t)
    (hlt : batch.length < cfg.maxBatchSize) (hu : NothingGiven s v) :
    Filling cfg s v (batch ++ [t]) (waits ++ [wait]) := by
  refine ⟨?_, ?_, ?_, hu⟩
  · rw [List.length_append, List.length_singleton, List.take_add_one, ht, ← hf.taken]
    rfl
  · rw [List.length_append, List.length_singleton]
    omega
  · rw [List.length_append, List.length_append, hf.waits]
    rfl

/-- What a finished pop returned is the next task of the queue. -/
theorem popped_item {pos n : Nat} {t : Task α} (hk : Kept w s u)
    (hd : u.queue.threads (.worker w) = .popSucceeded pos (some t))
    (hpos : pos = s.queue.popped.length + n) : (contents s.queue)[n]? = some t := by
  obtain ⟨claim, hclaim, hitem⟩ := hk.coherent.ring.popSucceeded_item hd
  rw [hk.pushed, hpos] at hclaim
  unfold contents
  rw [List.getElem?_map, List.getElem?_drop, hclaim]
  exact hitem.symm

theorem BatchServed.of_answered {batch : List (Task α)} {waits : List Nat} {i : Nat}
    (hf : Filled cfg s u batch waits) (ha : Answered s u batch i) (hi : batch.length ≤ i)
    (hd : s.ready = true → ∃ resps executionNs, u.batchCalls =
      s.batchCalls ++ [⟨batch, resps, executionNs⟩])
    (hu : s.ready = false → u.batchCalls = s.batchCalls) : BatchServed cfg s u := by
  have hall := ha.answered
  rw [List.take_of_length_le hi] at hall
  have htaken := hf.taken
  refine ⟨?_, hf.removed, ?_, hu, ?_, ?_⟩
  · rw [← htaken]
    exact hf.nonempty
  · rw [← htaken]
    exact hd
  · rw [← htaken]
    exact hall
  · rw [← htaken]
    exact ha.others

theorem stage_leave {batch : List (Task α)} {waits : List Nat} (hf : Filled cfg s u batch waits)
    (hv : contents v.queue = contents u.queue) (hu : NothingGiven s v) :
    Stage cfg s v w (leaveInner batch waits) := by
  unfold leaveInner
  rw [if_neg hf.nonempty]
  exact ⟨hf.congr hv, hu⟩

/-- One step of the worker inside its round. -/
theorem stage_worker {b : Bool} (hp : BatchPublished cfg s)
    (hne : contents s.queue ≠ []) (hmax : 1 ≤ cfg.maxBatchSize)
    (hk : Kept w s u) (hst : Stage cfg s u w (u.workers w)) (hend : ¬(u.workers w).AtEnd)
    (h : workerStep cfg u w b = some v) : Stage cfg s v w (v.workers w) := by
  have hring := hk.coherent.ring
  unfold workerStep at h
  cases hw : u.workers w with
  | unborn | asleep | exited | inferring =>
    rw [hw] at h
    cases h
  | loopHead | lock =>
    rw [hw] at hend
    exact absurd trivial hend
  | reacquire | evalSize | evalStopped | goSleep | unlock =>
    rw [hw] at hst
    exact hst.elim
  | innerHead batch waits first =>
    rw [hw] at h hst
    obtain ⟨hf, hlen⟩ := hst
    dsimp only at h
    split_ifs at h with hc
    · obtain ⟨q, hq, rfl⟩ := Option.map_eq_some_iff.mp h
      have hq' := queueStep_callPop hq
      dsimp only
      rw [Function.update_self, hq']
      refine ⟨hf.congr hf.nothingGiven, hc.1, ?_⟩
      rw [MpmcQueue.State.set_threads, Function.update_self]
      exact hlen
    · obtain rfl := Option.some.inj h
      have hfull : batch.length = cfg.maxBatchSize := by
        have hb := hf.bound
        have hr := hk.running
        by_contra hne
        exact hc ⟨by omega, hr⟩
      have hfilled := hf.filled hne hmax hk hlen (.inl hfull)
      rw [setWorker_self]
      exact stage_leave hfilled rfl hf.nothingGiven
  | popping batch waits first =>
    rw [hw] at h hst
    obtain ⟨hf, hlt, hd⟩ := hst
    dsimp only at h
    split at h
    next pos t hl =>
      obtain ⟨q, hq, rfl⟩ := Option.map_eq_some_iff.mp h
      have hq' := queueStep_ret hq
      rw [hl] at hd
      dsimp only
      rw [Function.update_self, hq']
      refine ⟨hf.push (popped_item hk hl hd.1) hlt hf.nothingGiven, ?_⟩
      rw [MpmcQueue.State.set_popped, hd.2, List.length_append, List.length_singleton]
      omega
    next hl =>
      obtain ⟨q, hq, rfl⟩ := Option.map_eq_some_iff.mp h
      have hq' := queueStep_ret hq
      rw [hl] at hd
      have hempty : contents u.queue = [] := by
        apply List.eq_nil_of_length_eq_zero
        rw [hring.contents_length, hd.2]
        omega
      have hfilled := hf.filled hne hmax hk hd.1 (.inr hempty)
      have hkeep : contents q = contents u.queue := by
        rw [hq']
        rfl
      dsimp only
      rw [Function.update_self]
      split_ifs
      · exact stage_leave hfilled hkeep hf.nothingGiven
      · refine ⟨hf.congr hf.nothingGiven, ?_⟩
        dsimp only
        rw [hq']
        exact hd.1
    next =>
      obtain ⟨q, hq, rfl⟩ := Option.map_eq_some_iff.mp h
      have hnext : PublishedBelow u.queue (s.queue.popped.length + batch.length + 1) := by
        intro x k hx
        have hle := hk.published hp x k hx
        omega
      obtain ⟨hd', _⟩ := hd.moves hring hnext (queueStep_advance hq)
      dsimp only
      rw [hw]
      exact ⟨hf.congr hf.nothingGiven, hlt, hd'⟩
  | fetchSub batch waits first =>
    rw [hw] at h hst
    obtain rfl := Option.some.inj h
    obtain ⟨hf, hlen⟩ := hst
    dsimp only
    rw [Function.update_self]
    exact ⟨hf.congr hf.nothingGiven, hlen⟩
  | checkBackend batch waits =>
    rw [hw] at h hst
    obtain ⟨hf, hu⟩ := hst
    dsimp only at h
    split_ifs at h with hready
    · obtain rfl := Option.some.inj h
      rw [setWorker_self]
      exact ⟨hf.congr rfl, hu, hk.ready ▸ hready⟩
    · obtain rfl := Option.some.inj h
      rw [setWorker_self]
      have hnot : s.ready = false := by
        rw [← hk.ready]
        simpa using hready
      exact ⟨⟨waits, hf.congr rfl⟩, hu.1, hnot, (Answered.start hu.2 batch).congr rfl⟩
  | answering batch waits resps executionNs i =>
    rw [hw] at h hst
    obtain ⟨hf, hresps, hcalls, hready, ha⟩ := hst
    dsimp only at h
    split at h
    next t wait r ht hwait hr =>
      obtain rfl := Option.some.inj h
      dsimp only
      rw [Function.update_self]
      exact ⟨hf.congr rfl, hresps, hcalls, hready, ha.next ht rfl⟩
    next =>
      split_ifs at h with hi
      obtain rfl := Option.some.inj h
      rw [setWorker_self]
      have hf' : Filled cfg s (setWorker u w .loopHead) batch waits := hf.congr rfl
      have ha' : Answered s (setWorker u w .loopHead) batch i := ha.congr rfl
      apply BatchServed.of_answered hf' ha' hi
      · intro _
        exact ⟨resps, executionNs, hcalls⟩
      · intro hnot
        rw [hready] at hnot
        cases hnot
  | unavailable batch i =>
    rw [hw] at h hst
    obtain ⟨⟨waits, hf⟩, hcalls, hready, ha⟩ := hst
    dsimp only at h
    split at h
    next t ht =>
      obtain rfl := Option.some.inj h
      dsimp only
      rw [Function.update_self]
      exact ⟨⟨waits, hf.congr rfl⟩, hcalls, hready, ha.next ht rfl⟩
    next hnone =>
      obtain rfl := Option.some.inj h
      rw [setWorker_self]
      have hf' : Filled cfg s (setWorker u w .loopHead) batch waits := hf.congr rfl
      have ha' : Answered s (setWorker u w .loopHead) batch i := ha.congr rfl
      apply BatchServed.of_answered hf' ha' (List.getElem?_eq_none_iff.mp hnone)
      · intro hnot
        rw [hready] at hnot
        cases hnot
      · intro _
        exact hcalls

theorem Stage.congr {pc : WorkerPc α} (hst : Stage cfg s u w pc) (hq : v.queue = u.queue)
    (hc : v.batchCalls = u.batchCalls) (hp : v.promises = u.promises) : Stage cfg s v w pc := by
  have hu : NothingGiven s u → NothingGiven s v := fun h => ⟨hc.trans h.1, hp.trans h.2⟩
  have hcontents : contents v.queue = contents u.queue := by rw [hq]
  cases pc with
  | innerHead | fetchSub =>
    obtain ⟨hf, hlen⟩ := hst
    exact ⟨hf.congr (hu hf.nothingGiven), hq ▸ hlen⟩
  | popping =>
    obtain ⟨hf, hlt, hd⟩ := hst
    exact ⟨hf.congr (hu hf.nothingGiven), hlt, hq ▸ hd⟩
  | checkBackend =>
    obtain ⟨hf, hun⟩ := hst
    exact ⟨hf.congr hcontents, hu hun⟩
  | inferring =>
    obtain ⟨hf, hun, hready⟩ := hst
    exact ⟨hf.congr hcontents, hu hun, hready⟩
  | answering =>
    obtain ⟨hf, hresps, hcalls, hready, ha⟩ := hst
    exact ⟨hf.congr hcontents, hresps, hc.trans hcalls, hready, ha.congr hp⟩
  | unavailable =>
    obtain ⟨⟨waits, hf⟩, hcalls, hready, ha⟩ := hst
    exact ⟨⟨waits, hf.congr hcontents⟩, hc.trans hcalls, hready, ha.congr hp⟩
  | loopHead =>
    refine ⟨hst.nonempty, hcontents.trans hst.removed, ?_, ?_, ?_, ?_⟩
    · rw [hc]
      exact hst.dispatched
    · rw [hc]
      exact hst.unavailable
    · rw [hp]
      exact hst.answered
    · rw [hp]
      exact hst.others
  | _ => exact hst.elim

theorem Kept.solo {a : Action α} (hk : Kept w s u) (ha : Solo w a) (h : step cfg u a = some v) :
    Kept w s v := by
  cases a with
  | worker x b =>
    have hx : x = w := ha
    subst hx
    exact hk.worker (workerMoves_of_workerStep h)
  | inferBatch x resps executionNs =>
    have hc := hk.coherent.moves (moves_of_step h)
    cases moves_of_step h
    exact ⟨hc, hk.pushed, hk.others, hk.ready, hk.running⟩
  | tick n =>
    have hc := hk.coherent.moves (moves_of_step h)
    cases moves_of_step h
    exact ⟨hc, hk.pushed, hk.others, hk.ready, hk.running⟩
  | _ => exact ha.elim

theorem stage_solo {a : Action α} (hp : BatchPublished cfg s)
    (hne : contents s.queue ≠ []) (hmax : 1 ≤ cfg.maxBatchSize)
    (hk : Kept w s u) (hst : Stage cfg s u w (u.workers w)) (hend : ¬(u.workers w).AtEnd)
    (ha : Solo w a) (h : step cfg u a = some v) : Stage cfg s v w (v.workers w) := by
  cases a with
  | worker x b =>
    have hx : x = w := ha
    subst hx
    exact stage_worker hp hne hmax hk hst hend h
  | inferBatch x resps executionNs =>
    have hx : x = w := ha
    subst hx
    cases moves_of_step h with
    | inferBatch hw hr =>
      rw [hw] at hst
      obtain ⟨hf, hu, hready⟩ := hst
      dsimp only
      rw [Function.update_self]
      refine ⟨hf.congr rfl, hr, ?_, hready, (Answered.start hu.2 _).congr rfl⟩
      rw [← hu.1]
  | tick n =>
    cases moves_of_step h
    exact hst.congr rfl rfl rfl
  | _ => exact ha.elim

/-- The process goes on where the executor does. -/
theorem process_step {a : Action α} (hend : ¬(u.workers w).AtEnd) (ha : Solo w a) :
    (process alloc taskSize cfg).step (.running u) a = (step cfg u a).map .running := by
  have hno : throws alloc taskSize cfg u a = false := by
    cases a with
    | worker x b =>
      have hx : x = w := ha
      subst hx
      have hhead : (u.workers x).isLoopHead = false := by
        revert hend
        cases u.workers x <;> simp [WorkerPc.AtEnd, WorkerPc.isLoopHead]
      unfold throws
      dsimp only
      rw [hhead]
      rfl
    | _ => rfl
  unfold process
  dsimp only
  rw [hno, if_neg (by simp)]

/-- At the loop head the worker enters the inner loop, or dies of `reserve`. -/
theorem process_enter {b : Bool} (hw : s.workers w = .loopHead) (hs : s.stopped = false) :
    (process alloc taskSize cfg).step (.running s) (.worker w b) =
      some (if reservesBatch alloc taskSize cfg then
        .running (setWorker s w (.innerHead [] [] s.clock)) else .terminated) := by
  have hthrows : throws alloc taskSize cfg s (.worker w b) =
      !reservesBatch alloc taskSize cfg := by
    unfold throws
    dsimp only
    rw [hw, hs]
    rfl
  have hstep : step cfg s (.worker w b) = some (setWorker s w (.innerHead [] [] s.clock)) := by
    change workerStep cfg s w b = _
    unfold workerStep
    rw [hw]
    dsimp only
    rw [hs, if_neg (by simp)]
  unfold process
  dsimp only
  rw [hthrows, hstep]
  cases reservesBatch alloc taskSize cfg <;> rfl

/-- `x` is a state of a round of worker `w` that began in `s`. -/
def InRound (cfg : Config) (s : State α) (w : Nat) (x : Process α) : Prop :=
  ∃ u, x = .running u ∧ Kept w s u ∧ Stage cfg s u w (u.workers w)

theorem InRound.next {x : Process α} {a : Action α} (hp : BatchPublished cfg s)
    (hne : contents s.queue ≠ [])
    (hmax : 1 ≤ cfg.maxBatchSize) (hk : Kept w s u) (hst : Stage cfg s u w (u.workers w))
    (hend : ¬(u.workers w).AtEnd) (ha : Solo w a)
    (hx : (process alloc taskSize cfg).step (.running u) a = some x) : InRound cfg s w x := by
  rw [process_step hend ha] at hx
  obtain ⟨v, hv, rfl⟩ := Option.map_eq_some_iff.mp hx
  exact ⟨v, rfl, hk.solo ha hv, stage_solo hp hne hmax hk hst hend ha hv⟩

theorem Round.inRound {x : Process α} (hk : Kept w s s) (hw : s.workers w = .loopHead)
    (hp : BatchPublished cfg s) (hne : contents s.queue ≠ []) (hmax : 1 ≤ cfg.maxBatchSize)
    (hres : reservesBatch alloc taskSize cfg = true)
    (hx : Round alloc taskSize cfg w s x) : InRound cfg s w x := by
  induction hx with
  | enter hstep =>
    rw [process_enter hw hk.running, if_pos hres] at hstep
    obtain rfl := Option.some.inj hstep
    have hmoves : WorkerMoves cfg s w (setWorker s w (.innerHead [] [] s.clock)) := .enter hw
    refine ⟨_, rfl, hk.worker hmoves, ?_⟩
    rw [setWorker_self]
    exact ⟨⟨rfl, Nat.zero_le _, rfl, rfl, rfl⟩, rfl⟩
  | next _ hend ha hstep ih =>
    obtain ⟨u, hu, hk', hst⟩ := ih
    cases hu
    exact InRound.next hp hne hmax hk' hst hend ha hstep

/-- The delay of the batch has passed. -/
def Elapsed (cfg : Config) (u : State α) (first : Nat) : Prop :=
  cfg.maxBatchDelayUs ≤ ((u.clock - first) / 1000 : Nat)

instance (cfg : Config) (u : State α) (first : Nat) : Decidable (Elapsed cfg u first) :=
  inferInstanceAs (Decidable (_ ≤ _))

/-- A bound on the steps to the end of the round once the delay has passed. -/
def roundRank (cfg : Config) (s u : State α) (w : Nat) : WorkerPc α → Nat
  | .innerHead batch _ _ => (contents s.queue).length + 6 + (cfg.maxBatchSize - batch.length) * 16 + 10
  | .popping batch _ _ => (contents s.queue).length + 6 + (cfg.maxBatchSize - batch.length) * 16 +
      (u.queue.threads (.worker w)).popRank
  | .fetchSub batch _ _ => (contents s.queue).length + 6 + (cfg.maxBatchSize - batch.length) * 16 + 11
  | .checkBackend batch _ => batch.length + 4
  | .inferring batch _ => batch.length + 3
  | .answering batch _ _ _ i | .unavailable batch i => batch.length - i + 1
  | _ => 0

theorem Filling.length_le {batch : List (Task α)} {waits : List Nat}
    (hf : Filling cfg s u batch waits) : batch.length ≤ (contents s.queue).length := by
  have htaken := congrArg List.length hf.taken
  rw [List.length_take] at htaken
  omega

theorem rank_leave {batch : List (Task α)} {waits : List Nat} (v : State α) (w : Nat)
    (hf : Filled cfg s u batch waits) (hle : batch.length ≤ (contents s.queue).length) :
    roundRank cfg s v w (leaveInner batch waits) < (contents s.queue).length + 6 := by
  unfold leaveInner
  rw [if_neg hf.nonempty]
  simp only [roundRank]
  omega

/-- A pop comes closer to its result, and with its result the round comes closer to its end. -/
theorem popping_progress {batch : List (Task α)} {waits : List Nat} {first : Nat}
    (hne : contents s.queue ≠ []) (hmax : 1 ≤ cfg.maxBatchSize) (hk : Kept w s u)
    (hw : u.workers w = .popping batch waits first) (hst : Stage cfg s u w (.popping batch waits first))
    (htime : Elapsed cfg u first) :
    ∃ v, workerStep cfg u w false = some v ∧
      roundRank cfg s v w (v.workers w) < roundRank cfg s u w (u.workers w) := by
  obtain ⟨hf, hlt, hd⟩ := hst
  have hle := hf.length_le
  unfold workerStep
  rw [hw]
  dsimp only
  cases hl : u.queue.threads (.worker w) with
  | popSucceeded pos item =>
    obtain ⟨claim, _, hitem⟩ := hk.coherent.ring.popSucceeded_item hl
    subst hitem
    have hret : queueStep u (.ret (.worker w)) = some (u.queue.set (.worker w) .idle) := by
      simp only [queueStep, MpmcQueue.step]
      rw [hl]
      rfl
    rw [hret]
    refine ⟨_, rfl, ?_⟩
    dsimp only
    rw [Function.update_self]
    simp only [roundRank, hl, Local.popRank, List.length_append, List.length_singleton]
    omega
  | popFailed =>
    have hret : queueStep u (.ret (.worker w)) = some (u.queue.set (.worker w) .idle) := by
      simp only [queueStep, MpmcQueue.step]
      rw [hl]
      rfl
    rw [hl] at hd
    have hempty : contents u.queue = [] := by
      apply List.eq_nil_of_length_eq_zero
      rw [hk.coherent.ring.contents_length, hd.2]
      omega
    have hfilled := hf.filled hne hmax hk hd.1 (.inr hempty)
    rw [hret]
    refine ⟨_, rfl, ?_⟩
    dsimp only
    rw [Function.update_self, if_pos (.inr htime)]
    refine (rank_leave _ w hfilled hle).trans_le ?_
    simp only [roundRank]
    omega
  | popLoadPos | popLoadSeq | popCas | popMove | popDestroy | popRelease =>
    obtain ⟨q, hq, hrank⟩ := hd.progress hk.coherent.ring (by rw [hl]; rfl)
    have hadvance : queueStep u (.advance (.worker w) false) = some q := hq
    dsimp only
    rw [hadvance]
    refine ⟨_, rfl, ?_⟩
    dsimp only
    rw [hw]
    simp only [roundRank]
    omega
  | _ =>
    rw [hl] at hd
    exact hd.elim

/-- Once the delay has passed, every step of the worker leads on. -/
theorem worker_progress (hne : contents s.queue ≠ []) (hmax : 1 ≤ cfg.maxBatchSize)
    (hk : Kept w s u) (hst : Stage cfg s u w (u.workers w)) (hend : ¬(u.workers w).AtEnd)
    (hinfer : ∀ batch waits, u.workers w ≠ .inferring batch waits)
    (htime : ∀ batch waits first, u.workers w = .popping batch waits first → Elapsed cfg u first) :
    ∃ v, workerStep cfg u w false = some v ∧
      roundRank cfg s v w (v.workers w) < roundRank cfg s u w (u.workers w) := by
  cases hw : u.workers w with
  | popping batch waits first =>
    rw [hw] at hst
    rw [← hw]
    exact popping_progress hne hmax hk hw hst (htime batch waits first hw)
  | inferring batch waits => exact absurd hw (hinfer batch waits)
  | innerHead batch waits first =>
    rw [hw] at hst
    obtain ⟨hf, hlen⟩ := hst
    have hle := hf.length_le
    have hidle : u.queue.threads (.worker w) = .idle := by
      have hphase := hk.coherent.worker_idle (w := w) (by simp [hw])
      revert hphase
      unfold State.phase
      cases u.queue.threads (.worker w) <;> simp [Local.phase]
    have hcall : queueStep u (.callPop (.worker w)) =
        some (u.queue.set (.worker w) .popLoadPos) := by
      simp only [queueStep, MpmcQueue.step]
      rw [hidle]
    unfold workerStep
    rw [hw]
    dsimp only
    by_cases hc : batch.length < cfg.maxBatchSize ∧ u.stopped = false
    · rw [if_pos hc, hcall]
      refine ⟨_, rfl, ?_⟩
      dsimp only
      rw [Function.update_self]
      simp [roundRank, Local.popRank]
    · have hfull : batch.length = cfg.maxBatchSize := by
        have hb := hf.bound
        have hr := hk.running
        by_contra hlt
        exact hc ⟨by omega, hr⟩
      have hfilled := hf.filled hne hmax hk hlen (.inl hfull)
      rw [if_neg hc]
      refine ⟨_, rfl, ?_⟩
      rw [setWorker_self]
      refine (rank_leave _ w hfilled hle).trans_le ?_
      simp only [roundRank]
      omega
  | fetchSub batch waits first =>
    unfold workerStep
    rw [hw]
    refine ⟨_, rfl, ?_⟩
    dsimp only
    rw [Function.update_self]
    simp [roundRank]
  | checkBackend batch waits =>
    unfold workerStep
    rw [hw]
    dsimp only
    split_ifs
    · refine ⟨_, rfl, ?_⟩
      rw [setWorker_self]
      simp [roundRank]
    · refine ⟨_, rfl, ?_⟩
      rw [setWorker_self]
      simp only [roundRank]
      omega
  | answering batch waits resps executionNs i =>
    rw [hw] at hst
    obtain ⟨hf, hresps, _⟩ := hst
    have hwaits := hf.waits
    unfold workerStep
    rw [hw]
    dsimp only
    by_cases hi : i < batch.length
    · rw [List.getElem?_eq_getElem hi, List.getElem?_eq_getElem (by omega : i < waits.length),
        List.getElem?_eq_getElem (by omega : i < resps.length)]
      refine ⟨_, rfl, ?_⟩
      dsimp only
      rw [Function.update_self]
      simp only [roundRank]
      omega
    · rw [List.getElem?_eq_none_iff.mpr (by omega : batch.length ≤ i)]
      dsimp only
      rw [if_pos (by omega)]
      refine ⟨_, rfl, ?_⟩
      rw [setWorker_self]
      simp [roundRank]
  | unavailable batch i =>
    unfold workerStep
    rw [hw]
    dsimp only
    by_cases hi : i < batch.length
    · rw [List.getElem?_eq_getElem hi]
      refine ⟨_, rfl, ?_⟩
      dsimp only
      rw [Function.update_self]
      simp only [roundRank]
      omega
    · rw [List.getElem?_eq_none_iff.mpr (by omega : batch.length ≤ i)]
      refine ⟨_, rfl, ?_⟩
      rw [setWorker_self]
      simp [roundRank]
  | loopHead | lock | exited =>
    rw [hw] at hend
    exact absurd trivial hend
  | _ =>
    rw [hw] at hst
    exact hst.elim

theorem elapsed_tick (cfg : Config) (u : State α) (first : Nat) :
    Elapsed cfg { u with clock := u.clock + (first + cfg.maxBatchDelayUs.toNat * 1000) } first := by
  have hge : cfg.maxBatchDelayUs.toNat * 1000 ≤
      u.clock + (first + cfg.maxBatchDelayUs.toNat * 1000) - first := by omega
  have hdiv := (Nat.le_div_iff_mul_le (by decide)).mpr hge
  unfold Elapsed
  dsimp only
  omega

/-- Whether the clock may have to move for the worker to get on. -/
def delayLeft (cfg : Config) (u : State α) : WorkerPc α → Nat
  | .popping _ _ first => if Elapsed cfg u first then 0 else 1
  | _ => 0

theorem delayLeft_le (cfg : Config) (u : State α) (pc : WorkerPc α) : delayLeft cfg u pc ≤ 1 := by
  unfold delayLeft
  split
  · split_ifs <;> omega
  · omega

def processRank (cfg : Config) (s : State α) (w : Nat) : Process α → Nat
  | .running u => 2 * roundRank cfg s u w (u.workers w) + delayLeft cfg u (u.workers w)
  | .terminated => 0

theorem round_progress (hne : contents s.queue ≠ []) (hmax : 1 ≤ cfg.maxBatchSize)
    (hk : Kept w s u) (hst : Stage cfg s u w (u.workers w)) (hend : ¬(u.workers w).AtEnd) :
    ∃ a v, Solo w a ∧ step cfg u a = some v ∧
      processRank cfg s w (.running v) < processRank cfg s w (.running u) := by
  by_cases htime : ∀ batch waits first,
      u.workers w = .popping batch waits first → Elapsed cfg u first
  · by_cases hinfer : ∀ batch waits, u.workers w ≠ .inferring batch waits
    · obtain ⟨v, hv, hrank⟩ := worker_progress hne hmax hk hst hend hinfer htime
      have hdelay := delayLeft_le cfg v (v.workers w)
      refine ⟨.worker w false, v, rfl, hv, ?_⟩
      simp only [processRank]
      omega
    · push Not at hinfer
      obtain ⟨batch, waits, hw⟩ := hinfer
      have hlen : (List.replicate batch.length ({} : InferenceResponse)).length = batch.length :=
        List.length_replicate
      obtain ⟨v, hv, hpc⟩ : ∃ v, step cfg u
          (.inferBatch w (List.replicate batch.length {}) 0) = some v ∧ v.workers w =
            .answering batch waits (List.replicate batch.length {}) 0 0 := by
        unfold step
        dsimp only
        rw [hw]
        dsimp only
        rw [if_pos hlen]
        exact ⟨_, rfl, Function.update_self ..⟩
      refine ⟨.inferBatch w (List.replicate batch.length {}) 0, v, rfl, hv, ?_⟩
      simp only [processRank]
      rw [hpc, hw]
      simp only [roundRank, delayLeft]
      omega
  · push Not at htime
    obtain ⟨batch, waits, first, hw, hlate⟩ := htime
    refine ⟨.tick (first + cfg.maxBatchDelayUs.toNat * 1000), _, trivial, rfl, ?_⟩
    simp only [processRank]
    rw [hw]
    simp only [roundRank, delayLeft]
    rw [if_pos (elapsed_tick cfg u first), if_neg hlate]
    omega

theorem InRound.canReach {x : Process α} (hp : BatchPublished cfg s)
    (hne : contents s.queue ≠ [])
    (hmax : 1 ≤ cfg.maxBatchSize) (hx : InRound cfg s w x) :
    (process alloc taskSize cfg).CanReach (Solo w)
      (fun y => ∃ v, y = .running v ∧ (v.workers w).AtEnd) x := by
  apply System.CanReach.of_variant (Q := InRound cfg s w) (processRank cfg s w) _ hx
  intro y hy
  obtain ⟨u, rfl, hk, hst⟩ := hy
  by_cases hend : (u.workers w).AtEnd
  · exact .inl ⟨u, rfl, hend⟩
  · obtain ⟨a, v, ha, hv, hrank⟩ := round_progress hne hmax hk hst hend
    have hstep : (process alloc taskSize cfg).step (.running u) a = some (.running v) := by
      rw [process_step hend ha, hv]
      rfl
    exact .inr ⟨a, .running v, ha, hstep, InRound.next hp hne hmax hk hst hend ha hstep, hrank⟩

theorem Stage.atEnd {pc : WorkerPc α} (hst : Stage cfg s u w pc) (hend : pc.AtEnd) :
    pc = .loopHead ∧ BatchServed cfg s u := by
  cases pc with
  | loopHead => exact ⟨rfl, hst⟩
  | lock | exited => exact hst.elim
  | _ => exact hend.elim

theorem batchesRight_of (hk : Kept w s s) (hw : s.workers w = .loopHead)
    (hp : BatchPublished cfg s) (hne : contents s.queue ≠ []) (hmax : 1 ≤ cfg.maxBatchSize)
    (hres : reservesBatch alloc taskSize cfg = true) : BatchesRight alloc taskSize cfg w s := by
  intro x hx
  have hin := hx.inRound hk hw hp hne hmax hres
  refine ⟨hin.canReach hp hne hmax, ?_⟩
  obtain ⟨u, rfl, _, hst⟩ := hin
  exact ⟨u, rfl, hst.atEnd⟩

/-- A batch of size 0 is never filled: the worker goes to its wait with nothing taken. -/
theorem zero_batch_waits (hw : s.workers w = .loopHead) (hs : s.stopped = false)
    (hzero : cfg.maxBatchSize = 0) (hres : reservesBatch alloc taskSize cfg = true) :
    ¬BatchesRight alloc taskSize cfg w s := by
  intro hall
  have henter : (process alloc taskSize cfg).step (.running s) (.worker w false) =
      some (.running (setWorker s w (.innerHead [] [] s.clock))) := by
    rw [process_enter hw hs, if_pos hres]
  have hin := setWorker_self s w (.innerHead [] [] s.clock)
  have hgo : workerStep cfg (setWorker s w (.innerHead [] [] s.clock)) w false =
      some (setWorker (setWorker s w (.innerHead [] [] s.clock)) w (leaveInner [] [])) := by
    have hno : ¬(([] : List (Task α)).length < cfg.maxBatchSize ∧
        (setWorker s w (.innerHead [] [] s.clock)).stopped = false) := by
      rw [hzero]
      simp
    unfold workerStep
    rw [hin]
    exact if_neg hno
  have hend : ¬((setWorker s w (.innerHead [] [] s.clock)).workers w).AtEnd := by
    rw [hin]
    exact not_false
  have hnext : Solo w (.worker w false : Action α) := rfl
  obtain ⟨_, u, hu, hback⟩ := hall _ (.next (.enter henter) hend hnext
    ((process_step hend hnext).trans (congrArg (Option.map Process.running) hgo)))
  cases hu
  rw [setWorker_self] at hback
  exact absurd (hback trivial).1 (by simp [leaveInner])

theorem reserve_terminates (hw : s.workers w = .loopHead) (hs : s.stopped = false)
    (hres : reservesBatch alloc taskSize cfg = false) : ¬BatchesRight alloc taskSize cfg w s := by
  intro hall
  have henter : (process alloc taskSize cfg).step (.running s) (.worker w false) =
      some .terminated := by
    rw [process_enter hw hs, hres]
    rfl
  obtain ⟨_, u, hu, _⟩ := hall _ (.enter henter)
  cases hu

theorem Kept.start (hr : (system cfg).Reachable s) (hs : s.stopped = false) : Kept w s s :=
  ⟨Coherent.of_reachable hr, rfl, fun _ _ => rfl, rfl, hs⟩

theorem Round.kept {x : Process α} (hk : Kept w s s) (hw : s.workers w = .loopHead)
    (hres : reservesBatch alloc taskSize cfg = true) (hx : Round alloc taskSize cfg w s x) :
    ∃ u, x = .running u ∧ Kept w s u := by
  induction hx with
  | enter hstep =>
    rw [process_enter hw hk.running, if_pos hres] at hstep
    obtain rfl := Option.some.inj hstep
    have hmoves : WorkerMoves cfg s w (setWorker s w (.innerHead [] [] s.clock)) := .enter hw
    exact ⟨_, rfl, hk.worker hmoves⟩
  | next _ hend ha hstep ih =>
    obtain ⟨u, hu, hk'⟩ := ih
    cases hu
    rw [process_step hend ha] at hstep
    obtain ⟨v, hv, rfl⟩ := Option.map_eq_some_iff.mp hstep
    exact ⟨v, rfl, hk'.solo ha hv⟩

/-- A round from which the end can be reached comes to one. -/
theorem Round.reaches_end {x : Process α} (hx : Round alloc taskSize cfg w s x)
    (h : (process alloc taskSize cfg).CanReach (Solo w)
      (fun y => ∃ v, y = .running v ∧ (v.workers w).AtEnd) x) :
    ∃ v, Round alloc taskSize cfg w s (.running v) ∧ (v.workers w).AtEnd := by
  have hkeep : ∀ y a z, (Round alloc taskSize cfg w s y ∨
        ∃ v, Round alloc taskSize cfg w s (.running v) ∧ (v.workers w).AtEnd) →
      Solo w a → (process alloc taskSize cfg).step y a = some z →
      Round alloc taskSize cfg w s z ∨
        ∃ v, Round alloc taskSize cfg w s (.running v) ∧ (v.workers w).AtEnd := by
    intro y a z hy ha hz
    rcases hy with hy | hy
    · cases y with
      | terminated => cases hz
      | running u =>
        by_cases hend : (u.workers w).AtEnd
        · exact .inr ⟨u, hy, hend⟩
        · exact .inl (hy.next hend ha hz)
    · exact .inr hy
  obtain ⟨y, hy, v, hv, hend⟩ := h.elim hkeep (.inl hx)
  rcases hy with hy | hy
  · subst hv
    exact ⟨v, hy, hend⟩
  · exact hy

/-- Behind a push that has not published its slot the worker takes nothing. -/
theorem batchPublished_of (hk : Kept w s s) (hw : s.workers w = .loopHead)
    (hres : reservesBatch alloc taskSize cfg = true)
    (hall : BatchesRight alloc taskSize cfg w s) : BatchPublished cfg s := by
  have henter : Round alloc taskSize cfg w s
      (.running (setWorker s w (.innerHead [] [] s.clock))) := by
    apply Round.enter (b := false)
    rw [process_enter hw hk.running, if_pos hres]
  obtain ⟨v, hv, hend⟩ := henter.reaches_end (hall _ henter).1
  obtain ⟨_, v', hv', hserved⟩ := hall _ hv
  cases hv'
  obtain ⟨_, hkv', hkv⟩ := hv.kept hk hw hres
  cases hkv'
  have hlen := congrArg List.length (hserved hend).2.removed
  have hpushed := congrArg List.length hkv.pushed
  have hring := hkv.coherent.ring
  have hring' := hk.coherent.ring
  rw [List.length_drop, hring.contents_length, hring'.contents_length] at hlen
  rw [hring.pushed_length, hring'.pushed_length] at hpushed
  intro x k hx
  have hxw : x ≠ .worker w := by
    intro he
    subst he
    exact worker_not_pushing hk.coherent hx
  rw [← hkv.others x hxw] at hx
  obtain ⟨hfree, item, hclaim⟩ := hring.pushing_claim hx
  have hlo := (hring.slot_free hfree).2.2.2.1
  have hhi := hring.pushed_lt hclaim
  have hle := hring.dequeue_le_enqueue
  rw [hring'.popped_length]
  omega

/-- `worker_loop` alone serves a batch of a queue that is not empty exactly where a batch holds a
task at all, both calls of `reserve` return and the tasks of the batch are in their slots. -/
theorem batchesRight_iff (hr : (system cfg).Reachable s) (hw : s.workers w = .loopHead)
    (hs : s.stopped = false) (hne : contents s.queue ≠ []) :
    BatchesRight alloc taskSize cfg w s ↔
      1 ≤ cfg.maxBatchSize ∧ reservesBatch alloc taskSize cfg = true ∧ BatchPublished cfg s := by
  have hk : Kept w s s := Kept.start hr hs
  constructor
  · intro hall
    have hres : reservesBatch alloc taskSize cfg = true := by
      by_contra hno
      exact reserve_terminates hw hs (Bool.eq_false_iff.mpr hno) hall
    refine ⟨?_, hres, batchPublished_of hk hw hres hall⟩
    by_contra hzero
    exact zero_batch_waits hw hs (by omega) hres hall
  · intro hright
    obtain ⟨hmax, hres, hp⟩ := hright
    exact batchesRight_of hk hw hp hne hmax hres

/-- Where one task was pushed and its slot published, no push is on its way. -/
theorem published_of_one (hr : (system cfg).Reachable s) (he : s.queue.enqueuePos = 1)
    (hseq : s.queue.sequence (capacity.slot 0) = 1) : ¬Unpublished s.queue := by
  intro hun
  obtain ⟨i, k, hk⟩ := hun
  have hring := (Coherent.of_reachable hr).ring
  obtain ⟨hfree, item, hclaim⟩ := hring.pushing_claim hk
  have hlt := hring.pushed_lt hclaim
  obtain rfl : k = 0 := by omega
  rw [hseq] at hfree
  cases hfree

theorem asked_of_run (cfg : Config) (ready : Bool) (h : ((system cfg).run (initial ready) startAndAsk).map
      (fun s => ((s.workers 0).isLoopHead, s.stopped, (contents s.queue).length,
        s.queue.enqueuePos, s.queue.sequence (capacity.slot 0))) = some (true, false, 1, 1, 1)) :
    ∃ s, (system cfg).run (initial ready) startAndAsk = some s ∧ (system cfg).Reachable s ∧
      s.workers 0 = .loopHead ∧ s.stopped = false ∧ contents s.queue ≠ [] ∧
      ¬Unpublished s.queue := by
  obtain ⟨s, hs, hv⟩ := Option.map_eq_some_iff.mp h
  simp only [Prod.mk.injEq] at hv
  obtain ⟨hw, hstop, hlen, he, hseq⟩ := hv
  have hr : (system cfg).Reachable s := System.Reachable.run (.init ⟨ready, rfl⟩) hs
  refine ⟨s, hs, hr, ?_, hstop, ?_, published_of_one hr he hseq⟩
  · revert hw
    cases s.workers 0 <;> simp [WorkerPc.isLoopHead]
  · intro hnil
    rw [hnil] at hlen
    cases hlen

/-- The default configuration, with memory for everything. -/
theorem batchesRight_default : ∃ s : State Nat,
    (system ⟨1, 4, 1000⟩).run (initial true) startAndAsk = some s ∧
      BatchesRight (fun _ => true) 200 ⟨1, 4, 1000⟩ 0 s := by
  obtain ⟨s, hs, hr, hw, hstop, hne, hp⟩ :=
    asked_of_run ⟨1, 4, 1000⟩ true (by decide +kernel)
  exact ⟨s, hs, (batchesRight_iff hr hw hstop hne).mpr ⟨by decide, by decide, publishedBelow_of hp _⟩⟩

/-- The directory of a model whose `config.ini` sets the size of its batches. -/
def withBatchSize (val : Text) : DirEntry :=
  ⟨"m".toList, true, some ("max_batch_size=".toList ++ val), []⟩

/-- `max_batch_size=0` is accepted, and no task is ever taken; `-1` is accepted as `2^64 - 1`, and
`reserve` throws in the worker thread. -/
theorem batches_zero_and_wrapped :
    (∃ m, fromDir "models/m".toList (withBatchSize "0".toList) = .ok m ∧ ∃ s : State Nat,
      (system ⟨1, m.maxBatchSize, m.maxBatchDelayUs⟩).Reachable s ∧ s.workers 0 = .loopHead ∧
      s.stopped = false ∧ contents s.queue ≠ [] ∧ ¬Unpublished s.queue ∧
      ¬BatchesRight (fun _ => true) 200 ⟨1, m.maxBatchSize, m.maxBatchDelayUs⟩ 0 s) ∧
    ∃ m, fromDir "models/m".toList (withBatchSize "-1".toList) = .ok m ∧ ∃ s : State Nat,
      (system ⟨1, m.maxBatchSize, m.maxBatchDelayUs⟩).Reachable s ∧ s.workers 0 = .loopHead ∧
      s.stopped = false ∧ contents s.queue ≠ [] ∧ ¬Unpublished s.queue ∧
      ¬BatchesRight (fun _ => true) 200 ⟨1, m.maxBatchSize, m.maxBatchDelayUs⟩ 0 s := by
  constructor
  · obtain ⟨s, _, hr, hw, hstop, hne, hp⟩ :=
      asked_of_run ⟨1, 0, 1000⟩ true (by decide +kernel)
    refine ⟨{ name := "m".toList, maxBatchSize := 0 }, by decide +kernel, s, hr, hw, hstop, hne,
      hp, ?_⟩
    exact zero_batch_waits hw hstop rfl (by decide)
  · obtain ⟨s, _, hr, hw, hstop, hne, hp⟩ :=
      asked_of_run ⟨1, 2^64 - 1, 1000⟩ true (by decide +kernel)
    refine ⟨{ name := "m".toList, maxBatchSize := 2^64 - 1 }, by decide +kernel, s, hr, hw, hstop,
      hne, hp, ?_⟩
    exact reserve_terminates hw hstop (by decide)

end Jellybean.Model.ModelExecutor
