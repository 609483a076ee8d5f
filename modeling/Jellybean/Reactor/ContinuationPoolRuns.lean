import Jellybean.Reactor.ContinuationPool

namespace Jellybean.Reactor

namespace ContinuationPool

variable {s t : State} {a : Action}

/-- The task that a worker has taken and not yet returned from. -/
def WorkerPc.held : WorkerPc → Option Posted
  | .holding p | .running p => some p
  | _ => none

/-- The queue is what remains of the posted tasks, in their order. -/
structure InOrder (s : State) : Prop where
  taken : s.taken = List.range s.taken.length
  taken_le : s.taken.length ≤ s.posted.length
  queue : s.queue = (s.posted.mapIdx Posted.mk).drop s.taken.length

theorem InOrder.init : InOrder initial := ⟨rfl, le_rfl, rfl⟩

theorem InOrder.congr (h : InOrder s) (hq : t.queue = s.queue) (ht : t.taken = s.taken)
    (hp : t.posted = s.posted) : InOrder t := by
  constructor
  · rw [ht]
    exact h.taken
  · rw [ht, hp]
    exact h.taken_le
  · rw [hq, ht, hp]
    exact h.queue

/-- The front of the queue is the first task not yet taken. -/
theorem InOrder.front (h : InOrder s) {p : Posted} {rest : List Posted} (hq : s.queue = p :: rest) :
    p.id = s.taken.length ∧ s.posted[p.id]? = some p.task ∧
      rest = (s.posted.mapIdx Posted.mk).drop (s.taken.length + 1) := by
  have hlen : s.taken.length < (s.posted.mapIdx Posted.mk).length := by
    by_contra hge
    have := h.queue
    rw [List.drop_eq_nil_of_le (by omega), hq] at this
    cases this
  have hcons := List.drop_eq_getElem_cons hlen
  rw [← h.queue, hq, List.getElem_mapIdx] at hcons
  obtain ⟨hp, hrest⟩ := List.cons.inj hcons
  rw [List.length_mapIdx] at hlen
  refine ⟨by rw [hp], ?_, hrest⟩
  rw [hp]
  exact List.getElem?_eq_getElem hlen

theorem InOrder.step (h : InOrder s) (hm : Moves s a t) : InOrder t := by
  cases hm with
  | post task _ =>
    refine ⟨h.taken, ?_, ?_⟩
    · show s.taken.length ≤ (s.posted ++ [task]).length
      rw [List.length_append]
      exact Nat.le_add_right_of_le h.taken_le
    · show s.queue ++ _ = ((s.posted ++ [task]).mapIdx Posted.mk).drop s.taken.length
      rw [List.mapIdx_concat, List.drop_append_of_le_length (by simpa using h.taken_le), h.queue]
  | take w p rest _ hq =>
    obtain ⟨hid, hp, hrest⟩ := h.front hq
    have hlen : (s.taken ++ [p.id]).length = s.taken.length + 1 := List.length_append
    refine ⟨?_, ?_, ?_⟩
    · show s.taken ++ [p.id] = List.range (s.taken ++ [p.id]).length
      rw [hlen, List.range_succ, ← h.taken, hid]
    · show (s.taken ++ [p.id]).length ≤ s.posted.length
      rw [hlen, ← hid]
      exact (List.getElem?_eq_some_iff.mp hp).1
    · show rest = (s.posted.mapIdx Posted.mk).drop (s.taken ++ [p.id]).length
      rw [hlen, hrest]
  | _ => exact h.congr rfl rfl rfl

/-- Every task that was taken is in the hands of one worker until it is called and returns. -/
structure Ledger (s : State) : Prop where
  held : ∀ w p, (s.workers w).held = some p →
    p.id < s.taken.length ∧ s.posted[p.id]? = some p.task
  apart : ∀ w v p q, w ≠ v → (s.workers w).held = some p → (s.workers v).held = some q →
    p.id ≠ q.id
  holding : ∀ w p, s.workers w = .holding p → p.id ∉ s.started
  running : ∀ w p, s.workers w = .running p →
    p.id ∈ s.started ∧ p.id ∉ s.finished ∧ p.task ≠ none
  started_nodup : s.started.Nodup
  finished_nodup : s.finished.Nodup
  finished_started : ∀ i ∈ s.finished, i ∈ s.started
  started_lt : ∀ i ∈ s.started, i < s.taken.length
  accounted : ∀ i c, i < s.taken.length → s.posted[i]? = some (some c) →
    i ∈ s.finished ∨ ∃ w p, (s.workers w).held = some p ∧ p.id = i

theorem Ledger.init : Ledger initial := by
  constructor <;> simp [initial, WorkerPc.held]

/-- Workers without a task may move. -/
theorem Ledger.idle (h : Ledger s)
    (hw : ∀ w, t.workers w = s.workers w ∨
      (s.workers w).held = none ∧ (t.workers w).held = none)
    (ht : t.taken = s.taken) (hp : t.posted = s.posted) (hs : t.started = s.started)
    (hf : t.finished = s.finished) : Ledger t := by
  have hheld : ∀ w, (t.workers w).held = (s.workers w).held := by
    intro w
    rcases hw w with hw | ⟨hw, hw'⟩
    · rw [hw]
    · rw [hw, hw']
  have hpc : ∀ w p, (t.workers w).held = some p → t.workers w = s.workers w := by
    intro w p hp
    rcases hw w with hw | ⟨-, hw'⟩
    · exact hw
    · rw [hw'] at hp
      cases hp
  constructor
  · simp only [hheld, ht, hp]
    exact h.held
  · simp only [hheld]
    exact h.apart
  · intro w p hh
    rw [hs]
    exact h.holding w p (by rw [← hpc w p (by rw [hh]; rfl), hh])
  · intro w p hh
    rw [hs, hf]
    exact h.running w p (by rw [← hpc w p (by rw [hh]; rfl), hh])
  · rw [hs]
    exact h.started_nodup
  · rw [hf]
    exact h.finished_nodup
  · rw [hs, hf]
    exact h.finished_started
  · rw [hs, ht]
    exact h.started_lt
  · simp only [hheld, ht, hp, hf]
    exact h.accounted

theorem Ledger.post (h : Ledger s) (hle : s.taken.length ≤ s.posted.length) (task : Task) :
    Ledger (post s task) := by
  have hget : ∀ i < s.taken.length, (s.posted ++ [task])[i]? = s.posted[i]? := by
    intro i hi
    exact List.getElem?_append_left (by omega)
  constructor
  · intro w p hp
    obtain ⟨hlt, hq⟩ := h.held w p hp
    exact ⟨hlt, (hget p.id hlt).trans hq⟩
  · exact h.apart
  · exact h.holding
  · exact h.running
  · exact h.started_nodup
  · exact h.finished_nodup
  · exact h.finished_started
  · exact h.started_lt
  · intro i c hi hp
    exact h.accounted i c hi ((hget i hi).symm.trans hp)

theorem held_update (w v : Fin numThreads) (pc : WorkerPc) :
    (Function.update s.workers w pc v).held = if v = w then pc.held else (s.workers v).held := by
  rw [Function.update_apply]
  split <;> rfl

theorem update_eq {w v : Fin numThreads} {pc pc' : WorkerPc}
    (h : Function.update s.workers w pc v = pc') :
    (v = w ∧ pc = pc') ∨ (v ≠ w ∧ s.workers v = pc') := by
  rw [Function.update_apply] at h
  split at h
  · next e => exact .inl ⟨e, h⟩
  · next e => exact .inr ⟨e, h⟩

theorem Ledger.take (h : Ledger s) (ho : InOrder s) {w : Fin numThreads} {p : Posted}
    {rest : List Posted} (hw : s.workers w = .atLoop) (hq : s.queue = p :: rest) :
    Ledger { s with
      queue := rest
      workers := Function.update s.workers w (.holding p)
      taken := s.taken ++ [p.id] } := by
  obtain ⟨hid, hp, -⟩ := ho.front hq
  have hlen : (s.taken ++ [p.id]).length = s.taken.length + 1 := List.length_append
  have hfree : ∀ v q, (s.workers v).held = some q → q.id ≠ p.id := by
    intro v q hv
    have := (h.held v q hv).1
    omega
  constructor
  · intro v q hv
    rw [held_update] at hv
    rw [hlen]
    split at hv
    · cases hv
      exact ⟨by omega, hp⟩
    · obtain ⟨hlt, hq⟩ := h.held v q hv
      exact ⟨by omega, hq⟩
  · intro v u q r hne hv hu
    rw [held_update] at hv hu
    split at hv <;> split at hu
    · exact absurd (by simp_all) hne
    · cases hv
      exact (hfree u r hu).symm
    · cases hu
      exact hfree v q hv
    · exact h.apart v u q r hne hv hu
  · intro v q hv
    rcases update_eq hv with ⟨-, hv⟩ | ⟨hne, hv⟩
    · cases hv
      intro hmem
      have := h.started_lt p.id hmem
      omega
    · exact h.holding v q hv
  · intro v q hv
    rcases update_eq hv with ⟨-, hv⟩ | ⟨hne, hv⟩
    · cases hv
    · exact h.running v q hv
  · exact h.started_nodup
  · exact h.finished_nodup
  · exact h.finished_started
  · intro i hi
    rw [hlen]
    exact Nat.lt_succ_of_lt (h.started_lt i hi)
  · intro i c hi hpost
    rw [hlen] at hi
    by_cases heq : i = p.id
    · refine .inr ⟨w, p, ?_, heq.symm⟩
      rw [held_update, if_pos rfl]
      rfl
    · rcases h.accounted i c (by omega) hpost with hf | ⟨v, q, hv, rfl⟩
      · exact .inl hf
      · refine .inr ⟨v, q, ?_, rfl⟩
        have hne : v ≠ w := by
          intro e
          rw [e, hw] at hv
          cases hv
        rw [held_update, if_neg hne]
        exact hv

/-- `task()`: the worker goes on holding the same task. -/
theorem Ledger.call (h : Ledger s) {w : Fin numThreads} {p : Posted}
    (hw : s.workers w = .holding p) (htask : p.task ≠ none) :
    Ledger { s with
      workers := Function.update s.workers w (.running p)
      started := s.started ++ [p.id] } := by
  have hheld : ∀ v, (Function.update s.workers w (.running p) v).held = (s.workers v).held := by
    intro v
    rw [held_update]
    split
    · next e => rw [e, hw]; rfl
    · rfl
  have hp : (s.workers w).held = some p := by rw [hw]; rfl
  have hfin : p.id ∉ s.finished := fun hf => h.holding w p hw (h.finished_started _ hf)
  constructor
  · simpa only [hheld] using h.held
  · simpa only [hheld] using h.apart
  · intro v q hv
    rcases update_eq hv with ⟨-, hv⟩ | ⟨hne, hv⟩
    · cases hv
    · rw [List.mem_append, List.mem_singleton]
      rintro (hs | hs)
      · exact h.holding v q hv hs
      · exact h.apart v w q p hne (by rw [hv]; rfl) hp hs
  · intro v q hv
    rcases update_eq hv with ⟨-, hv⟩ | ⟨hne, hv⟩
    · cases hv
      exact ⟨by simp, hfin, htask⟩
    · obtain ⟨hs, hf⟩ := h.running v q hv
      exact ⟨List.mem_append_left _ hs, hf⟩
  · rw [List.nodup_append]
    refine ⟨h.started_nodup, List.nodup_singleton _, ?_⟩
    intro i hi j hj e
    rw [List.mem_singleton] at hj
    exact h.holding w p hw (hj ▸ e ▸ hi)
  · exact h.finished_nodup
  · intro i hi
    exact List.mem_append_left _ (h.finished_started i hi)
  · intro i hi
    rcases List.mem_append.mp hi with hi | hi
    · exact h.started_lt i hi
    · rw [List.mem_singleton.mp hi]
      exact (h.held w p hp).1
  · simpa only [hheld] using h.accounted

/-- A task that is not in `unfinished` hands leaves its worker. -/
theorem Ledger.release (h : Ledger s) {w : Fin numThreads} {p : Posted} {finished : List Nat}
    (hw : (s.workers w).held = some p) (hnodup : finished.Nodup)
    (hmem : ∀ i, i ∈ finished ↔ i ∈ s.finished ∨ (i = p.id ∧ p.task ≠ none))
    (hstarted : p.task ≠ none → p.id ∈ s.started) :
    Ledger { s with
      workers := Function.update s.workers w .atLoop
      finished := finished } := by
  have hkeep : ∀ v q, (Function.update s.workers w .atLoop v).held = some q →
      v ≠ w ∧ (s.workers v).held = some q := by
    intro v q hv
    rw [held_update] at hv
    split at hv
    · cases hv
    · next hne => exact ⟨hne, hv⟩
  constructor
  · intro v q hv
    exact h.held v q (hkeep v q hv).2
  · intro v u q r hne hv hu
    exact h.apart v u q r hne (hkeep v q hv).2 (hkeep u r hu).2
  · intro v q hv
    rcases update_eq hv with ⟨-, hv⟩ | ⟨hne, hv⟩
    · cases hv
    · exact h.holding v q hv
  · intro v q hv
    rcases update_eq hv with ⟨-, hv⟩ | ⟨hne, hv⟩
    · cases hv
    obtain ⟨hs, hf, htask⟩ := h.running v q hv
    refine ⟨hs, ?_, htask⟩
    rw [hmem]
    rintro (hf' | ⟨e, -⟩)
    · exact hf hf'
    · exact h.apart v w q p hne (by rw [hv]; rfl) hw e
  · exact h.started_nodup
  · exact hnodup
  · intro i hi
    rcases (hmem i).mp hi with hi | ⟨rfl, hne⟩
    · exact h.finished_started i hi
    · exact hstarted hne
  · exact h.started_lt
  · intro i c hi hpost
    rcases h.accounted i c hi hpost with hf | ⟨v, q, hv, rfl⟩
    · exact .inl ((hmem i).mpr (.inl hf))
    · by_cases hvw : v = w
      · rw [hvw, hw] at hv
        cases hv
        have htask : p.task = some c := Option.some.inj ((h.held w p hw).2.symm.trans hpost)
        exact .inl ((hmem p.id).mpr (.inr ⟨rfl, by rw [htask]; simp⟩))
      · refine .inr ⟨v, q, ?_, rfl⟩
        rw [held_update, if_neg hvw]
        exact hv

theorem Ledger.step (h : Ledger s) (ho : InOrder s) (hm : Moves s a t) : Ledger t := by
  have hmove : ∀ w pc v, (s.workers w).held = none → pc.held = none →
      Function.update s.workers w pc v = s.workers v ∨
        (s.workers v).held = none ∧ (Function.update s.workers w pc v).held = none := by
    intro w pc v hw hpc
    rw [Function.update_apply]
    split
    · next e => exact .inr ⟨e ▸ hw, hpc⟩
    · exact .inl rfl
  cases hm with
  | post task _ => exact h.post ho.taken_le task
  | notifyOne w _ hw =>
    exact h.idle (fun v => hmove w .atLoop v (by rw [hw]; rfl) rfl) rfl rfl rfl rfl
  | notifyNone => exact h.idle (fun _ => .inl rfl) rfl rfl rfl rfl
  | spuriousWake w hw =>
    exact h.idle (fun v => hmove w .atLoop v (by rw [hw]; rfl) rfl) rfl rfl rfl rfl
  | wait w hw =>
    exact h.idle (fun v => hmove w .waiting v (by rw [hw]; rfl) rfl) rfl rfl rfl rfl
  | leave w hw =>
    exact h.idle (fun v => hmove w .returned v (by rw [hw]; rfl) rfl) rfl rfl rfl rfl
  | take w p rest hw hq => exact h.take ho hw hq
  | skip w p hw hp =>
    exact h.release (w := w) (p := p) (by rw [hw]; rfl) h.finished_nodup (by simp [hp])
      (by simp [hp])
  | call w p c hw hp => exact h.call hw (by simp [hp])
  | complete w p c hw hp _ =>
    obtain ⟨hs, hf, -⟩ := h.running w p hw
    refine h.release (w := w) (p := p) (by rw [hw]; rfl) ?_ (by simp [hp]) (fun _ => hs)
    rw [List.nodup_append]
    refine ⟨h.finished_nodup, List.nodup_singleton _, ?_⟩
    intro i hi j hj e
    rw [List.mem_singleton] at hj
    exact hf (hj ▸ e ▸ hi)
  | terminate => exact h.idle (fun _ => .inl rfl) rfl rfl rfl rfl
  | resolve => exact h.idle (fun _ => .inl rfl) rfl rfl rfl rfl
  | stop => exact h.idle (fun _ => .inl rfl) rfl rfl rfl rfl
  | notifyAll =>
    refine h.idle (fun w => ?_) rfl rfl rfl rfl
    by_cases hw : s.workers w = .waiting
    · exact .inr ⟨by rw [hw]; rfl, by simp only [hw, if_true]; rfl⟩
    · exact .inl (if_neg hw)
  | joinOne => exact h.idle (fun _ => .inl rfl) rfl rfl rfl rfl
  | joinLast => exact h.idle (fun _ => .inl rfl) rfl rfl rfl rfl

/-- A worker leaves only after `stopped_` is set and the queue was found empty. -/
structure Shutdown (s : State) : Prop where
  notCalled : s.destructor = .notCalled → s.stopped = false
  before_le : s.postedBeforeStop ≤ s.posted.length
  left : ∀ w, s.workers w = .returned → s.stopped = true ∧ s.postedBeforeStop ≤ s.taken.length
  joined : ∀ i, s.destructor = .joining i → ∀ w : Fin numThreads, w.val < i →
    s.workers w = .returned
  finished : s.destructor = .finished → ∀ w, s.workers w = .returned

theorem Shutdown.init : Shutdown initial := by
  constructor <;> simp [initial]

/-- Steps of the workers and of `post` that let no worker leave. -/
theorem Shutdown.frame (h : Shutdown s) (hd : t.destructor = s.destructor)
    (hs : t.stopped = s.stopped) (hb : t.postedBeforeStop = s.postedBeforeStop)
    (hp : s.posted.length ≤ t.posted.length) (ht : s.taken.length ≤ t.taken.length)
    (hw : ∀ w, t.workers w = .returned ↔ s.workers w = .returned) : Shutdown t := by
  constructor
  · rw [hd, hs]
    exact h.notCalled
  · rw [hb]
    exact h.before_le.trans hp
  · intro w hr
    obtain ⟨hstop, hle⟩ := h.left w ((hw w).mp hr)
    exact ⟨hs.trans hstop, by omega⟩
  · intro i hi w hlt
    exact (hw w).mpr (h.joined i (hd ▸ hi) w hlt)
  · intro hf w
    exact (hw w).mpr (h.finished (hd ▸ hf) w)

theorem Shutdown.step (h : Shutdown s) (ho : InOrder s) (hm : Moves s a t) : Shutdown t := by
  have hmove : ∀ w pc v, s.workers w ≠ .returned → pc ≠ .returned →
      (Function.update s.workers w pc v = .returned ↔ s.workers v = .returned) := by
    intro w pc v hw hpc
    rw [Function.update_apply]
    split
    · next e => simp [e, hw, hpc]
    · rfl
  cases hm with
  | post task _ => exact h.frame rfl rfl rfl (by simp [post]) le_rfl fun _ => Iff.rfl
  | notifyOne w _ hw =>
    exact h.frame rfl rfl rfl le_rfl le_rfl fun v => hmove w _ v (by simp [hw]) (by simp)
  | spuriousWake w hw =>
    exact h.frame rfl rfl rfl le_rfl le_rfl fun v => hmove w _ v (by simp [hw]) (by simp)
  | wait w hw =>
    exact h.frame rfl rfl rfl le_rfl le_rfl fun v => hmove w _ v (by simp [hw]) (by simp)
  | leave w hw hq hs =>
    have hall : s.posted.length ≤ s.taken.length := by
      have := congrArg List.length ho.queue
      simp only [hq, List.length_nil, List.length_drop, List.length_mapIdx] at this
      omega
    constructor
    · exact h.notCalled
    · exact h.before_le
    · intro v hv
      exact ⟨hs, h.before_le.trans hall⟩
    · intro i hi v hlt
      have hv := h.joined i hi v hlt
      show Function.update s.workers w _ v = _
      rw [Function.update_apply, hv, ite_self]
    · intro hf v
      show Function.update s.workers w _ v = _
      rw [Function.update_apply, h.finished hf v, ite_self]
  | take w p rest hw _ =>
    exact h.frame rfl rfl rfl le_rfl (by simp) fun v => hmove w _ v (by simp [hw]) (by simp)
  | skip w p hw _ =>
    exact h.frame rfl rfl rfl le_rfl le_rfl fun v => hmove w _ v (by simp [hw]) (by simp)
  | call w p c hw _ =>
    exact h.frame rfl rfl rfl le_rfl le_rfl fun v => hmove w _ v (by simp [hw]) (by simp)
  | complete w p c hw _ _ =>
    exact h.frame rfl rfl rfl le_rfl le_rfl fun v => hmove w _ v (by simp [hw]) (by simp)
  | notifyNone => exact h.frame rfl rfl rfl le_rfl le_rfl fun _ => Iff.rfl
  | terminate => exact h.frame rfl rfl rfl le_rfl le_rfl fun _ => Iff.rfl
  | resolve => exact h.frame rfl rfl rfl le_rfl le_rfl fun _ => Iff.rfl
  | stop hd =>
    have hnone : ∀ w, s.workers w ≠ .returned := by
      intro w hw
      have := (h.left w hw).1
      rw [h.notCalled hd] at this
      cases this
    constructor
    · simp
    · exact le_rfl
    · intro w hw
      exact absurd hw (hnone w)
    · simp
    · simp
  | notifyAll hd =>
    have hw : ∀ w, (if s.workers w = .waiting then .atLoop else s.workers w) = .returned ↔
        s.workers w = .returned := by
      intro w
      split
      · next e => simp [e]
      · rfl
    constructor
    · simp
    · exact h.before_le
    · intro w hr
      exact h.left w ((hw w).mp hr)
    · intro i hi w hlt
      cases hi
      exact absurd hlt (Nat.not_lt_zero _)
    · simp
  | joinOne i hi hd hw =>
    constructor
    · simp
    · exact h.before_le
    · exact h.left
    · intro j hj w hlt
      cases hj
      rcases Nat.lt_succ_iff_lt_or_eq.mp hlt with hlt | heq
      · exact h.joined i hd w hlt
      · have : w = ⟨i, hi⟩ := Fin.ext heq
        rw [this]
        exact hw
    · simp
  | joinLast i hd hi =>
    constructor
    · simp
    · exact h.before_le
    · exact h.left
    · simp
    · intro _ w
      exact h.joined i hd w (Nat.lt_of_lt_of_le w.isLt hi)

structure Inv (s : State) : Prop where
  inOrder : InOrder s
  ledger : Ledger s
  shutdown : Shutdown s

theorem Inv.of_reachable (h : system.Reachable s) : Inv s := by
  refine h.invariant ?_ ?_
  · rintro s rfl
    exact ⟨.init, .init, .init⟩
  · intro s a t hi hs
    have hm := (step_moves hs).2
    exact ⟨hi.inOrder.step hm, hi.ledger.step hi.inOrder hm, hi.shutdown.step hi.inOrder hm⟩

/-- Tasks leave the queue in the order in which they were posted and none is called before all
those posted earlier have left it; no task is called twice; after the joins every task posted
before the stop was called and has returned once. -/
theorem tasks_taken_in_order (h : system.Reachable s) :
    s.taken = List.range s.taken.length ∧ (∀ i ∈ s.started, ∀ j ≤ i, j ∈ s.taken) ∧
      s.started.Nodup ∧
      (s.destructor = .finished → ∀ i c, i < s.postedBeforeStop → s.posted[i]? = some (some c) →
        s.started.count i = 1 ∧ s.finished.count i = 1) := by
  obtain ⟨ho, hl, hsd⟩ := Inv.of_reachable h
  refine ⟨ho.taken, ?_, hl.started_nodup, ?_⟩
  · intro i hi j hj
    rw [ho.taken, List.mem_range]
    exact Nat.lt_of_le_of_lt hj (hl.started_lt i hi)
  · intro hd i c hi hp
    have hret := hsd.finished hd
    have hlt : i < s.taken.length :=
      Nat.lt_of_lt_of_le hi (hsd.left 0 (hret 0)).2
    have hfin : i ∈ s.finished := by
      rcases hl.accounted i c hlt hp with hf | ⟨w, p, hw, -⟩
      · exact hf
      · rw [hret w] at hw
        cases hw
    exact ⟨List.count_eq_one_of_mem hl.started_nodup (hl.finished_started i hfin),
      List.count_eq_one_of_mem hl.finished_nodup hfin⟩

/-- The destructor runs while the second of two tasks is still in the queue. -/
def drained : List Action :=
  [.post (some ⟨0⟩), .notifyOne none, .post (some ⟨1⟩), .lock 0, .call 0, .stop, .notifyAll,
    .resolve 0 .value, .complete 0, .lock 0, .call 0, .lock 1, .lock 2, .lock 3,
    .resolve 1 .value, .complete 0, .lock 0, .join, .join, .join, .join, .join]

theorem tasks_taken_in_order_drained :
    ∃ s, system.run initial drained = some s ∧ s.destructor = .finished ∧ s.taken = [0, 1] ∧
      s.started.count 1 = 1 ∧ s.finished.count 1 = 1 := by
  have hrun : (system.run initial drained).map
      (fun s => (s.destructor, s.taken, s.postedBeforeStop, s.posted)) =
        some (.finished, [0, 1], 2, [some ⟨0⟩, some ⟨1⟩]) := by
    decide +kernel
  obtain ⟨s, hs, hproj⟩ := Option.map_eq_some_iff.mp hrun
  obtain ⟨hd, ht, hb, hp⟩ : s.destructor = .finished ∧ s.taken = [0, 1] ∧
      s.postedBeforeStop = 2 ∧ s.posted = [some ⟨0⟩, some ⟨1⟩] := by simpa using hproj
  obtain ⟨-, -, -, h⟩ := tasks_taken_in_order (.run (.init rfl) hs)
  exact ⟨s, hs, hd, ht, h hd 1 ⟨1⟩ (by rw [hb]; decide) (by rw [hp]; rfl)⟩

/-- Two workers take one task each, and the one with the later task calls it first. -/
def overtaking : List Action :=
  [.post (some ⟨0⟩), .post (some ⟨1⟩), .lock 0, .lock 1, .call 1, .call 0]

theorem starts_not_in_order :
    ¬ ∀ s, system.Reachable s → s.started.Pairwise (· < ·) := by
  intro h
  have hrun : (system.run initial overtaking).map (fun s => s.started) = some [1, 0] := by
    decide +kernel
  obtain ⟨s, hs, hstarted⟩ := Option.map_eq_some_iff.mp hrun
  have hp := h s (.run (.init rfl) hs)
  rw [hstarted] at hp
  exact absurd hp (by decide)

end ContinuationPool

end Jellybean.Reactor
