import Jellybean.Reactor.ContinuationPoolRuns

namespace Jellybean.Reactor

namespace ContinuationPool

variable {s t : State} {a : Action} {i : Nat}

/-- A task whose call does not return with the futures as they are. -/
def Posted.blocks (futures : Nat → Option Resolution) (p : Posted) : Bool :=
  match p.task with
  | none => false
  | some c => futures c.future ≠ some .value

/-- A worker that can take no task before another future is resolved, or ever. -/
def WorkerPc.stuck (futures : Nat → Option Resolution) : WorkerPc → Bool
  | .returned => true
  | .holding p | .running p => p.blocks futures
  | .atLoop | .waiting => false

def WorkerPc.awake : WorkerPc → Nat
  | .atLoop => 1
  | _ => 0

/-- A weight summed over the workers. -/
def State.tally (s : State) (g : WorkerPc → Nat) : Nat := ∑ w, g (s.workers w)

def State.stuckWorkers (s : State) : Nat := s.tally fun pc => (pc.stuck s.futures).toNat

/-- Tasks in front of task `i` in the queue whose calls will not return. -/
def State.blockedAhead (s : State) (i : Nat) : Nat :=
  s.queue.countP fun p => p.id < i && p.blocks s.futures

/-- The workers that continuation `i` cannot count on: those that are stuck and those that the
tasks in front of it will make stuck. -/
def State.load (s : State) (i : Nat) : Nat := s.stuckWorkers + s.blockedAhead i

/-- Steps of the pool itself: those of its workers, and the `notify_one` of a `post` under way. -/
def Action.ofPool (spurious : Bool) : Action → Prop
  | .notifyOne _ | .lock _ | .call _ | .complete _ => True
  | .spuriousWake _ => spurious
  | .post _ | .resolve _ _ | .stop | .notifyAll | .join => False

/-- The handle of continuation `i` can be scheduled with no further resolution of a future. -/
def CanWake (spurious : Bool) (s : State) (i : Nat) : Prop :=
  system.CanReach (Action.ofPool spurious) (fun t => i ∈ t.finished) s

/-- A waiting worker is left waiting only if those that are awake or about to be woken suffice. -/
def AwakeEnough (s : State) : Prop :=
  (∃ w, s.workers w = .waiting) →
    s.queue.length ≤ s.tally WorkerPc.awake + s.notifying

theorem sum_update {ι β : Type*} [Fintype ι] [DecidableEq ι] (g : β → Nat) (f : ι → β) (w : ι)
    (b : β) : ∑ v, g (Function.update f w b v) + g (f w) = ∑ v, g (f v) + g b := by
  have hrest : ∑ v ∈ Finset.univ.erase w, g (Function.update f w b v) =
      ∑ v ∈ Finset.univ.erase w, g (f v) := by
    apply Finset.sum_congr rfl
    intro v hv
    rw [Function.update_of_ne (Finset.ne_of_mem_erase hv)]
  rw [← Finset.add_sum_erase _ _ (Finset.mem_univ w), hrest, Function.update_self,
    ← Finset.add_sum_erase _ (fun v => g (f v)) (Finset.mem_univ w)]
  omega

theorem tally_update {g : WorkerPc → Nat} {w : Fin numThreads} {pc : WorkerPc}
    (ht : t.workers = Function.update s.workers w pc) :
    t.tally g + g (s.workers w) = s.tally g + g pc := by
  unfold State.tally
  rw [ht]
  exact sum_update g s.workers w pc

theorem AwakeEnough.init : AwakeEnough initial := by
  rintro ⟨w, hw⟩
  cases hw

theorem AwakeEnough.move (h : AwakeEnough s) {w : Fin numThreads} {pc : WorkerPc}
    (ht : t.workers = Function.update s.workers w pc) (hpc : pc ≠ .waiting)
    (hle : t.queue.length + s.notifying + (s.workers w).awake ≤
      s.queue.length + t.notifying + pc.awake) : AwakeEnough t := by
  rintro ⟨v, hv⟩
  rw [ht] at hv
  rcases update_eq hv with ⟨-, e⟩ | ⟨-, hv⟩
  · exact absurd e hpc
  · have := h ⟨v, hv⟩
    have := tally_update (g := WorkerPc.awake) ht
    omega

theorem AwakeEnough.step (h : AwakeEnough s) (hm : Moves s a t) : AwakeEnough t := by
  cases hm with
  | post task _ =>
    intro hex
    have := h hex
    show (s.queue ++ [(⟨s.posted.length, task⟩ : Posted)]).length ≤
      s.tally WorkerPc.awake + (s.notifying + 1)
    rw [List.length_append, List.length_singleton]
    omega
  | notifyOne w hn hw =>
    apply h.move (w := w) rfl (by simp)
    simp only [setWorker, hw, WorkerPc.awake]
    omega
  | notifyNone _ hw =>
    rintro ⟨w, hw'⟩
    exact absurd hw' (hw w)
  | spuriousWake w hw =>
    apply h.move (w := w) rfl (by simp)
    simp only [setWorker, hw, WorkerPc.awake]
    omega
  | wait w hw hq _ =>
    intro _
    show s.queue.length ≤ _
    rw [hq]
    exact Nat.zero_le _
  | leave w hw hq _ =>
    intro _
    show s.queue.length ≤ _
    rw [hq]
    exact Nat.zero_le _
  | take w p rest hw hq =>
    apply h.move (w := w) rfl (by simp)
    simp only [hw, hq, WorkerPc.awake, List.length_cons]
    omega
  | skip w p hw _ =>
    apply h.move (w := w) rfl (by simp)
    simp [setWorker, hw, WorkerPc.awake]
  | call w p c hw _ =>
    apply h.move (w := w) rfl (by simp)
    simp [hw, WorkerPc.awake]
  | complete w p c hw _ _ =>
    apply h.move (w := w) rfl (by simp)
    simp [hw, WorkerPc.awake]
  | notifyAll _ =>
    rintro ⟨w, hw⟩
    simp only at hw
    split at hw
    · cases hw
    · next hne => exact absurd hw hne
  | terminate | resolve | stop | joinOne | joinLast => exact h

theorem stuckWorkers_update {w : Fin numThreads} {pc : WorkerPc}
    (ht : t.workers = Function.update s.workers w pc) (hf : t.futures = s.futures) :
    t.stuckWorkers + ((s.workers w).stuck s.futures).toNat =
      s.stuckWorkers + (pc.stuck s.futures).toNat := by
  unfold State.stuckWorkers
  rw [hf]
  exact tally_update ht

/-- A worker moves on with the same task or without one. -/
theorem load_move {i : Nat} {w : Fin numThreads} {pc : WorkerPc}
    (ht : t.workers = Function.update s.workers w pc) (hq : t.queue = s.queue)
    (hf : t.futures = s.futures)
    (hpc : pc.stuck s.futures = (s.workers w).stuck s.futures) : t.load i = s.load i := by
  have h := stuckWorkers_update ht hf
  rw [hpc] at h
  unfold State.load State.blockedAhead
  rw [hf, hq]
  omega

/-- A worker takes the front: if it does not return, it now counts with the workers. -/
theorem load_take {i : Nat} {w : Fin numThreads} {p : Posted} {rest : List Posted}
    (ht : t.workers = Function.update s.workers w (.holding p)) (hw : s.workers w = .atLoop)
    (hq : s.queue = p :: rest) (hq' : t.queue = rest) (hf : t.futures = s.futures) :
    t.load i + (decide (p.id < i) && p.blocks s.futures).toNat =
      s.load i + (p.blocks s.futures).toNat := by
  have h := stuckWorkers_update ht hf
  have hidle : (s.workers w).stuck s.futures = false := by rw [hw]; rfl
  have hheld : (WorkerPc.holding p).stuck s.futures = p.blocks s.futures := rfl
  rw [hidle, hheld, Bool.toNat_false] at h
  unfold State.load State.blockedAhead
  rw [hf, hq', hq, List.countP_cons]
  cases decide (p.id < i) && p.blocks s.futures <;> simp <;> omega

theorem load_take_eq {i : Nat} {w : Fin numThreads} {p : Posted} {rest : List Posted}
    (ht : t.workers = Function.update s.workers w (.holding p)) (hw : s.workers w = .atLoop)
    (hq : s.queue = p :: rest) (hq' : t.queue = rest) (hf : t.futures = s.futures)
    (hb : p.id < i ∨ p.blocks s.futures = false) : t.load i = s.load i := by
  have h := load_take (i := i) ht hw hq hq' hf
  have heq : (decide (p.id < i) && p.blocks s.futures) = p.blocks s.futures := by
    rcases hb with hb | hb <;> simp [hb]
  rw [heq] at h
  omega

theorem le_load_take {i : Nat} {w : Fin numThreads} {p : Posted} {rest : List Posted}
    (ht : t.workers = Function.update s.workers w (.holding p)) (hw : s.workers w = .atLoop)
    (hq : s.queue = p :: rest) (hq' : t.queue = rest) (hf : t.futures = s.futures) :
    s.load i ≤ t.load i := by
  have h := load_take (i := i) ht hw hq hq' hf
  have hle : (decide (p.id < i) && p.blocks s.futures).toNat ≤ (p.blocks s.futures).toNat := by
    cases p.blocks s.futures with
    | false => simp
    | true => exact Bool.toNat_le _
  omega

theorem load_leave {i : Nat} {w : Fin numThreads} (hw : s.workers w = .atLoop) :
    (setWorker s w .returned).load i = s.load i + 1 := by
  have h := stuckWorkers_update (s := s) (t := setWorker s w .returned) rfl rfl
  have hidle : (s.workers w).stuck s.futures = false := by rw [hw]; rfl
  have hleft : WorkerPc.returned.stuck s.futures = true := rfl
  rw [hidle, hleft, Bool.toNat_false, Bool.toNat_true] at h
  show _ + s.blockedAhead i = s.stuckWorkers + s.blockedAhead i + 1
  omega

theorem load_le_of_moves (hm : Moves s a t) {spurious : Bool} (ha : a.ofPool spurious) (i : Nat) :
    s.load i ≤ t.load i := by
  cases hm with
  | notifyOne w _ hw =>
    refine ge_of_eq (load_move (w := w) rfl rfl rfl ?_)
    rw [hw]
    rfl
  | notifyNone => exact le_rfl
  | spuriousWake w hw =>
    refine ge_of_eq (load_move (w := w) rfl rfl rfl ?_)
    rw [hw]
    rfl
  | wait w hw =>
    refine ge_of_eq (load_move (w := w) rfl rfl rfl ?_)
    rw [hw]
    rfl
  | leave w hw =>
    rw [load_leave hw]
    exact Nat.le_succ _
  | take w p rest hw hq =>
    refine le_load_take (w := w) (p := p) ?_ hw hq ?_ ?_
    · rfl
    · rfl
    · rfl
  | skip w p hw hp =>
    refine ge_of_eq (load_move (w := w) rfl rfl rfl ?_)
    simp [hw, WorkerPc.stuck, Posted.blocks, hp]
  | call w p c hw hp =>
    refine ge_of_eq (load_move (w := w) rfl rfl rfl ?_)
    rw [hw]
    rfl
  | complete w p c hw hp hr =>
    refine ge_of_eq (load_move (w := w) rfl rfl rfl ?_)
    simp [hw, WorkerPc.stuck, Posted.blocks, hp, hr]
  | terminate => exact le_rfl
  | post | resolve | stop | notifyAll | joinOne | joinLast => cases ha

theorem InOrder.le_id (h : InOrder s) {p : Posted} (hp : p ∈ s.queue) : s.taken.length ≤ p.id := by
  rw [h.queue, List.mem_drop_iff_getElem] at hp
  obtain ⟨j, hj, rfl⟩ := hp
  rw [List.getElem_mapIdx]
  exact Nat.le_add_right _ _

theorem stuckWorkers_lt_iff :
    s.stuckWorkers < numThreads ↔ ∃ w, (s.workers w).stuck s.futures = false := by
  have hcard : ∑ _w : Fin numThreads, 1 = numThreads := by simp
  constructor
  · intro h
    by_contra hall
    push Not at hall
    have : s.stuckWorkers = numThreads := by
      rw [← hcard, State.stuckWorkers, State.tally]
      apply Finset.sum_congr rfl
      intro w _
      simp [hall w]
    omega
  · rintro ⟨w, hw⟩
    rw [← hcard, State.stuckWorkers, State.tally]
    apply Finset.sum_lt_sum
    · intro v _
      exact Bool.toNat_le _
    · exact ⟨w, Finset.mem_univ w, by simp [hw]⟩

/-- A continuation in the hands of a worker waits for no other. -/
theorem load_lt_of_held (h : Inv s) {w : Fin numThreads} {p : Posted}
    (hw : (s.workers w).held = some p) (hp : p.blocks s.futures = false) :
    s.load p.id < numThreads := by
  have hfree : (s.workers w).stuck s.futures = false := by
    cases hpc : s.workers w <;> simp_all [WorkerPc.held, WorkerPc.stuck]
  have hahead : s.blockedAhead p.id = 0 := by
    apply List.countP_eq_zero.mpr
    intro q hq
    have := h.inOrder.le_id hq
    have := (h.ledger.held w p hw).1
    simp
    omega
  unfold State.load
  rw [hahead]
  exact stuckWorkers_lt_iff.mpr ⟨w, hfree⟩

/-- What continuation `i` needs: the process is alive, its future holds a value and fewer workers
than there are will be taken up by tasks that do not return. -/
def Unobstructed (s : State) (i : Nat) (c : Continuation) : Prop :=
  s.terminated = false ∧ s.futures c.future = some .value ∧ s.load i < numThreads

theorem not_finished_step (h : Inv s) {c : Continuation} (hp : s.posted[i]? = some (some c))
    (hfin : i ∉ s.finished) (hobs : ¬ Unobstructed s i c) {spurious : Bool}
    (ha : a.ofPool spurious) (ht : step s a = some t) :
    t.posted[i]? = some (some c) ∧ i ∉ t.finished ∧ ¬ Unobstructed t i c := by
  obtain ⟨hterm, hm⟩ := step_moves ht
  have hload := load_le_of_moves hm ha i
  have hobs' : t.futures = s.futures → ¬ Unobstructed t i c := by
    rintro hf ⟨-, hv, hlt⟩
    exact hobs ⟨hterm, hf ▸ hv, by omega⟩
  cases hm with
  | complete w p d hw hd hr =>
    refine ⟨hp, ?_, hobs' rfl⟩
    intro hmem
    rcases List.mem_append.mp hmem with hmem | hmem
    · exact hfin hmem
    · rw [List.mem_singleton] at hmem
      subst hmem
      have hheld : (s.workers w).held = some p := by rw [hw]; rfl
      have htask : d = c := by
        have := (h.ledger.held w p hheld).2.symm.trans hp
        rw [hd] at this
        simpa using this
      subst htask
      exact hobs ⟨hterm, hr, load_lt_of_held h hheld (by simp [Posted.blocks, hd, hr])⟩
  | post | resolve | stop | notifyAll | joinOne | joinLast => cases ha
  | _ => exact ⟨hp, hfin, hobs' rfl⟩

/-- What is left to do for continuation `i`: the tasks up to it that are still to be taken, the
steps of the tasks that are held, and the pending notifications. -/
def WorkerPc.toDo : WorkerPc → Nat
  | .holding _ => 2
  | .running _ => 1
  | .atLoop | .waiting | .returned => 0

def remaining (i : Nat) (s : State) : Nat :=
  3 * (i + 1 - s.taken.length) + s.tally WorkerPc.toDo + s.notifying

/-- The state from which a pool step towards continuation `i` is looked for. -/
structure Pending (s : State) (i : Nat) (c : Continuation) : Prop where
  reachable : system.Reachable s
  posted : s.posted[i]? = some (some c)
  open_ : Unobstructed s i c

theorem AwakeEnough.of_reachable (h : system.Reachable s) : AwakeEnough s := by
  refine h.invariant ?_ ?_
  · rintro s rfl
    exact .init
  · intro s a t hs ht
    exact hs.step (step_moves ht).2

variable {c : Continuation}

/-- Some pool step brings continuation `i` nearer to its wake-up. -/
def Helped (s : State) (i : Nat) (c : Continuation) : Prop :=
  ∃ a t, Action.ofPool false a ∧ step s a = some t ∧ Pending t i c ∧ remaining i t < remaining i s

theorem Pending.helped (h : Pending s i c) (hm : Moves s a t) (ha : a.ofPool false)
    (hp : t.posted = s.posted) (hterm : t.terminated = s.terminated) (hf : t.futures = s.futures)
    (hl : t.load i = s.load i) (hlt : remaining i t < remaining i s) : Helped s i c := by
  obtain ⟨hr, hpost, hs, hv, hlt'⟩ := h
  have hstep := hm.step_eq hs
  exact ⟨a, t, ha, hstep, ⟨hr.next hstep, hp ▸ hpost, hterm.trans hs, hf ▸ hv, hl ▸ hlt'⟩, hlt⟩

theorem remaining_update {w : Fin numThreads} {pc : WorkerPc}
    (ht : t.workers = Function.update s.workers w pc) (htaken : t.taken = s.taken)
    (hlt : t.notifying + pc.toDo < s.notifying + (s.workers w).toDo) :
    remaining i t < remaining i s := by
  have := tally_update (g := WorkerPc.toDo) ht
  unfold remaining
  rw [htaken]
  omega

theorem remaining_take {w : Fin numThreads} {p : Posted}
    (ht : t.workers = Function.update s.workers w (.holding p)) (hw : s.workers w = .atLoop)
    (htaken : t.taken = s.taken ++ [p.id]) (hn : t.notifying = s.notifying)
    (hi : s.taken.length ≤ i) : remaining i t < remaining i s := by
  have htally := tally_update (g := WorkerPc.toDo) ht
  have hidle : WorkerPc.atLoop.toDo = 0 := rfl
  have hheld : (WorkerPc.holding p).toDo = 2 := rfl
  rw [hw, hidle, hheld] at htally
  unfold remaining
  rw [htaken, hn, List.length_append, List.length_singleton]
  omega

theorem Pending.notify (h : Pending s i c) (hn : 0 < s.notifying) : Helped s i c := by
  by_cases hw : ∃ w, s.workers w = .waiting
  · obtain ⟨w, hw⟩ := hw
    refine h.helped (.notifyOne w hn hw) trivial rfl rfl rfl ?_ ?_
    · refine load_move (w := w) rfl rfl rfl ?_
      rw [hw]
      rfl
    · refine remaining_update (w := w) rfl rfl ?_
      rw [hw]
      exact Nat.sub_lt hn Nat.one_pos
  · refine h.helped (.notifyNone hn fun w hw' => hw ⟨w, hw'⟩) trivial rfl rfl rfl rfl ?_
    exact Nat.add_lt_add_left (Nat.sub_lt hn Nat.one_pos) _

/-- A worker whose task returns goes on with it. -/
theorem Pending.advance (h : Pending s i c) {w : Fin numThreads} {p : Posted}
    (hw : (s.workers w).held = some p) (hp : p.blocks s.futures = false) : Helped s i c := by
  have hi := Inv.of_reachable h.reachable
  cases hpc : s.workers w with
  | holding q =>
    rw [hpc] at hw
    cases hw
    cases htask : p.task with
    | none =>
      refine h.helped (.skip w p hpc htask) trivial rfl rfl rfl ?_ ?_
      · refine load_move (w := w) rfl rfl rfl ?_
        rw [hpc]
        exact hp.symm
      · refine remaining_update (w := w) rfl rfl ?_
        rw [hpc]
        exact Nat.lt_add_of_pos_right Nat.two_pos
    | some d =>
      refine h.helped (.call w p d hpc htask) trivial rfl rfl rfl ?_ ?_
      · refine load_move (w := w) rfl rfl rfl ?_
        rw [hpc]
        rfl
      · refine remaining_update (w := w) rfl rfl ?_
        rw [hpc]
        exact Nat.lt_succ_self _
  | running q =>
    rw [hpc] at hw
    cases hw
    obtain ⟨d, htask⟩ := Option.ne_none_iff_exists'.mp (hi.ledger.running w p hpc).2.2
    have hv : s.futures d.future = some .value := by simpa [Posted.blocks, htask] using hp
    refine h.helped (.complete w p d hpc htask hv) trivial rfl rfl rfl ?_ ?_
    · refine load_move (w := w) rfl rfl rfl ?_
      rw [hpc]
      exact hp.symm
    · refine remaining_update (w := w) rfl rfl ?_
      rw [hpc]
      exact Nat.lt_succ_self _
  | atLoop | waiting | returned =>
    rw [hpc] at hw
    cases hw

theorem Pending.not_blocks (h : Pending s i c) {p : Posted} (hid : p.id = i)
    (hp : s.posted[p.id]? = some p.task) : p.blocks s.futures = false := by
  have htask : p.task = some c := by
    rw [hid, h.posted] at hp
    exact (Option.some.inj hp).symm
  simp [Posted.blocks, htask, h.open_.2.1]

theorem Pending.take (h : Pending s i c) {w : Fin numThreads} {p : Posted} {rest : List Posted}
    (hi : s.taken.length ≤ i) (hw : s.workers w = .atLoop) (hq : s.queue = p :: rest) :
    Helped s i c := by
  obtain ⟨hid, hp, -⟩ := (Inv.of_reachable h.reachable).inOrder.front hq
  refine h.helped (.take w p rest hw hq) trivial rfl rfl rfl ?_ ?_
  · refine load_take_eq (w := w) (p := p) ?_ hw hq ?_ ?_ ?_
    · rfl
    · rfl
    · rfl
    · rcases Nat.lt_or_eq_of_le (hid ▸ hi) with hlt | heq
      · exact .inl hlt
      · exact .inr (h.not_blocks heq hp)
  · exact remaining_take rfl hw rfl rfl hi

theorem Pending.progress (h : Pending s i c) : i ∈ s.finished ∨ Helped s i c := by
  have hinv := Inv.of_reachable h.reachable
  by_cases hn : 0 < s.notifying
  · exact .inr (h.notify hn)
  by_cases hi : i < s.taken.length
  · rcases hinv.ledger.accounted i c hi h.posted with hf | ⟨w, p, hw, hid⟩
    · exact .inl hf
    · exact .inr (h.advance hw (h.not_blocks hid (hinv.ledger.held w p hw).2))
  right
  cases hq : s.queue with
  | nil =>
    -- continuation `i` has not been taken, so that it stands in the queue
    have hlen := congrArg List.length hinv.inOrder.queue
    rw [hq, List.length_nil, List.length_drop, List.length_mapIdx] at hlen
    have := (List.getElem?_eq_some_iff.mp h.posted).1
    omega
  | cons p rest =>
    by_cases hw : ∃ w, s.workers w = .atLoop
    · obtain ⟨w, hw⟩ := hw
      exact h.take (Nat.le_of_not_lt hi) hw hq
    · have hasleep : ∀ w, s.workers w ≠ .waiting := by
        intro w hwait
        have henough := AwakeEnough.of_reachable h.reachable ⟨w, hwait⟩
        have hnone : s.tally WorkerPc.awake = 0 := by
          apply Finset.sum_eq_zero
          intro v _
          cases hv : s.workers v with
          | atLoop => exact absurd ⟨v, hv⟩ hw
          | _ => rfl
        rw [hnone, hq, List.length_cons] at henough
        omega
      have hfree : s.stuckWorkers < numThreads :=
        Nat.lt_of_le_of_lt (Nat.le_add_right _ _) h.open_.2.2
      obtain ⟨w, hfree⟩ := stuckWorkers_lt_iff.mp hfree
      cases hpc : s.workers w with
      | atLoop => exact absurd ⟨w, hpc⟩ hw
      | waiting => exact absurd hpc (hasleep w)
      | returned =>
        rw [hpc] at hfree
        cases hfree
      | holding q =>
        rw [hpc] at hfree
        exact h.advance (by rw [hpc]; rfl) hfree
      | running q =>
        rw [hpc] at hfree
        exact h.advance (by rw [hpc]; rfl) hfree

theorem unobstructed_of_canWake {spurious : Bool} (hr : system.Reachable s)
    (hp : s.posted[i]? = some (some c)) (h : CanWake spurious s i) :
    i ∈ s.finished ∨ Unobstructed s i c := by
  by_contra hnot
  push Not at hnot
  have hkeep : ∀ s a t, (system.Reachable s ∧ s.posted[i]? = some (some c) ∧ i ∉ s.finished ∧
      ¬ Unobstructed s i c) → Action.ofPool spurious a → system.step s a = some t →
      system.Reachable t ∧ t.posted[i]? = some (some c) ∧ i ∉ t.finished ∧
        ¬ Unobstructed t i c := by
    rintro s a t ⟨hr, hp, hfin, hobs⟩ ha ht
    exact ⟨hr.next ht, not_finished_step (Inv.of_reachable hr) hp hfin hobs ha ht⟩
  obtain ⟨t, ht, hmem⟩ := h.elim hkeep ⟨hr, hp, hnot⟩
  exact ht.2.2.1 hmem

theorem canWake_of_unobstructed (spurious : Bool) (hr : system.Reachable s)
    (hp : s.posted[i]? = some (some c)) (h : Unobstructed s i c) : CanWake spurious s i := by
  refine System.CanReach.of_variant (Q := fun t => Pending t i c) (remaining i) ?_ ⟨hr, hp, h⟩
  intro t ht
  rcases ht.progress with hfin | ⟨a, u, ha, hu, hnext, hlt⟩
  · exact .inl hfin
  · refine .inr ⟨a, u, ?_, hu, hnext, hlt⟩
    cases a <;> trivial

/-- The wake-up of a continuation depends on nothing but the process being alive, its future
holding a value, and one worker being left over for it. -/
theorem wake_up_possible_iff (spurious : Bool) (hr : system.Reachable s)
    (hp : s.posted[i]? = some (some c)) :
    CanWake spurious s i ↔ i ∈ s.finished ∨ Unobstructed s i c := by
  constructor
  · exact unobstructed_of_canWake hr hp
  · rintro (hfin | hopen)
    · exact .here hfin
    · exact canWake_of_unobstructed spurious hr hp hopen

/-- Four continuations whose futures are not resolved, and a fifth one whose future is. -/
def crowded : List Action :=
  [.post (some ⟨0⟩), .post (some ⟨1⟩), .post (some ⟨2⟩), .post (some ⟨3⟩), .post (some ⟨4⟩),
    .notifyOne none, .notifyOne none, .notifyOne none, .notifyOne none, .notifyOne none,
    .resolve 4 .value]

/-- One continuation less in front. -/
def spared : List Action :=
  [.post (some ⟨0⟩), .post (some ⟨1⟩), .post (some ⟨2⟩), .post (some ⟨3⟩), .notifyOne none,
    .resolve 3 .value]

theorem wake_up_possible_spared :
    ∃ s, system.run initial spared = some s ∧ CanWake false s 3 := by
  have hrun : (system.run initial spared).map
      (fun s => (s.terminated, s.futures 3, s.load 3, s.posted[3]?)) =
        some (false, some .value, 3, some (some ⟨3⟩)) := by
    decide +kernel
  obtain ⟨s, hs, hproj⟩ := Option.map_eq_some_iff.mp hrun
  obtain ⟨hterm, hv, hload, hp⟩ : s.terminated = false ∧ s.futures 3 = some .value ∧
      s.load 3 = 3 ∧ s.posted[3]? = some (some ⟨3⟩) := by simpa using hproj
  refine ⟨s, hs, (wake_up_possible_iff false (.run (.init rfl) hs) hp).mpr (.inr ⟨hterm, hv, ?_⟩)⟩
  rw [hload]
  decide

/-- The fifth continuation waits for one of the four in front of it. -/
theorem resolved_waits_for_unresolved :
    ¬ ∀ s i c, system.Reachable s → s.posted[i]? = some (some c) → s.futures c.future ≠ none →
      CanWake true s i := by
  intro h
  have hrun : (system.run initial crowded).map
      (fun s => (s.finished, s.futures 4, s.load 4, s.posted[4]?)) =
        some ([], some .value, 4, some (some ⟨4⟩)) := by
    decide +kernel
  obtain ⟨s, hs, hproj⟩ := Option.map_eq_some_iff.mp hrun
  obtain ⟨hfin, hv, hload, hp⟩ : s.finished = [] ∧ s.futures 4 = some .value ∧
      s.load 4 = 4 ∧ s.posted[4]? = some (some ⟨4⟩) := by simpa using hproj
  have hr : system.Reachable s := .run (.init rfl) hs
  rcases unobstructed_of_canWake hr hp (h s 4 ⟨4⟩ hr hp (by simp [hv])) with hmem | ⟨-, -, hlt⟩
  · rw [hfin] at hmem
    cases hmem
  · rw [hload] at hlt
    exact absurd hlt (by decide)

end ContinuationPool

end Jellybean.Reactor
