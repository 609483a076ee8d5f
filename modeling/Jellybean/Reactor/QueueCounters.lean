import Jellybean.Concurrency.MpmcQueueFifo
import Jellybean.Model.ModelExecutorWakeup
import Jellybean.Reactor.ExternalPending
import Mathlib.Data.ZMod.Basic

namespace Jellybean.Reactor

open Concurrency MpmcQueue

namespace ExternalPending

variable {ι α : Type*} [DecidableEq ι] {s u : State ι α}

/-- A push of thread `i` has claimed its ticket and is not in `external_pending_` yet. -/
def Adding (s : State ι α) (i : ι) : Prop :=
  (s.queue.threads i).phase = .offered ∨ s.pcs i = .fetchAdd

/-- A pop of thread `i` has claimed its ticket, which is still in `external_pending_`. -/
def Subtracting (s : State ι α) (i : ι) : Prop :=
  (∃ k, (s.queue.threads i).phase = .took k) ∨ s.pcs i = .fetchSub

/-- The operation of the queue that a thread is in. -/
def Fits : Pc α → Phase α → Prop
  | .pushing h, ph => ph = .offering h ∨ ph = .offered
  | .popping, ph => ph = .seeking ∨ ∃ k, ph = .took k
  | _, ph => ph = .idle

theorem outside_ne {pc : Pc α} (h : pc.outside = true) : pc ≠ .fetchAdd ∧ pc ≠ .fetchSub := by
  constructor
  · intro he
    rw [he] at h
    cases h
  · intro he
    rw [he] at h
    cases h

theorem fits_outside {pc : Pc α} {ph : Phase α} (h : pc.outside = true) :
    Fits pc ph ↔ ph = .idle := by
  cases pc with
  | pushing _ | fetchAdd | popping | fetchSub => cases h
  | _ => exact Iff.rfl

/-- The ring invariant, every thread is inside the operation its program counter says, and the
counter runs behind the queue modulo `2^64`. -/
structure Inv (s : State ι α) : Prop where
  ring : RingInv capacity s.queue
  fits : ∀ i, Fits (s.pcs i) (s.queue.threads i).phase
  bound : s.externalPending < 2^64
  counted : SideCounter (Adding s) (Subtracting s) (s.externalPending : ZMod (2^64))
    (s.queue.pushed.length - s.queue.popped.length)

omit [DecidableEq ι] in
theorem inv_initial : Inv (initial : State ι α) where
  ring := .of_initial
  fits := fun _ => rfl
  bound := Nat.two_pow_pos 64
  counted := by
    refine (SideCounter.start ?_ ?_).congr (fun _ => Iff.rfl) fun _ => Iff.rfl
    · intro i h
      rcases h with h | h <;> cases h
    · intro i h
      rcases h with ⟨k, h⟩ | h <;> cases h

/-- Only thread `i` has moved. -/
structure Turn (s : State ι α) (i : ι) (u : State ι α) : Prop where
  threads : ∀ j, j ≠ i → u.queue.threads j = s.queue.threads j
  pcs : ∀ j, j ≠ i → u.pcs j = s.pcs j

namespace Turn

variable {i : ι}

omit [DecidableEq ι]

theorem adding (h : Turn s i u) {j : ι} (hj : j ≠ i) : Adding u j ↔ Adding s j := by
  rw [Adding, h.threads j hj, h.pcs j hj, Adding]

theorem subtracting (h : Turn s i u) {j : ι} (hj : j ≠ i) : Subtracting u j ↔ Subtracting s j := by
  rw [Subtracting, h.threads j hj, h.pcs j hj, Subtracting]

theorem adding_all (h : Turn s i u) (hi : Adding u i ↔ Adding s i) (j : ι) :
    Adding u j ↔ Adding s j := by
  rcases eq_or_ne j i with rfl | hj
  · exact hi
  · exact h.adding hj

theorem subtracting_all (h : Turn s i u) (hi : Subtracting u i ↔ Subtracting s i) (j : ι) :
    Subtracting u j ↔ Subtracting s j := by
  rcases eq_or_ne j i with rfl | hj
  · exact hi
  · exact h.subtracting hj

theorem fits (h : Turn s i u) (hs : Inv s) (hi : Fits (u.pcs i) (u.queue.threads i).phase)
    (j : ι) : Fits (u.pcs j) (u.queue.threads j).phase := by
  rcases eq_or_ne j i with rfl | hj
  · exact hi
  · rw [h.pcs j hj, h.threads j hj]
    exact hs.fits j

end Turn

namespace Inv

variable {i : ι}

omit [DecidableEq ι] in
/-- Thread `i` claims nothing and counts nothing. -/
theorem keep (h : Inv s) (ht : Turn s i u) (hr : RingInv capacity u.queue)
    (hf : Fits (u.pcs i) (u.queue.threads i).phase) (ha : Adding u i ↔ Adding s i)
    (hs : Subtracting u i ↔ Subtracting s i) (hpu : u.queue.pushed = s.queue.pushed)
    (hpo : u.queue.popped = s.queue.popped) (he : u.externalPending = s.externalPending) :
    Inv u where
  ring := hr
  fits := ht.fits h hf
  bound := he ▸ h.bound
  counted := by
    rw [he, hpu, hpo]
    exact h.counted.congr (ht.adding_all ha) (ht.subtracting_all hs)

omit [DecidableEq ι] in
theorem claimPush (h : Inv s) (ht : Turn s i u) (hr : RingInv capacity u.queue)
    (hf : Fits (u.pcs i) (u.queue.threads i).phase) (h0 : ¬Adding s i) (h1 : Adding u i)
    (hs : Subtracting u i ↔ Subtracting s i)
    (hpu : u.queue.pushed.length = s.queue.pushed.length + 1)
    (hpo : u.queue.popped = s.queue.popped) (he : u.externalPending = s.externalPending) :
    Inv u where
  ring := hr
  fits := ht.fits h hf
  bound := he ▸ h.bound
  counted := by
    have hheld : (u.queue.pushed.length - u.queue.popped.length : ℤ) =
        s.queue.pushed.length - s.queue.popped.length + 1 := by
      rw [hpu, hpo]
      push_cast
      ring
    rw [he, hheld]
    refine (h.counted.put h0 ?_).congr (fun _ => Iff.rfl) (ht.subtracting_all hs)
    intro j
    rcases eq_or_ne j i with rfl | hj
    · simp [h1]
    · simp [ht.adding hj, hj]

omit [DecidableEq ι] in
theorem claimPop (h : Inv s) (ht : Turn s i u) (hr : RingInv capacity u.queue)
    (hf : Fits (u.pcs i) (u.queue.threads i).phase) (ha : Adding u i ↔ Adding s i)
    (h0 : ¬Subtracting s i) (h1 : Subtracting u i) (hpu : u.queue.pushed = s.queue.pushed)
    (hpo : u.queue.popped.length = s.queue.popped.length + 1)
    (he : u.externalPending = s.externalPending) : Inv u where
  ring := hr
  fits := ht.fits h hf
  bound := he ▸ h.bound
  counted := by
    have hheld : (u.queue.pushed.length - u.queue.popped.length : ℤ) =
        s.queue.pushed.length - s.queue.popped.length - 1 := by
      rw [hpu, hpo]
      push_cast
      ring
    rw [he, hheld]
    refine (h.counted.take h0 ?_).congr (ht.adding_all ha) fun _ => Iff.rfl
    intro j
    rcases eq_or_ne j i with rfl | hj
    · simp [h1]
    · simp [ht.subtracting hj, hj]

omit [DecidableEq ι] in
theorem fetchAdd (h : Inv s) (ht : Turn s i u) (hq : u.queue = s.queue)
    (hf : Fits (u.pcs i) (u.queue.threads i).phase) (h0 : Adding s i) (h1 : ¬Adding u i)
    (hs : Subtracting u i ↔ Subtracting s i)
    (he : u.externalPending = (s.externalPending + 1) % 2^64) : Inv u where
  ring := hq ▸ h.ring
  fits := ht.fits h hf
  bound := he ▸ Nat.mod_lt _ (Nat.two_pow_pos 64)
  counted := by
    have hc : (u.externalPending : ZMod (2^64)) = s.externalPending + 1 := by
      rw [he, ZMod.natCast_mod]
      push_cast
      rfl
    rw [hc, hq]
    refine (h.counted.add h0 ?_).congr (fun _ => Iff.rfl) (ht.subtracting_all hs)
    intro j
    rcases eq_or_ne j i with rfl | hj
    · simp [h1]
    · simp [ht.adding hj, hj]

omit [DecidableEq ι] in
theorem fetchSub (h : Inv s) (ht : Turn s i u) (hq : u.queue = s.queue)
    (hf : Fits (u.pcs i) (u.queue.threads i).phase) (ha : Adding u i ↔ Adding s i)
    (h0 : Subtracting s i) (h1 : ¬Subtracting u i)
    (he : u.externalPending = (s.externalPending + (2^64 - 1)) % 2^64) : Inv u where
  ring := hq ▸ h.ring
  fits := ht.fits h hf
  bound := he ▸ Nat.mod_lt _ (Nat.two_pow_pos 64)
  counted := by
    have hwrap : ((2^64 - 1 : Nat) : ZMod (2^64)) = -1 := by decide
    have hc : (u.externalPending : ZMod (2^64)) = s.externalPending - 1 := by
      rw [he, ZMod.natCast_mod, Nat.cast_add, hwrap, sub_eq_add_neg]
    rw [hc, hq]
    refine (h.counted.subtract h0 ?_).congr (ht.adding_all ha) fun _ => Iff.rfl
    intro j
    rcases eq_or_ne j i with rfl | hj
    · simp [h1]
    · simp [ht.subtracting hj, hj]

/-- A thread outside the queue goes on outside it. -/
theorem goes (h : Inv s) {pc : Pc α} (h0 : (s.pcs i).outside = true) (h1 : pc.outside = true)
    (hq : u.queue = s.queue) (he : u.externalPending = s.externalPending)
    (hp : u.pcs = Function.update s.pcs i pc) : Inv u := by
  have hidle : (s.queue.threads i).phase = .idle := (fits_outside h0).mp (h.fits i)
  have hpc : u.pcs i = pc := by rw [hp, Function.update_self]
  have ht : Turn s i u := ⟨fun j _ => by rw [hq], fun j hj => by rw [hp, Function.update_of_ne hj]⟩
  refine h.keep ht (hq ▸ h.ring) ?_ ?_ ?_ (by rw [hq]) (by rw [hq]) he
  · rw [hpc, hq]
    exact (fits_outside h1).mpr hidle
  · simp [Adding, hq, hpc, hidle, outside_ne h0, outside_ne h1]
  · simp [Subtracting, hq, hpc, hidle, outside_ne h0, outside_ne h1]

/-- A thread inside a push makes a step of it. -/
theorem pushTurn (h : Inv s) {item : α} {q : MpmcQueue.State ι α} (h0 : s.pcs i = .pushing item)
    (hm : MpmcQueue.Moves capacity s.queue i q) : Inv { s with queue := q } := by
  have hfit := h.fits i
  have ht : Turn s i { s with queue := q } := ⟨fun j hj => hm.frame hj, fun _ _ => rfl⟩
  rw [h0] at hfit
  cases hm.effect with
  | quiet hl hp hd =>
    refine h.keep ht (h.ring.moves hm) ?_ ?_ ?_ hp hd rfl
    · rw [hl, h0]
      exact hfit
    · rw [Adding, Adding, hl]
    · rw [Subtracting, Subtracting, hl]
  | claimedPush hs hu hp hd =>
    refine h.claimPush ht (h.ring.moves hm) ?_ ?_ (.inl hu) ?_ (by simp [hp]) hd rfl
    · rw [hu, h0]
      exact .inr rfl
    · simp [Adding, hs, h0]
    · simp [Subtracting, hs, hu]
  | claimedPop hs _ _ _ => simp [Fits, hs] at hfit

theorem popTurn (h : Inv s) {q : MpmcQueue.State ι α} (h0 : s.pcs i = .popping)
    (hm : MpmcQueue.Moves capacity s.queue i q) : Inv { s with queue := q } := by
  have hfit := h.fits i
  have ht : Turn s i { s with queue := q } := ⟨fun j hj => hm.frame hj, fun _ _ => rfl⟩
  rw [h0] at hfit
  cases hm.effect with
  | quiet hl hp hd =>
    refine h.keep ht (h.ring.moves hm) ?_ ?_ ?_ hp hd rfl
    · rw [hl, h0]
      exact hfit
    · rw [Adding, Adding, hl]
    · rw [Subtracting, Subtracting, hl]
  | claimedPush hs _ _ _ => simp [Fits, hs] at hfit
  | claimedPop hs hu hp hd =>
    refine h.claimPop ht (h.ring.moves hm) ?_ ?_ ?_ (.inl ⟨_, hu⟩) hp (by simp [hd]) rfl
    · rw [hu, h0]
      exact .inr ⟨_, rfl⟩
    · simp [Adding, hs, hu]
    · simp [Subtracting, hs, h0]

/-- A thread enters or leaves an operation of the queue. -/
theorem sets (h : Inv s) {a : MpmcQueue.Action ι α} {l : Local α} {pc : Pc α}
    (hr : queueStep s a = some u.queue) (hq : u.queue = s.queue.set i l)
    (hp : u.pcs = Function.update s.pcs i pc) (he : u.externalPending = s.externalPending)
    (hf : Fits pc l.phase) (ha : (l.phase = .offered ∨ pc = .fetchAdd) ↔ Adding s i)
    (hs : ((∃ k, l.phase = .took k) ∨ pc = .fetchSub) ↔ Subtracting s i) : Inv u := by
  have hl : u.queue.threads i = l := by
    rw [hq, State.set_threads, Function.update_self]
  have hpc : u.pcs i = pc := by rw [hp, Function.update_self]
  have ht : Turn s i u :=
    ⟨fun j hj => by rw [hq, s.queue.set_frame hj], fun j hj => by rw [hp, Function.update_of_ne hj]⟩
  refine h.keep ht (h.ring.step hr) ?_ ?_ ?_ (by rw [hq]; rfl) (by rw [hq]; rfl) he
  · rwa [hl, hpc]
  · rwa [Adding, hl, hpc]
  · rwa [Subtracting, hl, hpc]

theorem moves (h : Inv s) (hm : ExternalPending.Moves s u) : Inv u := by
  cases hm with
  | still hq he hp =>
    refine ⟨hq ▸ h.ring, fun i => ?_, he ▸ h.bound, ?_⟩
    · rw [hq, hp]
      exact h.fits i
    · rw [hq, he]
      refine h.counted.congr (fun i => ?_) fun i => ?_
      · rw [Adding, hq, hp, Adding]
      · rw [Subtracting, hq, hp, Subtracting]
  | goes h0 h1 hq he hp => exact h.goes h0 h1 hq he hp
  | @callPush i item q h0 hq =>
    obtain ⟨hl, hset⟩ := step_callPush hq
    refine h.sets hq hset rfl rfl (.inl rfl) ?_ ?_
    · simp [Adding, hl, h0, Local.phase]
    · simp [Subtracting, hl, h0, Local.phase]
  | pushTurn h0 hq => exact h.pushTurn h0 (MpmcQueue.moves_of_advance hq)
  | pushed h0 hl hq =>
    refine h.sets hq (step_ret hq) rfl rfl rfl ?_ ?_
    · simp [Adding, hl, h0, Local.phase]
    · simp [Subtracting, hl, h0, Local.phase]
  | refused h0 hl hq =>
    refine h.sets hq (step_ret hq) rfl rfl rfl ?_ ?_
    · simp [Adding, hl, h0, Local.phase]
    · simp [Subtracting, hl, h0, Local.phase]
  | @fetchAdd i h0 =>
    have hfit := h.fits i
    rw [h0] at hfit
    have hidle : (s.queue.threads i).phase = .idle := hfit
    refine h.fetchAdd (i := i) ⟨fun _ _ => rfl, fun j hj => Function.update_of_ne hj ..⟩ rfl ?_
      (.inr h0) ?_ ?_ rfl
    · simpa [State.goto, Fits] using hidle
    · simp [Adding, State.goto, hidle]
    · simp [Subtracting, State.goto, hidle, h0]
  | callPop h0 hq =>
    obtain ⟨hl, hset⟩ := step_callPop hq
    refine h.sets hq hset rfl rfl (.inl rfl) ?_ ?_
    · simp [Adding, hl, h0, Local.phase]
    · simp [Subtracting, hl, h0, Local.phase]
  | popTurn h0 hq => exact h.popTurn h0 (MpmcQueue.moves_of_advance hq)
  | popped h0 hl hq =>
    refine h.sets hq (step_ret hq) rfl rfl rfl ?_ ?_
    · simp [Adding, hl, h0, Local.phase]
    · simp [Subtracting, hl, h0, Local.phase]
  | popEmpty h0 hl hq =>
    refine h.sets hq (step_ret hq) rfl rfl rfl ?_ ?_
    · simp [Adding, hl, h0, Local.phase]
    · simp [Subtracting, hl, h0, Local.phase]
  | @fetchSub i h0 =>
    have hfit := h.fits i
    rw [h0] at hfit
    have hidle : (s.queue.threads i).phase = .idle := hfit
    refine h.fetchSub (i := i) ⟨fun _ _ => rfl, fun j hj => Function.update_of_ne hj ..⟩ rfl ?_
      ?_ (.inr h0) ?_ rfl
    · simpa [State.goto, Fits] using hidle
    · simp [Adding, State.goto, hidle, h0]
    · simp [Subtracting, State.goto, hidle]

theorem of_reachable (h : (system ι α).Reachable s) : Inv s :=
  h.invariant (fun _ hi => hi ▸ inv_initial) fun _ _ _ hp hs => hp.moves (moves_of_step hs)

end Inv

omit [DecidableEq ι] in
/-- The queue holds at most its capacity, so with nobody in between the counter has not wrapped. -/
theorem Inv.externalPending_eq (h : Inv s) (ha : ∀ i, ¬Adding s i) (hs : ∀ i, ¬Subtracting s i) :
    s.externalPending = (contents s.queue).length := by
  have hz := h.counted.eq_held ha hs
  have hlen := h.ring.contents_length
  have hlap := h.ring.enqueue_le_lap
  have hcap : capacity.val = 1024 := rfl
  have hlt : (contents s.queue).length < 2^64 := by omega
  rw [h.ring.pushed_sub_popped, Int.cast_natCast, ZMod.natCast_eq_natCast_iff'] at hz
  rwa [Nat.mod_eq_of_lt h.bound, Nat.mod_eq_of_lt hlt] at hz

end ExternalPending

end Jellybean.Reactor

namespace Jellybean

open Concurrency MpmcQueue Model Reactor

namespace Model.ModelExecutor

variable {α : Type*} {cfg : Config} {s : State α}

/-- The push of a caller has claimed its ticket and is not in `queue_size_` yet. -/
def Adding (s : State α) (i : Nat) : Prop := s.phase (.caller i) = .offered

theorem Counted.of_reachable (h : (system cfg).Reachable s) : Counted s := by
  have hinv : Coherent s ∧ Counted s := by
    refine h.invariant (P := fun s => Coherent s ∧ Counted s) ?_ ?_
    · intro s hs
      obtain ⟨ready, rfl⟩ := hs
      exact ⟨coherent_initial ready, .initial ready⟩
    · intro s a u hp hs
      have hm := moves_of_step hs
      exact ⟨hp.1.moves hm, hp.2.moves hp.1 hm⟩
  exact hinv.2

theorem sideCounter_of_reachable (h : (system cfg).Reachable s) :
    SideCounter (Adding s) (Owing s) s.queueSize (contents s.queue).length := by
  have hc := counted_iff.mp (.of_reachable h)
  rw [queued, (Coherent.of_reachable h).ring.pushed_sub_popped] at hc
  exact hc

end Model.ModelExecutor

namespace Model.ModelExecutor

/-- A caller goes through the push of a request, up to its counting step. -/
def onePush : List (Action Nat) :=
  List.flatten [[.callStart 0], List.replicate 3 (.caller 0 false none),
    [.inferAsync 1 ⟨"m", [], ⟨fun _ => 0, 0⟩, []⟩ 0], List.replicate 7 (.caller 1 false none)]

/-- A worker takes the task and counts it off before the caller counts it. -/
theorem overtaken : ∃ s : State Nat, (system ⟨1, 1, 0⟩).Reachable s ∧ s.queueSize = -1 := by
  have hrun : ((system ⟨1, 1, 0⟩).run (initial true)
      (onePush ++ List.replicate 10 (.worker 0 false))).map (fun s => s.queueSize) =
      some (-1) := by decide +kernel
  obtain ⟨s, hs, hz⟩ := Option.map_eq_some_iff.mp hrun
  exact ⟨s, .run (.init ⟨true, rfl⟩) hs, hz⟩

theorem counted_off : ∃ s : State Nat, (system ⟨1, 1, 0⟩).Reachable s ∧ s.queueSize = 1 ∧
    (∀ i, ¬Adding s i) ∧ ∀ w, ¬Owing s w := by
  have hrun : ((system ⟨1, 1, 0⟩).run (initial true) (onePush ++ [.caller 1 false none])).map
      (fun s => (s.queueSize, (s.phase (.caller 0), s.phase (.caller 1)),
        (fun i => s.phase (.caller (i + 2))), (s.phase (.worker 0), (s.workers 0).isFetchSub),
        (fun w => s.phase (.worker (w + 1))), fun w => (s.workers (w + 1)).isFetchSub)) =
      some (1, (.idle, .idle), fun _ => .idle, (.idle, false), fun _ => .idle, fun _ => false) := by
    with_unfolding_all rfl
  obtain ⟨s, hs, ho⟩ := Option.map_eq_some_iff.mp hrun
  simp only [Prod.mk.injEq] at ho
  obtain ⟨hz, ⟨hc0, hc1⟩, hc, ⟨hw0, hf0⟩, hw, hf⟩ := ho
  refine ⟨s, .run (.init ⟨true, rfl⟩) hs, hz, ?_, ?_⟩
  · intro i
    rcases i with _ | _ | i
    · simp [Adding, hc0]
    · simp [Adding, hc1]
    · simp [Adding, congrFun hc i]
  · intro w
    cases w with
    | zero => simp [Owing, hw0, hf0]
    | succ w => simp [Owing, congrFun hw w, congrFun hf w]

end Model.ModelExecutor

namespace Reactor.ExternalPending

def onePush : List (Action Nat Nat) := .schedule 1 7 :: List.replicate 8 (.advance 1 false)

/-- The loop takes the coroutine and counts it off before the other thread counts it. -/
theorem wrapped : ∃ s : State Nat Nat,
    (system Nat Nat).Reachable s ∧ s.externalPending = 2^64 - 1 := by
  have hrun : ((system Nat Nat).run initial
      (onePush ++ .run 0 :: List.replicate 10 (.advance 0 false))).map
        (fun s => s.externalPending) = some (2^64 - 1) := by decide +kernel
  obtain ⟨s, hs, hz⟩ := Option.map_eq_some_iff.mp hrun
  exact ⟨s, .run (.init rfl) hs, hz⟩

theorem counted_off : ∃ s : State Nat Nat, (system Nat Nat).Reachable s ∧ s.externalPending = 1 ∧
    (∀ i, ¬Adding s i) ∧ ∀ i, ¬Subtracting s i := by
  have hrun : ((system Nat Nat).run initial (onePush ++ [.advance 1 false])).map
      (fun s => (s.externalPending, (s.queue.threads 0, s.pcs 0), (s.queue.threads 1, s.pcs 1),
        (fun i => s.queue.threads (i + 2)), fun i => s.pcs (i + 2))) =
      some (1, (.idle, .idle), (.idle, .wakeup), fun _ => .idle, fun _ => .idle) := by
    with_unfolding_all rfl
  obtain ⟨s, hs, ho⟩ := Option.map_eq_some_iff.mp hrun
  simp only [Prod.mk.injEq] at ho
  obtain ⟨hz, ⟨ht0, hp0⟩, ⟨ht1, hp1⟩, ht, hp⟩ := ho
  refine ⟨s, .run (.init rfl) hs, hz, ?_, ?_⟩
  · intro i
    rcases i with _ | _ | i
    · simp [Adding, ht0, hp0, Local.phase]
    · simp [Adding, ht1, hp1, Local.phase]
    · simp [Adding, congrFun ht i, congrFun hp i, Local.phase]
  · intro i
    rcases i with _ | _ | i
    · simp [Subtracting, ht0, hp0, Local.phase]
    · simp [Subtracting, ht1, hp1, Local.phase]
    · simp [Subtracting, congrFun ht i, congrFun hp i, Local.phase]

end Reactor.ExternalPending

/-- `queue_size_` and `external_pending_` run behind their queues by the operations in flight only,
the second modulo `2^64`. -/
theorem sideCounters_match {α ι β : Type*} [DecidableEq ι] (cfg : ModelExecutor.Config) :
    (∀ s : ModelExecutor.State α, (ModelExecutor.system cfg).Reachable s →
      SideCounter (ModelExecutor.Adding s) (ModelExecutor.Owing s) s.queueSize
          (contents s.queue).length ∧
        (∀ P : Finset Nat, (∀ i, i ∈ P ↔ ModelExecutor.Adding s i) →
          -(P.card : ℤ) ≤ s.queueSize) ∧
        ((∀ i, ¬ModelExecutor.Adding s i) → (∀ w, ¬ModelExecutor.Owing s w) →
          s.queueSize = (contents s.queue).length)) ∧
    ∀ s : ExternalPending.State ι β, (ExternalPending.system ι β).Reachable s →
      SideCounter (ExternalPending.Adding s) (ExternalPending.Subtracting s)
          (s.externalPending : ZMod (2^64)) (contents s.queue).length ∧
        ((∀ i, ¬ExternalPending.Adding s i) → (∀ i, ¬ExternalPending.Subtracting s i) →
          s.externalPending = (contents s.queue).length) := by
  constructor
  · intro s hs
    have hc := ModelExecutor.sideCounter_of_reachable hs
    refine ⟨hc, ?_, ?_⟩
    · intro P hP
      exact hc.neg_card_le (Int.natCast_nonneg _) hP
    · intro ha ho
      exact hc.eq_held ha ho
  · intro s hs
    have hinv := ExternalPending.Inv.of_reachable hs
    refine ⟨?_, hinv.externalPending_eq⟩
    rw [← hinv.ring.pushed_sub_popped]
    exact hinv.counted

theorem sideCounters_match_behind :
    ((∃ s : ModelExecutor.State Nat, s.queueSize = -1 ∧ SideCounter (ModelExecutor.Adding s)
        (ModelExecutor.Owing s) s.queueSize (contents s.queue).length) ∧
      ∃ s : ModelExecutor.State Nat, s.queueSize = 1 ∧ (contents s.queue).length = 1) ∧
    (∃ s : ExternalPending.State Nat Nat, s.externalPending = 2^64 - 1 ∧
        SideCounter (ExternalPending.Adding s) (ExternalPending.Subtracting s)
          (s.externalPending : ZMod (2^64)) (contents s.queue).length) ∧
      ∃ s : ExternalPending.State Nat Nat, s.externalPending = 1 ∧
        (contents s.queue).length = 1 := by
  have h := sideCounters_match (α := Nat) (ι := Nat) (β := Nat) ⟨1, 1, 0⟩
  obtain ⟨s, hs, hz⟩ := ModelExecutor.overtaken
  obtain ⟨t, ht, htz, hta, hto⟩ := ModelExecutor.counted_off
  obtain ⟨u, hu, huz⟩ := ExternalPending.wrapped
  obtain ⟨v, hv, hvz, hva, hvs⟩ := ExternalPending.counted_off
  have hteq := (h.1 t ht).2.2 hta hto
  have hveq := (h.2 v hv).2 hva hvs
  exact ⟨⟨⟨s, hz, (h.1 s hs).1⟩, t, htz, by omega⟩, ⟨u, huz, (h.2 u hu).1⟩, v, hvz, by omega⟩

end Jellybean
