import Jellybean.Concurrency.MpmcQueueInvariant

namespace Jellybean.Concurrency.MpmcQueue

variable {ι α : Type*} [DecidableEq ι]

/-- What a caller of the queue has to know about the operation of a thread: whether the item
it offers is still its own, and which ticket it took. -/
inductive Phase (α : Type*) where
  | idle
  | offering (item : α)
  | offered
  | seeking
  | took (ticket : Nat)

def Local.phase : Local α → Phase α
  | .idle => .idle
  | .pushLoadPos item | .pushLoadSeq item _ | .pushCas item _ | .pushFailed item => .offering item
  | .pushConstruct _ _ | .pushPublish _ | .pushSucceeded => .offered
  | .popLoadPos | .popLoadSeq _ | .popCas _ | .popFailed => .seeking
  | .popMove pos | .popDestroy pos _ | .popRelease pos _ | .popSucceeded pos _ => .took pos

/-- The effect of a step of thread `i` on claims and phases. -/
inductive Effect (s : State ι α) (i : ι) (u : State ι α) : Prop
  | quiet (hl : (u.threads i).phase = (s.threads i).phase) (hp : u.pushed = s.pushed)
      (hd : u.popped = s.popped)
  | claimedPush {item : α} (h0 : (s.threads i).phase = .offering item)
      (h1 : (u.threads i).phase = .offered)
      (hp : u.pushed = s.pushed ++ [⟨s.enqueuePos, i, item⟩]) (hd : u.popped = s.popped)
  | claimedPop (h0 : (s.threads i).phase = .seeking)
      (h1 : (u.threads i).phase = .took s.dequeuePos) (hp : u.pushed = s.pushed)
      (hd : u.popped = s.popped ++ [⟨s.dequeuePos, i⟩])

theorem Moves.effect {c : Capacity} {s u : State ι α} {i : ι} (h : Moves c s i u) :
    Effect s i u := by
  cases h with
  | claimPush hl hq =>
    subst hq
    exact .claimedPush (by rw [hl]; rfl) (by simp [Local.phase]) rfl rfl
  | claimPop hl hq =>
    subst hq
    exact .claimedPop (by rw [hl]; rfl) (by simp [Local.phase]) rfl rfl
  | loadEnqueuePos hl | pushReady hl _ | pushFull hl _ | pushLate hl _ | retryPush hl
  | construct hl | publish hl | loadDequeuePos hl | popReady hl _ | popEmpty hl _ | popLate hl _
  | retryPop hl | move hl | destroy hl | release hl =>
    exact .quiet (by simp [hl, Local.phase]) rfl rfl

theorem Moves.frame {c : Capacity} {s u : State ι α} {i : ι} (h : Moves c s i u) {j : ι}
    (hj : j ≠ i) : u.threads j = s.threads j := by
  cases h <;> simp [Function.update_of_ne hj]

/-! What a call or a return does to the queue. -/

theorem step_callPush {w : SizeT} {c : Capacity} {s u : State ι α} {i : ι} {item : α}
    (h : step w c s (.callPush i item) = some u) :
    s.threads i = .idle ∧ u = s.set i (.pushLoadPos item) := by
  simp only [step] at h
  split at h
  · exact ⟨‹_›, (Option.some.inj h).symm⟩
  · cases h

theorem step_callPop {w : SizeT} {c : Capacity} {s u : State ι α} {i : ι}
    (h : step w c s (.callPop i) = some u) :
    s.threads i = .idle ∧ u = s.set i .popLoadPos := by
  simp only [step] at h
  split at h
  · exact ⟨‹_›, (Option.some.inj h).symm⟩
  · cases h

theorem step_ret {w : SizeT} {c : Capacity} {s u : State ι α} {i : ι}
    (h : step w c s (.ret i) = some u) : u = s.set i .idle := by
  simp only [step] at h
  split_ifs at h
  exact (Option.some.inj h).symm

theorem State.set_frame (s : State ι α) {i : ι} {l : Local α} {j : ι} (hj : j ≠ i) :
    (s.set i l).threads j = s.threads j := Function.update_of_ne hj ..

omit [DecidableEq ι] in
/-- The item a pop succeeded with is the one its ticket was pushed with. -/
theorem RingInv.popSucceeded_item {c : Capacity} {s : State ι α} (h : RingInv c s) {i : ι}
    {pos : Nat} {item : Option α} (hl : s.threads i = .popSucceeded pos item) :
    ∃ p, s.pushed[pos]? = some p ∧ item = some p.item := by
  have hi := h.locals i
  rw [hl] at hi
  exact h.finished_item _ hi.2

end Jellybean.Concurrency.MpmcQueue
