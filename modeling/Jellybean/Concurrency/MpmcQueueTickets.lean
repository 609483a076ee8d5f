import Jellybean.Concurrency.MpmcQueueInvariant

namespace Jellybean.Concurrency.MpmcQueue

variable {ι α : Type*} [DecidableEq ι]

theorem toIntptr_of_lt {x : Nat} (h : x < 2^63) : toIntptr x = x := if_pos h

/-- Below 2^62 tickets 64-bit words behave like unbounded counters. -/
theorem advance_bits64 {c : Capacity} {s : State ι α} (h : RingInv c s)
    (hb : s.enqueuePos < 2^62) (i : ι) (b : Bool) :
    advance .bits64 c s i b = advance .ideal c s i b := by
  have hcap := c.fits
  have hde := h.dequeue_le_enqueue
  have wrap {x : Nat} (hx : x < 2^63) : SizeT.bits64.wrap x = SizeT.ideal.wrap x :=
    Nat.mod_eq_of_lt (by omega)
  have diff {x y : Nat} (hx : x < 2^63) (hy : y < 2^63) :
      SizeT.bits64.diff x y = SizeT.ideal.diff x y := by
    simp only [SizeT.bits64, SizeT.ideal, toIntptr_of_lt hx, toIntptr_of_lt hy]
  have seq (pos : Nat) : s.sequence (c.slot pos) < 2^63 := by
    have := h.sequence_le pos
    omega
  have hl := h.locals i
  unfold advance
  cases ht : s.threads i <;> rw [ht] at hl <;> simp only [LocalInv] at hl <;> dsimp only
  case pushLoadSeq item pos => rw [diff (seq pos) (by omega)]
  case pushCas item pos => rw [wrap (by omega)]
  case pushPublish pos =>
    obtain ⟨item, hp, -⟩ := hl
    have := h.pushed_lt hp
    rw [wrap (by omega)]
  case popLoadSeq pos =>
    rw [wrap (by omega), diff (seq pos) (show SizeT.ideal.wrap (pos + 1) < 2^63 by
      simp only [SizeT.ideal, id]; omega)]
  case popCas pos => rw [wrap (by omega)]
  case popRelease pos item =>
    have := h.popped_lt hl.1
    have := c.mask_succ pos
    rw [wrap (by omega)]

theorem step_bits64 {c : Capacity} {s : State ι α} (h : RingInv c s)
    (hb : s.pushed.length < 2^62) (a : Action ι α) : step .bits64 c s a = step .ideal c s a := by
  rw [h.pushed_length] at hb
  cases a with
  | callPush i item => rfl
  | callPop i => rfl
  | advance i b => exact advance_bits64 h hb i b
  | ret i => rfl

theorem step_pushed_length {w : SizeT} {c : Capacity} {s t : State ι α} {a : Action ι α}
    (h : step w c s a = some t) : s.pushed.length ≤ t.pushed.length := by
  cases a with
  | advance i b =>
    simp only [step, advance] at h
    split at h <;> (try split_ifs at h) <;> cases h <;> simp
  | callPush i item =>
    simp only [step] at h
    split at h <;> cases h
    exact le_refl _
  | callPop i =>
    simp only [step] at h
    split at h <;> cases h
    exact le_refl _
  | ret i =>
    simp only [step] at h
    split_ifs at h
    cases h
    exact le_refl _

/-- A run on the machine with fewer than 2^62 pushes is a run on unbounded counters. -/
theorem reachable_ideal {c : Capacity} {s : State ι α} (h : (system .bits64 c).Reachable s)
    (hb : s.pushed.length < 2^62) : (system .ideal c).Reachable s := by
  induction h with
  | init hi => exact .init hi
  | @step u t a _ _ hs ih =>
    have hu : u.pushed.length < 2^62 := (step_pushed_length hs).trans_lt hb
    have hi := step_bits64 (ringInv_of_reachable (ih hu)) hu a
    exact (ih hu).next (hi.symm.trans hs)

theorem ringInv_of_reachable_bits64 {c : Capacity} {s : State ι α}
    (h : (system .bits64 c).Reachable s) (hb : s.pushed.length < 2^62) : RingInv c s :=
  ringInv_of_reachable (reachable_ideal h hb)

/-- The ticket discipline of the ring. Slots have one owner; the k-th claim of either kind
has ticket k, and pops claim in ticket order; a pop with ticket k returns, once, the item
pushed with ticket k; and ticket k + Capacity is claimed only after the pop of ticket k has
given the slot back, so that objects are constructed in empty storage only. -/
theorem tickets_match (c : Capacity) (s : State ι α) (hr : (system .bits64 c).Reachable s)
    (hb : s.pushed.length < 2^62) :
    (∀ i j x, Owns c s i x → Owns c s j x → i = j) ∧
    (∀ (k : Nat) p, s.pushed[k]? = some p → p.ticket = k) ∧
    (∀ (k : Nat) q, s.popped[k]? = some q → q.ticket = k ∧ ∃ p, s.pushed[k]? = some p) ∧
    (∀ i k item, s.threads i = .popSucceeded k item →
      s.popped[k]? = some ⟨k, i⟩ ∧ ∃ p, s.pushed[k]? = some p ∧ item = some p.item) ∧
    (∀ r ∈ s.finished, ∃ p, s.pushed[r.1]? = some p ∧ r.2 = some p.item) ∧
    (s.finished.map Prod.fst).Nodup ∧
    (∀ k, k + c.val < s.pushed.length → ∃ r ∈ s.finished, r.1 = k) ∧
    (∀ i item k, s.threads i = .pushConstruct item k → s.storage (c.slot k) = none) := by
  have h := ringInv_of_reachable_bits64 hr hb
  refine ⟨fun i j x => h.owns_unique, h.pushed_ticket, fun k q hq => ⟨h.popped_ticket k q hq, ?_⟩,
    fun i k item hl => ?_, h.finished_item, h.finished_nodup, fun k hk => ?_, fun i item k hl => ?_⟩
  · have hk := h.popped_lt hq
    have hlt : k < s.pushed.length := by rw [h.pushed_length]; exact hk.trans_le h.dequeue_le_enqueue
    exact ⟨_, List.getElem?_eq_getElem hlt⟩
  · have hi := h.locals i
    rw [hl] at hi
    exact ⟨hi.1, h.finished_item _ hi.2⟩
  · rw [h.finished_iff k]
    obtain ⟨t, ht, hte, -, hf⟩ := h.slots _ (c.slot_lt k)
    rw [h.pushed_length] at hk
    have hgap := c.slot_gap ht.symm (by omega)
    rcases hf with hf | hf
    · have := hf.1
      omega
    · have := hf.1
      omega
  · have hi := h.locals i
    rw [hl] at hi
    exact hi.2.2

/-- Two slots. -/
def capacityTwo : Capacity := ⟨2, by decide, by decide, by decide⟩

/-- Thread 0 pushes 7, thread 1 takes it, its first compare-exchange failing spuriously. -/
def handover : List (Action Nat Nat) :=
  [.callPush 0 7, .callPop 1] ++ List.replicate 5 (.advance 0 false) ++
    [.advance 1 false, .advance 1 false, .advance 1 true] ++ List.replicate 5 (.advance 1 false)

theorem tickets_match_handover :
    ∃ s, (system .bits64 capacityTwo).run initial handover = some s ∧
      s.finished = [(0, some 7)] ∧ s.threads 1 = .popSucceeded 0 (some 7) ∧
      (∀ i j x, Owns capacityTwo s i x → Owns capacityTwo s j x → i = j) := by
  refine ⟨_, rfl, rfl, rfl, ?_⟩
  exact (tickets_match capacityTwo _
    (System.Reachable.run (.init rfl) (rfl : (system .bits64 capacityTwo).run initial handover = _))
    (by decide)).1

end Jellybean.Concurrency.MpmcQueue
