import Jellybean.Concurrency.MpmcQueue

namespace Jellybean.Concurrency.MpmcQueue

variable {ι α : Type*}

/-- Slot `j` waits for the push with ticket `t`: unclaimed and empty, or claimed and
in the hands of its producer. -/
def FreeFor (s : State ι α) (j t : Nat) : Prop :=
  s.sequence j = t ∧ s.dequeuePos ≤ t ∧ (s.enqueuePos ≤ t → s.storage j = none) ∧
    (t < s.enqueuePos → ∃ i, (s.threads i).Pushing t)

/-- Slot `j` holds the item of ticket `t`: unclaimed by any pop, or in the hands of its
consumer. -/
def HoldsTicket (s : State ι α) (j t : Nat) : Prop :=
  s.sequence j = t + 1 ∧ t < s.enqueuePos ∧
    (s.dequeuePos ≤ t → ∃ p, s.pushed[t]? = some p ∧ s.storage j = some p.item) ∧
    (t < s.dequeuePos → ∃ i, (s.threads i).Popping t)

/-- Every slot is busy with exactly one ticket, and both counters are within one lap of it. -/
def SlotInv (c : Capacity) (s : State ι α) (j : Nat) : Prop :=
  ∃ t, c.slot t = j ∧ s.enqueuePos ≤ t + c.val ∧ t < s.dequeuePos + c.val ∧
    (FreeFor s j t ∨ HoldsTicket s j t)

/-- What a thread may rely on at each point of an operation. A stale `pos` is harmless:
the claim succeeds only if the counter still equals it, and then the slot has not moved. -/
def LocalInv (c : Capacity) (s : State ι α) (i : ι) : Local α → Prop
  | .pushLoadSeq _ pos => pos ≤ s.enqueuePos
  | .pushCas _ pos =>
    pos ≤ s.enqueuePos ∧ (s.enqueuePos = pos → s.sequence (c.slot pos) = pos)
  | .pushConstruct item pos =>
    s.pushed[pos]? = some ⟨pos, i, item⟩ ∧ s.sequence (c.slot pos) = pos ∧
      s.storage (c.slot pos) = none
  | .pushPublish pos =>
    ∃ item, s.pushed[pos]? = some ⟨pos, i, item⟩ ∧ s.sequence (c.slot pos) = pos ∧
      s.storage (c.slot pos) = some item
  | .popLoadSeq pos => pos ≤ s.dequeuePos
  | .popCas pos =>
    pos ≤ s.dequeuePos ∧ (s.dequeuePos = pos → s.sequence (c.slot pos) = pos + 1)
  | .popMove pos =>
    s.popped[pos]? = some ⟨pos, i⟩ ∧ s.sequence (c.slot pos) = pos + 1 ∧
      ∃ p, s.pushed[pos]? = some p ∧ s.storage (c.slot pos) = some p.item
  | .popDestroy pos item =>
    s.popped[pos]? = some ⟨pos, i⟩ ∧ s.sequence (c.slot pos) = pos + 1 ∧
      ∃ p, s.pushed[pos]? = some p ∧ item = some p.item
  | .popRelease pos item =>
    s.popped[pos]? = some ⟨pos, i⟩ ∧ s.sequence (c.slot pos) = pos + 1 ∧
      s.storage (c.slot pos) = none ∧ ∃ p, s.pushed[pos]? = some p ∧ item = some p.item
  | .popSucceeded pos item =>
    s.popped[pos]? = some ⟨pos, i⟩ ∧ (pos, item) ∈ s.finished
  | _ => True

structure RingInv (c : Capacity) (s : State ι α) : Prop where
  pushed_length : s.pushed.length = s.enqueuePos
  popped_length : s.popped.length = s.dequeuePos
  dequeue_le_enqueue : s.dequeuePos ≤ s.enqueuePos
  pushed_ticket : ∀ (k : Nat) (p : PushClaim ι α), s.pushed[k]? = some p → p.ticket = k
  popped_ticket : ∀ (k : Nat) (p : PopClaim ι), s.popped[k]? = some p → p.ticket = k
  slots : ∀ j, j < c.val → SlotInv c s j
  locals : ∀ i, LocalInv c s i (s.threads i)
  finished_item : ∀ r ∈ s.finished, ∃ p, s.pushed[r.1]? = some p ∧ r.2 = some p.item
  finished_iff : ∀ k, (∃ r ∈ s.finished, r.1 = k) ↔ k + c.val ≤ s.sequence (c.slot k)
  finished_nodup : (s.finished.map Prod.fst).Nodup

namespace RingInv

variable {c : Capacity} {s : State ι α}

/-- The producer owning a ticket is the one that claimed it. -/
theorem pushing_claim (h : RingInv c s) {i : ι} {k : Nat} (hp : (s.threads i).Pushing k) :
    s.sequence (c.slot k) = k ∧ ∃ item, s.pushed[k]? = some ⟨k, i, item⟩ := by
  have hl := h.locals i
  revert hp hl
  cases s.threads i <;> simp only [Local.Pushing, LocalInv, false_imp_iff]
  case pushConstruct item pos =>
    rintro rfl ⟨h1, h2, -⟩
    exact ⟨h2, item, h1⟩
  case pushPublish pos =>
    rintro rfl ⟨item, h1, h2, -⟩
    exact ⟨h2, item, h1⟩

theorem popping_claim (h : RingInv c s) {i : ι} {k : Nat} (hp : (s.threads i).Popping k) :
    s.sequence (c.slot k) = k + 1 ∧ s.popped[k]? = some ⟨k, i⟩ := by
  have hl := h.locals i
  revert hp hl
  cases s.threads i <;> simp only [Local.Popping, LocalInv, false_imp_iff]
  all_goals
    rintro rfl hl
    exact ⟨hl.2.1, hl.1⟩

/-- Tickets handed out are below the counters. -/
theorem pushed_lt (h : RingInv c s) {k : Nat} {p : PushClaim ι α} (hp : s.pushed[k]? = some p) :
    k < s.enqueuePos := by
  rw [← h.pushed_length]
  exact (List.getElem?_eq_some_iff.mp hp).1

theorem popped_lt (h : RingInv c s) {k : Nat} {p : PopClaim ι} (hp : s.popped[k]? = some p) :
    k < s.dequeuePos := by
  rw [← h.popped_length]
  exact (List.getElem?_eq_some_iff.mp hp).1

/-- The sequence number of a slot determines the ticket it is busy with. -/
theorem slot_free (h : RingInv c s) {k : Nat} (hq : s.sequence (c.slot k) = k) :
    s.enqueuePos ≤ k + c.val ∧ k < s.dequeuePos + c.val ∧ FreeFor s (c.slot k) k := by
  obtain ⟨t, ht, he, hd, hf | hf⟩ := h.slots _ (c.slot_lt k)
  · have : t = k := hf.1.symm.trans hq
    subst this
    exact ⟨he, hd, hf⟩
  · have : k = t + 1 := hq.symm.trans hf.1
    subst this
    exact absurd ht.symm (c.slot_succ_ne t)

theorem slot_holds (h : RingInv c s) {k : Nat} (hq : s.sequence (c.slot k) = k + 1) :
    s.enqueuePos ≤ k + c.val ∧ k < s.dequeuePos + c.val ∧ HoldsTicket s (c.slot k) k := by
  obtain ⟨t, ht, he, hd, hf | hf⟩ := h.slots _ (c.slot_lt k)
  · have : t = k + 1 := hf.1.symm.trans hq
    subst this
    exact absurd ht (c.slot_succ_ne k)
  · have : t = k := by have := hf.1; omega
    subst this
    exact ⟨he, hd, hf⟩

/-- A slot is never more than one lap ahead of the consumers. -/
theorem sequence_le (h : RingInv c s) (pos : Nat) :
    s.sequence (c.slot pos) ≤ s.dequeuePos + c.val := by
  obtain ⟨t, -, -, htd, hf | hf⟩ := h.slots _ (c.slot_lt pos)
  · have := hf.1
    omega
  · have := hf.1
    omega

end RingInv

/-- The local invariant of `l` mentions the contents of slot `x`. -/
def Local.Uses (c : Capacity) (s : State ι α) (x : Nat) : Local α → Prop
  | .pushCas _ pos => s.enqueuePos = pos ∧ c.slot pos = x
  | .popCas pos => s.dequeuePos = pos ∧ c.slot pos = x
  | .pushConstruct _ pos | .pushPublish pos | .popMove pos | .popDestroy pos _
  | .popRelease pos _ => c.slot pos = x
  | _ => False

/-- No slot has the index `Capacity`. -/
theorem Local.not_uses_val (c : Capacity) (s : State ι α) (l : Local α) :
    ¬ l.Uses c s c.val := by
  have h (k : Nat) : c.slot k ≠ c.val := (c.slot_lt k).ne
  cases l <;> simp [Local.Uses, h]

/-- While a thread owns a slot nobody else relies on what is in it. -/
theorem RingInv.not_uses {c : Capacity} {s : State ι α} (h : RingInv c s) {i j : ι} (hij : j ≠ i)
    {k : Nat} (ho : (s.threads i).Pushing k ∨ (s.threads i).Popping k) :
    ¬ (s.threads j).Uses c s (c.slot k) := by
  intro hu
  have hl := h.locals j
  rcases ho with ho | ho
  · obtain ⟨hq, v, hv⟩ := h.pushing_claim ho
    have hk := h.pushed_lt hv
    revert hu hl
    cases s.threads j <;> simp only [Local.Uses, LocalInv, false_imp_iff]
    case pushCas item pos =>
      rintro ⟨he, hs⟩ ⟨-, hc⟩
      have := hc he
      rw [hs] at this
      omega
    case pushConstruct item pos =>
      rintro hs ⟨hp, hc, -⟩
      rw [hs, hq] at hc
      subst hc
      rw [hv] at hp
      simp_all
    case pushPublish pos =>
      rintro hs ⟨item, hp, hc, -⟩
      rw [hs, hq] at hc
      subst hc
      rw [hv] at hp
      simp_all
    case popCas pos =>
      rintro ⟨hd, hs⟩ ⟨-, hc⟩
      have hc := hc hd
      rw [hs, hq] at hc
      subst hc
      exact c.slot_succ_ne _ hs.symm
    all_goals
      rintro hs hc
      have hc := hc.2.1
      rw [hs, hq] at hc
      subst hc
      exact c.slot_succ_ne _ hs.symm
  · obtain ⟨hq, hv⟩ := h.popping_claim ho
    have hk := h.popped_lt hv
    revert hu hl
    cases s.threads j <;> simp only [Local.Uses, LocalInv, false_imp_iff]
    case pushCas item pos =>
      rintro ⟨he, hs⟩ ⟨-, hc⟩
      have hc := hc he
      rw [hs, hq] at hc
      subst hc
      exact c.slot_succ_ne _ hs
    case pushConstruct item pos =>
      rintro hs ⟨-, hc, -⟩
      rw [hs, hq] at hc
      subst hc
      exact c.slot_succ_ne _ hs
    case pushPublish pos =>
      rintro hs ⟨item, -, hc, -⟩
      rw [hs, hq] at hc
      subst hc
      exact c.slot_succ_ne _ hs
    case popCas pos =>
      rintro ⟨hd, hs⟩ ⟨-, hc⟩
      have := hc hd
      rw [hs] at this
      omega
    all_goals
      rintro hs hc
      have hp := hc.1
      have hc := hc.2.1
      rw [hs, hq, Nat.add_right_cancel_iff] at hc
      subst hc
      rw [hv] at hp
      simp_all

/-- At most one thread owns a slot. -/
theorem RingInv.owns_unique {c : Capacity} {s : State ι α} (h : RingInv c s) {i j : ι} {x : Nat}
    (hi : Owns c s i x) (hj : Owns c s j x) : i = j := by
  obtain ⟨k, rfl, hk⟩ := hi
  obtain ⟨m, hm, hmj⟩ := hj
  by_contra hne
  apply h.not_uses (Ne.symm hne) hk
  revert hmj
  cases s.threads j <;> simp only [Local.Pushing, Local.Popping, Local.Uses, or_false, false_or,
    or_self, false_imp_iff]
  all_goals
    rintro rfl
    exact hm

/-- A local invariant survives growth of the counters and histories and any change of a
slot it does not use. -/
theorem LocalInv.frame {c : Capacity} {s u : State ι α} {i : ι} {l : Local α} {x : Nat}
    (hl : LocalInv c s i l) (hx : ¬ l.Uses c s x)
    (hq : ∀ y, y ≠ x → u.sequence y = s.sequence y)
    (hst : ∀ y, y ≠ x → u.storage y = s.storage y)
    (he : s.enqueuePos ≤ u.enqueuePos) (hd : s.dequeuePos ≤ u.dequeuePos)
    (hps : s.pushed <+: u.pushed) (hpp : s.popped <+: u.popped)
    (hfin : s.finished <+: u.finished) : LocalInv c u i l := by
  have keep {k : Nat} {p : PushClaim ι α} (hp : s.pushed[k]? = some p) : u.pushed[k]? = some p := by
    obtain ⟨w, hw⟩ := hps
    rw [← hw, List.getElem?_append_left (List.getElem?_eq_some_iff.mp hp).1, hp]
  have keepPop {k : Nat} {p : PopClaim ι} (hp : s.popped[k]? = some p) : u.popped[k]? = some p := by
    obtain ⟨w, hw⟩ := hpp
    rw [← hw, List.getElem?_append_left (List.getElem?_eq_some_iff.mp hp).1, hp]
  cases l <;> simp only [LocalInv, Local.Uses] at hl hx ⊢
  case pushLoadSeq item pos => omega
  case pushCas item pos =>
    refine ⟨by omega, fun hu => ?_⟩
    have hep : s.enqueuePos = pos := by omega
    rw [hq _ fun hs => hx ⟨hep, hs⟩]
    exact hl.2 hep
  case pushConstruct item pos =>
    exact ⟨keep hl.1, (hq _ hx).trans hl.2.1, (hst _ hx).trans hl.2.2⟩
  case pushPublish pos =>
    obtain ⟨item, h1, h2, h3⟩ := hl
    exact ⟨item, keep h1, (hq _ hx).trans h2, (hst _ hx).trans h3⟩
  case popLoadSeq pos => omega
  case popCas pos =>
    refine ⟨by omega, fun hu => ?_⟩
    have hep : s.dequeuePos = pos := by omega
    rw [hq _ fun hs => hx ⟨hep, hs⟩]
    exact hl.2 hep
  case popMove pos =>
    obtain ⟨h1, h2, p, h3, h4⟩ := hl
    exact ⟨keepPop h1, (hq _ hx).trans h2, p, keep h3, (hst _ hx).trans h4⟩
  case popDestroy pos item =>
    obtain ⟨h1, h2, p, h3, h4⟩ := hl
    exact ⟨keepPop h1, (hq _ hx).trans h2, p, keep h3, h4⟩
  case popRelease pos item =>
    obtain ⟨h1, h2, h3, p, h4, h5⟩ := hl
    exact ⟨keepPop h1, (hq _ hx).trans h2, (hst _ hx).trans h3, p, keep h4, h5⟩
  case popSucceeded pos item => exact ⟨keepPop hl.1, hfin.subset hl.2⟩

/-- A slot keeps its ticket when its own words and both counters stay as they are and its
owner, if it has one, remains an owner. -/
theorem SlotInv.frame {c : Capacity} {s u : State ι α} {j : Nat} (h : SlotInv c s j)
    (he : u.enqueuePos = s.enqueuePos) (hd : u.dequeuePos = s.dequeuePos)
    (hq : u.sequence j = s.sequence j) (hst : u.storage j = s.storage j)
    (hps : u.pushed = s.pushed)
    (hth : ∀ i k, c.slot k = j → ((s.threads i).Pushing k → (u.threads i).Pushing k) ∧
      ((s.threads i).Popping k → (u.threads i).Popping k)) : SlotInv c u j := by
  obtain ⟨t, ht, hte, htd, hf⟩ := h
  refine ⟨t, ht, by rwa [he], by rwa [hd], ?_⟩
  rcases hf with ⟨h1, h2, h3, h4⟩ | ⟨h1, h2, h3, h4⟩
  · refine .inl ⟨by rwa [hq], by rwa [hd], by rwa [he, hst], fun hlt => ?_⟩
    obtain ⟨i, hi⟩ := h4 (by rwa [← he])
    exact ⟨i, (hth i t ht).1 hi⟩
  · refine .inr ⟨by rwa [hq], by rwa [he], by rwa [hd, hps, hst], fun hlt => ?_⟩
    obtain ⟨i, hi⟩ := h4 (by rwa [← hd])
    exact ⟨i, (hth i t ht).2 hi⟩

namespace RingInv

variable {c : Capacity} {s : State ι α}

theorem of_initial : RingInv c (initial : State ι α) := by
  refine ⟨rfl, rfl, le_refl _, by simp [initial], by simp [initial], fun j hj => ?_,
    fun i => trivial, by simp [initial], fun k => ?_, by simp [initial]⟩
  · have hs : c.slot j = j := by rw [c.slot_eq_mod, Nat.mod_eq_of_lt hj]
    refine ⟨j, hs, by simp [initial], by simpa [initial] using hj, .inl ⟨rfl, ?_, fun _ => rfl, ?_⟩⟩
    · exact Nat.zero_le _
    · intro h
      exact absurd h (Nat.not_lt_zero _)
  · have := c.slot_lt k
    simp only [initial, List.not_mem_nil, false_and, exists_false, id, false_iff]
    omega

variable [DecidableEq ι]

/-- The moves that only change what thread `i` remembers. -/
theorem set_local (h : RingInv c s) {i : ι} {l : Local α} (hl : LocalInv c s i l)
    (hpush : ∀ k, (s.threads i).Pushing k → l.Pushing k)
    (hpop : ∀ k, (s.threads i).Popping k → l.Popping k) : RingInv c (s.set i l) := by
  refine ⟨h.pushed_length, h.popped_length, h.dequeue_le_enqueue, h.pushed_ticket,
    h.popped_ticket, fun j hj => ?_, fun j => ?_, h.finished_item, h.finished_iff,
    h.finished_nodup⟩
  · refine (h.slots j hj).frame rfl rfl rfl rfl rfl fun i' k _ => ?_
    by_cases hi : i' = i
    · subst hi
      simpa using ⟨hpush k, hpop k⟩
    · simp [hi]
  · have hframe (l' : Local α) (h' : LocalInv c s j l') : LocalInv c (s.set i l) j l' :=
      h'.frame (l'.not_uses_val c s)
        (fun _ _ => rfl) (fun _ _ => rfl) (le_refl _) (le_refl _) List.prefix_rfl List.prefix_rfl
        List.prefix_rfl
    by_cases hj : j = i
    · subst hj
      simpa using hframe l hl
    · simpa [hj] using hframe _ (h.locals j)

theorem claimPush (h : RingInv c s) {i : ι} {item : α}
    (hl : s.threads i = .pushCas item s.enqueuePos) :
    RingInv c { s with
      threads := Function.update s.threads i (.pushConstruct item s.enqueuePos)
      enqueuePos := s.enqueuePos + 1
      pushed := s.pushed ++ [⟨s.enqueuePos, i, item⟩] } := by
  have hseq : s.sequence (c.slot s.enqueuePos) = s.enqueuePos := by
    have := h.locals i
    rw [hl] at this
    exact this.2 rfl
  have hnew : (s.pushed ++ [⟨s.enqueuePos, i, item⟩])[s.enqueuePos]? =
      some (⟨s.enqueuePos, i, item⟩ : PushClaim ι α) := by
    rw [← h.pushed_length]
    simp
  have hold {k : Nat} {p : PushClaim ι α} (hp : s.pushed[k]? = some p) :
      (s.pushed ++ [⟨s.enqueuePos, i, item⟩])[k]? = some p := by
    rw [List.getElem?_append_left (List.getElem?_eq_some_iff.mp hp).1, hp]
  refine ⟨by simp [h.pushed_length], h.popped_length, ?_, fun k p hp => ?_, h.popped_ticket,
    fun j hj => ?_, fun j => ?_, fun r hr => ?_, h.finished_iff, h.finished_nodup⟩
  · exact h.dequeue_le_enqueue.trans (Nat.le_succ _)
  · by_cases hk : k < s.pushed.length
    · rw [List.getElem?_append_left hk] at hp
      exact h.pushed_ticket k p hp
    · have hb := (List.getElem?_eq_some_iff.mp hp).1
      simp only [List.length_append, List.length_singleton] at hb
      have hke : k = s.enqueuePos := by rw [← h.pushed_length]; omega
      subst hke
      rw [hnew] at hp
      cases hp
      rfl
  · obtain ⟨t, ht, hte, htd, hf⟩ := h.slots j hj
    have hlap : s.enqueuePos + 1 ≤ t + c.val := by
      rcases hte.lt_or_eq with hlt | heq
      · exact hlt
      -- the slot of the claimed ticket is at that ticket, not one lap behind it
      have hj' : c.slot s.enqueuePos = j := by rw [heq, c.slot_add_val, ht]
      rw [hj'] at hseq
      rcases hf with hf | hf
      · have := hf.1
        have := c.two_le
        omega
      · have : s.enqueuePos = t + 1 := hseq.symm.trans hf.1
        have := c.two_le
        omega
    refine ⟨t, ht, hlap, htd, ?_⟩
    have hwit {P : Local α → Prop} (hn : ¬ P (s.threads i)) (hex : ∃ i', P (s.threads i')) :
        ∃ i', P (Function.update s.threads i (.pushConstruct item s.enqueuePos) i') := by
      obtain ⟨i', hi'⟩ := hex
      have hne : i' ≠ i := by rintro rfl; exact hn hi'
      exact ⟨i', by simpa [hne] using hi'⟩
    rcases hf with ⟨h1, h2, h3, h4⟩ | ⟨h1, h2, h3, h4⟩
    · refine .inl ⟨h1, h2, fun hle => h3 (by simp only at hle; omega), fun hlt => ?_⟩
      by_cases hlt' : t < s.enqueuePos
      · exact hwit (P := Local.Pushing t) (by simp [hl, Local.Pushing]) (h4 hlt')
      · have hte' : s.enqueuePos = t := by simp only at hlt; omega
        exact ⟨i, by simp [Local.Pushing, hte']⟩
    · refine .inr ⟨h1, by simp only; omega, fun hle => ?_, fun hlt => ?_⟩
      · obtain ⟨p, hp, hpi⟩ := h3 hle
        exact ⟨p, hold hp, hpi⟩
      · exact hwit (P := Local.Popping t) (by simp [hl, Local.Popping]) (h4 hlt)
  · by_cases hji : j = i
    · subst hji
      simp only [Function.update_self, LocalInv]
      exact ⟨hnew, hseq, (h.slot_free hseq).2.2.2.2.1 (le_refl _)⟩
    · simp only [Function.update_of_ne hji]
      exact (h.locals j).frame ((s.threads j).not_uses_val c s)
        (fun _ _ => rfl) (fun _ _ => rfl) (Nat.le_succ _) (le_refl _)
        (List.prefix_append _ _) List.prefix_rfl List.prefix_rfl
  · obtain ⟨p, hp, hpi⟩ := h.finished_item r hr
    exact ⟨p, hold hp, hpi⟩

theorem claimPop (h : RingInv c s) {i : ι} (hl : s.threads i = .popCas s.dequeuePos) :
    RingInv c { s with
      threads := Function.update s.threads i (.popMove s.dequeuePos)
      dequeuePos := s.dequeuePos + 1
      popped := s.popped ++ [⟨s.dequeuePos, i⟩] } := by
  have hseq : s.sequence (c.slot s.dequeuePos) = s.dequeuePos + 1 := by
    have := h.locals i
    rw [hl] at this
    exact this.2 rfl
  have hhold := (h.slot_holds hseq).2.2
  have hnew : (s.popped ++ [⟨s.dequeuePos, i⟩])[s.dequeuePos]? =
      some (⟨s.dequeuePos, i⟩ : PopClaim ι) := by
    rw [← h.popped_length]
    simp
  refine ⟨h.pushed_length, by simp [h.popped_length], hhold.2.1, h.pushed_ticket,
    fun k p hp => ?_, fun j hj => ?_, fun j => ?_, h.finished_item, h.finished_iff,
    h.finished_nodup⟩
  · by_cases hk : k < s.popped.length
    · rw [List.getElem?_append_left hk] at hp
      exact h.popped_ticket k p hp
    · have hb := (List.getElem?_eq_some_iff.mp hp).1
      simp only [List.length_append, List.length_singleton] at hb
      have hke : k = s.dequeuePos := by rw [← h.popped_length]; omega
      subst hke
      rw [hnew] at hp
      cases hp
      rfl
  · obtain ⟨t, ht, hte, htd, hf⟩ := h.slots j hj
    refine ⟨t, ht, hte, by simp only; omega, ?_⟩
    have hwit {P : Local α → Prop} (hn : ¬ P (s.threads i)) (hex : ∃ i', P (s.threads i')) :
        ∃ i', P (Function.update s.threads i (.popMove s.dequeuePos) i') := by
      obtain ⟨i', hi'⟩ := hex
      have hne : i' ≠ i := by rintro rfl; exact hn hi'
      exact ⟨i', by simpa [hne] using hi'⟩
    rcases hf with ⟨h1, h2, h3, h4⟩ | ⟨h1, h2, h3, h4⟩
    · have hne : t ≠ s.dequeuePos := by
        rintro rfl
        rw [ht, h1] at hseq
        omega
      refine .inl ⟨h1, by simp only; omega, h3, fun hlt => ?_⟩
      exact hwit (P := Local.Pushing t) (by simp [hl, Local.Pushing]) (h4 hlt)
    · refine .inr ⟨h1, h2, fun hle => h3 (by simp only at hle; omega), fun hlt => ?_⟩
      by_cases hlt' : t < s.dequeuePos
      · exact hwit (P := Local.Popping t) (by simp [hl, Local.Popping]) (h4 hlt')
      · have hte' : s.dequeuePos = t := by simp only at hlt; omega
        exact ⟨i, by simp [Local.Popping, hte']⟩
  · by_cases hji : j = i
    · subst hji
      simp only [Function.update_self, LocalInv]
      exact ⟨hnew, hseq, hhold.2.2.1 (le_refl _)⟩
    · simp only [Function.update_of_ne hji]
      exact (h.locals j).frame ((s.threads j).not_uses_val c s)
        (fun _ _ => rfl) (fun _ _ => rfl) (le_refl _) (Nat.le_succ _)
        List.prefix_rfl (List.prefix_append _ _) List.prefix_rfl

/-- A slot that thread `i` does not own keeps its ticket while `i` works on its own slot. -/
theorem other_slot (h : RingInv c s) {i : ι} {j k : Nat}
    (ho : (s.threads i).Pushing k ∨ (s.threads i).Popping k) {u : State ι α} {l : Local α}
    (hth : u.threads = Function.update s.threads i l)
    (he : u.enqueuePos = s.enqueuePos) (hd : u.dequeuePos = s.dequeuePos)
    (hq : ∀ y, y ≠ c.slot k → u.sequence y = s.sequence y)
    (hst : ∀ y, y ≠ c.slot k → u.storage y = s.storage y) (hps : u.pushed = s.pushed)
    (hj : j < c.val) (hne : j ≠ c.slot k) : SlotInv c u j := by
  refine (h.slots j hj).frame he hd (hq j hne) (hst j hne) hps fun i' m hm => ?_
  by_cases hi : i' = i
  · subst hi
    have hself : ∀ m, c.slot m = j → ¬ (s.threads i').Pushing m ∧ ¬ (s.threads i').Popping m := by
      intro m hm
      revert ho
      cases s.threads i' <;> simp only [Local.Pushing, Local.Popping, not_false_iff, and_self,
        or_false, false_or, implies_true, true_and, and_true]
      all_goals
        rintro rfl rfl
        exact hne hm.symm
    exact ⟨fun hp => absurd hp (hself m hm).1, fun hp => absurd hp (hself m hm).2⟩
  · rw [hth, Function.update_of_ne hi]
    exact ⟨id, id⟩

/-- The local invariants after thread `i` has changed its own slot and moved on to `l`. -/
theorem other_locals (h : RingInv c s) {i : ι} {k : Nat}
    (ho : (s.threads i).Pushing k ∨ (s.threads i).Popping k) {u : State ι α} {l : Local α}
    (hth : u.threads = Function.update s.threads i l)
    (he : u.enqueuePos = s.enqueuePos) (hd : u.dequeuePos = s.dequeuePos)
    (hq : ∀ y, y ≠ c.slot k → u.sequence y = s.sequence y)
    (hst : ∀ y, y ≠ c.slot k → u.storage y = s.storage y)
    (hps : u.pushed = s.pushed) (hpp : u.popped = s.popped) (hfin : s.finished <+: u.finished)
    (hl : LocalInv c u i l) (j : ι) : LocalInv c u j (u.threads j) := by
  rw [hth]
  by_cases hj : j = i
  · subst hj
    simpa using hl
  · rw [Function.update_of_ne hj]
    exact (h.locals j).frame (h.not_uses hj ho) hq hst he.ge hd.ge (hps ▸ List.prefix_rfl)
      (hpp ▸ List.prefix_rfl) hfin

theorem construct (h : RingInv c s) {i : ι} {item : α} {pos : Nat}
    (hl : s.threads i = .pushConstruct item pos) :
    RingInv c { s with
      threads := Function.update s.threads i (.pushPublish pos)
      storage := Function.update s.storage (c.slot pos) (some item) } := by
  have hi := h.locals i
  rw [hl] at hi
  have ho : (s.threads i).Pushing pos ∨ (s.threads i).Popping pos := by simp [hl, Local.Pushing]
  have hfree := h.slot_free hi.2.1
  have hpos := h.pushed_lt hi.1
  refine ⟨h.pushed_length, h.popped_length, h.dequeue_le_enqueue, h.pushed_ticket,
    h.popped_ticket, fun j hj => ?_, ?_, h.finished_item, h.finished_iff, h.finished_nodup⟩
  · by_cases hjs : j = c.slot pos
    · subst hjs
      exact ⟨pos, rfl, hfree.1, hfree.2.1, .inl ⟨hi.2.1, hfree.2.2.2.1,
        fun hle => absurd hle (by simp only; omega), fun _ => ⟨i, by simp [Local.Pushing]⟩⟩⟩
    · exact h.other_slot ho rfl rfl rfl (fun _ _ => rfl) (fun _ hy => Function.update_of_ne hy _ _)
        rfl hj hjs
  · exact h.other_locals ho rfl rfl rfl (fun _ _ => rfl)
      (fun _ hy => Function.update_of_ne hy _ _) rfl rfl List.prefix_rfl
      ⟨item, hi.1, hi.2.1, Function.update_self ..⟩

theorem publish (h : RingInv c s) {i : ι} {pos : Nat} (hl : s.threads i = .pushPublish pos) :
    RingInv c { s with
      threads := Function.update s.threads i .pushSucceeded
      sequence := Function.update s.sequence (c.slot pos) (pos + 1) } := by
  have hi := h.locals i
  rw [hl] at hi
  obtain ⟨item, hp, hseq, hst⟩ := hi
  have ho : (s.threads i).Pushing pos ∨ (s.threads i).Popping pos := by simp [hl, Local.Pushing]
  have hfree := h.slot_free hseq
  refine ⟨h.pushed_length, h.popped_length, h.dequeue_le_enqueue, h.pushed_ticket,
    h.popped_ticket, fun j hj => ?_, ?_, h.finished_item, fun k => ?_, h.finished_nodup⟩
  · by_cases hjs : j = c.slot pos
    · subst hjs
      refine ⟨pos, rfl, hfree.1, hfree.2.1, .inr ⟨Function.update_self .., h.pushed_lt hp,
        fun _ => ⟨_, hp, hst⟩, fun hlt => ?_⟩⟩
      exact absurd hfree.2.2.2.1 (Nat.not_le.mpr hlt)
    · exact h.other_slot ho rfl rfl rfl (fun _ hy => Function.update_of_ne hy _ _) (fun _ _ => rfl)
        rfl hj hjs
  · exact h.other_locals ho rfl rfl rfl (fun _ hy => Function.update_of_ne hy _ _)
      (fun _ _ => rfl) rfl rfl List.prefix_rfl trivial
  · change (∃ r ∈ s.finished, r.1 = k) ↔
      k + c.val ≤ Function.update s.sequence (c.slot pos) (pos + 1) (c.slot k)
    rw [h.finished_iff k]
    by_cases hks : c.slot k = c.slot pos
    · rw [hks, Function.update_self, hseq]
      have hne : k + c.val ≠ pos + 1 := by
        intro heq
        apply c.slot_succ_ne pos
        rw [← heq, c.slot_add_val, hks]
      omega
    · rw [Function.update_of_ne hks]

theorem destroy (h : RingInv c s) {i : ι} {pos : Nat} {item : Option α}
    (hl : s.threads i = .popDestroy pos item) :
    RingInv c { s with
      threads := Function.update s.threads i (.popRelease pos item)
      storage := Function.update s.storage (c.slot pos) none } := by
  have hi := h.locals i
  rw [hl] at hi
  obtain ⟨hp, hseq, p, hpp, hpi⟩ := hi
  have ho : (s.threads i).Pushing pos ∨ (s.threads i).Popping pos := by simp [hl, Local.Popping]
  have hhold := h.slot_holds hseq
  have hpos := h.popped_lt hp
  refine ⟨h.pushed_length, h.popped_length, h.dequeue_le_enqueue, h.pushed_ticket,
    h.popped_ticket, fun j hj => ?_, ?_, h.finished_item, h.finished_iff, h.finished_nodup⟩
  · by_cases hjs : j = c.slot pos
    · subst hjs
      exact ⟨pos, rfl, hhold.1, hhold.2.1, .inr ⟨hseq, hhold.2.2.2.1,
        fun hle => absurd hle (Nat.not_le.mpr hpos), fun _ => ⟨i, by simp [Local.Popping]⟩⟩⟩
    · exact h.other_slot ho rfl rfl rfl (fun _ _ => rfl) (fun _ hy => Function.update_of_ne hy _ _)
        rfl hj hjs
  · exact h.other_locals ho rfl rfl rfl (fun _ _ => rfl)
      (fun _ hy => Function.update_of_ne hy _ _) rfl rfl List.prefix_rfl
      ⟨hp, hseq, Function.update_self .., p, hpp, hpi⟩

theorem release (h : RingInv c s) {i : ι} {pos : Nat} {item : Option α}
    (hl : s.threads i = .popRelease pos item) :
    RingInv c { s with
      threads := Function.update s.threads i (.popSucceeded pos item)
      sequence := Function.update s.sequence (c.slot pos) (pos + c.val)
      finished := s.finished ++ [(pos, item)] } := by
  have hi := h.locals i
  rw [hl] at hi
  obtain ⟨hp, hseq, hst, p, hpp, hpi⟩ := hi
  have ho : (s.threads i).Pushing pos ∨ (s.threads i).Popping pos := by simp [hl, Local.Popping]
  have hhold := h.slot_holds hseq
  have hpos := h.popped_lt hp
  have hcap := c.two_le
  have hfresh : ¬ ∃ r ∈ s.finished, r.1 = pos := by
    rw [h.finished_iff, hseq]
    omega
  refine ⟨h.pushed_length, h.popped_length, h.dequeue_le_enqueue, h.pushed_ticket,
    h.popped_ticket, fun j hj => ?_, ?_, ?_, fun k => ?_, ?_⟩
  · by_cases hjs : j = c.slot pos
    · subst hjs
      have hde := h.dequeue_le_enqueue
      refine ⟨pos + c.val, c.slot_add_val pos, ?_, ?_, .inl ⟨Function.update_self .., ?_,
        fun _ => hst, fun hlt => ?_⟩⟩ <;> simp only at * <;> omega
    · exact h.other_slot ho rfl rfl rfl (fun _ hy => Function.update_of_ne hy _ _) (fun _ _ => rfl)
        rfl hj hjs
  · exact h.other_locals ho rfl rfl rfl (fun _ hy => Function.update_of_ne hy _ _)
      (fun _ _ => rfl) rfl rfl (List.prefix_append _ _) ⟨hp, by simp⟩
  · intro r hr
    rcases List.mem_append.mp hr with hr | hr
    · exact h.finished_item r hr
    · rw [List.mem_singleton.mp hr]
      exact ⟨p, hpp, hpi⟩
  · have hsplit : (∃ r ∈ s.finished ++ [(pos, item)], r.1 = k) ↔
        (∃ r ∈ s.finished, r.1 = k) ∨ pos = k := by
      simp only [List.mem_append, List.mem_singleton, or_and_right, exists_or, exists_eq_left]
    change (∃ r ∈ s.finished ++ [(pos, item)], r.1 = k) ↔
      k + c.val ≤ Function.update s.sequence (c.slot pos) (pos + c.val) (c.slot k)
    rw [hsplit, h.finished_iff k]
    by_cases hks : c.slot k = c.slot pos
    · rw [hks, Function.update_self, hseq]
      have hne : k + c.val ≠ pos + 1 := by
        intro heq
        apply c.slot_succ_ne pos
        rw [← heq, c.slot_add_val, hks]
      constructor
      · rintro (hle | rfl) <;> omega
      · intro hle
        rcases Nat.lt_or_ge k pos with hlt | hge
        · have := c.slot_gap hks hlt
          omega
        · omega
    · rw [Function.update_of_ne hks]
      constructor
      · rintro (hle | rfl)
        · exact hle
        · exact absurd rfl hks
      · exact .inl
  · rw [List.map_append, List.nodup_append]
    refine ⟨h.finished_nodup, by simp, fun a ha b hb => ?_⟩
    rintro rfl
    obtain ⟨r, hr, hra⟩ := List.mem_map.mp ha
    simp only [List.map_cons, List.map_nil, List.mem_singleton] at hb
    exact hfresh ⟨r, hr, hra.trans hb⟩

/-- The same for a thread that owns no slot. -/
theorem set_unowned (h : RingInv c s) {i : ι} {l : Local α} (hl : LocalInv c s i l)
    (hn : ∀ k, ¬ (s.threads i).Pushing k ∧ ¬ (s.threads i).Popping k) : RingInv c (s.set i l) :=
  h.set_local hl (fun k hk => absurd hk (hn k).1) (fun k hk => absurd hk (hn k).2)

/-- Every access of a thread keeps the invariant. -/
theorem moves (h : RingInv c s) {i : ι} {u : State ι α} (hm : Moves c s i u) : RingInv c u := by
  have hloc := h.locals i
  cases hm with
  | loadEnqueuePos hl =>
    apply h.set_unowned
    · exact le_refl s.enqueuePos
    · simp [hl, Local.Pushing, Local.Popping]
  | pushReady hl hq =>
    rw [hl] at hloc
    apply h.set_unowned
    · exact ⟨hloc, fun _ => hq⟩
    · simp [hl, Local.Pushing, Local.Popping]
  | pushFull hl hq => exact h.set_unowned trivial (by simp [hl, Local.Pushing, Local.Popping])
  | pushLate hl hq => exact h.set_unowned trivial (by simp [hl, Local.Pushing, Local.Popping])
  | claimPush hl hq => subst hq; exact h.claimPush hl
  | retryPush hl =>
    apply h.set_unowned
    · exact le_refl s.enqueuePos
    · simp [hl, Local.Pushing, Local.Popping]
  | construct hl => exact h.construct hl
  | publish hl => exact h.publish hl
  | loadDequeuePos hl =>
    apply h.set_unowned
    · exact le_refl s.dequeuePos
    · simp [hl, Local.Pushing, Local.Popping]
  | popReady hl hq =>
    rw [hl] at hloc
    apply h.set_unowned
    · exact ⟨hloc, fun _ => hq⟩
    · simp [hl, Local.Pushing, Local.Popping]
  | popEmpty hl hq => exact h.set_unowned trivial (by simp [hl, Local.Pushing, Local.Popping])
  | popLate hl hq => exact h.set_unowned trivial (by simp [hl, Local.Pushing, Local.Popping])
  | claimPop hl hq => subst hq; exact h.claimPop hl
  | retryPop hl =>
    apply h.set_unowned
    · exact le_refl s.dequeuePos
    · simp [hl, Local.Pushing, Local.Popping]
  | move hl =>
    rw [hl] at hloc
    obtain ⟨hp, hq, p, hpp, hst⟩ := hloc
    apply h.set_local
    · exact ⟨hp, hq, p, hpp, hst⟩
    · simp [hl, Local.Pushing]
    · simp [hl, Local.Popping]
  | destroy hl => exact h.destroy hl
  | release hl => exact h.release hl

theorem step (h : RingInv c s) {a : Action ι α} {u : State ι α}
    (hs : MpmcQueue.step .ideal c s a = some u) : RingInv c u := by
  cases a with
  | callPush i item =>
    simp only [MpmcQueue.step] at hs
    split at hs
    · next hl =>
      cases hs
      exact h.set_unowned trivial (by simp [hl, Local.Pushing, Local.Popping])
    · cases hs
  | callPop i =>
    simp only [MpmcQueue.step] at hs
    split at hs
    · next hl =>
      cases hs
      exact h.set_unowned trivial (by simp [hl, Local.Pushing, Local.Popping])
    · cases hs
  | advance i b => exact h.moves (moves_of_advance hs)
  | ret i =>
    simp only [MpmcQueue.step] at hs
    split_ifs at hs with hd
    cases hs
    apply h.set_unowned
    · trivial
    · revert hd
      cases s.threads i <;> simp [Local.Done, Local.Pushing, Local.Popping]

end RingInv

theorem ringInv_of_reachable [DecidableEq ι] {c : Capacity} {s : State ι α}
    (h : (system .ideal c).Reachable s) : RingInv c s :=
  h.invariant (fun _ hi => hi ▸ RingInv.of_initial) fun _ _ _ hp hs => hp.step hs

end Jellybean.Concurrency.MpmcQueue
