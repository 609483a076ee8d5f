import Jellybean.Concurrency.Seqlock

namespace Jellybean.Concurrency.Seqlock

variable {ι V : Type*} {n : Nat} {s t : State ι n V}

/-- No write is in progress: the counter is even and the data is that of the last one. -/
structure Free (s : State ι n V) : Prop where
  none : ∀ i, (s.threads i).inWrite = false
  seq : s.seq = 2 * s.writes.length % 2^64
  data : s.snapshot s.writes.length = some s.data

/-- Thread `i` alone is writing and the counter is odd. -/
structure Busy (i : ι) (s : State ι n V) : Prop where
  own : s.threads i = .writing (2 * s.writes.length % 2^64)
  only : ∀ j, (s.threads j).inWrite = true → j = i
  seq : s.seq = (2 * s.writes.length + 1) % 2^64

/-- A reader's copy agrees with the data as long as no write has begun since its first load, which
found `f` writes finished. -/
def LocalInv (s : State ι n V) : Local n V → Prop
  | .writeCas x => x % 2 = 0
  | .readLoad called => called ≤ s.writes.length
  | .reading called x copy =>
    ∃ f, called ≤ f ∧ f ≤ s.writes.length ∧ x = 2 * f % 2^64 ∧
      (f = s.writes.length → s.seq % 2 = 0 → ∀ w v, copy w = some v → v = s.data w)
  | .idle | .writeLoad | .writing _ => True

/-- The copy is the data after some number of finished writes between the call and the return. -/
def Consistent (s : State ι n V) (r : Return n V) : Prop :=
  ∃ k x, r.called ≤ k ∧ k ≤ r.finished ∧ s.snapshot k = some x ∧ r.copy = fun w => some (x w)

/-- The part of the invariant that holds whatever the readers return. -/
structure Locked (s : State ι n V) : Prop where
  lock : Free s ∨ ∃ i, Busy i s
  threads : ∀ i, LocalInv s (s.threads i)

structure Inv (s : State ι n V) : Prop where
  lock : Free s ∨ ∃ i, Busy i s
  threads : ∀ i, LocalInv s (s.threads i)
  returns : ∀ r ∈ s.returns, Consistent s r

theorem Inv.locked (h : Inv s) : Locked s := ⟨h.lock, h.threads⟩

theorem Locked.initial (data : Fin n → V) : Locked (initial data : State ι n V) where
  lock := .inl ⟨fun _ => rfl, rfl, rfl⟩
  threads := fun _ => trivial

theorem odd_of_and_one {x : Nat} : x &&& 1 ≠ 0 ↔ x % 2 = 1 := by
  rw [Nat.and_one_is_mod]
  omega

/-- The counter tells whether a write is in progress. -/
theorem Locked.free_of_even (h : Locked s) (he : s.seq % 2 = 0) : Free s := by
  rcases h.lock with hf | ⟨i, hb⟩
  · exact hf
  · have := hb.seq
    omega

theorem Locked.busy_of_writing (h : Locked s) {i : ι} (hi : (s.threads i).inWrite = true) :
    Busy i s := by
  rcases h.lock with hf | ⟨j, hb⟩
  · rw [hf.none i] at hi
    cases hi
  · rw [hb.only i hi]
    exact hb

theorem snapshot_append {x : Fin n → V} {k : Nat} (h : s.snapshot k = some x)
    (hstart : t.start = s.start) {r : List (Fin n → V)} (hw : t.writes = s.writes ++ r) :
    t.snapshot k = some x := by
  unfold State.snapshot at *
  rw [hstart, hw, ← List.cons_append, List.getElem?_append_left (List.getElem?_eq_some_iff.mp h).1]
  exact h

/-- What a step of another thread does to a thread's knowledge: unless a write has begun or ended,
the data is as before. -/
theorem LocalInv.frame {l : Local n V} (h : LocalInv s l)
    (hle : s.writes.length ≤ t.writes.length)
    (hsame : t.writes.length = s.writes.length → t.seq % 2 = 0 →
      s.seq % 2 = 0 ∧ t.data = s.data) : LocalInv t l := by
  cases l with
  | idle => trivial
  | writeLoad => trivial
  | writeCas x => exact h
  | writing x => trivial
  | readLoad called => exact Nat.le_trans h hle
  | reading called x copy =>
    obtain ⟨f, hcf, hfw, hx, hcopy⟩ := h
    refine ⟨f, hcf, hfw.trans hle, hx, ?_⟩
    intro hf heven
    obtain ⟨hs, hdata⟩ := hsame (by omega) heven
    rw [hdata]
    exact hcopy (by omega) hs

theorem Locked.exclusive (h : Locked s) {i j : ι} (hi : (s.threads i).inWrite = true)
    (hj : (s.threads j).inWrite = true) : i = j :=
  (h.busy_of_writing hj).only i hi

/-- The words change only while the counter is odd. -/
theorem Locked.storeWord (h : Locked s) {i : ι} {x : Nat} (hi : s.threads i = .writing x)
    (w : Fin n) (v : V) : Locked { s with data := Function.update s.data w v } := by
  have hb := h.busy_of_writing (i := i) (by rw [hi]; rfl)
  have hseq := hb.seq
  refine ⟨.inr ⟨i, hb.own, hb.only, hb.seq⟩, ?_⟩
  intro j
  refine (h.threads j).frame le_rfl ?_
  intro _ heven
  dsimp only at heven
  omega

/-- A reader that finds its sequence number again returns a snapshot: fewer than `2^63` writes do
not bring the counter back, so none has happened. -/
theorem Locked.consistent (h : Locked s) {i : ι} {called : Nat} {copy : Fin n → Option V}
    (hi : s.threads i = .reading called s.seq copy) (hall : ∀ w, (copy w).isSome = true)
    (hfew : s.writes.length < called + 2^63) :
    Consistent s ⟨called, s.writes.length, copy⟩ := by
  have hl := h.threads i
  rw [hi] at hl
  obtain ⟨f, hcf, hfw, hx, hcopy⟩ := hl
  have heven : s.seq % 2 = 0 := by omega
  have hf := h.free_of_even heven
  have hseq := hf.seq
  have hfeq : f = s.writes.length := by omega
  refine ⟨s.writes.length, s.data, by dsimp only; omega, le_rfl, hf.data, ?_⟩
  funext w
  obtain ⟨v, hv⟩ := Option.isSome_iff_exists.mp (hall w)
  dsimp only
  rw [hv, hcopy hfeq heven w v hv]

variable [DecidableEq ι]

/-- A thread moves on outside the callback of a write, perhaps with a result; the shared state
stays. -/
theorem Locked.move (h : Locked s) {i : ι} {l : Local n V} {rs : List (Return n V)}
    (hold : (s.threads i).inWrite = false) (hnew : l.inWrite = false) (hl : LocalInv s l) :
    Locked { s with threads := Function.update s.threads i l, returns := rs } := by
  have hwrite : ∀ j, (Function.update s.threads i l j).inWrite = (s.threads j).inWrite := by
    intro j
    rw [Function.update_apply]
    split_ifs with hj
    · rw [hnew, hj, hold]
    · rfl
  refine ⟨?_, ?_⟩
  · rcases h.lock with hf | ⟨j, hb⟩
    · left
      refine ⟨?_, hf.seq, hf.data⟩
      intro j
      exact (hwrite j).trans (hf.none j)
    · right
      refine ⟨j, ?_, ?_, hb.seq⟩
      · have hji : j ≠ i := by
          intro heq
          rw [← heq, hb.own] at hold
          cases hold
        dsimp only
        rw [Function.update_of_ne hji]
        exact hb.own
      · intro j' hj'
        exact hb.only j' ((hwrite j').symm.trans hj')
  · intro j
    change LocalInv s (Function.update s.threads i l j)
    rw [Function.update_apply]
    split_ifs
    · exact hl
    · exact h.threads j

theorem Locked.set (h : Locked s) {i : ι} {l : Local n V} (hold : (s.threads i).inWrite = false)
    (hnew : l.inWrite = false) (hl : LocalInv s l) : Locked (s.set i l) :=
  h.move hold hnew hl

/-- A successful compare-exchange starts the only write. -/
theorem Locked.acquire (h : Locked s) {i : ι} (hi : s.threads i = .writeCas s.seq) :
    Locked { s with
      seq := (s.seq + 1) % 2^64
      threads := Function.update s.threads i (.writing s.seq) } := by
  have heven : s.seq % 2 = 0 := by
    have := h.threads i
    rw [hi] at this
    exact this
  have hf := h.free_of_even heven
  have hseq := hf.seq
  refine ⟨.inr ⟨i, ?_, ?_, ?_⟩, ?_⟩
  · change Function.update s.threads i (.writing s.seq) i = _
    rw [Function.update_self, hseq]
  · intro j hj
    by_contra hne
    change (Function.update s.threads i (.writing s.seq) j).inWrite = true at hj
    rw [Function.update_of_ne hne, hf.none j] at hj
    cases hj
  · dsimp only
    omega
  · intro j
    dsimp only
    rw [Function.update_apply]
    split_ifs
    · trivial
    · refine (h.threads j).frame le_rfl ?_
      intro _ hodd
      dsimp only at hodd
      omega

/-- The closing store makes the data the next snapshot. -/
theorem Locked.release (h : Locked s) {i : ι} {x : Nat} (hi : s.threads i = .writing x) :
    Locked { s with
      seq := (x + 2) % 2^64
      threads := Function.update s.threads i .idle
      writes := s.writes ++ [s.data] } := by
  have hb := h.busy_of_writing (i := i) (by rw [hi]; rfl)
  have hx : x = 2 * s.writes.length % 2^64 := by
    have := hb.own
    rw [hi] at this
    exact Local.writing.inj this
  have hlen : (s.writes ++ [s.data]).length = s.writes.length + 1 := by simp
  refine ⟨.inl ⟨?_, ?_, ?_⟩, ?_⟩
  · intro j
    dsimp only
    rw [Function.update_apply]
    split_ifs with hj
    · rfl
    · by_contra hw
      exact hj (hb.only j (Bool.eq_true_of_not_eq_false hw))
  · dsimp only
    rw [hlen]
    omega
  · change (s.start :: (s.writes ++ [s.data]))[(s.writes ++ [s.data]).length]? = some s.data
    rw [hlen, List.getElem?_cons_succ, List.getElem?_concat_length]
  · intro j
    dsimp only
    rw [Function.update_apply]
    split_ifs
    · trivial
    · apply (h.threads j).frame
      · dsimp only
        omega
      · intro hsame
        dsimp only at hsame
        omega

theorem Locked.access (h : Locked s) {i : ι} {spurious : Bool}
    (ht : access s i spurious = some t) : Locked t := by
  unfold Seqlock.access at ht
  cases hi : s.threads i with
  | idle =>
    rw [hi] at ht
    cases ht
  | writeLoad =>
    rw [hi] at ht
    dsimp only at ht
    split_ifs at ht with hodd
    · cases ht
      exact h
    · cases ht
      rw [odd_of_and_one] at hodd
      apply h.set (by rw [hi]; rfl) rfl
      change s.seq % 2 = 0
      omega
  | writeCas x =>
    rw [hi] at ht
    dsimp only at ht
    split_ifs at ht with hcas
    · obtain ⟨rfl, -⟩ := hcas
      cases ht
      exact h.acquire hi
    · cases ht
      exact h.set (by rw [hi]; rfl) rfl trivial
  | writing x =>
    rw [hi] at ht
    cases ht
    exact h.release hi
  | readLoad called =>
    rw [hi] at ht
    dsimp only at ht
    split_ifs at ht with hodd
    · cases ht
      exact h
    · cases ht
      rw [odd_of_and_one] at hodd
      have hle : called ≤ s.writes.length := by
        have := h.threads i
        rw [hi] at this
        exact this
      have hf := h.free_of_even (by omega)
      apply h.set (by rw [hi]; rfl) rfl
      refine ⟨s.writes.length, hle, le_rfl, hf.seq, ?_⟩
      intro _ _ w v hv
      cases hv
  | reading called x copy =>
    rw [hi] at ht
    dsimp only at ht
    split_ifs at ht with hall hx
    · cases ht
      exact h.move (by rw [hi]; rfl) rfl trivial
    · cases ht
      apply h.set (by rw [hi]; rfl) rfl
      have hl := h.threads i
      rw [hi] at hl
      obtain ⟨f, hcf, hfw, -⟩ := hl
      exact hcf.trans hfw

/-- The callback of a write throws. -/
def throwsInWrite (s : State ι n V) : Action ι n V → Bool
  | .throws i => (s.threads i).inWrite
  | _ => false

theorem Locked.step (h : Locked s) {a : Action ι n V} (hret : throwsInWrite s a = false)
    (ht : step s a = some t) : Locked t := by
  unfold Seqlock.step at ht
  cases a with
  | write i =>
    dsimp only at ht
    split at ht
    · rename_i hi
      cases ht
      exact h.set (by rw [hi]; rfl) rfl trivial
    · cases ht
  | read i =>
    dsimp only at ht
    split at ht
    · rename_i hi
      cases ht
      exact h.set (by rw [hi]; rfl) rfl (Nat.le_refl s.writes.length)
    · cases ht
  | step i spurious => exact h.access ht
  | storeWord i w v =>
    dsimp only at ht
    split at ht
    · rename_i x hi
      cases ht
      exact h.storeWord hi w v
    · cases ht
  | loadWord i w =>
    dsimp only at ht
    split at ht
    · rename_i called x copy hi
      cases ht
      have hl := h.threads i
      rw [hi] at hl
      obtain ⟨f, hcf, hfw, hx, hcopy⟩ := hl
      apply h.set (by rw [hi]; rfl) rfl
      refine ⟨f, hcf, hfw, hx, ?_⟩
      intro hf heven w' v hv
      rw [Function.update_apply] at hv
      split_ifs at hv with hw
      · rw [hw]
        exact (Option.some_inj.mp hv).symm
      · exact hcopy hf heven w' v hv
    · cases ht
      exact h
    · cases ht
  | throws i =>
    dsimp only at ht
    split at ht
    · rename_i x hi
      rw [throwsInWrite, hi] at hret
      cases hret
    · rename_i called x copy hi
      cases ht
      exact h.set (by rw [hi]; rfl) rfl trivial
    · cases ht

/-- Finished writes stay, and a step that returns a read comes from a reader whose second load
agreed with the first. -/
theorem step_history {a : Action ι n V} (ht : step s a = some t) :
    t.start = s.start ∧ (∃ ws, t.writes = s.writes ++ ws) ∧
    ∀ r ∈ t.returns, r ∈ s.returns ∨ ∃ i called copy, s.threads i = .reading called s.seq copy ∧
      (∀ w, (copy w).isSome = true) ∧ r = ⟨called, s.writes.length, copy⟩ := by
  have hsame : ∀ u : State ι n V, u.start = s.start → u.writes = s.writes →
      u.returns = s.returns → u.start = s.start ∧ (∃ ws, u.writes = s.writes ++ ws) ∧
      ∀ r ∈ u.returns, r ∈ s.returns ∨ ∃ i called copy, s.threads i = .reading called s.seq copy ∧
        (∀ w, (copy w).isSome = true) ∧ r = ⟨called, s.writes.length, copy⟩ := by
    intro u hstart hwrites hreturns
    refine ⟨hstart, ⟨[], by rw [hwrites, List.append_nil]⟩, ?_⟩
    intro r hr
    rw [hreturns] at hr
    exact .inl hr
  cases a with
  | step i spurious =>
    change access s i spurious = some t at ht
    unfold access at ht
    split at ht
    · cases ht
    · split_ifs at ht
      all_goals
        cases ht
        exact hsame _ rfl rfl rfl
    · split_ifs at ht
      all_goals
        cases ht
        exact hsame _ rfl rfl rfl
    · cases ht
      refine ⟨rfl, ⟨_, rfl⟩, ?_⟩
      intro r hr
      exact .inl hr
    · split_ifs at ht
      all_goals
        cases ht
        exact hsame _ rfl rfl rfl
    · rename_i called x copy hi
      split_ifs at ht with hall hx
      · cases ht
        subst hx
        refine ⟨rfl, ⟨[], (List.append_nil _).symm⟩, ?_⟩
        intro r hr
        rcases List.mem_append.mp hr with hr | hr
        · exact .inl hr
        · exact .inr ⟨i, called, copy, hi, hall, List.mem_singleton.mp hr⟩
      · cases ht
        exact hsame _ rfl rfl rfl
  | write i | read i | storeWord i w v | loadWord i w | throws i =>
    unfold Seqlock.step at ht
    dsimp only at ht
    split at ht
    all_goals cases ht
    all_goals exact hsame _ rfl rfl rfl

theorem Inv.step (h : Inv s) {a : Action ι n V} (hcalm : Calm s a) (ht : step s a = some t) :
    Inv t := by
  obtain ⟨hthrow, hfew⟩ := hcalm
  have hret : throwsInWrite s a = false := by
    cases a with
    | throws i => cases hthrow
    | _ => rfl
  obtain ⟨hstart, ⟨ws, hws⟩, hreturns⟩ := step_history ht
  obtain ⟨hlock, hthreads⟩ := h.locked.step hret ht
  refine ⟨hlock, hthreads, ?_⟩
  intro r hr
  have hold : Consistent s r := by
    rcases hreturns r hr with hr | ⟨i, called, copy, hi, hall, rfl⟩
    · exact h.returns r hr
    · exact h.locked.consistent hi hall (hfew i called (by rw [hi]; rfl))
  obtain ⟨k, x, hk, hk', hx, hcopy⟩ := hold
  exact ⟨k, x, hk, hk', snapshot_append hx hstart hws, hcopy⟩

theorem Inv.of_reachable (hr : (system ι n V).ReachableUnder Calm s) : Inv s := by
  apply System.ReachableUnder.invariant _ _ hr
  · rintro s ⟨data, rfl⟩
    obtain ⟨hlock, hthreads⟩ := Locked.initial data
    exact ⟨hlock, hthreads, fun r hr => by cases hr⟩
  · intro s a t h hcalm ht
    exact h.step hcalm ht

/-- Writers exclude each other, and every read returns the complete data as some finished write
left it, one that is neither before the call nor after the return. -/
theorem reads_consistent (s : State ι n V) (hr : (system ι n V).ReachableUnder Calm s) :
    (∀ i j, (s.threads i).inWrite = true → (s.threads j).inWrite = true → i = j) ∧
    ∀ r ∈ s.returns, ∃ k x, r.called ≤ k ∧ k ≤ r.finished ∧ s.snapshot k = some x ∧
      r.copy = fun w => some (x w) := by
  have h := Inv.of_reachable hr
  refine ⟨?_, h.returns⟩
  intro i j hi hj
  exact h.locked.exclusive hi hj

/-- A reader, `false`, has copied one word when the other thread writes both; it copies the second
word, starts again and then returns. -/
def overtaken : List (Action Bool 2 Nat) :=
  [.read false, .step false false, .loadWord false 0, .write true, .step true false,
    .step true false, .storeWord true 0 7, .loadWord false 1, .storeWord true 1 8,
    .step true false, .step false false, .step false false, .loadWord false 1, .loadWord false 0,
    .step false false]

theorem reads_consistent_overtaken :
    ∃ s, (system Bool 2 Nat).run (initial ![1, 2]) overtaken = some s ∧
      ∃ r ∈ s.returns, r.copy 0 = some 7 ∧ r.copy 1 = some 8 ∧
        ∃ k x, r.called ≤ k ∧ k ≤ r.finished ∧ s.snapshot k = some x ∧
          r.copy = fun w => some (x w) := by
  have hrun : ((system Bool 2 Nat).run (initial ![1, 2]) overtaken).map
      (fun s => s.returns.map fun r => (r.copy 0, r.copy 1)) = some [(some 7, some 8)] := by
    decide +kernel
  obtain ⟨s, hs, hret⟩ := Option.map_eq_some_iff.mp hrun
  obtain ⟨r, hr, hcopy⟩ := List.mem_map.mp (hret ▸ List.mem_singleton_self (some 7, some 8))
  obtain ⟨h0, h1⟩ := Prod.mk.inj hcopy
  have hc : (system Bool 2 Nat).Complies Calm (initial ![1, 2]) overtaken := by decide +kernel
  obtain ⟨-, hreads⟩ := reads_consistent s (.run (.init ⟨![1, 2], rfl⟩) hc hs)
  exact ⟨s, hs, r, hr, h0, h1, hreads r hr⟩

end Jellybean.Concurrency.Seqlock
