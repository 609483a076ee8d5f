import Jellybean.Concurrency.SeqlockInvariant

namespace Jellybean.Concurrency.Seqlock

variable {ι V : Type*} [DecidableEq ι] {n : Nat} {s t : State ι n V}

/-- One access of a callback to the data. -/
inductive Access (n : Nat) (V : Type*) where
  | store (w : Fin n) (v : V)
  | load (w : Fin n)
  deriving DecidableEq

def Access.action (i : ι) : Access n V → Action ι n V
  | .store w v => .storeWord i w v
  | .load w => .loadWord i w

/-- How a callback is left. -/
def leave (i : ι) (returns : Bool) : Action ι n V :=
  if returns = true then .step i false else .throws i

/-- A write that runs alone: `k` times the weak compare-exchange fails spuriously, then the
callback makes its accesses. -/
def writeAlone (i : ι) (k : Nat) (body : List (Access n V)) (returns : Bool) :
    List (Action ι n V) :=
  [.write i] ++ (List.replicate k [.step i false, .step i true]).flatten ++
    [.step i false, .step i false] ++ body.map (Access.action i) ++ [leave i returns]

/-- A read that runs alone. -/
def readAlone (i : ι) (body : List (Fin n)) (returns : Bool) : List (Action ι n V) :=
  [.read i, .step i false] ++ body.map (.loadWord i) ++ [leave i returns]

/-- With no write between its compare-exchange and its last store the counter is even, and a write
or a read that runs alone from there comes to its end, whatever its callback does. -/
structure Open (s : State ι n V) : Prop where
  even : (∀ i, (s.threads i).inWrite = false) → s.seq % 2 = 0
  writes : (∀ i, (s.threads i).inWrite = false) → ∀ i, s.threads i = .idle →
    ∀ k body returns, ∃ t, (system ι n V).run s (writeAlone i k body returns) = some t ∧
      t.threads = s.threads
  reads : (∀ i, (s.threads i).inWrite = false) → ∀ i, s.threads i = .idle →
    ∀ body returns, (returns = true → ∀ w, w ∈ body) →
      ∃ t, (system ι n V).run s (readAlone i body returns) = some t ∧ t.threads = s.threads

/-- The counter is odd for good: nobody is in a write, and nobody can begin one. -/
structure Stuck (s : State ι n V) : Prop where
  none : ∀ i, (s.threads i).inWrite = false
  odd : s.seq % 2 = 1
  cas : ∀ i x, s.threads i = .writeCas x → x % 2 = 0

/-! A call that runs alone. -/

theorem run_step {a : Action ι n V} (ht : step s a = some t) (as : List (Action ι n V)) :
    (system ι n V).run s (a :: as) = (system ι n V).run t as := by
  rw [System.run_cons]
  change (step s a).bind _ = _
  rw [ht]
  rfl

theorem set_set (s : State ι n V) (i : ι) (l l' : Local n V) : (s.set i l).set i l' = s.set i l' := by
  unfold State.set
  dsimp only
  rw [Function.update_idem]

theorem set_self (s : State ι n V) (i : ι) (l : Local n V) : (s.set i l).threads i = l :=
  Function.update_self _ _ _

/-- A thread that was idle before its call and is so again. -/
theorem update_idle {i : ι} (hi : s.threads i = .idle) (l : Local n V) :
    Function.update (Function.update s.threads i l) i .idle = s.threads := by
  rw [Function.update_idem, ← hi, Function.update_eq_self]

theorem step_writeLoad {i : ι} (hi : s.threads i = .writeLoad) (he : s.seq % 2 = 0) (sp : Bool) :
    step s (.step i sp) = some (s.set i (.writeCas s.seq)) := by
  have heven : ¬ s.seq &&& 1 ≠ 0 := by
    rw [odd_of_and_one]
    omega
  change access s i sp = _
  unfold access
  rw [hi]
  exact if_neg heven

theorem step_readLoad {i : ι} {called : Nat} (hi : s.threads i = .readLoad called)
    (he : s.seq % 2 = 0) (sp : Bool) :
    step s (.step i sp) = some (s.set i (.reading called s.seq fun _ => none)) := by
  have heven : ¬ s.seq &&& 1 ≠ 0 := by
    rw [odd_of_and_one]
    omega
  change access s i sp = _
  unfold access
  rw [hi]
  exact if_neg heven

/-- Spurious failures lead back to the first load. -/
theorem run_spurious {i : ι} (he : s.seq % 2 = 0) (k : Nat) :
    (system ι n V).run (s.set i .writeLoad)
      (List.replicate k [.step i false, .step i true]).flatten = some (s.set i .writeLoad) := by
  induction k with
  | zero => rfl
  | succ k ih =>
    have hload : step (s.set i .writeLoad) (.step i false) = some (s.set i (.writeCas s.seq)) := by
      rw [step_writeLoad (set_self s i _) he, set_set]
      rfl
    have hfail : step (s.set i (.writeCas s.seq)) (.step i true) = some (s.set i .writeLoad) := by
      change access (s.set i (.writeCas s.seq)) i true = _
      unfold access
      rw [set_self]
      dsimp only
      rw [if_neg (by simp), set_set]
    rw [List.replicate_succ, List.flatten_cons, List.cons_append, List.cons_append, List.nil_append,
      run_step hload, run_step hfail]
    exact ih

/-- The callback of a write only moves the data. -/
theorem run_body {i : ι} {x : Nat} (hi : s.threads i = .writing x) (body : List (Access n V)) :
    ∃ d, (system ι n V).run s (body.map (Access.action i)) = some { s with data := d } := by
  induction body generalizing s with
  | nil => exact ⟨s.data, rfl⟩
  | cons a body ih =>
    obtain ⟨d, hd⟩ : ∃ d, step s (a.action i) = some { s with data := d } := by
      cases a with
      | store w v =>
        refine ⟨Function.update s.data w v, ?_⟩
        unfold Access.action step
        dsimp only
        rw [hi]
      | load w =>
        refine ⟨s.data, ?_⟩
        unfold Access.action step
        dsimp only
        rw [hi]
    obtain ⟨d', hd'⟩ := ih (s := { s with data := d }) hi
    refine ⟨d', ?_⟩
    rw [List.map_cons, run_step hd]
    exact hd'

/-- The callback of a read copies the words that it names. -/
theorem run_copy (s : State ι n V) (i : ι) (called x : Nat) (copy : Fin n → Option V)
    (body : List (Fin n)) :
    ∃ copy', (system ι n V).run (s.set i (.reading called x copy)) (body.map (.loadWord i)) =
        some (s.set i (.reading called x copy')) ∧
      ∀ w, (copy w).isSome = true ∨ w ∈ body → (copy' w).isSome = true := by
  induction body generalizing copy with
  | nil =>
    refine ⟨copy, rfl, ?_⟩
    intro w hw
    exact hw.resolve_right (List.not_mem_nil)
  | cons a body ih =>
    obtain ⟨copy', hrun, hcopy⟩ := ih (Function.update copy a (some (s.data a)))
    refine ⟨copy', ?_, ?_⟩
    · have hload : step (s.set i (.reading called x copy)) (.loadWord i a) =
          some (s.set i (.reading called x (Function.update copy a (some (s.data a))))) := by
        unfold step
        dsimp only
        rw [set_self]
        dsimp only
        rw [set_set]
        rfl
      rw [List.map_cons, run_step hload]
      exact hrun
    · intro w hw
      apply hcopy
      rw [Function.update_apply]
      split_ifs with hwa
      · exact .inl rfl
      · refine hw.imp_right fun hmem => ?_
        exact (List.mem_cons.mp hmem).resolve_left hwa

theorem step_leave_write {i : ι} {x : Nat} (hi : s.threads i = .writing x) (returns : Bool) :
    ∃ t, step s (leave i returns) = some t ∧ t.threads = Function.update s.threads i .idle := by
  cases returns with
  | true =>
    refine ⟨{ s with
      seq := (x + 2) % 2^64
      threads := Function.update s.threads i .idle
      writes := s.writes ++ [s.data] }, ?_, rfl⟩
    change access s i false = _
    unfold access
    rw [hi]
  | false =>
    refine ⟨s.set i .idle, ?_, rfl⟩
    change step s (.throws i) = _
    unfold step
    dsimp only
    rw [hi]

theorem step_leave_read {i : ι} {called : Nat} {copy : Fin n → Option V} {returns : Bool}
    (hi : s.threads i = .reading called s.seq copy)
    (hall : returns = true → ∀ w, (copy w).isSome = true) :
    ∃ t, step s (leave i returns) = some t ∧ t.threads = Function.update s.threads i .idle := by
  cases returns with
  | true =>
    refine ⟨{ s with
      threads := Function.update s.threads i .idle
      returns := s.returns ++ [⟨called, s.writes.length, copy⟩] }, ?_, rfl⟩
    change access s i false = _
    unfold access
    rw [hi]
    dsimp only
    rw [if_pos (hall rfl), if_pos rfl]
  | false =>
    refine ⟨s.set i .idle, ?_, rfl⟩
    change step s (.throws i) = _
    unfold step
    dsimp only
    rw [hi]

theorem writeAlone_completes {i : ι} (hi : s.threads i = .idle) (he : s.seq % 2 = 0) (k : Nat)
    (body : List (Access n V)) (returns : Bool) :
    ∃ t, (system ι n V).run s (writeAlone i k body returns) = some t ∧ t.threads = s.threads := by
  have hcall : step s (.write i) = some (s.set i .writeLoad) := by
    unfold step
    dsimp only
    rw [hi]
  have hload : step (s.set i .writeLoad) (.step i false) = some (s.set i (.writeCas s.seq)) := by
    rw [step_writeLoad (set_self s i _) he, set_set]
    rfl
  have hcas : step (s.set i (.writeCas s.seq)) (.step i false) =
      some { s with
        seq := (s.seq + 1) % 2^64
        threads := Function.update s.threads i (.writing s.seq) } := by
    change access (s.set i (.writeCas s.seq)) i false = _
    unfold access
    rw [set_self]
    dsimp only
    rw [if_pos ⟨rfl, rfl⟩]
    unfold State.set
    dsimp only
    rw [Function.update_idem]
  have hwriting : Function.update s.threads i (.writing s.seq) i = .writing s.seq :=
    Function.update_self _ _ _
  obtain ⟨d, hbody⟩ := run_body (s := { s with
    seq := (s.seq + 1) % 2^64
    threads := Function.update s.threads i (.writing s.seq) }) hwriting body
  obtain ⟨t, hleave, ht⟩ := step_leave_write (s := { s with
    seq := (s.seq + 1) % 2^64
    data := d
    threads := Function.update s.threads i (.writing s.seq) }) hwriting returns
  refine ⟨t, ?_, ht.trans (update_idle hi _)⟩
  unfold writeAlone
  rw [List.append_assoc, List.append_assoc, List.append_assoc, List.singleton_append, run_step hcall,
    System.run_append, run_spurious he k, Option.bind_some, List.cons_append, List.cons_append,
    List.nil_append, run_step hload, run_step hcas, System.run_append, hbody, Option.bind_some,
    run_step hleave]
  rfl

theorem readAlone_completes {i : ι} (hi : s.threads i = .idle) (he : s.seq % 2 = 0)
    (body : List (Fin n)) (returns : Bool) (hall : returns = true → ∀ w, w ∈ body) :
    ∃ t, (system ι n V).run s (readAlone i body returns) = some t ∧ t.threads = s.threads := by
  have hcall : step s (.read i) = some (s.set i (.readLoad s.writes.length)) := by
    unfold step
    dsimp only
    rw [hi]
  have hload : step (s.set i (.readLoad s.writes.length)) (.step i false) =
      some (s.set i (.reading s.writes.length s.seq fun _ => none)) := by
    rw [step_readLoad (set_self s i _) he, set_set]
    rfl
  obtain ⟨copy, hbody, hcopy⟩ := run_copy s i s.writes.length s.seq
    (fun _ => none) body
  have hwhole : returns = true → ∀ w, (copy w).isSome = true :=
    fun hret w => hcopy w (.inr (hall hret w))
  obtain ⟨t, hleave, ht⟩ :=
    step_leave_read (set_self s i (.reading s.writes.length s.seq copy)) hwhole
  refine ⟨t, ?_, ht.trans (update_idle hi _)⟩
  unfold readAlone
  rw [List.append_assoc, List.cons_append, List.cons_append, List.nil_append, run_step hcall,
    run_step hload, System.run_append, hbody, Option.bind_some, run_step hleave]
  rfl

/-! The two kinds of runs. -/

theorem Locked.isOpen (h : Locked s) : Open s := by
  have heven : (∀ i, (s.threads i).inWrite = false) → s.seq % 2 = 0 := by
    intro hnone
    rcases h.lock with hf | ⟨i, hb⟩
    · have := hf.seq
      omega
    · have hi := hnone i
      rw [hb.own] at hi
      cases hi
  refine ⟨heven, ?_, ?_⟩
  · intro hnone i hi k body returns
    exact writeAlone_completes hi (heven hnone) k body returns
  · intro hnone i hi body returns hall
    exact readAlone_completes hi (heven hnone) body returns hall

theorem Stuck.not_open (h : Stuck s) : ¬Open s := by
  intro hopen
  have heven := hopen.even h.none
  have hodd := h.odd
  omega

/-- The writer that could have made the counter even again is gone. -/
theorem Locked.stuck (h : Locked s) {a : Action ι n V} (hthrow : throwsInWrite s a = true)
    (ht : Seqlock.step s a = some t) : Stuck t := by
  cases a with
  | throws i =>
    have hb := h.busy_of_writing hthrow
    have hseq := hb.seq
    unfold Seqlock.step at ht
    dsimp only at ht
    rw [hb.own] at ht
    cases ht
    refine ⟨?_, ?_, ?_⟩
    · intro j
      change (Function.update s.threads i .idle j).inWrite = false
      rw [Function.update_apply]
      split_ifs with hj
      · rfl
      · by_contra hw
        exact hj (hb.only j (Bool.eq_true_of_not_eq_false hw))
    · change s.seq % 2 = 1
      omega
    · intro j x hj
      change Function.update s.threads i .idle j = .writeCas x at hj
      rw [Function.update_apply] at hj
      split_ifs at hj
      have hl := h.threads j
      rw [hj] at hl
      exact hl
  | _ => cases hthrow

theorem Stuck.set (h : Stuck s) {i : ι} {l : Local n V} {rs : List (Return n V)}
    (hnew : l.inWrite = false) (hcas : ∀ x, l ≠ .writeCas x) :
    Stuck { s with threads := Function.update s.threads i l, returns := rs } := by
  refine ⟨?_, h.odd, ?_⟩
  · intro j
    dsimp only
    rw [Function.update_apply]
    split_ifs
    · exact hnew
    · exact h.none j
  · intro j x hj
    dsimp only at hj
    rw [Function.update_apply] at hj
    split_ifs at hj
    · exact absurd hj (hcas x)
    · exact h.cas j x hj

theorem Stuck.step (h : Stuck s) {a : Action ι n V} (ht : Seqlock.step s a = some t) :
    Stuck t := by
  have hodd := h.odd
  cases a with
  | step i spurious =>
    change access s i spurious = some t at ht
    unfold access at ht
    cases hi : s.threads i with
    | idle =>
      rw [hi] at ht
      cases ht
    | writeLoad =>
      rw [hi] at ht
      dsimp only at ht
      rw [if_pos (odd_of_and_one.mpr hodd)] at ht
      cases ht
      exact h
    | writeCas x =>
      -- the counter is odd, and what the thread has loaded is even
      have hx := h.cas i x hi
      rw [hi] at ht
      dsimp only at ht
      rw [if_neg (by omega)] at ht
      cases ht
      exact h.set rfl fun x hl => by cases hl
    | writing x =>
      have hnone := h.none i
      rw [hi] at hnone
      cases hnone
    | readLoad called =>
      rw [hi] at ht
      dsimp only at ht
      rw [if_pos (odd_of_and_one.mpr hodd)] at ht
      cases ht
      exact h
    | reading called x copy =>
      rw [hi] at ht
      dsimp only at ht
      split_ifs at ht with hall hx
      · cases ht
        exact h.set rfl fun x hl => by cases hl
      · cases ht
        exact h.set rfl fun x hl => by cases hl
  | write i | read i =>
    unfold Seqlock.step at ht
    dsimp only at ht
    split at ht
    · cases ht
      exact h.set rfl fun x hl => by cases hl
    · cases ht
  | storeWord i w v =>
    unfold Seqlock.step at ht
    dsimp only at ht
    split at ht
    · cases ht
      exact ⟨h.none, h.odd, h.cas⟩
    · cases ht
  | loadWord i w =>
    unfold Seqlock.step at ht
    dsimp only at ht
    split at ht
    · cases ht
      exact h.set rfl fun x hl => by cases hl
    · cases ht
      exact h
    · cases ht
  | throws i =>
    unfold Seqlock.step at ht
    dsimp only at ht
    split at ht
    · cases ht
      exact h.set rfl fun x hl => by cases hl
    · cases ht
      exact h.set rfl fun x hl => by cases hl
    · cases ht

/-- Whoever loads the counter then does so for ever. -/
theorem Stuck.spins (h : Stuck s) {i : ι} (hi : s.threads i = .writeLoad ∨
    ∃ called, s.threads i = .readLoad called) (k : Nat) (spurious : Bool) :
    (system ι n V).run s (List.replicate k (.step i spurious)) = some s := by
  have hspin : Seqlock.step s (.step i spurious) = some s := by
    change access s i spurious = some s
    unfold access
    obtain hi | ⟨called, hi⟩ := hi
    · rw [hi]
      exact if_pos (odd_of_and_one.mpr h.odd)
    · rw [hi]
      exact if_pos (odd_of_and_one.mpr h.odd)
  induction k with
  | zero => rfl
  | succ k ih =>
    rw [List.replicate_succ, run_step hspin]
    exact ih

/-- The callbacks of the writes in a schedule return normally. -/
def WritesReturn (s : State ι n V) (as : List (Action ι n V)) : Prop :=
  (system ι n V).Complies (fun s a => throwsInWrite s a = false) s as

instance (s : State ι n V) (as : List (Action ι n V)) : Decidable (WritesReturn s as) :=
  inferInstanceAs (Decidable ((system ι n V).Complies (fun s a => throwsInWrite s a = false) s as))

theorem Stuck.run (h : Stuck s) {as : List (Action ι n V)}
    (hrun : (system ι n V).run s as = some t) : Stuck t := by
  induction as generalizing s with
  | nil =>
    cases hrun
    exact h
  | cons a as ih =>
    rw [System.run_cons] at hrun
    obtain ⟨u, hu, hrun⟩ := Option.bind_eq_some_iff.mp hrun
    exact ih (h.step hu) hrun

/-- Up to the first write whose callback throws the lock is sound, from there on it is stuck. -/
theorem Locked.run (h : Locked s) {as : List (Action ι n V)}
    (hrun : (system ι n V).run s as = some t) :
    WritesReturn s as ∧ Locked t ∨ ¬WritesReturn s as ∧ Stuck t := by
  induction as generalizing s with
  | nil =>
    cases hrun
    exact .inl ⟨trivial, h⟩
  | cons a as ih =>
    rw [System.run_cons] at hrun
    obtain ⟨u, hu, hrun⟩ := Option.bind_eq_some_iff.mp hrun
    cases hthrow : throwsInWrite s a with
    | true =>
      refine .inr ⟨?_, (h.stuck hthrow hu).run hrun⟩
      intro hw
      have hret : throwsInWrite s a = false := hw.1
      rw [hthrow] at hret
      cases hret
    | false =>
      obtain ⟨hw, hl⟩ | ⟨hw, hst⟩ := ih (h.step hthrow hu) hrun
      · refine .inl ⟨⟨hthrow, ?_⟩, hl⟩
        intro v hv
        cases hu.symm.trans hv
        exact hw
      · refine .inr ⟨?_, hst⟩
        intro hall
        exact hw (hall.2 u hu)

/-- The lock is open to later calls in exactly the runs in which no callback of a write has
thrown. -/
theorem open_iff (data : Fin n → V) (as : List (Action ι n V)) (s : State ι n V)
    (hrun : (system ι n V).run (initial data) as = some s) :
    Open s ↔ WritesReturn (initial data) as := by
  obtain ⟨hw, hl⟩ | ⟨hw, hst⟩ := (Locked.initial data).run hrun
  · exact iff_of_true hl.isOpen hw
  · exact iff_of_false hst.not_open hw

/-- A write that returns, and a read and its callback's throw around it. -/
def readerThrows : List (Action Bool 1 Nat) :=
  [.read false, .step false false, .write true, .step true false, .step true false,
    .storeWord true 0 7, .throws false, .step true false]

theorem open_readerThrows :
    ∃ s, (system Bool 1 Nat).run (initial ![1]) readerThrows = some s ∧ Open s := by
  have hrun : ((system Bool 1 Nat).run (initial ![1]) readerThrows).isSome = true := by
    decide +kernel
  obtain ⟨s, hs⟩ := Option.isSome_iff_exists.mp hrun
  exact ⟨s, hs, (open_iff ![1] readerThrows s hs).mpr (by decide +kernel)⟩

/-- A write whose callback throws: no call is in progress any more, the counter is 1, and a read
that follows loads it again and again. -/
theorem writer_throws :
    ∃ s, (system Bool 1 Nat).run (initial ![1])
        [.write true, .step true false, .step true false, .throws true] = some s ∧
      (∀ i, s.threads i = .idle) ∧ s.seq = 1 ∧ ¬Open s ∧
      ∀ k, ∃ t, (system Bool 1 Nat).run s (.read false :: List.replicate k (.step false false)) =
        some t ∧ t.threads false = .readLoad 0 := by
  have hrun : ((system Bool 1 Nat).run (initial ![1])
      [.write true, .step true false, .step true false, .throws true]).map
        (fun s => (s.threads false, s.threads true, s.seq, s.writes.length)) =
          some (.idle, .idle, 1, 0) := by
    decide +kernel
  obtain ⟨s, hs, hobs⟩ := Option.map_eq_some_iff.mp hrun
  simp only [Prod.mk.injEq] at hobs
  obtain ⟨hfalse, htrue, hseq, hwrites⟩ := hobs
  have hidle : ∀ i, s.threads i = .idle := by
    intro i
    cases i with
    | false => exact hfalse
    | true => exact htrue
  have hstuck : Stuck s := by
    refine ⟨?_, by omega, ?_⟩
    · intro i
      rw [hidle i]
      rfl
    · intro i x hi
      rw [hidle i] at hi
      cases hi
  have hcall : step s (.read false) = some (s.set false (.readLoad 0)) := by
    unfold step
    dsimp only
    rw [hfalse, hwrites]
  refine ⟨s, hs, hidle, hseq, hstuck.not_open, ?_⟩
  intro k
  refine ⟨_, ?_, set_self s false (.readLoad 0)⟩
  rw [run_step hcall]
  exact (hstuck.step hcall).spins (.inr ⟨0, set_self s false _⟩) k false

end Jellybean.Concurrency.Seqlock
