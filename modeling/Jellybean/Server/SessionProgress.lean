import Jellybean.Server.SessionHandles

namespace Jellybean.Server.SessionLifetime

/-- The server runs and nobody connects. -/
def Action.Routine : Action → Prop
  | .fiber w | .event w => w.clientFd = none
  | .signal _ => False
  | .run | .loop | .poll _ | .poolDone _ => True

theorem Action.routine_fiber : Action.Routine (.fiber {}) := rfl

theorem Action.routine_event : Action.Routine (.event {}) := rfl

/-- Whatever `x` will meet, it is resumed next. -/
def Due (x : Handle) (s : State) : Prop := ∀ w, ∃ a, s.resumes a = some (x, w)

/-- Nothing of what waits is taken away. -/
structure Keeps (s t : State) : Prop where
  runQueue : t.runQueue = s.runQueue
  externalQueue : t.externalQueue = s.externalQueue
  epoll : s.epoll ⊆ t.epoll
  pool : s.pool ⊆ t.pool
  gRunning : t.gRunning = s.gRunning

theorem Keeps.refl (s : State) : Keeps s s :=
  ⟨rfl, rfl, List.Subset.refl _, List.Subset.refl _, rfl⟩

theorem Keeps.trans {s t u : State} (h : Keeps s t) (h' : Keeps t u) : Keeps s u where
  runQueue := h'.runQueue.trans h.runQueue
  externalQueue := h'.externalQueue.trans h.externalQueue
  epoll := List.Subset.trans h.epoll h'.epoll
  pool := List.Subset.trans h.pool h'.pool
  gRunning := h'.gRunning.trans h.gRunning

theorem Keeps.of_eq {s t : State} (h1 : t.runQueue = s.runQueue)
    (h2 : t.externalQueue = s.externalQueue) (h3 : t.epoll = s.epoll) (h4 : t.pool = s.pool)
    (h5 : t.gRunning = s.gRunning) : Keeps s t where
  runQueue := h1
  externalQueue := h2
  epoll := h3 ▸ List.Subset.refl _
  pool := h4 ▸ List.Subset.refl _
  gRunning := h5

theorem Keeps.arm (s : State) (x : Handle) : Keeps s (s.arm x) where
  runQueue := rfl
  externalQueue := rfl
  epoll := by
    intro h hh
    exact List.mem_insert_of_mem hh
  pool := List.Subset.refl _
  gRunning := rfl

variable {s t : State} {x : Handle}

theorem State.acceptHead_keeps (s : State) : Keeps s s.acceptHead := by
  unfold State.acceptHead
  split
  · let u : State := { s with acceptPoint := .accepting }
    have hu : Keeps s u := .of_eq rfl rfl rfl rfl rfl
    exact hu.trans (.arm u .acceptLoop)
  · exact .of_eq rfl rfl rfl rfl rfl

theorem State.suspend_keeps (s : State) (i : Nat) (f : CoroutineFrame) (p : Point) :
    Keeps s (s.suspend i f p) := by
  let u : State := { s with frames := s.frames.set i (some { f with point := p }) }
  have hu : Keeps s u := .of_eq rfl rfl rfl rfl rfl
  have harm : Keeps s (u.arm (.session i)) := hu.trans (.arm u (.session i))
  cases p with
  | initial | final => exact hu
  | inferFuture =>
    refine ⟨rfl, rfl, List.Subset.refl _, ?_, rfl⟩
    intro h hh
    exact List.mem_append_left _ hh
  | readModelIdLen | readModelId | readInputElems | readPayload | writeStatus | writeLatency
  | writeOutElems | writeOutput => exact harm

/-- Whoever runs can go on to its next suspension without a new connection. -/
theorem Running.resume_keeps (hs : Running x s) : ∃ t, s.resume {} x = some t ∧ Keeps s t := by
  have hlive := hs.live
  cases x with
  | acceptLoop =>
    refine ⟨s.acceptLoop none, by simp [State.resume], ?_⟩
    unfold State.acceptLoop
    split
    · exact s.acceptHead_keeps
    · contradiction
    · exact s.acceptHead_keeps
    · exact .refl s
  | session i =>
    obtain ⟨f, hf⟩ : ∃ f, s.frames[i]? = some (some f) := by
      obtain ⟨c, hc⟩ := Option.isSome_iff_exists.mp hlive
      obtain ⟨f, hf, -⟩ := Option.bind_eq_some_iff.mp hc
      exact ⟨f, Option.join_eq_some_iff.mp hf⟩
    rw [State.cause_session hf] at hlive
    have hp : f.point ≠ .final := by
      intro hp
      rw [hp] at hlive
      cases hlive
    refine ⟨s.suspend i f (SessionLifetime.session s.gRunning {} f.point), ?_, ?_⟩
    swap
    · exact s.suspend_keeps i f _
    simp only [State.resume, hf, if_neg hp]

/-! The rounds of `run`. -/

/-- The next handle of `scratch_queue_` is resumed. -/
theorem Accounted.fiber_next (hs : Accounted s) (hp : s.phase = .fibers) {rest : List Handle}
    (hq : s.scratchQueue = x :: rest) :
    ∃ t, SessionLifetime.step s (.fiber {}) = some t ∧ Accounted t ∧ Keeps s t ∧
      t.phase = .fibers ∧ t.scratchQueue = rest := by
  obtain ⟨t, ht, hkeeps⟩ := (hs.balanced.take_scratch hq).resume_keeps
  have hstep : SessionLifetime.step s (.fiber {}) = some t := by
    simp only [SessionLifetime.step, if_pos hp, hq]
    exact ht
  have hsame := State.resume_untouched ht
  have hdrop : Keeps s { s with scratchQueue := rest } := .of_eq rfl rfl rfl rfl rfl
  exact ⟨t, hstep, hs.step hstep, hdrop.trans hkeeps, hsame.phase.trans hp, hsame.scratchQueue⟩

theorem Accounted.event_next (hs : Accounted s) (hp : s.phase = .dispatch) {rest : List Handle}
    (hq : s.events = x :: rest) :
    ∃ t, SessionLifetime.step s (.event {}) = some t ∧ Accounted t ∧ Keeps s t ∧
      t.phase = .dispatch ∧ t.events = rest := by
  obtain ⟨t, ht, hkeeps⟩ := (hs.balanced.take_events hq).resume_keeps
  have hstep : SessionLifetime.step s (.event {}) = some t := by
    simp only [SessionLifetime.step, if_pos hp, hq]
    exact ht
  have hsame := State.resume_untouched ht
  have hdrop : Keeps s { s with events := rest } := .of_eq rfl rfl rfl rfl rfl
  exact ⟨t, hstep, hs.step hstep, hdrop.trans hkeeps, hsame.phase.trans hp, hsame.events⟩

theorem due_of_scratch {rest : List Handle} (hp : s.phase = .fibers)
    (hq : s.scratchQueue = x :: rest) : Due x s := by
  intro w
  refine ⟨.fiber w, ?_⟩
  simp [State.resumes, hp, hq]

theorem due_of_events {rest : List Handle} (hp : s.phase = .dispatch)
    (hq : s.events = x :: rest) : Due x s := by
  intro w
  refine ⟨.event w, ?_⟩
  simp [State.resumes, hp, hq]

/-- The loop over `scratch_queue_` comes to every handle in it. -/
theorem Accounted.scratch_due (hs : Accounted s) (hp : s.phase = .fibers)
    (hx : x ∈ s.scratchQueue) : system.CanReach Action.Routine (Due x) s := by
  generalize hq : s.scratchQueue = q at hx
  induction q generalizing s with
  | nil => cases hx
  | cons y rest ih =>
    by_cases hy : y = x
    · rw [hy] at hq
      exact .here (due_of_scratch hp hq)
    · obtain ⟨t, ht, hacc, -, hphase, hrest⟩ := hs.fiber_next hp hq
      exact .step Action.routine_fiber ht
        (ih hacc hphase hrest (List.mem_of_ne_of_mem (Ne.symm hy) hx))

theorem Accounted.events_due (hs : Accounted s) (hp : s.phase = .dispatch)
    (hx : x ∈ s.events) : system.CanReach Action.Routine (Due x) s := by
  generalize hq : s.events = q at hx
  induction q generalizing s with
  | nil => cases hx
  | cons y rest ih =>
    by_cases hy : y = x
    · rw [hy] at hq
      exact .here (due_of_events hp hq)
    · obtain ⟨t, ht, hacc, -, hphase, hrest⟩ := hs.event_next hp hq
      exact .step Action.routine_event ht
        (ih hacc hphase hrest (List.mem_of_ne_of_mem (Ne.symm hy) hx))

/-- The server gets to phase `p` and has kept what was waiting. -/
def Gets (p : Phase) (s t : State) : Prop := Accounted t ∧ t.phase = p ∧ Keeps s t

theorem Accounted.gets_poll (hs : Accounted s) (hp : s.phase = .fibers) :
    system.CanReach Action.Routine (Gets .poll s) s := by
  generalize hq : s.scratchQueue = q
  induction q generalizing s with
  | nil =>
    have ht : SessionLifetime.step s (.fiber {}) = some { s with phase := .poll } := by
      simp only [SessionLifetime.step, if_pos hp, hq]
    apply System.CanReach.step Action.routine_fiber ht
    exact .here ⟨hs.step ht, rfl, .of_eq rfl rfl rfl rfl rfl⟩
  | cons y rest ih =>
    obtain ⟨t, ht, hacc, hkeeps, hphase, hrest⟩ := hs.fiber_next hp hq
    apply System.CanReach.step Action.routine_fiber ht
    apply (ih hacc hphase hrest).trans
    intro u hu
    exact .here ⟨hu.1, hu.2.1, hkeeps.trans hu.2.2⟩

theorem Accounted.gets_loopHead (hs : Accounted s) (hp : s.phase = .dispatch) :
    system.CanReach Action.Routine (Gets .loopHead s) s := by
  generalize hq : s.events = q
  induction q generalizing s with
  | nil =>
    have ht : SessionLifetime.step s (.event {}) = some { s with phase := .loopHead } := by
      simp only [SessionLifetime.step, if_pos hp, hq]
    apply System.CanReach.step Action.routine_event ht
    exact .here ⟨hs.step ht, rfl, .of_eq rfl rfl rfl rfl rfl⟩
  | cons y rest ih =>
    obtain ⟨t, ht, hacc, hkeeps, hphase, hrest⟩ := hs.event_next hp hq
    apply System.CanReach.step Action.routine_event ht
    apply (ih hacc hphase hrest).trans
    intro u hu
    exact .here ⟨hu.1, hu.2.1, hkeeps.trans hu.2.2⟩

theorem Gets.trans {p q : Phase} {u : State} (h : Gets p s t) (h' : Gets q t u) : Gets q s u :=
  ⟨h'.1, h'.2.1, h.2.2.trans h'.2.2⟩

/-- A step of the server itself that leaves the queues alone. -/
theorem Accounted.quiet_step (hs : Accounted s) {a : Action}
    (ht : SessionLifetime.step s a = some t) (ha : a.Routine) (hkeeps : Keeps s t)
    {P : State → Prop} (hnext : Accounted t → Keeps s t → system.CanReach Action.Routine P t) :
    system.CanReach Action.Routine P s :=
  .step ha ht (hnext (hs.step ht) hkeeps)

theorem Accounted.gets_loopHead_of_poll (hs : Accounted s) (hp : s.phase = .poll) :
    system.CanReach Action.Routine (Gets .loopHead s) s := by
  have ht : SessionLifetime.step s (.poll []) = some { s with
      phase := .dispatch
      events := []
      epoll := s.epoll.filter (· ∉ []) } := by
    simp [SessionLifetime.step, hp]
  have hkeeps : Keeps s { s with
      phase := .dispatch
      events := []
      epoll := s.epoll.filter (· ∉ []) } := by
    apply Keeps.of_eq
    all_goals simp
  apply hs.quiet_step ht trivial hkeeps
  intro hacc hkeeps
  apply (hacc.gets_loopHead rfl).trans
  intro u hu
  exact .here ⟨hu.1, hu.2.1, hkeeps.trans hu.2.2⟩

/-- The loop comes to its head, whatever the server is doing. -/
theorem Accounted.gets_head (hs : Accounted s) (hg : s.gRunning = true) :
    system.CanReach Action.Routine (Gets .loopHead s) s := by
  cases hp : s.phase with
  | outside =>
    have ht : SessionLifetime.step s .run =
        some { s with phase := .loopHead, running := true } := by
      simp [SessionLifetime.step, hp, hg]
    apply hs.quiet_step ht trivial (.of_eq rfl rfl rfl rfl rfl)
    intro hacc hkeeps
    exact .here ⟨hacc, rfl, hkeeps⟩
  | loopHead => exact .here ⟨hs, hp, .refl s⟩
  | fibers =>
    apply (hs.gets_poll hp).trans
    intro t ht
    apply (ht.1.gets_loopHead_of_poll ht.2.1).trans
    intro u hu
    exact .here (ht.trans hu)
  | poll => exact hs.gets_loopHead_of_poll hp
  | dispatch => exact hs.gets_loopHead hp

/-- And there `main` starts it again if it has been stopped. -/
theorem Accounted.gets_running (hs : Accounted s) (hg : s.gRunning = true) :
    system.CanReach Action.Routine (fun t => Gets .loopHead s t ∧ t.running = true) s := by
  apply (hs.gets_head hg).trans
  intro t ht
  obtain ⟨hacc, hp, hkeeps⟩ := ht
  by_cases hr : t.running = true
  · exact .here ⟨⟨hacc, hp, hkeeps⟩, hr⟩
  · have hloop : SessionLifetime.step t .loop = some { t with phase := .outside } := by
      simp [SessionLifetime.step, hp, hr]
    apply hacc.quiet_step hloop trivial (.of_eq rfl rfl rfl rfl rfl)
    intro hacc' hkeeps'
    have hrun : SessionLifetime.step { t with phase := .outside } .run =
        some { t with phase := .loopHead, running := true } := by
      simp [SessionLifetime.step, hkeeps.gRunning, hg]
    apply hacc'.quiet_step hrun trivial (.of_eq rfl rfl rfl rfl rfl)
    intro hacc'' hkeeps''
    exact .here ⟨⟨hacc'', rfl, hkeeps.trans (hkeeps'.trans hkeeps'')⟩, rfl⟩

/-- The state after the loop has taken over the queues. -/
def swapped (s : State) : State :=
  { s with phase := .fibers, scratchQueue := s.runQueue ++ s.externalQueue, runQueue := [],
           externalQueue := [] }

/-- A new turn of the loop. -/
theorem Accounted.new_turn (hs : Accounted s) (hg : s.gRunning = true) :
    system.CanReach Action.Routine
      (fun t => ∃ r, t = swapped r ∧ Accounted t ∧ Keeps s r) s := by
  apply (hs.gets_running hg).trans
  intro r hr
  obtain ⟨⟨hacc, hp, hkeeps⟩, hrunning⟩ := hr
  have hloop : SessionLifetime.step r .loop = some (swapped r) := by
    simp [SessionLifetime.step, hp, hrunning, swapped]
  exact .step (a := .loop) trivial hloop (.here ⟨r, rfl, hacc.step hloop, hkeeps⟩)

/-- Each cause in turn: a handle in a queue of the reactor, -/
theorem Accounted.scheduled_due (hs : Accounted s) (hg : s.gRunning = true)
    (hx : x ∈ s.scheduled) : system.CanReach Action.Routine (Due x) s := by
  by_cases hscratch : x ∈ s.scratchQueue
  · have hp : s.phase = .fibers := by
      by_contra hne
      rw [hs.scratch hne] at hscratch
      cases hscratch
    exact hs.scratch_due hp hscratch
  · have hwait : x ∈ s.runQueue ++ s.externalQueue := by
      simp only [State.scheduled, List.mem_append] at hx ⊢
      tauto
    apply (hs.new_turn hg).trans
    intro t ht
    obtain ⟨r, rfl, hacc, hkeeps⟩ := ht
    apply hacc.scratch_due rfl
    change x ∈ r.runQueue ++ r.externalQueue
    rwa [hkeeps.runQueue, hkeeps.externalQueue]

/-- one that waits for its descriptor, -/
theorem Accounted.descriptor_due (hs : Accounted s) (hg : s.gRunning = true)
    (hx : x ∈ s.epoll ++ s.events) : system.CanReach Action.Routine (Due x) s := by
  by_cases hevents : x ∈ s.events
  · have hp : s.phase = .dispatch := by
      by_contra hne
      rw [hs.events hne] at hevents
      cases hevents
    exact hs.events_due hp hevents
  · have hepoll := (List.mem_append.mp hx).resolve_right hevents
    apply (hs.new_turn hg).trans
    intro t ht
    obtain ⟨r, rfl, hacc, hkeeps⟩ := ht
    apply (hacc.gets_poll rfl).trans
    intro u hu
    obtain ⟨haccu, hp, hkeepsu⟩ := hu
    have harmed : x ∈ u.epoll := hkeepsu.epoll (hkeeps.epoll hepoll)
    have hpoll : SessionLifetime.step u (.poll [x]) = some { u with
        phase := .dispatch
        events := [x]
        epoll := u.epoll.filter (· ∉ [x]) } := by
      simp [SessionLifetime.step, hp, harmed]
    apply System.CanReach.step (a := .poll [x]) trivial hpoll
    exact (haccu.step hpoll).events_due rfl (List.mem_singleton_self x)

/-- and one whose future a task of the pool waits for. -/
theorem Accounted.future_due (hs : Accounted s) (hg : s.gRunning = true)
    (hx : x ∈ s.pool ++ s.scheduled) : system.CanReach Action.Routine (Due x) s := by
  by_cases hpool : x ∈ s.pool
  · apply (hs.new_turn hg).trans
    intro t ht
    obtain ⟨r, rfl, hacc, hkeeps⟩ := ht
    have hin : x ∈ r.pool := hkeeps.pool hpool
    have hdone : SessionLifetime.step (swapped r) (.poolDone x) = some { swapped r with
        pool := r.pool.erase x
        externalQueue := [x] } := by
      simp [SessionLifetime.step, hin, swapped]
    apply System.CanReach.step (a := .poolDone x) trivial hdone
    apply (hacc.step hdone).scheduled_due (hkeeps.gRunning.trans hg)
    simp [State.scheduled]
  · exact hs.scheduled_due hg ((List.mem_append.mp hx).resolve_left hpool)

end Jellybean.Server.SessionLifetime
