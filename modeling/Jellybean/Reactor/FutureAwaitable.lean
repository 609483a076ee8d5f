import Jellybean.Framework.System
import Mathlib.Tactic

namespace Jellybean.Reactor

namespace FutureAwaitable

variable {V E : Type*}

/-- What a promise leaves in the shared state of its future. -/
inductive Outcome (V E : Type*) where
  | value (v : V)
  | exception (e : E)
  deriving DecidableEq

def Outcome.isValue : Outcome V E → Bool
  | .value _ => true
  | .exception _ => false

/-- Where `co_await` is, on the thread of the reactor. `suspending` lasts until `await_suspend`
returns to the loop. -/
inductive CoroutinePc where
  | awaitReady
  | awaitSuspend
  | suspending
  | suspended
  | awaitResume
  | done
  deriving DecidableEq

/-- Where the lambda of `await_suspend` is. -/
inductive TaskPc where
  | notPosted
  | queued
  | getting
  | scheduling
  | finished
  deriving DecidableEq

/-- One `co_await` of a future: the shared state, the awaitable (`fut.valid()` and `result`), the
posted lambda and the number of times the handle stands in the queues of the reactor. Below them
what only records the run: suspensions, resumptions, what `await_ready` returned and what
`await_resume` returned or threw. -/
structure State (V E : Type*) where
  coroutine : CoroutinePc
  task : TaskPc
  future : Option (Outcome V E)
  futValid : Bool
  result : V
  handles : Nat
  terminated : Bool
  suspensions : Nat
  resumes : Nat
  readyAtOnce : Bool
  delivered : List (Outcome V E)

def initial [Inhabited V] : State V E where
  coroutine := .awaitReady
  task := .notPosted
  future := none
  futValid := true
  result := default
  handles := 0
  terminated := false
  suspensions := 0
  resumes := 0
  readyAtOnce := false
  delivered := []

def awaitReady (s : State V E) : State V E :=
  if s.future.isSome then { s with coroutine := .awaitResume, readyAtOnce := true }
  else { s with coroutine := .awaitSuspend }

/-- The future moves into the posted lambda. -/
def awaitSuspend (s : State V E) : State V E :=
  { s with
    coroutine := .suspending
    task := .queued
    futValid := false
    suspensions := s.suspensions + 1 }

/-- `fut.get()` while the future is still here, else the result that the lambda left. -/
def awaitResume (s : State V E) : Option (State V E) :=
  if s.futValid then
    s.future.map fun o =>
      { s with coroutine := .done, futValid := false, delivered := s.delivered ++ [o] }
  else some { s with coroutine := .done, delivered := s.delivered ++ [.value s.result] }

/-- `result = f->get();`. What it throws leaves `worker_loop`. -/
def get (s : State V E) : Option (State V E) :=
  s.future.map fun
    | .value v => { s with task := .scheduling, result := v }
    | .exception _ => { s with terminated := true }

/-- `resolve` is the step of whoever keeps the promise, `resume` that of the reactor's loop. -/
inductive Action where
  | resolve
  | coroutine
  | worker
  | resume
  deriving DecidableEq

/-- One step of a `co_await` whose future is going to have outcome `o`. -/
def step (o : Outcome V E) (s : State V E) (a : Action) : Option (State V E) :=
  if s.terminated then none else
  match a with
  | .resolve => if s.future.isNone then some { s with future := some o } else none
  | .coroutine =>
    match s.coroutine with
    | .awaitReady => some (awaitReady s)
    | .awaitSuspend => some (awaitSuspend s)
    | .suspending => some { s with coroutine := .suspended }
    | .awaitResume => awaitResume s
    | .suspended | .done => none
  | .worker =>
    match s.task with
    | .queued => some { s with task := .getting }
    | .getting => get s
    | .scheduling => some { s with task := .finished, handles := s.handles + 1 }
    | .notPosted | .finished => none
  | .resume =>
    if s.coroutine = .suspended ∧ 0 < s.handles then
      some { s with
        coroutine := .awaitResume
        handles := s.handles - 1
        resumes := s.resumes + 1 }
    else none

def system [Inhabited V] (o : Outcome V E) : System (State V E) Action :=
  ⟨fun s => s = initial, step o⟩

/-- Nothing more happens. -/
def Complete (o : Outcome V E) (s : State V E) : Prop := ∀ a, step o s a = none

/-- The coroutine was resumed once for its suspension, if it was suspended, and `await_resume`
handed it the outcome once. -/
def Delivers (o : Outcome V E) (s : State V E) : Prop :=
  s.resumes = s.suspensions ∧ s.delivered = [o]

/-- The promise is kept before `await_ready` looks. -/
def Early (as : List Action) : Prop := .resolve ∈ as.takeWhile (· ≠ .coroutine)

instance (as : List Action) : Decidable (Early as) :=
  inferInstanceAs (Decidable (.resolve ∈ as.takeWhile (· ≠ .coroutine)))

/-- How the parts of the state fit together where the coroutine stands. -/
def Fits (o : Outcome V E) (s : State V E) : Prop :=
  match s.coroutine with
  | .awaitReady | .awaitSuspend =>
    s.task = .notPosted ∧ s.futValid = true ∧ s.handles = 0 ∧ s.terminated = false ∧
      s.suspensions = 0 ∧ s.resumes = 0 ∧ s.readyAtOnce = false ∧ s.delivered = []
  | .suspending | .suspended =>
    s.futValid = false ∧ s.suspensions = 1 ∧ s.resumes = 0 ∧ s.readyAtOnce = false ∧
      s.delivered = [] ∧ (s.terminated = true → o.isValue = false) ∧
      (match s.task with
        | .notPosted => False
        | .queued | .getting => s.handles = 0
        | .scheduling => s.handles = 0 ∧ o = .value s.result
        | .finished => s.handles = 1 ∧ o = .value s.result)
  | .awaitResume =>
    s.terminated = false ∧ s.handles = 0 ∧ s.delivered = [] ∧ s.resumes = s.suspensions ∧
      (s.readyAtOnce = true ∧ s.futValid = true ∧ s.future = some o ∧ s.task = .notPosted ∨
        s.readyAtOnce = false ∧ s.futValid = false ∧ o = .value s.result ∧ s.task = .finished)
  | .done =>
    s.terminated = false ∧ (s.task = .notPosted ∨ s.task = .finished) ∧ Delivers o s ∧
      (o.isValue = true ∨ s.readyAtOnce = true)

structure Inv (o : Outcome V E) (s : State V E) : Prop where
  future : ∀ x, s.future = some x → x = o
  fits : Fits o s

theorem Inv.init [Inhabited V] (o : Outcome V E) : Inv o initial :=
  ⟨by simp [initial], by simp [Fits, initial]⟩

variable {o : Outcome V E} {s t : State V E} {a : Action}

/-- What a step can do, with the guards under which it does it. -/
inductive Moves (o : Outcome V E) (s : State V E) : Action → State V E → Prop
  | resolve : s.future = none → Moves o s .resolve { s with future := some o }
  | ready (x : Outcome V E) : s.coroutine = .awaitReady → s.future = some x →
      Moves o s .coroutine { s with coroutine := .awaitResume, readyAtOnce := true }
  | notReady : s.coroutine = .awaitReady → s.future = none →
      Moves o s .coroutine { s with coroutine := .awaitSuspend }
  | suspend : s.coroutine = .awaitSuspend → Moves o s .coroutine (awaitSuspend s)
  | toLoop : s.coroutine = .suspending → Moves o s .coroutine { s with coroutine := .suspended }
  | getHere (x : Outcome V E) : s.coroutine = .awaitResume → s.futValid = true →
      s.future = some x →
      Moves o s .coroutine { s with
        coroutine := .done, futValid := false, delivered := s.delivered ++ [x] }
  | readResult : s.coroutine = .awaitResume → s.futValid = false →
      Moves o s .coroutine { s with
        coroutine := .done, delivered := s.delivered ++ [.value s.result] }
  | take : s.task = .queued → Moves o s .worker { s with task := .getting }
  | gotValue (v : V) : s.task = .getting → s.future = some (.value v) →
      Moves o s .worker { s with task := .scheduling, result := v }
  | threw (e : E) : s.task = .getting → s.future = some (.exception e) →
      Moves o s .worker { s with terminated := true }
  | schedule : s.task = .scheduling →
      Moves o s .worker { s with task := .finished, handles := s.handles + 1 }
  | resume : s.coroutine = .suspended → 0 < s.handles →
      Moves o s .resume { s with
        coroutine := .awaitResume, handles := s.handles - 1, resumes := s.resumes + 1 }

theorem step_moves (ht : step o s a = some t) : s.terminated = false ∧ Moves o s a t := by
  unfold step at ht
  by_cases hterm : s.terminated
  · simp [hterm] at ht
  rw [if_neg hterm] at ht
  refine ⟨by simpa using hterm, ?_⟩
  cases a with
  | resolve =>
    obtain ⟨hf, ht⟩ := Option.ite_none_right_eq_some.mp ht
    cases ht
    exact .resolve (Option.isNone_iff_eq_none.mp hf)
  | coroutine =>
    cases hc : s.coroutine with
    | awaitReady =>
      simp only [hc, Option.some.injEq] at ht
      subst ht
      unfold awaitReady
      split
      · next hf =>
        obtain ⟨x, hx⟩ := Option.isSome_iff_exists.mp hf
        exact .ready x hc hx
      · next hf => exact .notReady hc (Option.not_isSome_iff_eq_none.mp hf)
    | awaitSuspend =>
      simp only [hc, Option.some.injEq] at ht
      subst ht
      exact .suspend hc
    | suspending =>
      simp only [hc, Option.some.injEq] at ht
      subst ht
      exact .toLoop hc
    | awaitResume =>
      simp only [hc] at ht
      unfold awaitResume at ht
      cases hv : s.futValid with
      | true =>
        rw [if_pos hv] at ht
        obtain ⟨x, hx, ht⟩ := Option.map_eq_some_iff.mp ht
        cases ht
        exact .getHere x hc hv hx
      | false =>
        rw [if_neg (by simp [hv])] at ht
        cases ht
        exact .readResult hc hv
    | suspended | done => simp [hc] at ht
  | worker =>
    cases hk : s.task with
    | queued =>
      simp only [hk, Option.some.injEq] at ht
      subst ht
      exact .take hk
    | getting =>
      simp only [hk] at ht
      obtain ⟨x, hx, ht⟩ := Option.map_eq_some_iff.mp ht
      subst ht
      cases x with
      | value v => exact .gotValue v hk hx
      | exception e => exact .threw e hk hx
    | scheduling =>
      simp only [hk, Option.some.injEq] at ht
      subst ht
      exact .schedule hk
    | notPosted | finished => simp [hk] at ht
  | resume =>
    obtain ⟨⟨hc, hpos⟩, ht⟩ := Option.ite_none_right_eq_some.mp ht
    cases ht
    exact .resume hc hpos

theorem Inv.step (h : Inv o s) (ht : step o s a = some t) : Inv o t := by
  obtain ⟨hterm, hm⟩ := step_moves ht
  obtain ⟨hfut, hfits⟩ := h
  unfold Fits at hfits
  clear ht
  cases hm with
  | resolve hf =>
    refine ⟨fun x hx => (Option.some.inj hx).symm, ?_⟩
    unfold Fits
    cases hc : s.coroutine <;> simp_all [Delivers]
  | ready x hc hf =>
    have := hfut x hf
    exact ⟨hfut, by simp_all [Fits]⟩
  | notReady hc hf => exact ⟨hfut, by simp_all [Fits]⟩
  | suspend hc => exact ⟨hfut, by simp_all [Fits, awaitSuspend]⟩
  | toLoop hc => exact ⟨hfut, by simp_all [Fits]⟩
  | getHere x hc hv hf =>
    have := hfut x hf
    exact ⟨hfut, by simp_all [Fits, Delivers]⟩
  | readResult hc hv => exact ⟨hfut, by simp_all [Fits, Delivers, Outcome.isValue]⟩
  | take hk =>
    refine ⟨hfut, ?_⟩
    unfold Fits
    cases hc : s.coroutine <;> simp_all [Delivers]
  | gotValue v hk hf =>
    have := hfut _ hf
    refine ⟨hfut, ?_⟩
    unfold Fits
    cases hc : s.coroutine <;> simp_all [Delivers]
  | threw e hk hf =>
    cases hfut _ hf
    refine ⟨hfut, ?_⟩
    unfold Fits
    cases hc : s.coroutine <;> simp_all [Outcome.isValue]
  | schedule hk =>
    refine ⟨hfut, ?_⟩
    unfold Fits
    cases hc : s.coroutine <;> simp_all [Delivers]
  | resume hc hpos =>
    refine ⟨hfut, ?_⟩
    simp only [hc] at hfits
    cases hk : s.task <;> simp_all [Fits]

/-- The steps that are left at most. -/
def CoroutinePc.left : CoroutinePc → Nat
  | .awaitReady => 8
  | .awaitSuspend => 7
  | .suspending => 3
  | .suspended => 2
  | .awaitResume => 1
  | .done => 0

def TaskPc.left : TaskPc → Nat
  | .queued => 3
  | .getting => 2
  | .scheduling => 1
  | .notPosted | .finished => 0

def left (s : State V E) : Nat :=
  if s.terminated then 0
  else (if s.future.isNone then 1 else 0) + s.coroutine.left + s.task.left

theorem left_step (h : Inv o s) (ht : step o s a = some t) : left t < left s := by
  obtain ⟨hterm, hm⟩ := step_moves ht
  have hfits := h.fits
  unfold Fits at hfits
  clear ht
  cases hm with
  | resolve hf => simp [left, hterm, hf]
  | ready x hc hf => simp [left, hterm, hc, CoroutinePc.left]
  | notReady hc hf => simp [left, hterm, hc, CoroutinePc.left]
  | suspend hc => simp_all [left, awaitSuspend, CoroutinePc.left, TaskPc.left]
  | toLoop hc => simp [left, hterm, hc, CoroutinePc.left]
  | getHere x hc hv hf => simp [left, hterm, hc, CoroutinePc.left]
  | readResult hc hv => simp [left, hterm, hc, CoroutinePc.left]
  | take hk => simp [left, hterm, hk, TaskPc.left]
  | gotValue v hk hf => simp [left, hterm, hk, TaskPc.left]
  | threw e hk hf => simp [left, hterm, hk, TaskPc.left]
  | schedule hk => simp [left, hterm, hk, TaskPc.left]
  | resume hc hpos => simp [left, hterm, hc, CoroutinePc.left]

theorem readyAtOnce_step (ht : step o s a = some t) (hc : s.coroutine ≠ .awaitReady) :
    t.coroutine ≠ .awaitReady ∧ t.readyAtOnce = s.readyAtOnce := by
  have hm := (step_moves ht).2
  cases hm <;> simp_all [awaitSuspend]

/-- A run ends in the coroutine or in `std::terminate`. -/
theorem Inv.complete (h : Inv o s) (hend : Complete o s) :
    s.coroutine = .done ∨ s.coroutine ≠ .awaitReady ∧ o.isValue = false ∧
      s.readyAtOnce = false ∧ s.delivered = [] := by
  have hresolve := hend .resolve
  have hcoroutine := hend .coroutine
  have hworker := hend .worker
  have hresume := hend .resume
  have hfits := h.fits
  unfold Fits at hfits
  cases hterm : s.terminated with
  | true => cases hc : s.coroutine <;> simp_all
  | false =>
    left
    simp only [FutureAwaitable.step, hterm, Bool.false_eq_true, if_false] at hresolve hcoroutine hworker hresume
    cases hc : s.coroutine with
    | awaitReady | awaitSuspend => simp [hc] at hcoroutine
    | suspending => simp [hc] at hcoroutine
    | suspended =>
      cases hk : s.task <;> simp_all [get]
    | awaitResume => 
      simp_all [awaitResume]
      rcases hfits.2.2.2 with h1 | h1 <;> simp_all
    | done => rfl

variable [Inhabited V]

theorem length_run_le {as : List Action} (h : Inv o s) (hr : (system o).run s as = some t) :
    as.length ≤ left s := by
  induction as generalizing s with
  | nil => exact Nat.zero_le _
  | cons a as ih =>
    rw [System.run_cons] at hr
    obtain ⟨u, hu, hr⟩ := Option.bind_eq_some_iff.mp hr
    have := ih (h.step hu) hr
    have := left_step h hu
    rw [List.length_cons]
    omega

theorem readyAtOnce_run {as : List Action} (hr : (system o).run s as = some t)
    (hc : s.coroutine ≠ .awaitReady) : t.readyAtOnce = s.readyAtOnce := by
  induction as generalizing s with
  | nil =>
    cases hr
    rfl
  | cons a as ih =>
    rw [System.run_cons] at hr
    obtain ⟨u, hu, hr⟩ := Option.bind_eq_some_iff.mp hr
    obtain ⟨hc', he⟩ := readyAtOnce_step hu hc
    exact (ih hr hc').trans he

/-- What `await_ready` returns is whether the promise was kept before it was called. -/
theorem readyAtOnce_iff {as : List Action} (hr : (system o).run s as = some t)
    (hc : s.coroutine = .awaitReady) (hs : s.task = .notPosted) (hready : s.readyAtOnce = false)
    (ht : t.coroutine ≠ .awaitReady) :
    t.readyAtOnce = true ↔ s.future.isSome ∨ Early as := by
  induction as generalizing s with
  | nil =>
    cases hr
    exact absurd hc ht
  | cons a as ih =>
    rw [System.run_cons] at hr
    obtain ⟨u, hu, hr⟩ := Option.bind_eq_some_iff.mp hr
    have hm := (step_moves hu).2
    cases hm with
    | resolve hf =>
      rw [ih hr hc hs hready]
      simp [Early]
    | ready x _ hf =>
      rw [readyAtOnce_run hr (by simp)]
      simp [hf]
    | notReady _ hf =>
      rw [readyAtOnce_run hr (by simp)]
      simp [hf, hready, Early]
    | _ => simp_all

theorem Inv.of_run {as : List Action} (hr : (system o).run initial as = some t) : Inv o t := by
  have hreach : (system o).Reachable t := .run (.init rfl) hr
  refine hreach.invariant ?_ ?_
  · rintro s rfl
    exact .init o
  · intro s a t hs ht
    exact hs.step ht

theorem Early.of_run {as : List Action} (hr : (system o).run initial as = some t)
    (ht : t.coroutine ≠ .awaitReady) : t.readyAtOnce = true ↔ Early as := by
  rw [readyAtOnce_iff hr rfl rfl rfl ht]
  simp [initial]

/-- Every run ends, and it hands the outcome to the coroutine exactly if this is a value or the
promise was kept before `await_ready` looked. -/
theorem await_delivers_iff (o : Outcome V E) (as : List Action) (t : State V E)
    (hr : (system o).run initial as = some t) :
    as.length ≤ 9 ∧ (Complete o t → (Delivers o t ↔ o.isValue = true ∨ Early as)) := by
  have hinv := Inv.of_run hr
  refine ⟨length_run_le (.init o) hr, ?_⟩
  intro hend
  rcases hinv.complete hend with hdone | ⟨hc, hval, hready, hdel⟩
  · have hfits := hinv.fits
    simp only [Fits, hdone] at hfits
    rw [Early.of_run hr (by simp [hdone])] at hfits
    exact ⟨fun _ => hfits.2.2.2, fun _ => hfits.2.2.1⟩
  · have hlate : ¬ Early as := by
      rw [← Early.of_run hr hc, hready]
      simp
    simp [Delivers, hdel, hval, hlate]

/-- The promise is kept while the pool thread waits for it. -/
def slow : List Action :=
  [.coroutine, .coroutine, .worker, .coroutine, .resolve, .worker, .worker, .resume, .coroutine]

theorem await_delivers_slow :
    ∃ t, (system (.value 7 : Outcome Nat String)).run initial slow = some t ∧
      Complete (.value 7) t ∧ Delivers (.value 7) t := by
  refine ⟨_, rfl, ?_, ?_⟩
  · intro a
    cases a <;> rfl
  · refine ((await_delivers_iff (.value 7) slow _ rfl).2 ?_).mpr (.inl rfl)
    intro a
    cases a <;> rfl

/-- The executor is destroyed with the task in its queue while the pool thread waits. -/
def broken : List Action := [.coroutine, .coroutine, .worker, .coroutine, .resolve, .worker]

theorem broken_promise_not_delivered :
    ¬ ∀ (o : Outcome Nat String) (as : List Action) (t : State Nat String),
      (system o).run initial as = some t → Complete o t → Delivers o t := by
  intro h
  have hend : ∀ t, (system (.exception "broken_promise" : Outcome Nat String)).run initial
      broken = some t → Complete (.exception "broken_promise") t ∧ t.delivered = [] := by
    rintro t ⟨⟩
    refine ⟨?_, rfl⟩
    intro a
    cases a <;> rfl
  obtain ⟨hc, hd⟩ := hend _ rfl
  have := (h (.exception "broken_promise") broken _ rfl hc).2
  rw [hd] at this
  cases this

end FutureAwaitable

end Jellybean.Reactor
