import Jellybean.Framework.System
import Mathlib.Tactic

namespace Jellybean.Reactor

namespace TaskAwait

variable {V : Type*}

/-- What a coroutine suspends on. -/
inductive Wait where
  | yield
  | io
  | future
  deriving DecidableEq

/-- The coroutine of the awaited task, the one that awaits it, and the others of the reactor. -/
inductive Fiber where
  | inner
  | caller
  | other (n : Nat)
  deriving DecidableEq

/-- Where the coroutine of the task is: `suspended n` after its first `n` suspensions. -/
inductive InnerPc where
  | initial
  | suspended (n : Nat)
  | finalSuspend
  | destroyed
  deriving DecidableEq

/-- Where the awaiting coroutine is: in `co_await` of the task, or behind its first `n` suspensions
after that, with the task still alive. -/
inductive CallerPc where
  | awaitReady
  | awaitSuspend
  | awaitResume
  | running (n : Nat)
  | suspended (n : Nat)
  | finished
  deriving DecidableEq

/-- The queues of the reactor, the handles that epoll and the continuation pool hold, and the
frames. `returned` records that the body of the task came to its `co_return`, `result` what
`await_resume` returned, `undefined` that a destroyed frame was touched. -/
structure State (V : Type*) where
  runQueue : List Fiber := []
  scratch : List Fiber := []
  external : List Fiber := []
  epoll : List Fiber := []
  pool : List Fiber := []
  inner : InnerPc := .initial
  caller : CallerPc := .awaitReady
  value : V
  returned : Bool := false
  result : Option V := none
  undefined : Bool := false
  deriving DecidableEq

/-- `await_suspend` of `Yield`, of a socket or of a future. -/
def hand (s : State V) (h : Fiber) : Wait → State V
  | .yield => { s with runQueue := s.runQueue ++ [h] }
  | .io => { s with epoll := s.epoll ++ [h] }
  | .future => { s with pool := s.pool ++ [h] }

/-- The body of the task runs from behind its first `n` suspensions to the next one, or to
`co_return v` and its final suspend point. -/
def runInner (body : List Wait) (v : V) (s : State V) (n : Nat) : State V :=
  match body[n]? with
  | some w => { hand s .inner w with inner := .suspended (n + 1) }
  | none => { s with inner := .finalSuspend, value := v, returned := true }

/-- `if (h && !h.done()) h.resume()`, in the loop of the reactor or in that of epoll. -/
def resume (body : List Wait) (v : V) (s : State V) : Fiber → State V
  | .inner =>
    match s.inner with
    | .suspended n => runInner body v s n
    | .destroyed => { s with undefined := true }
    | .initial | .finalSuspend => s
  | .caller =>
    match s.caller with
    | .suspended n => { s with caller := .running n }
    | _ => s
  | .other _ => s

/-- A step of the awaiting coroutine while it runs: `handle.resume()` in `await_suspend` runs the
task as far as it goes, and control comes back. At the end the task is destroyed. -/
def callerStep (body after : List Wait) (v : V) (s : State V) : Option (State V) :=
  match s.caller with
  | .awaitReady =>
    some { s with caller := if s.inner = .finalSuspend then .awaitResume else .awaitSuspend }
  | .awaitSuspend => some { runInner body v s 0 with caller := .awaitResume }
  | .awaitResume => some { s with caller := .running 0, result := some s.value }
  | .running n =>
    match after[n]? with
    | some w => some { hand s .caller w with caller := .suspended (n + 1) }
    | none => some { s with caller := .finished, inner := .destroyed }
  | .suspended _ | .finished => none

/-- `poll` and `post` say which handle is ready, `schedule` comes from another thread. -/
inductive Action where
  | caller
  | schedule (n : Nat)
  | drain
  | swap
  | visit
  | poll (k : Nat)
  | post (k : Nat)
  deriving DecidableEq

/-- The loop has control. -/
def inLoop (s : State V) : Bool :=
  match s.caller with
  | .suspended _ | .finished => true
  | _ => false

/-- The parts of an iteration of the loop may come in any order here. -/
def step (body after : List Wait) (v : V) (s : State V) : Action → Option (State V)
  | .caller => callerStep body after v s
  | .schedule n => some { s with external := s.external ++ [.other n] }
  | .drain =>
    match s.external with
    | h :: rest => if inLoop s then some { s with external := rest, runQueue := s.runQueue ++ [h] } else none
    | [] => none
  | .swap =>
    if inLoop s ∧ s.scratch = [] then some { s with scratch := s.runQueue, runQueue := [] } else none
  | .visit =>
    match s.scratch with
    | h :: rest => if inLoop s then some (resume body v { s with scratch := rest } h) else none
    | [] => none
  | .poll k =>
    match s.epoll[k]? with
    | some h => if inLoop s then some (resume body v { s with epoll := s.epoll.eraseIdx k } h) else none
    | none => none
  | .post k =>
    match s.pool[k]? with
    | some h => some { s with pool := s.pool.eraseIdx k, external := s.external ++ [h] }
    | none => none

/-- A coroutine that awaits a fresh task with this body, while other fibers are queued. -/
def system [Inhabited V] (body after : List Wait) (v : V) : System (State V) Action where
  init s := ∃ others : List Nat, s = { value := default, runQueue := others.map .other }
  step := step body after v

/-- Wherever the reactor or those that call it back keep handles. -/
def handles (s : State V) : List Fiber :=
  s.runQueue ++ s.scratch ++ s.external ++ s.epoll ++ s.pool

/-- The awaiting coroutine is past `co_await` only with the body of the task at its end and with
its value, and the frame of the task is destroyed with no handle left. -/
structure AwaitRight (v : V) (s : State V) : Prop where
  waits : s.result.isSome → s.returned = true
  value : ∀ r, s.result = some r → r = v
  released : s.inner = .destroyed → .inner ∉ handles s

/-- So it is in every reachable state, and from each the value can be had. -/
def AwaitWaits [Inhabited V] (body after : List Wait) (v : V) : Prop :=
  ∀ s, (system body after v).Reachable s →
    AwaitRight v s ∧ (system body after v).CanReach (fun _ => True) (fun t => t.result = some v) s

variable {body after : List Wait} {v : V} {s t : State V} {h : Fiber} {n : Nat}

/-- How far `co_await` of a task that never suspends has come. -/
def Straight (v : V) (s : State V) : Prop :=
  match s.caller with
  | .awaitReady | .awaitSuspend => s.inner = .initial ∧ s.result = none
  | .awaitResume => s.inner = .finalSuspend ∧ s.result = none ∧ s.returned = true ∧ s.value = v
  | .running _ | .suspended _ =>
    s.inner = .finalSuspend ∧ s.result = some v ∧ s.returned = true
  | .finished => s.inner = .destroyed ∧ s.result = some v ∧ s.returned = true

structure StraightInv (v : V) (s : State V) : Prop where
  straight : Straight v s
  unqueued : .inner ∉ handles s

theorem StraightInv.congr (hi : StraightInv v s) (hc : t.caller = s.caller)
    (hp : t.inner = s.inner) (hr : t.result = s.result) (hd : t.returned = s.returned)
    (hv : t.value = s.value) (hh : .inner ∈ handles t → .inner ∈ handles s) : StraightInv v t := by
  refine ⟨?_, fun hin => hi.unqueued (hh hin)⟩
  have hs := hi.straight
  unfold Straight at hs ⊢
  rw [hc, hp, hr, hd, hv]
  exact hs

theorem mem_handles : h ∈ handles s ↔
    h ∈ s.runQueue ∨ h ∈ s.scratch ∨ h ∈ s.external ∨ h ∈ s.epoll ∨ h ∈ s.pool := by
  simp [handles]

theorem mem_handles_hand (s : State V) (g : Fiber) (w : Wait) :
    h ∈ handles (hand s g w) ↔ h ∈ handles s ∨ h = g := by
  cases w <;> simp only [mem_handles, hand, List.mem_append, List.mem_singleton] <;> tauto

/-- A step of the awaiting coroutine, where the task runs to its end at once. -/
theorem StraightInv.callerStep (hi : StraightInv v s) (h : callerStep [] after v s = some t) :
    StraightInv v t := by
  have hs := hi.straight
  unfold Straight at hs
  unfold TaskAwait.callerStep at h
  cases hc : s.caller with
  | awaitReady =>
    rw [hc] at h hs
    obtain rfl := Option.some.inj h
    have hno : s.inner ≠ .finalSuspend := by
      rw [hs.1]
      decide
    refine ⟨?_, hi.unqueued⟩
    unfold Straight
    dsimp only
    rw [if_neg hno]
    exact hs
  | awaitSuspend =>
    rw [hc] at h hs
    obtain rfl := Option.some.inj h
    exact ⟨⟨rfl, hs.2, rfl, rfl⟩, hi.unqueued⟩
  | awaitResume =>
    rw [hc] at h hs
    obtain rfl := Option.some.inj h
    obtain ⟨hinner, _, hret, hval⟩ := hs
    exact ⟨⟨hinner, congrArg some hval, hret⟩, hi.unqueued⟩
  | running n =>
    rw [hc] at h hs
    obtain ⟨hinner, hres, hret⟩ := hs
    dsimp only at h
    cases hw : after[n]? with
    | some w =>
      rw [hw] at h
      obtain rfl := Option.some.inj h
      refine ⟨?_, ?_⟩
      · cases w <;> exact ⟨hinner, hres, hret⟩
      · intro hin
        have hin' : Fiber.inner ∈ handles (hand s .caller w) := hin
        rw [mem_handles_hand] at hin'
        rcases hin' with hin' | hin'
        · exact hi.unqueued hin'
        · cases hin'
    | none =>
      rw [hw] at h
      obtain rfl := Option.some.inj h
      exact ⟨⟨rfl, hres, hret⟩, hi.unqueued⟩
  | suspended n | finished =>
    rw [hc] at h
    cases h

theorem StraightInv.resume (hi : StraightInv v s) (hne : h ≠ .inner) :
    StraightInv v (resume body v s h) := by
  cases h with
  | inner => exact absurd rfl hne
  | other n => exact hi
  | caller =>
    unfold TaskAwait.resume
    cases hc : s.caller with
    | suspended n =>
      have hs := hi.straight
      unfold Straight at hs
      rw [hc] at hs
      exact ⟨hs, hi.unqueued⟩
    | _ => exact hi

/-- The handles that stay keep the invariant. -/
theorem StraightInv.shrink (hi : StraightInv v s) (hc : t.caller = s.caller)
    (hp : t.inner = s.inner) (hr : t.result = s.result) (hd : t.returned = s.returned)
    (hv : t.value = s.value) (hh : ∀ g ∈ handles t, g ∈ handles s ∨ ∃ n, g = .other n) :
    StraightInv v t := by
  apply hi.congr hc hp hr hd hv
  intro hin
  rcases hh _ hin with hin | hin
  · exact hin
  · obtain ⟨n, hn⟩ := hin
    cases hn

theorem StraightInv.step {a : Action} (hi : StraightInv v s) (h : step [] after v s a = some t) :
    StraightInv v t := by
  cases a with
  | caller => exact hi.callerStep h
  | schedule n =>
    obtain rfl := Option.some.inj h
    refine hi.shrink rfl rfl rfl rfl rfl ?_
    intro g hg
    simp only [mem_handles, List.mem_append, List.mem_singleton] at hg ⊢
    rcases hg with hg | hg | (hg | hg) | hg | hg
    · exact .inl (.inl hg)
    · exact .inl (.inr (.inl hg))
    · exact .inl (.inr (.inr (.inl hg)))
    · exact .inr ⟨n, hg⟩
    · exact .inl (.inr (.inr (.inr (.inl hg))))
    · exact .inl (.inr (.inr (.inr (.inr hg))))
  | drain =>
    unfold TaskAwait.step at h
    cases he : s.external with
    | nil =>
      rw [he] at h
      cases h
    | cons g rest =>
      rw [he] at h
      dsimp only at h
      split_ifs at h
      obtain rfl := Option.some.inj h
      refine hi.shrink rfl rfl rfl rfl rfl ?_
      intro x hx
      simp only [mem_handles, List.mem_append, he, List.mem_cons] at hx ⊢
      tauto
  | swap =>
    unfold TaskAwait.step at h
    dsimp only at h
    split_ifs at h with hc
    obtain rfl := Option.some.inj h
    refine hi.shrink rfl rfl rfl rfl rfl ?_
    intro x hx
    simp only [mem_handles, hc.2, List.not_mem_nil] at hx ⊢
    tauto
  | visit =>
    unfold TaskAwait.step at h
    cases he : s.scratch with
    | nil =>
      rw [he] at h
      cases h
    | cons g rest =>
      rw [he] at h
      dsimp only at h
      split_ifs at h
      obtain rfl := Option.some.inj h
      have hne : g ≠ .inner := by
        intro hg
        apply hi.unqueued
        rw [mem_handles, he, hg]
        simp
      apply StraightInv.resume _ hne
      refine hi.shrink rfl rfl rfl rfl rfl ?_
      intro x hx
      simp only [mem_handles, he, List.mem_cons] at hx ⊢
      tauto
  | poll k =>
    unfold TaskAwait.step at h
    dsimp only at h
    cases he : s.epoll[k]? with
    | none =>
      rw [he] at h
      cases h
    | some g =>
      rw [he] at h
      dsimp only at h
      split_ifs at h
      obtain rfl := Option.some.inj h
      have hne : g ≠ .inner := by
        intro hg
        apply hi.unqueued
        rw [mem_handles, ← hg]
        exact .inr (.inr (.inr (.inl (List.mem_of_getElem? he))))
      apply StraightInv.resume _ hne
      refine hi.shrink rfl rfl rfl rfl rfl ?_
      intro x hx
      have hsub := List.eraseIdx_subset (l := s.epoll) (k := k)
      simp only [mem_handles] at hx ⊢
      rcases hx with hx | hx | hx | hx | hx
      · exact .inl (.inl hx)
      · exact .inl (.inr (.inl hx))
      · exact .inl (.inr (.inr (.inl hx)))
      · exact .inl (.inr (.inr (.inr (.inl (hsub hx)))))
      · exact .inl (.inr (.inr (.inr (.inr hx))))
  | post k =>
    unfold TaskAwait.step at h
    dsimp only at h
    cases he : s.pool[k]? with
    | none =>
      rw [he] at h
      cases h
    | some g =>
      rw [he] at h
      obtain rfl := Option.some.inj h
      refine hi.shrink rfl rfl rfl rfl rfl ?_
      intro x hx
      have hsub := List.eraseIdx_subset (l := s.pool) (k := k)
      have hg := List.mem_of_getElem? he
      simp only [mem_handles, List.mem_append, List.mem_singleton] at hx ⊢
      rcases hx with hx | hx | (hx | hx) | hx | hx
      · exact .inl (.inl hx)
      · exact .inl (.inr (.inl hx))
      · exact .inl (.inr (.inr (.inl hx)))
      · exact .inl (.inr (.inr (.inr (.inr (hx ▸ hg)))))
      · exact .inl (.inr (.inr (.inr (.inl hx))))
      · exact .inl (.inr (.inr (.inr (.inr (hsub hx)))))

theorem StraightInv.of_reachable [Inhabited V] (hr : (system [] after v).Reachable s) :
    StraightInv v s := by
  apply System.Reachable.invariant (P := StraightInv v) _ _ hr
  · intro s hs
    obtain ⟨others, rfl⟩ := hs
    refine ⟨⟨rfl, rfl⟩, ?_⟩
    simp [handles]
  · intro s a t hi ht
    exact hi.step ht

theorem StraightInv.awaitRight (hi : StraightInv v s) : AwaitRight v s := by
  have hs := hi.straight
  unfold Straight at hs
  refine ⟨?_, ?_, fun _ => hi.unqueued⟩
  · intro hsome
    cases hc : s.caller <;> rw [hc] at hs
    case awaitReady | awaitSuspend =>
      rw [hs.2] at hsome
      cases hsome
    case awaitResume => exact hs.2.2.1
    case running | suspended | finished => exact hs.2.2
  · intro r hr
    cases hc : s.caller <;> rw [hc] at hs
    case awaitReady | awaitSuspend =>
      rw [hs.2] at hr
      cases hr
    case awaitResume =>
      rw [hs.2.1] at hr
      cases hr
    case running | suspended | finished =>
      rw [hs.2.1] at hr
      exact (Option.some.inj hr).symm

/-- From every point of `co_await` a few steps of the awaiting coroutine lead to the value. -/
theorem StraightInv.canReach [Inhabited V] (hi : StraightInv v s) :
    (system [] after v).CanReach (fun _ => True) (fun t => t.result = some v) s := by
  have hresume : ∀ u : State V, StraightInv v u → u.caller = .awaitResume →
      (system [] after v).CanReach (fun _ => True) (fun t => t.result = some v) u := by
    intro u hu hc
    have hs := hu.straight
    unfold Straight at hs
    rw [hc] at hs
    have hstep : TaskAwait.callerStep [] after v u =
        some { u with caller := .running 0, result := some u.value } := by
      unfold TaskAwait.callerStep
      rw [hc]
    exact .step (a := .caller) trivial hstep (.here (congrArg some hs.2.2.2))
  have hsuspend : ∀ u : State V, StraightInv v u → u.caller = .awaitSuspend →
      (system [] after v).CanReach (fun _ => True) (fun t => t.result = some v) u := by
    intro u hu hc
    have hstep : TaskAwait.callerStep [] after v u =
        some { runInner [] v u 0 with caller := .awaitResume } := by
      unfold TaskAwait.callerStep
      rw [hc]
    exact .step (a := .caller) trivial hstep (hresume _ (hu.callerStep hstep) rfl)
  have hs := hi.straight
  unfold Straight at hs
  cases hc : s.caller with
  | awaitReady =>
    rw [hc] at hs
    have hno : s.inner ≠ .finalSuspend := by
      rw [hs.1]
      decide
    have hstep : TaskAwait.callerStep [] after v s = some { s with caller := .awaitSuspend } := by
      unfold TaskAwait.callerStep
      rw [hc]
      dsimp only
      rw [if_neg hno]
    exact .step (a := .caller) trivial hstep (hsuspend _ (hi.callerStep hstep) rfl)
  | awaitSuspend => exact hsuspend s hi hc
  | awaitResume => exact hresume s hi hc
  | running n | suspended n | finished =>
    rw [hc] at hs
    exact .here hs.2.1

/-- A body that suspends comes back to the awaiting coroutine unfinished. -/
theorem not_waits_of_suspends [Inhabited V] (w : Wait) (body after : List Wait) (v : V) :
    ¬AwaitWaits (w :: body) after v := by
  intro hall
  obtain ⟨t, hrun, hresult, hreturned⟩ : ∃ t, (system (w :: body) after v).run
      { value := default } [.caller, .caller, .caller] = some t ∧ t.result.isSome ∧
        t.returned = false := by
    cases w <;> exact ⟨_, rfl, rfl, rfl⟩
  have hr : (system (w :: body) after v).Reachable t :=
    System.Reachable.run (.init ⟨[], rfl⟩) hrun
  have hwaits := (hall t hr).1.waits hresult
  rw [hreturned] at hwaits
  cases hwaits

/-- `co_await` of a task waits for it exactly where the task never suspends. -/
theorem awaitWaits_iff [Inhabited V] (body after : List Wait) (v : V) :
    AwaitWaits body after v ↔ body = [] := by
  constructor
  · intro hall
    cases body with
    | nil => rfl
    | cons w body => exact absurd hall (not_waits_of_suspends w body after v)
  · intro hbody s hr
    subst hbody
    have hi := StraightInv.of_reachable hr
    exact ⟨hi.awaitRight, hi.canReach⟩

/-- A task that yields once and is to return 7: the awaiting coroutine goes on with the default
value and destroys the task, whose handle is still in the run queue, and the loop then touches the
destroyed frame. -/
theorem yielding_task_not_awaited :
    ¬AwaitWaits [.yield] [] 7 ∧
    (∃ s, (system [.yield] [] 7).run { value := 0 } (List.replicate 4 .caller) = some s ∧
      s.result = some 0 ∧ s.returned = false ∧ s.inner = .destroyed ∧ .inner ∈ s.runQueue) ∧
    ∃ s, (system [.yield] [] 7).run { value := 0 } (List.replicate 4 .caller ++ [.swap, .visit]) =
      some s ∧ s.undefined = true :=
  ⟨not_waits_of_suspends .yield [] [] 7, ⟨_, rfl, rfl, rfl, rfl, by decide⟩, ⟨_, rfl, rfl⟩⟩

end TaskAwait

end Jellybean.Reactor
