import Jellybean.Inference.RuntimeInvariant

namespace Jellybean.Inference.InferenceRuntime

open Model
open ModelExecutor (Quiet emptyRequest)

variable {α : Type*} {s u : State α} {workerThreads : Nat}

/-- A call of `shutdown` that has left its lock behind. -/
def Pc.hasStopped : Pc α → Bool
  | .stopping _ _ _ | .returning _ => true
  | _ => false

/-- Nobody has sent the executor a request or is about to. -/
def Unasked (s : State α) (e : Nat) : Prop :=
  (s.execs e).issued = [] ∧ ∀ j req, s.threads j ≠ .forwarding e req

/-- Requests reach an executor through the map only, and not once the runtime is stopped. -/
structure Fresh (s : State α) : Prop where
  unmade : ∀ e, s.created ≤ e → Unasked s e
  starting : ∀ i modelId e, s.threads i = .starting modelId e → Unasked s e
  late : s.stopped = true → ∀ e ∈ values s, Unasked s e

/-- What the records of a run say. -/
structure Records (s : State α) : Prop where
  registered : ∀ e ∈ s.registered, e < s.created ∧ ∀ i, (s.threads i).unpublished ≠ some e
  before : ∀ i, (s.threads i).before ⊆ s.registered
  stopped : ∀ i, (s.threads i).hasStopped = true → s.stopped = true

/-- The executor has been stopped for good, or it never gets a request. -/
def Settled (s : State α) (e : Nat) : Prop :=
  e < s.created ∧ ((∀ l, ¬ Held s l e) ∨ s.stopped = true ∧ Unasked s e)

theorem unasked_update {i e f : Nat} {x : ModelExecutor.State α} {pc : Pc α} (h : Unasked s e)
    (hex : u.execs = Function.update s.execs f x)
    (ht : u.threads = Function.update s.threads i pc)
    (hx : e = f → x.issued = []) (hp : ∀ req, pc ≠ .forwarding e req) : Unasked u e := by
  constructor
  · rw [hex]
    rcases eq_or_ne e f with rfl | hf
    · rw [Function.update_self]
      exact hx rfl
    · rw [Function.update_of_ne hf]
      exact h.1
  · intro j req
    rw [ht]
    rcases eq_or_ne j i with rfl | hj
    · rw [Function.update_self]
      exact hp req
    · rw [Function.update_of_ne hj]
      exact h.2 j req

theorem unasked_thread {i e : Nat} {pc : Pc α} (h : Unasked s e) (hex : u.execs = s.execs)
    (ht : u.threads = Function.update s.threads i pc) (hp : ∀ req, pc ≠ .forwarding e req) :
    Unasked u e := by
  refine unasked_update (f := e) h ?_ ht (fun _ => h.1) hp
  rw [hex, Function.update_eq_self]

/-- `infer_async` finds an executor in the map and before the runtime is stopped. -/
theorem Unasked.moves {e : Nat} (h : Unasked s e) (hr : s.stopped = true ∨ e ∉ values s)
    {a : Action α} (hm : Moves workerThreads s a u) : Unasked u e := by
  cases hm with
  | rejected => exact h
  | @exec f a x hf ha hx =>
    have hk := ModelExecutor.Continues.of_moves ha (ModelExecutor.moves_of_step hx)
    refine ⟨?_, h.2⟩
    rcases eq_or_ne e f with rfl | hne
    · simp only [Function.update_self]
      exact hk.issued.trans h.1
    · simp only [Function.update_of_ne hne]
      exact h.1
  | register hi => exact unasked_update h rfl rfl (fun _ => rfl) (by simp)
  | refused | found | stopFirst | stopNext =>
    refine unasked_update h rfl rfl ?_ (by simp)
    rintro rfl
    exact h.1
  | @routed i req f _ _ hi hs hl =>
    refine unasked_thread h rfl rfl ?_
    rintro req' heq
    obtain rfl : f = e := by cases heq; rfl
    rcases hr with hr | hr
    · rw [hs] at hr
      cases hr
    · exact hr (mem_values_of_lookup hl)
  | @forwarded i f req _ _ x hi hx =>
    refine unasked_update h rfl rfl ?_ (by simp)
    rintro rfl
    exact absurd hi (h.2 i req)
  | _ => exact unasked_thread h rfl rfl (by simp)

theorem starting_of_moves {a : Action α} (hm : Moves workerThreads s a u) {i e : Nat}
    {modelId : String} (h : u.threads i = .starting modelId e) :
    s.threads i = .starting modelId e ∨ e = s.created := by
  have hupd {k : Nat} {pc : Pc α} (ht : u.threads = Function.update s.threads k pc)
      (hp : pc = .starting modelId e → e = s.created) :
      s.threads i = .starting modelId e ∨ e = s.created := by
    rw [ht] at h
    rcases eq_or_ne i k with rfl | hne
    · rw [Function.update_self] at h
      exact .inr (hp h)
    · rw [Function.update_of_ne hne] at h
      exact .inl h
  cases hm with
  | exec | rejected => exact .inl h
  | register hi =>
    refine hupd rfl fun he => ?_
    cases he
    rfl
  | _ => exact hupd rfl (by simp)

theorem values_of_moves {a : Action α} (hm : Moves workerThreads s a u) {e : Nat}
    (hs : u.stopped = true) (he : e ∈ values u) :
    s.stopped = true ∧ e ∈ values s ∨ ∃ i modelId, s.threads i = .starting modelId e := by
  cases hm with
  | @emplaced i modelId f _ _ hi hb hx =>
    rw [values_insert hx rfl] at he
    rcases List.mem_cons.mp he with rfl | he
    · exact .inr ⟨i, modelId, hi⟩
    · exact .inl ⟨hs, he⟩
  | found hi hl hb =>
    have hp := values_erase hl (u := { s with executors := s.executors.erase _ }) rfl
    exact .inl ⟨hs, hp.mem_iff.mpr (List.mem_cons_of_mem _ he)⟩
  | stopFirst | nothingToStop => cases he
  | _ => exact .inl ⟨hs, he⟩

theorem created_of_moves {a : Action α} (hm : Moves workerThreads s a u) :
    s.created ≤ u.created := by
  cases hm with
  | register => exact Nat.le_succ _
  | _ => exact le_rfl

theorem stopped_of_moves {a : Action α} (hm : Moves workerThreads s a u) (h : s.stopped = true) :
    u.stopped = true := by
  cases hm with
  | stopFirst | nothingToStop => rfl
  | _ => exact h

namespace Fresh

theorem initial : Fresh (InferenceRuntime.initial : State α) where
  unmade := fun _ _ => ⟨rfl, by simp [InferenceRuntime.initial]⟩
  starting := fun _ _ _ h => by cases h
  late := fun h => by cases h

theorem moves (h : Fresh s) (hc : Custody s) {a : Action α} (hm : Moves workerThreads s a u) :
    Fresh u := by
  have hnew (e : Nat) (he : s.created ≤ e) : Unasked u e := by
    refine (h.unmade e he).moves (.inr fun hv => ?_) hm
    exact absurd (hc.created none e hv) (by omega)
  have hstart (i : Nat) (modelId : String) (e : Nat) (hi : s.threads i = .starting modelId e) :
      Unasked u e := by
    refine (h.starting i modelId e hi).moves (.inr fun hv => ?_) hm
    have hheld : Held s (some i) e := by simp [Held, hi, Pc.owned]
    exact hc.apart (some i) none e (by simp) hheld hv
  refine ⟨?_, ?_, ?_⟩
  · intro e he
    exact hnew e ((created_of_moves hm).trans he)
  · intro i modelId e hi
    rcases starting_of_moves hm hi with hi | rfl
    · exact hstart i modelId e hi
    · exact hnew _ le_rfl
  · intro hs e he
    rcases values_of_moves hm hs he with ⟨hs, he⟩ | ⟨i, modelId, hi⟩
    · exact (h.late hs e he).moves (.inl hs) hm
    · exact hstart i modelId e hi

end Fresh

namespace Records

theorem initial : Records (InferenceRuntime.initial : State α) where
  registered := fun _ h => by cases h
  before := fun _ => List.nil_subset _
  stopped := fun _ h => by cases h

/-- Thread `i` goes on. -/
theorem update (h : Records s) {i : Nat} {pc : Pc α} (hcr : s.created ≤ u.created)
    (hst : s.stopped = true → u.stopped = true) (hreg : u.registered = s.registered)
    (ht : u.threads = Function.update s.threads i pc)
    (hun : ∀ e ∈ s.registered, pc.unpublished ≠ some e) (hbe : pc.before ⊆ s.registered)
    (hpc : pc.hasStopped = true → u.stopped = true) : Records u := by
  refine ⟨?_, ?_, ?_⟩
  · intro e he
    rw [hreg] at he
    refine ⟨(h.registered e he).1.trans_le hcr, ?_⟩
    intro j
    rw [ht]
    rcases eq_or_ne j i with rfl | hj
    · rw [Function.update_self]
      exact hun e he
    · rw [Function.update_of_ne hj]
      exact (h.registered e he).2 j
  · intro j
    rw [ht, hreg]
    rcases eq_or_ne j i with rfl | hj
    · rw [Function.update_self]
      exact hbe
    · rw [Function.update_of_ne hj]
      exact h.before j
  · intro j hj
    rw [ht] at hj
    rcases eq_or_ne j i with rfl | hne
    · rw [Function.update_self] at hj
      exact hpc hj
    · rw [Function.update_of_ne hne] at hj
      exact hst (h.stopped j hj)

/-- `emplace` takes the executor of thread `i`. -/
theorem emplaced (h : Records s) (hc : Custody s) {i e : Nat} {modelId : String}
    (hi : s.threads i = .starting modelId e) (hcr : u.created = s.created)
    (hst : u.stopped = s.stopped) (hreg : u.registered = e :: s.registered)
    (ht : u.threads = Function.update s.threads i .idle) : Records u := by
  have hheld : Held s (some i) e := by simp [Held, hi, Pc.owned]
  have hu := h.update (u := { s with threads := u.threads }) le_rfl id rfl ht
    (by simp [Pc.unpublished]) (List.nil_subset _) (by simp [Pc.hasStopped])
  refine ⟨?_, ?_, ?_⟩
  · intro f hf
    rw [hcr]
    rw [hreg, List.mem_cons] at hf
    rcases hf with rfl | hf
    · refine ⟨hc.created _ _ hheld, fun j hj => ?_⟩
      have hji : j ≠ i := by
        rintro rfl
        simp [ht, Pc.unpublished] at hj
      rw [ht, Function.update_of_ne hji] at hj
      have heq := hc.unique hheld (k := some j) (Pc.mem_owned_of_unpublished hj)
      exact hji (Option.some.inj heq).symm
    · exact hu.registered f hf
  · intro j
    rw [hreg]
    exact List.Subset.trans (hu.before j) (List.subset_cons_self _ _)
  · intro j hj
    rw [hst]
    exact hu.stopped j hj

theorem moves (h : Records s) (hc : Custody s) {a : Action α} (hm : Moves workerThreads s a u) :
    Records u := by
  -- A call of `shutdown` goes on with the same `before`.
  have hnext {i : Nat} {pc : Pc α} (hcr : u.created = s.created)
      (hreg : u.registered = s.registered) (ht : u.threads = Function.update s.threads i pc)
      (hun : pc.unpublished = none) (hbe : pc.before = (s.threads i).before)
      (hst : u.stopped = true) : Records u := by
    refine h.update hcr.ge (fun _ => hst) hreg ht ?_ ?_ fun _ => hst
    · simp [hun]
    · rw [hbe]
      exact h.before i
  cases hm with
  | rejected => exact h
  | exec => exact ⟨h.registered, h.before, h.stopped⟩
  | register hi =>
    refine h.update (Nat.le_succ _) id rfl rfl (fun e he heq => ?_) (List.nil_subset _)
      (by simp [Pc.hasStopped])
    obtain rfl : s.created = e := by simpa [Pc.unpublished] using heq
    exact absurd (h.registered _ he).1 (lt_irrefl _)
  | emplaced hi hb hx => exact h.emplaced hc hi rfl rfl rfl rfl
  | @refused i modelId e _ _ hi hb =>
    refine h.update le_rfl id rfl rfl (fun f hf => ?_) (List.nil_subset _) (by simp [Pc.hasStopped])
    have := (h.registered f hf).2 i
    rwa [hi] at this
  | callShutdown hi =>
    exact h.update le_rfl id rfl rfl (by simp [Pc.unpublished]) (List.Subset.refl _)
      (by simp [Pc.hasStopped])
  | alreadyStopped hi hs => exact hnext rfl rfl rfl rfl (by rw [hi]; rfl) hs
  | nothingToStop hi hv | stopFirst hi hv hb => exact hnext rfl rfl rfl rfl (by rw [hi]; rfl) rfl
  | stopNext hi hb hf =>
    exact hnext rfl rfl rfl rfl (by rw [hi]; rfl) (h.stopped _ (by rw [hi]; rfl))
  | stoppedAll hi hb =>
    exact hnext rfl rfl rfl rfl (by rw [hi]; rfl) (h.stopped _ (by rw [hi]; rfl))
  | _ =>
    exact h.update le_rfl id rfl rfl (by simp [Pc.unpublished]) (List.nil_subset _)
      (by simp [Pc.hasStopped])

end Records

/-- Everything that holds along every run. -/
structure Tracked (s : State α) : Prop where
  custody : Custody s
  occupied : Occupied s
  fresh : Fresh s
  records : Records s

namespace Tracked

theorem initial : Tracked (InferenceRuntime.initial : State α) :=
  ⟨Custody.initial, Occupied.initial, Fresh.initial, Records.initial⟩

theorem moves (h : Tracked s) {a : Action α} (hm : Moves workerThreads s a u) : Tracked u where
  custody := h.custody.moves hm
  occupied := h.occupied.moves h.custody hm
  fresh := h.fresh.moves h.custody hm
  records := h.records.moves h.custody hm

theorem of_reachable (h : (system workerThreads).Reachable s) : Tracked s := by
  refine h.invariant ?_ ?_
  · rintro s rfl
    exact initial
  · intro s a u hs hu
    exact hs.moves (moves_of_step hu)

end Tracked

namespace Settled

theorem moves {e : Nat} (h : Settled s e) (ht : Tracked s) {a : Action α}
    (hm : Moves workerThreads s a u) : Settled u e := by
  refine ⟨h.1.trans_le (created_of_moves hm), ?_⟩
  rcases h.2 with hn | ⟨hs, hu⟩
  · obtain ⟨d, hp⟩ := Passes.of_moves ht.custody.values hm
    exact .inl (hp.unheld h.1 hn)
  · exact .inr ⟨stopped_of_moves hm hs, hu.moves (.inl hs) hm⟩

theorem quiet {e : Nat} (h : Settled s e) (ht : Tracked s) : Quiet (s.execs e) := by
  have hr := ht.occupied.execs e
  rcases h.2 with hn | ⟨-, hu⟩
  · exact (ht.occupied.retired e h.1 hn).quiet hr
  · exact ModelExecutor.quiet_of_unasked hr.reachable hu.1

end Settled

/-- From here on, in every continuation, no worker of the executor is inside `infer_batch`. -/
def Silenced (workerThreads : Nat) (s : State α) (e : Nat) : Prop :=
  ∀ as t, (system workerThreads).run s as = some t → Quiet (t.execs e)

theorem Settled.silenced {e : Nat} (h : Settled s e) (ht : Tracked s) :
    Silenced workerThreads s e := by
  intro as t hrun
  induction as generalizing s with
  | nil =>
    cases hrun
    exact h.quiet ht
  | cons a as ih =>
    obtain ⟨u, hu, hrun⟩ := Option.bind_eq_some_iff.mp hrun
    have hm := moves_of_step hu
    exact ih (h.moves ht hm) (ht.moves hm) hrun

/-- When `unregister_model` returns, nobody has the executor it removed. -/
theorem settled_unregistered (h : Tracked s) {i e : Nat} (hi : s.threads i = .unregistering e)
    (hv : values u = values s) (hcr : u.created = s.created)
    (ht : u.threads = Function.update s.threads i .idle) : Settled u e := by
  have hheld : Held s (some i) e := by simp [Held, hi, Pc.owned, Pc.toStop]
  refine ⟨hcr ▸ h.custody.created _ _ hheld, .inl fun l hl => ?_⟩
  rcases held_update ht (by rw [hv]; exact List.Subset.refl _) hl with hl' | ⟨-, he⟩
  · obtain rfl := h.custody.unique hheld hl'
    simp [Held, ht, Pc.owned, Pc.toStop] at hl
  · simp [Pc.owned, Pc.toStop] at he

theorem unregistered_moves (h : Tracked s) (hs : ∀ e ∈ s.unregistered, Settled s e)
    {a : Action α} (hm : Moves workerThreads s a u) : ∀ e ∈ u.unregistered, Settled u e := by
  have hold (e : Nat) (he : e ∈ s.unregistered) : Settled u e := (hs e he).moves h hm
  cases hm with
  | unregistered hi hb =>
    intro f hf
    rcases List.mem_cons.mp hf with rfl | hf
    · exact settled_unregistered h hi rfl rfl rfl
    · exact hold f hf
  | _ => exact hold

/-- A call of `shutdown` returns when no call has an executor left to stop that was registered
before it began. -/
def Admitted (s : State α) : Action α → Prop
  | .advance i _ _ =>
    ∀ before, s.threads i = .returning before → ∀ j, ∀ e ∈ (s.threads j).toStop, e ∉ before
  | _ => True

/-- What was registered before a call of `shutdown` is, when nobody is left to stop it, stopped
or came too late to get a request. -/
theorem settled_shutDown (h : Tracked s) {i e : Nat} {before : List Nat}
    (hi : s.threads i = .returning before) (he : e ∈ before)
    (hadm : ∀ j, e ∉ (s.threads j).toStop) : Settled s e := by
  have hreg : e ∈ s.registered := by
    have := h.records.before i
    rw [hi] at this
    exact this he
  have hstop := h.records.stopped i (by rw [hi]; rfl)
  obtain ⟨hlt, hun⟩ := h.records.registered e hreg
  refine ⟨hlt, ?_⟩
  by_cases hv : e ∈ values s
  · exact .inr ⟨hstop, h.fresh.late hstop e hv⟩
  · refine .inl fun l hl => ?_
    cases l with
    | none => exact hv hl
    | some j =>
      rcases Pc.mem_owned hl with hj | hj
      · exact hun j hj
      · exact hadm j hj

theorem shutDown_moves (h : Tracked s) (hs : ∀ e ∈ s.shutDown, Settled s e) {a : Action α}
    (ha : Admitted s a) (hm : Moves workerThreads s a u) : ∀ e ∈ u.shutDown, Settled u e := by
  have hall (e : Nat) (he : Settled s e) : Settled u e := he.moves h hm
  cases hm with
  | returned hi =>
    intro f hf
    apply hall
    rcases List.mem_append.mp hf with hf | hf
    · exact settled_shutDown h hi hf fun j hj => ha _ hi j f hj hf
    · exact hs f hf
  | _ => exact fun e he => hall e (hs e he)

theorem settled_of_unregistered (h : (system workerThreads).Reachable s) :
    ∀ e ∈ s.unregistered, Settled s e := by
  have hboth : Tracked s ∧ ∀ e ∈ s.unregistered, Settled s e := by
    refine System.Reachable.invariant
      (P := fun s => Tracked s ∧ ∀ e ∈ s.unregistered, Settled s e) ?_ ?_ h
    · rintro s rfl
      exact ⟨Tracked.initial, by simp [initial]⟩
    · intro s a u hs hu
      have hm := moves_of_step hu
      exact ⟨hs.1.moves hm, unregistered_moves hs.1 hs.2 hm⟩
  exact hboth.2

theorem settled_of_shutDown (h : (system workerThreads).ReachableUnder Admitted s) :
    ∀ e ∈ s.shutDown, Settled s e := by
  have hboth : Tracked s ∧ ∀ e ∈ s.shutDown, Settled s e := by
    refine System.ReachableUnder.invariant
      (P := fun s => Tracked s ∧ ∀ e ∈ s.shutDown, Settled s e) ?_ ?_ h
    · rintro s rfl
      exact ⟨Tracked.initial, by simp [initial]⟩
    · intro s a u hs ha hu
      have hm := moves_of_step hu
      exact ⟨hs.1.moves hm, shutDown_moves hs.1 hs.2 ha hm⟩
  exact hboth.2

/-- An executor is silent for good once `unregister_model` has returned for it, and, where
`shutdown` returns as admitted, once it has returned. -/
theorem silenced_after_return (workerThreads : Nat) (s : State α) :
    ((system workerThreads).Reachable s → ∀ e ∈ s.unregistered, Silenced workerThreads s e) ∧
    ((system workerThreads).ReachableUnder Admitted s →
      ∀ e ∈ s.shutDown, Silenced workerThreads s e) := by
  constructor
  · intro hr e he
    exact (settled_of_unregistered hr e he).silenced (Tracked.of_reachable hr)
  · intro hr e he
    exact (settled_of_shutDown hr e he).silenced (Tracked.of_reachable hr.reachable)

/-- A model that takes one request at a time. -/
def readyModel : ModelMetadata := ⟨{ maxBatchSize := 1, maxBatchDelayUs := 0 }, .ready, true⟩

/-- Thread 0 registers the model, and the map takes executor `e`. -/
def registerReady (modelId : String) (e : Nat) : List (Action Nat) :=
  List.flatten [[.registerModel 0 modelId (some readyModel)],
    List.replicate 3 (.exec e (.caller 0 false none)), [.advance 0 [] 0]]

/-- `stop` of executor `e` with its one worker, from the call to the return. -/
def stopReady (e : Nat) : List (Action Nat) :=
  List.flatten [[.exec e (.caller 0 false none), .exec e (.worker 0 false)],
    List.replicate 5 (.exec e (.caller 0 false none)), [.advance 0 [] 0]]

/-- Two models; one is unregistered, then the runtime is shut down. -/
def unregisterAndShutdown : List (Action Nat) :=
  List.flatten [registerReady "a" 0, registerReady "b" 1,
    [.unregisterModel 0 "a", .advance 0 [] 0], stopReady 0,
    [.shutdown 0, .advance 0 [1] 0], stopReady 1, [.advance 0 [] 0]]

def Action.below (n : Nat) : Action α → Bool
  | .registerModel i _ _ | .unregisterModel i _ | .inferAsync i _ | .shutdown i
  | .advance i _ _ => i < n
  | .exec _ _ => true

def admittedBelow (n : Nat) (s : State α) : Action α → Bool
  | .advance i _ _ =>
    match s.threads i with
    | .returning before => ∀ j < n, ∀ e ∈ (s.threads j).toStop, e ∉ before
    | _ => true
  | _ => true

theorem idle_moves {n : Nat} (h : ∀ j, n ≤ j → s.threads j = .idle) {a : Action α}
    (ha : a.below n = true) (hm : Moves workerThreads s a u) :
    ∀ j, n ≤ j → u.threads j = .idle := by
  intro j hj
  have hupd {i : Nat} {pc : Pc α} (hi : i < n) : Function.update s.threads i pc j = .idle := by
    rw [Function.update_of_ne (by omega)]
    exact h j hj
  cases hm with
  | exec | rejected => exact h j hj
  | _ => exact hupd (by simpa [Action.below] using ha)

theorem admitted_of_below {n : Nat} (h : ∀ j, n ≤ j → s.threads j = .idle) {a : Action α}
    (ha : admittedBelow n s a = true) : Admitted s a := by
  cases a with
  | advance i order ns =>
    intro before hi j e he
    rcases Nat.lt_or_ge j n with hlt | hge
    · simp only [admittedBelow, hi, decide_eq_true_eq] at ha
      exact ha j hlt e he
    · rw [h j hge] at he
      cases he
  | _ => trivial

theorem silenced_after_return_unregisterAndShutdown :
    ∃ s, (system 1).run initial unregisterAndShutdown = some s ∧ s.unregistered = [0] ∧
      s.shutDown = [1, 0] ∧ (∀ e ∈ s.unregistered, Silenced 1 s e) ∧
      ∀ e ∈ s.shutDown, Silenced 1 s e := by
  have hrun : ((system 1).run initial unregisterAndShutdown).map (fun s =>
      (s.unregistered, s.shutDown)) = some ([0], [1, 0]) := by
    decide +kernel
  obtain ⟨s, hs, he⟩ := Option.map_eq_some_iff.mp hrun
  simp only [Prod.mk.injEq] at he
  have hr : (system 1).ReachableUnder Admitted s := by
    refine System.ReachableUnder.run_of
      (D := fun s a => a.below 1 = true ∧ admittedBelow 1 s a = true)
      (I := fun s => ∀ j, 1 ≤ j → s.threads j = .idle) ?_ ?_
      (.init rfl) (fun _ _ => rfl) (by decide +kernel) hs
    · intro s a u h hd hu
      exact idle_moves h hd.1 (moves_of_step hu)
    · intro s a h hd
      exact admitted_of_below h hd.2
  have hboth := silenced_after_return 1 s
  exact ⟨s, hs, he.1, he.2, hboth.1 hr.reachable, hboth.2 hr⟩

/-- The worker is inside `infer_batch` when thread 0 begins to stop it, and the call of thread 1
finds the runtime stopped and returns. -/
def twoShutdowns : List (Action Nat) :=
  List.flatten [registerReady "m" 0,
    [.inferAsync 1 emptyRequest, .advance 1 [] 0, .advance 1 [] 7],
    List.replicate 9 (.exec 0 (.caller 1 false none)), [.advance 1 [] 0],
    List.replicate 12 (.exec 0 (.worker 0 false)),
    [.shutdown 0, .advance 0 [0] 0, .exec 0 (.caller 0 false none), .shutdown 1,
      .advance 1 [] 0, .advance 1 [] 0]]

theorem second_shutdown_returns_early :
    ∃ s : State Nat, (system 1).Reachable s ∧ ∃ e ∈ s.shutDown, ¬ Quiet (s.execs e) := by
  have hrun : ((system 1).run initial twoShutdowns).map (fun s =>
      (s.shutDown, ((s.execs 0).workers 0).isInferring)) = some ([0], true) := by
    decide +kernel
  obtain ⟨s, hs, he⟩ := Option.map_eq_some_iff.mp hrun
  simp only [Prod.mk.injEq] at he
  refine ⟨s, System.Reachable.run (.init rfl) hs, 0, by simp [he.1], fun hq => ?_⟩
  have := hq 0
  rw [he.2] at this
  cases this

end Jellybean.Inference.InferenceRuntime
