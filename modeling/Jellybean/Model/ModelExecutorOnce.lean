import Jellybean.Model.ModelExecutorPromises

namespace Jellybean.Model.ModelExecutor

open Concurrency Inference

variable {α : Type*} {cfg : Config} {s u : State α}

/-- The tasks that a worker has taken and not yet passed on. -/
def WorkerPc.gathered : WorkerPc α → List (Task α)
  | .innerHead batch _ _ | .popping batch _ _ | .fetchSub batch _ _ | .checkBackend batch _
  | .inferring batch _ => batch
  | _ => []

/-- The promises of the requests that were passed to the backend, in order. -/
def State.inferred (s : State α) : List Nat :=
  s.batchCalls.flatMap fun call => call.tasks.map Task.promise

theorem WorkerPc.gathered_leaveInner (batch : List (Task α)) (waits : List Nat) :
    (leaveInner batch waits).gathered = batch := by
  unfold leaveInner
  split_ifs with h
  · exact h.symm
  · rfl

theorem WorkerPc.unanswered_of_gathered {pc : WorkerPc α} {j : Nat} {t : Task α}
    (h : pc.gathered[j]? = some t) : pc.unanswered j = some t := by
  cases pc <;> first | exact h | cases h

/-- No request is passed to the backend twice, and one that still waits in a batch has not been. -/
structure InferredOnce (s : State α) : Prop where
  once : s.inferred.Nodup
  taken : ∀ p ∈ s.inferred, p ∈ s.taken.map Taken.promise
  waiting : ∀ w, ∀ t ∈ (s.workers w).gathered, t.promise ∉ s.inferred
  known : ∀ call ∈ s.batchCalls, ∀ t ∈ call.tasks, Known s t

namespace InferredOnce

/-- Steps that pass nothing to the backend: a task that is new in a batch was not passed on. -/
theorem congr (h : InferredOnce s) (hb : u.batchCalls = s.batchCalls)
    (hi : s.issued <+: u.issued) (ht : s.taken ⊆ u.taken)
    (hw : ∀ w, ∀ t ∈ (u.workers w).gathered, t ∈ (s.workers w).gathered ∨
      t.promise ∉ s.inferred) : InferredOnce u := by
  have hsame : u.inferred = s.inferred := by
    rw [State.inferred, State.inferred, hb]
  refine ⟨?_, ?_, ?_, ?_⟩
  · rw [hsame]
    exact h.once
  · intro p hp
    rw [hsame] at hp
    exact List.map_subset _ ht (h.taken p hp)
  · intro w t hm
    rw [hsame]
    obtain hm | hm := hw w t hm
    · exact h.waiting w t hm
    · exact hm
  · intro call hc t hm
    rw [hb] at hc
    exact Known.mono ⟨hi, ht, hb ▸ List.Subset.refl _⟩ (h.known call hc t hm)

theorem worker (h : InferredOnce s) {w : Nat} {pc : WorkerPc α} (hb : u.batchCalls = s.batchCalls)
    (hi : u.issued = s.issued) (ht : u.taken = s.taken)
    (hw : u.workers = Function.update s.workers w pc)
    (hg : ∀ t ∈ pc.gathered, t ∈ (s.workers w).gathered) : InferredOnce u := by
  apply h.congr hb (hi ▸ List.prefix_rfl) (ht ▸ List.Subset.refl _)
  intro v t hm
  left
  rw [hw, Function.update_apply] at hm
  split_ifs at hm with hv
  · rw [hv]
    exact hg t hm
  · exact hm

theorem woken (h : InferredOnce s) (hb : u.batchCalls = s.batchCalls) (hi : u.issued = s.issued)
    (ht : u.taken = s.taken) (hw : Woken s.workers u.workers) : InferredOnce u := by
  apply h.congr hb (hi ▸ List.prefix_rfl) (ht ▸ List.Subset.refl _)
  intro w t hm
  left
  obtain he | ⟨-, he⟩ := hw w
  · rwa [he] at hm
  · rw [he] at hm
    cases hm

theorem callerMoves (h : InferredOnce s) {i : Nat} (hm : CallerMoves cfg s i u) :
    InferredOnce u := by
  cases hm with
  | notifyOne _ _ ha => exact h.woken rfl rfl rfl (woken_wakeOne ha)
  | notifyAll => exact h.woken rfl rfl rfl (woken_wakeAll s)
  | spawn => exact h.worker rfl rfl rfl rfl (by simp [WorkerPc.gathered])
  | _ => exact h.woken rfl rfl rfl (.refl _)

/-- The task of a pop was in no batch before. -/
theorem popped (h : InferredOnce s) {w first : Nat} {t : Task α} {batch : List (Task α)}
    {waits waits' : List Nat} (hw : s.workers w = .popping batch waits first)
    (hb : u.batchCalls = s.batchCalls) (hi : u.issued = s.issued)
    (hu : u.workers = Function.update s.workers w (.fetchSub (batch ++ [t]) waits' first))
    (ht : u.taken = s.taken ++ [⟨w, t.promise, s.clock⟩])
    (hnodup : (u.taken.map Taken.promise).Nodup) : InferredOnce u := by
  rw [ht, List.map_append, List.nodup_append] at hnodup
  have hnew : t.promise ∉ s.inferred := by
    intro hm
    exact hnodup.2.2 _ (h.taken _ hm) t.promise (by simp) rfl
  apply h.congr hb (hi ▸ List.prefix_rfl)
  · rw [ht]
    exact List.subset_append_left _ _
  · intro v t' hm
    rw [hu, Function.update_apply] at hm
    split_ifs at hm with hv
    · rcases List.mem_append.mp hm with hm | hm
      · left
        rw [hv, hw]
        exact hm
      · right
        rw [List.mem_singleton.mp hm]
        exact hnew
    · exact .inl hm

theorem workerMoves (h : InferredOnce s) {w : Nat} (hm : WorkerMoves cfg s w u)
    (hnodup : (u.taken.map Taken.promise).Nodup) : InferredOnce u := by
  cases hm with
  | popped hw _ _ => exact h.popped hw rfl rfl rfl rfl hnodup
  | popStep => exact h.woken rfl rfl rfl (.refl _)
  | leave hw =>
    exact h.worker rfl rfl rfl rfl (by rw [hw, WorkerPc.gathered_leaveInner]; exact fun _ => id)
  | popFailed hw _ _ hpc =>
    obtain rfl | rfl := hpc
    · exact h.worker rfl rfl rfl rfl (by rw [hw, WorkerPc.gathered_leaveInner]; exact fun _ => id)
    · exact h.worker rfl rfl rfl rfl (by rw [hw]; exact fun _ => id)
  | beginPop hw | fetchSub hw | available hw =>
    exact h.worker rfl rfl rfl rfl (by rw [hw]; exact fun _ => id)
  | _ => exact h.worker rfl rfl rfl rfl (by simp [WorkerPc.gathered])

/-- The tasks of a batch are different ones, and no other worker has any of them. -/
theorem batch_nodup (hs : s.ledger.Sound) {w : Nat} :
    ((s.workers w).gathered.map Task.promise).Nodup ∧
      ∀ v, v ≠ w → ∀ t ∈ (s.workers w).gathered, ∀ t' ∈ (s.workers v).gathered,
        t'.promise ≠ t.promise := by
  have hheld (v j : Nat) (t : Task α) (ht : (s.workers v).gathered[j]? = some t) :
      s.ledger.Held (.batch v j) t.promise := by
    simp only [Ledger.Held, State.ledger, WorkerPc.unanswered_of_gathered ht, Option.map_some]
  constructor
  · apply List.nodup_iff_injective_get.mpr
    intro j k he
    have hj := hheld w j.1 _ (List.getElem?_eq_getElem (by simpa using j.2))
    have hk := hheld w k.1 _ (List.getElem?_eq_getElem (by simpa using k.2))
    simp only [List.get_eq_getElem, List.getElem_map] at he
    rw [← he] at hk
    have := hs.exclusive.place_eq hj hk
    simp only [Place.batch.injEq, true_and] at this
    exact Fin.ext this
  · intro v hv t ht t' ht' he
    obtain ⟨j, hj⟩ := List.getElem?_of_mem ht
    obtain ⟨k, hk⟩ := List.getElem?_of_mem ht'
    have hplace := hheld v k t' hk
    rw [he] at hplace
    have := hs.exclusive.place_eq (hheld w j t hj) hplace
    simp only [Place.batch.injEq] at this
    exact hv this.1.symm

theorem inferBatch (h : InferredOnce s) (hs : s.ledger.Sound) (hp : Provenance s) {w : Nat}
    {batch : List (Task α)} {waits : List Nat} {pc : WorkerPc α} {call : BatchCall α}
    (hw : s.workers w = .inferring batch waits) (hcall : call.tasks = batch)
    (hb : u.batchCalls = s.batchCalls ++ [call]) (hi : u.issued = s.issued)
    (ht : u.taken = s.taken) (hu : u.workers = Function.update s.workers w pc)
    (hpc : pc.gathered = []) : InferredOnce u := by
  have hknows := hp.workers w
  rw [hw] at hknows
  obtain ⟨hnodup, hothers⟩ := batch_nodup hs (w := w)
  rw [hw] at hnodup hothers
  have hinferred : u.inferred = s.inferred ++ batch.map Task.promise := by
    rw [State.inferred, hb, ← hcall]
    simp [State.inferred]
  refine ⟨?_, ?_, ?_, ?_⟩
  · rw [hinferred, List.nodup_append]
    refine ⟨h.once, hnodup, ?_⟩
    intro p hold q hq he
    obtain ⟨t, hm, rfl⟩ := List.mem_map.mp hq
    apply h.waiting w t (by rw [hw]; exact hm)
    rwa [he] at hold
  · intro p hm
    rw [hinferred] at hm
    rw [ht]
    rcases List.mem_append.mp hm with hm | hm
    · exact h.taken p hm
    · obtain ⟨t, htask, rfl⟩ := List.mem_map.mp hm
      obtain ⟨j, hj, rfl⟩ := List.getElem_of_mem htask
      obtain ⟨-, e, he, hpe, -⟩ := hknows.get hj (hknows.length_eq ▸ hj)
      exact List.mem_map.mpr ⟨e, he, hpe⟩
  · intro v t hm
    rw [hu, Function.update_apply] at hm
    split_ifs at hm with hv
    · rw [hpc] at hm
      cases hm
    · rw [hinferred, List.mem_append, not_or]
      refine ⟨h.waiting v t hm, ?_⟩
      intro hin
      obtain ⟨t', ht', he⟩ := List.mem_map.mp hin
      exact hothers v hv t' ht' t hm he.symm
  · intro c hc t hm
    have hknown : Known s t := by
      rw [hb, List.mem_append, List.mem_singleton] at hc
      rcases hc with hc | rfl
      · exact h.known c hc t hm
      · rw [hcall] at hm
        exact hknows.known hm
    unfold Known at hknown ⊢
    rwa [hi]

theorem moves (h : InferredOnce s) (hs : s.ledger.Sound) (hp : Provenance s) {a : Action α}
    (hm : Moves cfg s a u) (hnodup : (u.taken.map Taken.promise).Nodup) : InferredOnce u := by
  cases hm with
  | inferAsync => exact h.congr rfl (List.prefix_append _ _) (List.Subset.refl _) fun _ _ => .inl
  | callStart | callStop => exact h.woken rfl rfl rfl (.refl _)
  | caller hm => exact h.callerMoves hm
  | worker hm => exact h.workerMoves hm hnodup
  | inferBatch hw _ => exact h.inferBatch hs hp hw rfl rfl rfl rfl rfl rfl
  | spuriousWake ha => exact h.woken rfl rfl rfl (woken_wakeOne ha)
  | tick | setReady => exact h.woken rfl rfl rfl (.refl _)

theorem of_reachable (hr : (system cfg).Reachable s) : InferredOnce s := by
  induction hr with
  | init hi =>
    obtain ⟨ready, rfl⟩ := hi
    refine ⟨List.nodup_nil, ?_, ?_, ?_⟩
    · intro p hp
      cases hp
    · intro w t ht
      cases ht
    · intro call hc
      cases hc
  | step hr _ ht ih =>
    have hnext := System.Reachable.next hr ht
    exact ih.moves (sound_of_reachable hr) (.of_reachable hr) (moves_of_step ht)
      (sound_of_reachable hnext).collected_nodup

end InferredOnce

end Jellybean.Model.ModelExecutor
