import Jellybean.Inference.RuntimeShutdown
import Jellybean.Model.ModelExecutorOnce

namespace Jellybean.Inference.InferenceRuntime

open Model
open ModelExecutor (emptyRequest)

variable {α : Type*} {s u : State α} {workerThreads : Nat}

/-! What a step of the runtime is for one executor. -/

inductive ExecTurn (s : State α) (a : Action α) (u : State α) (e : Nat) : Prop
  | same (hx : u.execs e = s.execs e) (hc : u.configs e = s.configs e)
  /-- The executor takes one step; only those of `exec` are its own. -/
  | turn (b : ModelExecutor.Action α)
      (hx : ModelExecutor.step (s.configs e) (s.execs e) b = some (u.execs e))
      (hc : u.configs e = s.configs e) (hb : b.isInternal = true → a = .exec e b)
  | made (he : e = s.created) (i : Nat) (ready : Bool)
      (hx : u.execs e = ModelExecutor.setCaller (ModelExecutor.initial ready) i .startCas)

theorem execTurn_update {a : Action α} {f : Nat} {b : ModelExecutor.Action α}
    {x : ModelExecutor.State α}
    (hx : ModelExecutor.step (s.configs f) (s.execs f) b = some x)
    (hb : b.isInternal = true → a = .exec f b) (hu : u.execs = Function.update s.execs f x)
    (hc : u.configs = s.configs) (e : Nat) : ExecTurn s a u e := by
  by_cases he : e = f
  · rw [he]
    exact .turn b (by rw [hu, Function.update_self]; exact hx) (by rw [hc]) hb
  · exact .same (by rw [hu, Function.update_of_ne he]) (by rw [hc])

theorem step_callStop {i f : Nat} (hi : (s.execs f).callers i = .idle) :
    ModelExecutor.step (s.configs f) (s.execs f) (.callStop i) =
      some (ModelExecutor.setCaller (s.execs f) i .stopCas) := by
  simp [ModelExecutor.step, hi]

theorem execTurn_of_moves {a : Action α} (hm : Moves workerThreads s a u) (e : Nat) :
    ExecTurn s a u e := by
  cases hm with
  | exec _ _ hx =>
    refine execTurn_update hx ?_ ?_ ?_ e
    · exact fun _ => rfl
    · rfl
    · rfl
  | @register i modelId m hi =>
    by_cases he : e = s.created
    · refine .made he i (isReady m && m.backend) ?_
      rw [he]
      exact Function.update_self ..
    · exact .same (Function.update_of_ne he ..) (Function.update_of_ne he ..)
  | refused _ hb | found _ _ hb | stopFirst _ _ hb | stopNext _ _ hb =>
    refine execTurn_update (step_callStop hb) ?_ ?_ ?_ e
    · intro h
      cases h
    · rfl
    · rfl
  | forwarded _ hx =>
    refine execTurn_update hx ?_ ?_ ?_ e
    · intro h
      cases h
    · rfl
    · rfl
  | _ => exact .same rfl rfl

/-- Requests stay issued. -/
theorem ExecTurn.issued {a : Action α} {e : Nat} (h : ExecTurn s a u e) (he : e < s.created) :
    (s.execs e).issued <+: (u.execs e).issued := by
  cases h with
  | same hx => rw [hx]
  | turn b hx hc hb =>
    cases hi : b.isInternal with
    | true =>
      have hk := ModelExecutor.Continues.of_moves hi (ModelExecutor.moves_of_step hx)
      rw [hk.issued]
    | false =>
      generalize u.execs e = x at hx ⊢
      cases ModelExecutor.moves_of_step hx with
      | inferAsync => exact List.prefix_append _ _
      | callStart | callStop => exact List.prefix_rfl
      | caller | worker | inferBatch | spuriousWake | tick | setReady => cases hi
  | made he' => omega

/-- The executor that the thread is about to pass a request to. -/
def Pc.target : Pc α → Option (Nat × String)
  | .starting modelId e => some (e, modelId)
  | .forwarding e req => some (e, req.modelId)
  | _ => none

/-- `name e` is the model id for which executor `e` was made: it is in the map under this id only,
and is asked for requests of this model only. -/
structure Named (name : Nat → String) (s : State α) : Prop where
  entries : ∀ modelId e, s.executors.lookup modelId = some e → e < s.created ∧ name e = modelId
  targets : ∀ i e modelId, (s.threads i).target = some (e, modelId) →
    e < s.created ∧ name e = modelId
  issued : ∀ e, ∀ t ∈ (s.execs e).issued, e < s.created ∧ t.req.modelId = name e

namespace Named

variable {name : Nat → String}

theorem initial : Named name (InferenceRuntime.initial : State α) where
  entries := by
    intro modelId e he
    cases he
  targets := by
    intro i e modelId he
    cases he
  issued := by
    intro e t ht
    cases ht

/-- The thread moves to a point where it has no new target; what else changes asks nobody. -/
theorem congr (h : Named name s) {i : Nat} {pc : Pc α} (hc : u.created = s.created)
    (hm : ∀ modelId e, u.executors.lookup modelId = some e →
      s.executors.lookup modelId = some e ∨ (s.threads i).target = some (e, modelId))
    (ht : u.threads = Function.update s.threads i pc)
    (hpc : ∀ e modelId, pc.target = some (e, modelId) → s.executors.lookup modelId = some e)
    (hi : ∀ e, (u.execs e).issued = (s.execs e).issued) : Named name u := by
  refine ⟨?_, ?_, ?_⟩
  · intro modelId e he
    rw [hc]
    obtain he | he := hm modelId e he
    · exact h.entries modelId e he
    · exact h.targets i e modelId he
  · intro j e modelId he
    rw [hc]
    rw [ht, Function.update_apply] at he
    split_ifs at he
    · exact h.entries modelId e (hpc e modelId he)
    · exact h.targets j e modelId he
  · intro e t hm
    rw [hi] at hm
    rw [hc]
    exact h.issued e t hm

theorem exec (h : Named name s) {e : Nat} {x : ModelExecutor.State α}
    (hx : x.issued = (s.execs e).issued) :
    Named name { s with execs := Function.update s.execs e x } := by
  refine ⟨h.entries, h.targets, ?_⟩
  intro f t hm
  apply h.issued f t
  dsimp only at hm
  rw [Function.update_apply] at hm
  split_ifs at hm with hf
  · rw [hf, ← hx]
    exact hm
  · exact hm

/-- A new executor gets the model id for which it is made. -/
theorem register (h : Named name s) {i : Nat} {modelId : String} {x : ModelExecutor.State α}
    (hc : u.created = s.created + 1) (hm : u.executors = s.executors)
    (hex : u.execs = Function.update s.execs s.created x) (hx : x.issued = [])
    (ht : u.threads = Function.update s.threads i (.starting modelId s.created)) :
    Named (Function.update name s.created modelId) u := by
  have hold (e : Nat) (he : e < s.created) :
      e < u.created ∧ Function.update name s.created modelId e = name e := by
    refine ⟨by omega, ?_⟩
    rw [Function.update_of_ne (by omega)]
  refine ⟨?_, ?_, ?_⟩
  · intro id e he
    rw [hm] at he
    obtain ⟨hlt, hname⟩ := h.entries id e he
    obtain ⟨hlt', hsame⟩ := hold e hlt
    exact ⟨hlt', hsame.trans hname⟩
  · intro j e id he
    rw [ht, Function.update_apply] at he
    split_ifs at he
    · cases he
      exact ⟨by omega, Function.update_self ..⟩
    · obtain ⟨hlt, hname⟩ := h.targets j e id he
      obtain ⟨hlt', hsame⟩ := hold e hlt
      exact ⟨hlt', hsame.trans hname⟩
  · intro e t hmem
    rw [hex, Function.update_apply] at hmem
    split_ifs at hmem
    · rw [hx] at hmem
      cases hmem
    · obtain ⟨hlt, hname⟩ := h.issued e t hmem
      obtain ⟨hlt', hsame⟩ := hold e hlt
      exact ⟨hlt', hname.trans hsame.symm⟩

/-- The request goes to the executor to which it was routed. -/
theorem forward (h : Named name s) {i e ns : Nat} {req : InferenceRequest α}
    {x : ModelExecutor.State α} (hi : s.threads i = .forwarding e req)
    (hx : ModelExecutor.step (s.configs e) (s.execs e) (.inferAsync i req ns) = some x) :
    Named name (InferenceRuntime.enter s i e x (.inferring e)) := by
  obtain ⟨hlt, hname⟩ := h.targets i e req.modelId (by rw [hi]; rfl)
  have hissued : ∃ t : ModelExecutor.Task α, t.req = req ∧
      x.issued = (s.execs e).issued ++ [t] := by
    cases ModelExecutor.moves_of_step hx with
    | inferAsync => exact ⟨_, rfl, rfl⟩
  obtain ⟨t, htreq, hx'⟩ := hissued
  refine ⟨h.entries, ?_, ?_⟩
  · intro j f modelId he
    simp only [InferenceRuntime.enter, Function.update_apply] at he
    split_ifs at he
    · cases he
    · exact h.targets j f modelId he
  · intro f t' hm
    simp only [InferenceRuntime.enter, Function.update_apply] at hm ⊢
    split_ifs at hm with hf
    · rw [hf]
      rw [hx', List.mem_append, List.mem_singleton] at hm
      obtain hm | rfl := hm
      · exact h.issued e t' hm
      · exact ⟨hlt, htreq ▸ hname.symm⟩
    · exact h.issued f t' hm

theorem issued_setCaller {e : Nat} {i : Nat} {pc : ModelExecutor.CallerPc α} (f : Nat) :
    (Function.update s.execs e (ModelExecutor.setCaller (s.execs e) i pc) f).issued =
      (s.execs f).issued := by
  rw [Function.update_apply]
  split_ifs with hf
  · rw [hf]
    rfl
  · rfl

/-- Executors keep their model ids. -/
theorem moves (h : Named name s) {a : Action α} (hm : Moves workerThreads s a u) :
    ∃ name', (∀ e < s.created, name' e = name e) ∧ Named name' u := by
  have hsame : ∀ e < s.created, name e = name e := fun _ _ => rfl
  cases hm with
  | exec he ha hx =>
    have hk := ModelExecutor.Continues.of_moves ha (ModelExecutor.moves_of_step hx)
    exact ⟨name, hsame, h.exec hk.issued⟩
  | rejected => exact ⟨name, hsame, h⟩
  | @register i modelId m hi =>
    refine ⟨Function.update name s.created modelId, ?_, h.register rfl rfl rfl rfl rfl⟩
    intro e he
    exact Function.update_of_ne (by omega) ..
  | @emplaced i modelId e order ns hi hb hn =>
    refine ⟨name, hsame, h.congr rfl ?_ rfl (by simp [Pc.target]) fun _ => rfl⟩
    intro id f hf
    dsimp only at hf
    by_cases hid : id = modelId
    · right
      rw [hid, AList.lookup_insert] at hf
      cases hf
      rw [hi, hid]
      rfl
    · left
      rwa [AList.lookup_insert_ne hid] at hf
  | @routed i req e order ns hi hs hl =>
    refine ⟨name, hsame, h.congr rfl (fun _ _ => .inl) rfl ?_ fun _ => rfl⟩
    intro f modelId he
    cases he
    exact hl
  | forwarded hi hx => exact ⟨name, hsame, h.forward hi hx⟩
  | refused hi hb | stopNext hi hb hf =>
    exact ⟨name, hsame, h.congr rfl (fun _ _ => .inl) rfl (by simp [Pc.target]) issued_setCaller⟩
  | @found i modelId e order ns hi hl hb =>
    refine ⟨name, hsame, h.congr rfl ?_ rfl (by simp [Pc.target]) issued_setCaller⟩
    intro id f hf
    left
    dsimp only [InferenceRuntime.enter] at hf
    by_cases hid : id = modelId
    · rw [hid, AList.lookup_erase] at hf
      cases hf
    · rwa [AList.lookup_erase_ne hid] at hf
  | stopFirst hi hv hb =>
    refine ⟨name, hsame, h.congr rfl ?_ rfl (by simp [Pc.target]) issued_setCaller⟩
    intro id f hf
    cases hf
  | nothingToStop hi hv =>
    refine ⟨name, hsame, h.congr rfl ?_ rfl (by simp [Pc.target]) fun _ => rfl⟩
    intro id f hf
    cases hf
  | _ =>
    exact ⟨name, hsame, h.congr rfl (fun _ _ => .inl) rfl (by simp [Pc.target]) fun _ => rfl⟩

theorem of_reachable (hr : (system workerThreads).Reachable s) : ∃ name, Named name s := by
  apply hr.invariant
  · intro s hs
    rw [show s = InferenceRuntime.initial from hs]
    exact ⟨fun _ => "", .initial⟩
  · intro s a u hs ht
    obtain ⟨name, h⟩ := hs
    obtain ⟨name', -, h'⟩ := h.moves (moves_of_step ht)
    exact ⟨name', h'⟩

end Named

/-- Whatever models are registered and unregistered while requests come in, an executor is asked
for the one model under which the map has or had it, so that no batch mixes models, and no request
is passed to the backend twice. -/
theorem requests_routed (workerThreads : Nat) (s : State α)
    (hr : (system workerThreads).Reachable s) :
    ∃ name : Nat → String,
      (∀ modelId e, s.executors.lookup modelId = some e → name e = modelId) ∧
      (∀ e, ∀ t ∈ (s.execs e).issued, t.req.modelId = name e) ∧
      (∀ e, ∀ call ∈ (s.execs e).batchCalls, ∀ t ∈ call.tasks, t.req.modelId = name e) ∧
      ∀ e, (s.execs e).inferred.Nodup := by
  obtain ⟨name, h⟩ := Named.of_reachable hr
  have hexecs (e : Nat) :=
    ModelExecutor.InferredOnce.of_reachable ((Tracked.of_reachable hr).occupied.execs e).reachable
  refine ⟨name, ?_, ?_, ?_, ?_⟩
  · intro modelId e he
    exact (h.entries modelId e he).2
  · intro e t ht
    exact (h.issued e t ht).2
  · intro e call hc t ht
    have hknown := (hexecs e).known call hc t ht
    exact (h.issued e t (List.mem_of_getElem? hknown)).2
  · intro e
    exact (hexecs e).once

/-- A request for model `m`, from its registration to the return of `infer_batch`. -/
def inferOne : List (Action Nat) :=
  List.flatten [registerReady "m" 0,
    [.inferAsync 1 emptyRequest, .advance 1 [] 0, .advance 1 [] 7],
    List.replicate 9 (.exec 0 (.caller 1 false none)), [.advance 1 [] 0],
    List.replicate 12 (.exec 0 (.worker 0 false)), [.exec 0 (.inferBatch 0 [{ ok := true }] 3)]]

theorem requests_routed_inferOne :
    ∃ s, (system 1).run initial inferOne = some s ∧ (s.execs 0).inferred = [0] ∧
      ∃ name : Nat → String, name 0 = "m" ∧
        ∀ e, ∀ call ∈ (s.execs e).batchCalls, ∀ t ∈ call.tasks, t.req.modelId = name e := by
  have hrun : ((system 1).run initial inferOne).map (fun s =>
      ((s.execs 0).inferred, s.executors.lookup "m")) = some ([0], some 0) := by
    decide +kernel
  obtain ⟨s, hs, he⟩ := Option.map_eq_some_iff.mp hrun
  obtain ⟨hinferred, hlookup⟩ := Prod.mk.inj he
  obtain ⟨name, hmap, -, hbatch, -⟩ :=
    requests_routed 1 s (System.Reachable.run (.init rfl) hs)
  exact ⟨s, hs, hinferred, name, hmap "m" 0 hlookup, hbatch⟩

end Jellybean.Inference.InferenceRuntime
