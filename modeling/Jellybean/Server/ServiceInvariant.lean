import Jellybean.Server.ConversationLockstep
import Jellybean.Server.Service

namespace Jellybean.Inference.InferenceRuntime

open Model

variable {α : Type*} {s u : State α} {workerThreads : Nat}

/-- The thread that takes the step, outside the executors. -/
def Action.caller : Action α → Option Nat
  | .registerModel i _ _ | .unregisterModel i _ | .inferAsync i _ | .shutdown i | .advance i _ _ =>
    some i
  | .exec _ _ => none

theorem threads_of_moves {a : Action α} (hm : Moves workerThreads s a u) {j : Nat}
    (hj : a.caller ≠ some j) : u.threads j = s.threads j := by
  cases hm with
  | exec | rejected => rfl
  | _ => exact Function.update_of_ne (fun h => hj (congrArg some h.symm)) ..

/-- The thread is in a call of `infer_async` with this request. -/
inductive Pc.Asks (req : InferenceRequest α) : Pc α → Prop
  | find : Asks req (.find req)
  | forwarding {e : Nat} : Asks req (.forwarding e req)
  | inferring {e : Nat} : Asks req (.inferring e)

/-- The two responses that `infer_async` makes itself. -/
def RuntimeError (req : InferenceRequest α) (v : InferenceResponse) : Prop :=
  v = { error := "runtime stopped" } ∨
    v = { error := "model not registered in runtime: " ++ req.modelId }

theorem findExecutor_cases (s : State α) (i : Nat) (req : InferenceRequest α) :
    (∃ v, RuntimeError req v ∧ findExecutor s i req = { s with
      threads := Function.update s.threads i .idle
      replies := s.replies ++ [v] }) ∨
    ∃ e, s.executors.lookup req.modelId = some e ∧
      findExecutor s i req = setThread s i (.forwarding e req) := by
  unfold findExecutor
  split
  · exact .inl ⟨_, .inl rfl, rfl⟩
  · split
    · next e hl => exact .inr ⟨e, hl, rfl⟩
    · exact .inl ⟨_, .inr rfl, rfl⟩

theorem issued_inferAsync {cfg : ModelExecutor.Config} {x y : ModelExecutor.State α} {i ns : Nat}
    {req : InferenceRequest α} (h : ModelExecutor.step cfg x (.inferAsync i req ns) = some y) :
    ∃ t : ModelExecutor.Task α, t.req = req ∧ y.issued = x.issued ++ [t] := by
  cases ModelExecutor.moves_of_step h with
  | inferAsync => exact ⟨_, rfl, rfl⟩

/-- Batches go to the backend in steps of their executor. -/
theorem ExecTurn.batchCalls {a : Action α} {e : Nat} (h : ExecTurn s a u e) :
    (u.execs e).batchCalls = (s.execs e).batchCalls ∨ (u.execs e).batchCalls = [] ∨
      ∃ w resps executionNs, a = .exec e (.inferBatch w resps executionNs) := by
  cases h with
  | same hx => exact .inl (congrArg _ hx)
  | turn b hx hc hb =>
    have hm := ModelExecutor.moves_of_step hx
    obtain heq | ⟨w, batch, waits, resps, executionNs, rfl, -, -⟩ :=
      ModelExecutor.batchCalls_moves hm
    · exact .inl heq
    · exact .inr (.inr ⟨w, resps, executionNs, hb rfl⟩)
  | made he i ready hx =>
    rw [hx]
    exact .inr (.inl rfl)

/-- The executors stay backed by LibTorch as long as every batch is computed by it. -/
theorem ExecTurn.torchBacked {a : Action α} {e : Nat} (h : ExecTurn s a u e)
    (hs : (ModelExecutor.system (s.configs e)).ReachableUnder ModelExecutor.TorchBacked (s.execs e))
    (ha : ∀ b, a = .exec e b → ModelExecutor.TorchBacked (s.execs e) b) :
    (ModelExecutor.system (u.configs e)).ReachableUnder ModelExecutor.TorchBacked (u.execs e) := by
  cases h with
  | same hx hc =>
    rw [hx, hc]
    exact hs
  | turn b hx hc hb =>
    rw [hc]
    refine .step hs ?_ hx
    cases hi : b.isInternal with
    | true => exact ha b (hb hi)
    | false =>
      cases b with
      | inferBatch => cases hi
      | _ => trivial
  | made he i ready hx =>
    rw [hx]
    exact .step (a := .callStart i) (.init ⟨ready, rfl⟩) trivial rfl

end Jellybean.Inference.InferenceRuntime

namespace Jellybean.Server.Service

open Inference Model
open InferenceRuntime (RuntimeError Pc.Asks setThread enter)

variable {α ι : Type*} {s u : State α ι}

/-! The output buffers. -/

theorem written_cases (tasks : List (ModelExecutor.Task α)) (results : List (Result α))
    (buffers : Nat → List α) (p : Nat) : written tasks results buffers p = buffers p ∨
      ∃ (j : Nat) (t : ModelExecutor.Task α) (r : Result α),
        tasks[j]? = some t ∧ results[j]? = some r ∧ t.promise = p ∧
          written tasks results buffers p = r.outputBuffer := by
  induction tasks generalizing results buffers with
  | nil => exact .inl rfl
  | cons t tasks ih =>
    cases results with
    | nil => exact .inl rfl
    | cons r results =>
      change written tasks results (Function.update buffers t.promise r.outputBuffer) p = _ ∨ _
      obtain heq | ⟨j, t', r', ht, hr, hp, heq⟩ :=
        ih results (Function.update buffers t.promise r.outputBuffer)
      · rw [Function.update_apply] at heq
        split_ifs at heq with hp
        · exact .inr ⟨0, t, r, rfl, rfl, hp.symm, heq⟩
        · exact .inl heq
      · exact .inr ⟨j + 1, t', r', ht, hr, hp, heq⟩

theorem written_of_notMem {tasks : List (ModelExecutor.Task α)} {results : List (Result α)}
    {buffers : Nat → List α} {p : Nat} (h : p ∉ tasks.map ModelExecutor.Task.promise) :
    written tasks results buffers p = buffers p := by
  obtain heq | ⟨j, t, r, ht, -, hp, -⟩ := written_cases tasks results buffers p
  · exact heq
  · exact absurd (List.mem_map.mpr ⟨t, List.mem_of_getElem? ht, hp⟩) h

/-- Every request of a batch gets the result at its index. -/
theorem written_getElem {tasks : List (ModelExecutor.Task α)} {results : List (Result α)}
    {buffers : Nat → List α} (hn : (tasks.map ModelExecutor.Task.promise).Nodup) {j : Nat}
    {t : ModelExecutor.Task α} {r : Result α} (ht : tasks[j]? = some t)
    (hr : results[j]? = some r) : written tasks results buffers t.promise = r.outputBuffer := by
  induction tasks generalizing results buffers j with
  | nil => cases ht
  | cons t' tasks ih =>
    rw [List.map_cons, List.nodup_cons] at hn
    cases results with
    | nil => cases hr
    | cons r' results =>
      change written tasks results (Function.update buffers t'.promise r'.outputBuffer) _ = _
      cases j with
      | zero =>
        cases ht
        cases hr
        rw [written_of_notMem hn.1, Function.update_self]
      | succ j => exact ih hn.2 ht hr

/-- The output buffers of requests keep their lengths. -/
def KeepsLengths (s u : State α ι) : Prop :=
  ∀ e p t, (s.runtime.execs e).issued[p]? = some t →
    (s.buffers e p).length = t.req.outputBuffer.length →
      (u.buffers e p).length = t.req.outputBuffer.length

theorem keepsLengths_of_eq (h : u.buffers = s.buffers) : KeepsLengths s u := by
  intro e p t _ hl
  rw [h]
  exact hl

/-- A new promise has no old request. -/
theorem keepsLengths_asked {e : Nat} {buffer : List α}
    (h : u.buffers = Function.update s.buffers e (Function.update (s.buffers e)
      (s.runtime.execs e).issued.length buffer)) : KeepsLengths s u := by
  intro f p t ht hl
  rw [h, Function.update_apply]
  split_ifs with hf
  · obtain ⟨hlt, -⟩ := List.getElem?_eq_some_iff.mp ht
    rw [hf] at hlt hl
    rw [Function.update_of_ne hlt.ne]
    exact hl
  · exact hl

theorem keepsLengths_inferBatch {e : Nat} {batch : List (ModelExecutor.Task α)}
    {results : List (Result α)}
    (hknown : ∀ t ∈ batch, ModelExecutor.Known (s.runtime.execs e) t)
    (hlen : List.Forall₂ (fun req r => r.outputBuffer.length = req.outputBuffer.length)
      (batch.map ModelExecutor.Task.req) results)
    (h : u.buffers = Function.update s.buffers e (written batch results (s.buffers e))) :
    KeepsLengths s u := by
  intro f p t ht hl
  rw [h, Function.update_apply]
  split_ifs with hf
  · rw [hf] at ht hl
    obtain heq | ⟨j, t', r, ht', hr, rfl, heq⟩ :=
      written_cases batch results (s.buffers e) p
    · rw [heq]
      exact hl
    · have hsame : t' = t := Option.some.inj ((hknown t' (List.mem_of_getElem? ht')).symm.trans ht)
      rw [List.forall₂_map_left_iff] at hlen
      obtain ⟨hj, rfl⟩ := List.getElem?_eq_some_iff.mp ht'
      obtain ⟨hk, rfl⟩ := List.getElem?_eq_some_iff.mp hr
      rw [heq, ← hsame]
      exact hlen.get hj hk
  · exact hl

/-- The future is for this request, whose output buffer has its length. -/
def Promised (s : State α ι) (req : InferenceRequest α) : Future → Prop
  | .ready v => RuntimeError req v
  | .promise e p => e < s.runtime.created ∧
    (∃ t, (s.runtime.execs e).issued[p]? = some t ∧ t.req = req) ∧
      (s.buffers e p).length = req.outputBuffer.length

theorem known_of_inferring {workerThreads e w : Nat} {x : InferenceRuntime.State α}
    (hr : (InferenceRuntime.system workerThreads).Reachable x)
    {batch : List (ModelExecutor.Task α)} {waits : List Nat}
    (hw : (x.execs e).workers w = .inferring batch waits) :
    ∀ t ∈ batch, ModelExecutor.Known (x.execs e) t := by
  have hexec := ((InferenceRuntime.Tracked.of_reachable hr).occupied.execs e).reachable
  have hknows := (ModelExecutor.Provenance.of_reachable hexec).workers w
  rw [hw] at hknows
  intro t ht
  exact hknows.known ht

namespace Promised

theorem congr {req : InferenceRequest α} {f : Future} (h : Promised s req f)
    (hr : u.runtime = s.runtime) (hb : u.buffers = s.buffers) : Promised u req f := by
  cases f with
  | ready v => exact h
  | promise e p =>
    simp only [Promised, hr, hb]
    exact h

theorem step {req : InferenceRequest α} {f : Future} {a : InferenceRuntime.Action α}
    {workerThreads : Nat} (h : Promised s req f)
    (hx : InferenceRuntime.step workerThreads s.runtime a = some u.runtime)
    (hk : KeepsLengths s u) : Promised u req f := by
  cases f with
  | ready v => exact h
  | promise e p =>
    obtain ⟨he, ⟨t, ht, rfl⟩, hl⟩ := h
    have hm := InferenceRuntime.moves_of_step hx
    refine ⟨he.trans_le (InferenceRuntime.created_of_moves hm), ⟨t, ?_, rfl⟩, hk e p t ht hl⟩
    obtain ⟨hp, rfl⟩ := List.getElem?_eq_some_iff.mp ht
    exact List.prefix_iff_getElem?.mp ((InferenceRuntime.execTurn_of_moves hm e).issued he) p hp

end Promised

/-! Sessions and runtime. -/

variable {S : Setting α ι}

/-- The sessions and the runtime agree on which request is under way. -/
structure Coupled (S : Setting α ι) (s : State α ι) : Prop where
  idle : s.calling = none → s.runtime.threads reactorThread = .idle
  calling : ∀ i, s.calling = some i → ∃ r, (s.clients i).session = .inferring r ∧
    (s.runtime.threads reactorThread).Asks (S.build r)
  futures : ∀ i f, s.futures i = some f → ∃ r, (s.clients i).session = .inferring r ∧
    Promised s (S.build r) f

/-- Apart from its response, a session that waits for one stays where it is. -/
theorem session_converse {i : ι} {a : Conversation.Action S.build} {c : Conversation.State α}
    {r : Request} (ha : responds a = false)
    (hc : Conversation.step (S.bytes i) (s.clients i) a = some c)
    (hs : (s.clients i).session = .inferring r) : c.session = .inferring r := by
  cases a with
  | send k =>
    obtain ⟨left, unsent, -, -, -, rfl⟩ := Conversation.send_cases hc
    exact hs
  | deliver k =>
    obtain ⟨-, -, rfl⟩ := Conversation.deliver_cases hc
    exact hs
  | read =>
    obtain ⟨pc, hpc, -⟩ := Conversation.read_cases hc
    rw [hs] at hpc
    cases hpc
  | respond answer => cases ha
  | write k =>
    obtain ⟨w, ws, hw, -⟩ := Conversation.write_cases hc
    rw [hs] at hw
    cases hw
  | refuse =>
    rw [Conversation.step, hs] at hc
    cases hc
  | receive =>
    obtain ⟨left, reply, rest, -, -, rfl⟩ := Conversation.receive_cases hc
    exact hs

namespace Coupled

theorem initial : Coupled S (Service.initial S) := by
  refine ⟨fun _ => rfl, ?_, ?_⟩
  · intro i hi
    cases hi
  · intro i f hf
    cases hf

/-- Steps outside of the calls of `infer_async`. -/
theorem keep (h : Coupled S s)
    (hs : ∀ i r, (s.clients i).session = .inferring r → (u.clients i).session = .inferring r)
    (hi : u.calling = s.calling)
    (ht : u.runtime.threads reactorThread = s.runtime.threads reactorThread)
    (hf : u.futures = s.futures) (hp : ∀ req f, Promised s req f → Promised u req f) :
    Coupled S u := by
  refine ⟨?_, ?_, ?_⟩
  · rw [hi, ht]
    exact h.idle
  · intro i hcalling
    rw [hi] at hcalling
    obtain ⟨r, hr, hasks⟩ := h.calling i hcalling
    exact ⟨r, hs i r hr, ht ▸ hasks⟩
  · intro i f hfut
    rw [hf] at hfut
    obtain ⟨r, hr, hpr⟩ := h.futures i f hfut
    exact ⟨r, hs i r hr, hp _ f hpr⟩

/-- Steps of a call of `infer_async`. -/
theorem call (h : Coupled S s) (hs : u.clients = s.clients)
    (hn : u.calling = none → u.runtime.threads reactorThread = .idle)
    (hi : ∀ i, u.calling = some i → ∃ r, (s.clients i).session = .inferring r ∧
      (u.runtime.threads reactorThread).Asks (S.build r))
    (hf : ∀ i f, u.futures i = some f → s.futures i = some f ∨
      ∃ r, (s.clients i).session = .inferring r ∧ Promised u (S.build r) f)
    (hp : ∀ req f, Promised s req f → Promised u req f) : Coupled S u := by
  refine ⟨hn, ?_, ?_⟩
  · rw [hs]
    exact hi
  · intro i f hfut
    rw [hs]
    obtain hfut | hnew := hf i f hfut
    · obtain ⟨r, hr, hpr⟩ := h.futures i f hfut
      exact ⟨r, hr, hp _ f hpr⟩
    · exact hnew

end Coupled

variable [DecidableEq ι]

/-- Everything one action can do. -/
inductive Moves (S : Setting α ι) (s : State α ι) : Action S → State α ι → Prop
  | converse {i a c} (ha : responds a = false)
      (hc : Conversation.step (S.bytes i) (s.clients i) a = some c) :
      Moves S s (.converse i a) { s with clients := Function.update s.clients i c }
  | inferAsync {i r} (hn : s.calling = none) (hs : (s.clients i).session = .inferring r)
      (hx : InferenceRuntime.step S.workerThreads s.runtime
        (.inferAsync reactorThread (S.build r)) =
          some (setThread s.runtime reactorThread (.find (S.build r)))) :
      Moves S s (.inferAsync i)
        { s with
          runtime := setThread s.runtime reactorThread (.find (S.build r))
          calling := some i }
  | aside {a x} (ha : reserved a = false)
      (hx : InferenceRuntime.step S.workerThreads s.runtime a = some x)
      (ht : x.threads reactorThread = s.runtime.threads reactorThread) :
      Moves S s (.runtime a) { s with runtime := x }
  | replied {i r order ns v x} (hi : s.calling = some i)
      (hs : (s.clients i).session = .inferring r) (hv : RuntimeError (S.build r) v)
      (hx : InferenceRuntime.step S.workerThreads s.runtime (.advance reactorThread order ns) =
        some x) (ht : x.threads reactorThread = .idle) (hsame : x.execs = s.runtime.execs)
      (hcr : x.created = s.runtime.created) :
      Moves S s (.runtime (.advance reactorThread order ns))
        { s with
          runtime := x
          calling := none
          futures := Function.update s.futures i (some (.ready v)) }
  | routed {i r e order ns} (hi : s.calling = some i)
      (hs : (s.clients i).session = .inferring r)
      (hx : InferenceRuntime.step S.workerThreads s.runtime (.advance reactorThread order ns) =
        some (setThread s.runtime reactorThread (.forwarding e (S.build r)))) :
      Moves S s (.runtime (.advance reactorThread order ns))
        { s with runtime := setThread s.runtime reactorThread (.forwarding e (S.build r)) }
  | asked {i r e order ns y} (hi : s.calling = some i)
      (hs : (s.clients i).session = .inferring r)
      (ht : s.runtime.threads reactorThread = .forwarding e (S.build r))
      (hy : ModelExecutor.step (s.runtime.configs e) (s.runtime.execs e)
        (.inferAsync reactorThread (S.build r) ns) = some y)
      (hx : InferenceRuntime.step S.workerThreads s.runtime (.advance reactorThread order ns) =
        some (enter s.runtime reactorThread e y (.inferring e))) :
      Moves S s (.runtime (.advance reactorThread order ns))
        { s with
          runtime := enter s.runtime reactorThread e y (.inferring e)
          futures := Function.update s.futures i
            (some (.promise e (s.runtime.execs e).issued.length))
          buffers := Function.update s.buffers e (Function.update (s.buffers e)
            (s.runtime.execs e).issued.length (S.build r).outputBuffer) }
  | returned {i order ns} (hi : s.calling = some i)
      (hx : InferenceRuntime.step S.workerThreads s.runtime (.advance reactorThread order ns) =
        some (setThread s.runtime reactorThread .idle)) :
      Moves S s (.runtime (.advance reactorThread order ns))
        { s with runtime := setThread s.runtime reactorThread .idle, calling := none }
  | inferBatch {e w loaded torch latencyNs executionNs batch waits results x}
      (hw : (s.runtime.execs e).workers w = .inferring batch waits)
      (hr : TorchBackend.inferBatchRaising loaded torch (batch.map ModelExecutor.Task.req)
        latencyNs = some results)
      (hx : InferenceRuntime.step S.workerThreads s.runtime
        (.exec e (.inferBatch w (results.map Result.response) executionNs)) = some x) :
      Moves S s (.inferBatch e w loaded torch latencyNs executionNs)
        { s with
          runtime := x
          buffers := Function.update s.buffers e (written batch results (s.buffers e))
          runs := s.runs ++ [⟨batch, results, executionNs, ⟨loaded, torch, latencyNs, hr⟩⟩] }
  | respond {i answer r f} (hn : s.calling = none) (hs : (s.clients i).session = .inferring r)
      (hf : s.futures i = some f) (hv : f.value s.runtime = some (answer r).response)
      (hb : (answer r).outputBuf = S.floats (f.buffer s.buffers (S.build r))) :
      Moves S s (.respond i answer)
        { s with
          clients := Function.update s.clients i { s.clients i with
            session := .writing (answer r).exchange.sent.writes
            exchanges := (s.clients i).exchanges ++ [(answer r).exchange] }
          futures := Function.update s.futures i none }

theorem moves_of_inferAsync {i : ι} (h : inferAsync S s i = some u) :
    Moves S s (.inferAsync i) u := by
  unfold inferAsync at h
  split at h
  case h_1 r hn hs hf =>
    obtain ⟨x, hx, rfl⟩ := Option.map_eq_some_iff.mp h
    cases InferenceRuntime.moves_of_step hx with
    | callInfer => exact .inferAsync hn hs hx
  case h_2 => cases h

theorem moves_of_inferBatch {e w : Nat} {loaded : Bool}
    {torch : Except String (List (TorchBackend.Piece α))} {latencyNs : Nat → Nat}
    {executionNs : Nat} (h : inferBatch S s e w loaded torch latencyNs executionNs = some u) :
    Moves S s (.inferBatch e w loaded torch latencyNs executionNs) u := by
  unfold inferBatch at h
  split at h
  case h_1 batch waits hw =>
    split at h
    case h_1 results hr =>
      obtain ⟨x, hx, rfl⟩ := Option.map_eq_some_iff.mp h
      exact .inferBatch hw hr hx
    case h_2 => cases h
  case h_2 => cases h

theorem moves_of_respond {i : ι} {answer : (r : Request) → Conversation.Answer (S.build r)}
    (h : respond S s i answer = some u) : Moves S s (.respond i answer) u := by
  unfold respond at h
  split at h
  case h_1 r f hn hs hf =>
    obtain ⟨⟨hv, hb⟩, h⟩ := Option.ite_none_right_eq_some.mp h
    obtain ⟨c, hc, rfl⟩ := Option.map_eq_some_iff.mp h
    obtain ⟨r', hs', rfl⟩ := Conversation.respond_cases hc
    obtain rfl : r = r' := by
      rw [hs] at hs'
      exact Conversation.Session.inferring.inj hs'
    exact .respond hn hs hf hv hb
  case h_2 => cases h

theorem follow_find {i : ι} {req : InferenceRequest α} {x : InferenceRuntime.State α}
    (hs : s.runtime.threads reactorThread = .find req) (hx : x.threads reactorThread = .idle) :
    follow s i x = { s with
      runtime := x
      calling := none
      futures := Function.update s.futures i (x.replies.getLast?.map .ready) } := by
  simp only [follow, hs, hx]

theorem follow_routed {e : Nat} {req : InferenceRequest α} {j : ι}
    {x : InferenceRuntime.State α} (hs : s.runtime.threads reactorThread = .find req)
    (hx : x.threads reactorThread = .forwarding e req) :
    follow s j x = { s with runtime := x } := by
  simp only [follow, hs, hx]

theorem moves_of_follow {i : ι} {r : Request} {order : List Nat} {ns : Nat}
    {x : InferenceRuntime.State α} (hi : s.calling = some i)
    (hs : (s.clients i).session = .inferring r)
    (hasks : (s.runtime.threads reactorThread).Asks (S.build r))
    (hx : InferenceRuntime.step S.workerThreads s.runtime (.advance reactorThread order ns) =
      some x) :
    Moves S s (.runtime (.advance reactorThread order ns)) (follow s i x) := by
  generalize hpc : s.runtime.threads reactorThread = pc at hasks
  cases hasks with
  | find =>
    have hfound : InferenceRuntime.findExecutor s.runtime reactorThread (S.build r) = x := by
      simpa [InferenceRuntime.step, InferenceRuntime.advance, hpc] using hx
    obtain ⟨v, hv, heq⟩ | ⟨e, hl, heq⟩ :=
      InferenceRuntime.findExecutor_cases s.runtime reactorThread (S.build r)
    · have hidle : x.threads reactorThread = .idle := by
        simp only [← hfound, heq, Function.update_self]
      have hlast : x.replies.getLast? = some v := by
        rw [← hfound, heq]
        exact List.getLast?_concat
      rw [follow_find hpc hidle, hlast]
      exact .replied hi hs hv hx hidle (by rw [← hfound, heq]) (by rw [← hfound, heq])
    · have hforwarding : x.threads reactorThread = .forwarding e (S.build r) := by
        simp only [← hfound, heq, setThread, Function.update_self]
      rw [follow_routed hpc hforwarding]
      rw [heq] at hfound
      rw [← hfound] at hx ⊢
      exact .routed hi hs hx
  | @forwarding e =>
    obtain ⟨y, hy, rfl⟩ : ∃ y, ModelExecutor.step (s.runtime.configs e) (s.runtime.execs e)
        (.inferAsync reactorThread (S.build r) ns) = some y ∧
          enter s.runtime reactorThread e y (.inferring e) = x := by
      simp only [InferenceRuntime.step, InferenceRuntime.advance, hpc] at hx
      exact Option.map_eq_some_iff.mp hx
    simp only [follow, hpc]
    exact .asked hi hs hpc hy hx
  | @inferring e =>
    obtain rfl : setThread s.runtime reactorThread .idle = x := by
      simp only [InferenceRuntime.step, InferenceRuntime.advance, hpc] at hx
      exact Option.some.inj (Option.ite_none_right_eq_some.mp hx).2
    simp only [follow, hpc]
    exact .returned hi hx

theorem moves_of_runtimeStep (hc : Coupled S s) {a : InferenceRuntime.Action α}
    (h : runtimeStep S s a = some u) : Moves S s (.runtime a) u := by
  obtain ⟨ha, h⟩ := Option.ite_none_right_eq_some.mp h
  obtain ⟨x, hx, rfl⟩ := Option.map_eq_some_iff.mp h
  by_cases hcaller : a.caller = some reactorThread
  · cases a with
    | advance j order ns =>
      obtain rfl : j = reactorThread := Option.some.inj hcaller
      cases hi : s.calling with
      | none =>
        rw [InferenceRuntime.step, InferenceRuntime.advance, hc.idle hi] at hx
        cases hx
      | some i =>
        obtain ⟨r, hs, hasks⟩ := hc.calling i hi
        exact moves_of_follow hi hs hasks hx
    | exec => cases hcaller
    | registerModel j | unregisterModel j | inferAsync j | shutdown j =>
      obtain rfl : j = reactorThread := Option.some.inj hcaller
      cases ha
  · have ht := InferenceRuntime.threads_of_moves (InferenceRuntime.moves_of_step hx) hcaller
    split
    · exact absurd rfl hcaller
    · exact .aside ha hx ht

theorem moves_of_step (hc : Coupled S s) {a : Action S} (h : Service.step S s a = some u) :
    Moves S s a u := by
  cases a with
  | converse i a =>
    obtain ⟨⟨ha, -⟩, h⟩ := Option.ite_none_right_eq_some.mp h
    obtain ⟨c, hc, rfl⟩ := Option.map_eq_some_iff.mp h
    exact .converse ha hc
  | inferAsync i => exact moves_of_inferAsync h
  | runtime a => exact moves_of_runtimeStep hc h
  | inferBatch e w loaded torch latencyNs executionNs => exact moves_of_inferBatch h
  | respond i answer => exact moves_of_respond h

namespace Coupled

theorem moves (h : Coupled S s)
    (hr : (InferenceRuntime.system S.workerThreads).Reachable s.runtime) {a : Action S}
    (hm : Moves S s a u) : Coupled S u := by
  cases hm with
  | @converse i a c ha hc =>
    refine h.keep ?_ rfl rfl rfl fun _ _ hp => hp.congr rfl rfl
    intro j r hs
    dsimp only
    rw [Function.update_apply]
    split_ifs with hj
    · rw [hj] at hs
      exact session_converse ha hc hs
    · exact hs
  | @inferAsync i r hn hs hx =>
    refine h.call rfl ?_ ?_ (fun _ _ => .inl) fun _ _ hp => hp.step hx (keepsLengths_of_eq rfl)
    · intro hcalling
      cases hcalling
    · intro j hj
      obtain rfl : i = j := Option.some.inj hj
      refine ⟨r, hs, ?_⟩
      simp only [setThread, Function.update_self]
      exact .find
  | aside ha hx ht =>
    exact h.keep (fun _ _ hs => hs) rfl ht rfl fun _ _ hp => hp.step hx (keepsLengths_of_eq rfl)
  | @replied i r order ns v x hi hs hv hx ht hsame hcr =>
    refine h.call rfl (fun _ => ht) ?_ ?_ fun _ _ hp => hp.step hx (keepsLengths_of_eq rfl)
    · intro j hj
      cases hj
    · intro j f hf
      dsimp only at hf
      rw [Function.update_apply] at hf
      split_ifs at hf with hj
      · cases hf
        exact .inr ⟨r, hj ▸ hs, hv⟩
      · exact .inl hf
  | @routed i r e order ns hi hs hx =>
    refine h.call rfl ?_ ?_ (fun _ _ => .inl) fun _ _ hp => hp.step hx (keepsLengths_of_eq rfl)
    · intro hcalling
      rw [hi] at hcalling
      cases hcalling
    · intro j hj
      obtain rfl : i = j := Option.some.inj (hi.symm.trans hj)
      refine ⟨r, hs, ?_⟩
      simp only [setThread, Function.update_self]
      exact .forwarding
  | @asked i r e order ns y hi hs ht hy hx =>
    obtain ⟨name, hnamed⟩ := InferenceRuntime.Named.of_reachable hr
    obtain ⟨hlt, -⟩ := hnamed.targets reactorThread e (S.build r).modelId (by rw [ht]; rfl)
    obtain ⟨t, htreq, hissued⟩ := InferenceRuntime.issued_inferAsync hy
    refine h.call rfl ?_ ?_ ?_ fun _ _ hp => hp.step hx (keepsLengths_asked rfl)
    · intro hcalling
      rw [hi] at hcalling
      cases hcalling
    · intro j hj
      obtain rfl : i = j := Option.some.inj (hi.symm.trans hj)
      refine ⟨r, hs, ?_⟩
      simp only [enter, Function.update_self]
      exact .inferring
    · intro j f hf
      dsimp only at hf
      rw [Function.update_apply] at hf
      split_ifs at hf with hj
      · cases hf
        refine .inr ⟨r, hj ▸ hs, hlt, ⟨t, ?_, htreq⟩, ?_⟩
        · simp only [enter, Function.update_self, hissued, List.getElem?_concat_length]
        · simp only [Function.update_self]
      · exact .inl hf
  | @returned i order ns hi hx =>
    refine h.call rfl ?_ ?_ (fun _ _ => .inl) fun _ _ hp => hp.step hx (keepsLengths_of_eq rfl)
    · intro _
      simp only [setThread, Function.update_self]
    · intro j hj
      cases hj
  | @inferBatch e w loaded torch latencyNs executionNs batch waits results x hw hb hx =>
    have hlen := TorchBackend.length_outputBuffer_inferBatchRaising hb
    refine h.keep (fun _ _ hs => hs) rfl ?_ rfl fun _ _ hp =>
      hp.step hx (keepsLengths_inferBatch (known_of_inferring hr hw) hlen rfl)
    exact InferenceRuntime.threads_of_moves (InferenceRuntime.moves_of_step hx)
      (Option.some_ne_none _).symm
  | @respond i answer r f hn hs hf hv hb =>
    refine ⟨h.idle, ?_, ?_⟩
    · intro j hj
      rw [hn] at hj
      cases hj
    · intro j g hg
      dsimp only at hg ⊢
      rw [Function.update_apply] at hg
      split_ifs at hg with hj
      obtain ⟨r', hs', hp⟩ := h.futures j g hg
      rw [Function.update_of_ne hj]
      exact ⟨r', hs', hp.congr rfl rfl⟩

end Coupled

end Jellybean.Server.Service
