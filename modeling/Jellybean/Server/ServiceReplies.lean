import Jellybean.Server.ServiceInvariant

namespace Jellybean.Server.Service

open Inference Model
open InferenceRuntime (RuntimeError setThread enter)

variable {α ι : Type*} {S : Setting α ι} {s u : State α ι}

/-! What went to the backend. -/

/-- The call of the backend is recorded, and the buffers of its requests hold the results. -/
structure Logged (s : State α ι) (e : Nat) (call : ModelExecutor.BatchCall α) (run : Run α) :
    Prop where
  mem : run ∈ s.runs
  tasks : run.tasks = call.tasks
  resps : run.results.map Result.response = call.resps
  executionNs : run.executionNs = call.executionNs
  buffers : ∀ (j : Nat) (t : ModelExecutor.Task α) (r : Result α), run.tasks[j]? = some t →
    run.results[j]? = some r → s.buffers e t.promise = r.outputBuffer

theorem Logged.mono {e : Nat} {call : ModelExecutor.BatchCall α} {run : Run α}
    (h : Logged s e call run) (hr : s.runs ⊆ u.runs)
    (hb : ∀ t ∈ call.tasks, u.buffers e t.promise = s.buffers e t.promise) :
    Logged u e call run := by
  refine ⟨hr h.mem, h.tasks, h.resps, h.executionNs, ?_⟩
  intro j t r ht hr'
  rw [hb t (h.tasks ▸ List.mem_of_getElem? ht)]
  exact h.buffers j t r ht hr'

def Records (s : State α ι) : Prop :=
  ∀ e, ∀ call ∈ (s.runtime.execs e).batchCalls, ∃ run, Logged s e call run

/-- Steps that pass nothing to a backend. -/
theorem Records.keep {b : InferenceRuntime.Action α} {workerThreads : Nat} (h : Records s)
    (hx : InferenceRuntime.step workerThreads s.runtime b = some u.runtime)
    (hb : ∀ e w resps executionNs, b ≠ .exec e (.inferBatch w resps executionNs))
    (hr : s.runs ⊆ u.runs)
    (hbuf : ∀ e, ∀ call ∈ (s.runtime.execs e).batchCalls, ∀ t ∈ call.tasks,
      u.buffers e t.promise = s.buffers e t.promise) : Records u := by
  intro e call hc
  obtain heq | heq | ⟨w, resps, executionNs, heq⟩ :=
    (InferenceRuntime.execTurn_of_moves (InferenceRuntime.moves_of_step hx) e).batchCalls
  · rw [heq] at hc
    obtain ⟨run, hl⟩ := h e call hc
    exact ⟨run, hl.mono hr (hbuf e call hc)⟩
  · rw [heq] at hc
    cases hc
  · exact absurd heq (hb e w resps executionNs)

/-- Steps of the sessions. -/
theorem Records.congr (h : Records s) (hx : u.runtime = s.runtime) (hr : u.runs = s.runs)
    (hb : u.buffers = s.buffers) : Records u := by
  intro e call hc
  rw [hx] at hc
  obtain ⟨run, hl⟩ := h e call hc
  refine ⟨run, hl.mono (hr ▸ List.Subset.refl _) ?_⟩
  intro t _
  rw [hb]

theorem Records.inferBatch (h : Records s) {e w executionNs : Nat}
    {batch : List (ModelExecutor.Task α)} {waits : List Nat} (run : Run α)
    {x : InferenceRuntime.State α}
    (hr : (InferenceRuntime.system S.workerThreads).Reachable s.runtime)
    (hw : (s.runtime.execs e).workers w = .inferring batch waits)
    (hx : InferenceRuntime.step S.workerThreads s.runtime
      (.exec e (.inferBatch w (run.results.map Result.response) executionNs)) = some x)
    (htasks : run.tasks = batch) (hns : run.executionNs = executionNs) :
    Records { s with
      runtime := x
      buffers := Function.update s.buffers e (written batch run.results (s.buffers e))
      runs := s.runs ++ [run] } := by
  have hexec := ((InferenceRuntime.Tracked.of_reachable hr).occupied.execs e).reachable
  have honce := ModelExecutor.InferredOnce.of_reachable hexec
  have hbatch := (ModelExecutor.InferredOnce.batch_nodup
    (ModelExecutor.sound_of_reachable hexec) (w := w)).1
  rw [hw] at hbatch
  intro f call hc
  cases InferenceRuntime.moves_of_step hx with
  | @exec _ _ y he hi hy =>
    dsimp only at hc
    rw [Function.update_apply] at hc
    split_ifs at hc with hf
    · subst hf
      have hold (call) (hc : call ∈ (s.runtime.execs f).batchCalls) :
          ∃ run', Logged { s with
            runtime := { s.runtime with execs := Function.update s.runtime.execs f y }
            buffers := Function.update s.buffers f (written batch run.results (s.buffers f))
            runs := s.runs ++ [run] } f call run' := by
        obtain ⟨run', hl⟩ := h f call hc
        refine ⟨run', hl.mono (List.subset_append_left _ _) ?_⟩
        intro t ht
        simp only [Function.update_self]
        apply written_of_notMem
        intro hmem
        obtain ⟨t', ht', hp⟩ := List.mem_map.mp hmem
        apply honce.waiting w t' (by rw [hw]; exact ht')
        rw [hp]
        exact List.mem_flatMap.mpr ⟨call, hc, List.mem_map.mpr ⟨t, ht, rfl⟩⟩
      obtain heq | ⟨w', batch', waits', resps, ns, ha, hw', heq⟩ :=
        ModelExecutor.batchCalls_moves (ModelExecutor.moves_of_step hy)
      · rw [heq] at hc
        exact hold call hc
      · cases ha
        obtain ⟨rfl, rfl⟩ := ModelExecutor.WorkerPc.inferring.inj (hw.symm.trans hw')
        rw [heq] at hc
        rcases List.mem_append.mp hc with hc | hc
        · exact hold call hc
        · rw [List.mem_singleton.mp hc]
          refine ⟨run, by simp, htasks, rfl, hns, ?_⟩
          intro j t r ht hres
          simp only [Function.update_self]
          rw [htasks] at ht
          exact written_getElem hbatch ht hres
    · obtain ⟨run', hl⟩ := h f call hc
      refine ⟨run', hl.mono (List.subset_append_left _ _) ?_⟩
      intro t ht
      simp only [Function.update_of_ne hf]

theorem exchanges_converse {bytes : List UInt8} {c d : Conversation.State α}
    {b : Conversation.Action S.build} (hb : responds b = false)
    (hd : Conversation.step bytes c b = some d) : d.exchanges = c.exchanges := by
  cases b with
  | send k =>
    obtain ⟨left, unsent, -, -, -, rfl⟩ := Conversation.send_cases hd
    rfl
  | deliver k =>
    obtain ⟨-, -, rfl⟩ := Conversation.deliver_cases hd
    rfl
  | read =>
    obtain ⟨pc, -, -, -, ⟨-, rfl⟩ | ⟨-, rfl⟩⟩ := Conversation.read_cases hd
    · rfl
    · rfl
  | respond answer => cases hb
  | write k =>
    obtain ⟨w, ws, -, -, -, rfl⟩ := Conversation.write_cases hd
    rfl
  | refuse =>
    simp only [Conversation.step] at hd
    split at hd
    · cases hd
      rfl
    · cases hd
  | receive =>
    obtain ⟨left, reply, rest, -, -, rfl⟩ := Conversation.receive_cases hd
    rfl

/-- Everything that holds of the runtime and its sessions in every run. -/
structure Sound (S : Setting α ι) (s : State α ι) : Prop where
  coupled : Coupled S s
  runtime : (InferenceRuntime.system S.workerThreads).Reachable s.runtime
  backed : ∀ e, (ModelExecutor.system (s.runtime.configs e)).ReachableUnder
    ModelExecutor.TorchBacked (s.runtime.execs e)
  records : Records s

theorem Sound.initial : Sound S (Service.initial S) where
  coupled := .initial
  runtime := System.ReachableUnder.init rfl
  backed := fun _ => .init ⟨false, rfl⟩
  records := by
    intro e call hc
    cases hc

/-! What a client gets. -/

/-- What the exchange says came from this future. -/
structure Came (S : Setting α ι) (s : State α ι) (i : ι) (x : Exchange α) (r : Request)
    (f : Future) : Prop where
  session : (s.clients i).session = .inferring r
  future : s.futures i = some f
  req : x.req = S.build r
  response : f.value s.runtime = some x.response
  outputBuf : x.outputBuf = S.floats (f.buffer s.buffers (S.build r))

/-- The exchange is one without a backend, or it carries the result at the index of its request
in a batch, all of whose requests are for its model. -/
inductive Answered (S : Setting α ι) (s : State α ι) (x : Exchange α) : Prop
  | turnedAway (hx : RuntimeError x.req x.response ∨
      ∃ t : ModelExecutor.Task α, t.req = x.req ∧ ModelExecutor.FixedError t x.response)
  | computed (run : Run α) (hrun : run ∈ s.runs) (j wait : Nat) (t : ModelExecutor.Task α)
      (r : Result α) (ht : run.tasks[j]? = some t) (hreq : t.req = x.req)
      (hr : run.results[j]? = some r)
      (hx : x.response = ModelExecutor.instrument r.response t.routingNs wait run.executionNs)
      (hbuf : x.outputBuf = S.floats r.outputBuffer)
      (hmodel : ∀ t' ∈ run.tasks, t'.req.modelId = x.req.modelId)

theorem Answered.mono {x : Exchange α} (h : Answered S s x) (hr : s.runs ⊆ u.runs) :
    Answered S u x := by
  cases h with
  | turnedAway hx => exact .turnedAway hx
  | computed run hrun j wait t r ht hreq hres hx hbuf hmodel =>
    exact .computed run (hr hrun) j wait t r ht hreq hres hx hbuf hmodel

theorem Sound.answered (h : Sound S s) {i : ι} {x : Exchange α} {r : Request} {f : Future}
    (hx : Came S s i x r f) : Answered S s x := by
  obtain ⟨r', hs, hp⟩ := h.coupled.futures i f hx.future
  obtain rfl : r = r' := Conversation.Session.inferring.inj (hx.session.symm.trans hs)
  have hvalue := hx.response
  cases f with
  | ready v =>
    obtain rfl : v = x.response := Option.some.inj hvalue
    rw [← hx.req] at hp
    exact .turnedAway (.inl hp)
  | promise e p =>
    obtain ⟨-, ⟨t, ht, htreq⟩, -⟩ := hp
    have hexec := (h.backed e).reachable
    obtain ⟨t', ht', hpromise, hanswer⟩ :=
      (ModelExecutor.Provenance.of_reachable hexec).values p x.response (List.mem_of_head? hvalue)
    obtain rfl : t = t' := Option.some.inj (ht.symm.trans ht')
    have hreq : t.req = x.req := htreq.trans hx.req.symm
    obtain hfixed | ⟨call, hcall, j, resp, wait, htask, hresp, -, heq⟩ := hanswer
    · exact .turnedAway (.inr ⟨t, hreq, hfixed⟩)
    · obtain ⟨run, hl⟩ := h.records e call hcall
      rw [← hl.resps, List.getElem?_map, Option.map_eq_some_iff] at hresp
      obtain ⟨res, hres, rfl⟩ := hresp
      rw [← hl.tasks] at htask
      rw [← hl.executionNs] at heq
      refine .computed run hl.mem j wait t res htask hreq hres heq ?_ ?_
      · rw [hx.outputBuf, ← hl.buffers j t res htask hres, hpromise]
        rfl
      · obtain ⟨name, hnamed⟩ := InferenceRuntime.Named.of_reachable h.runtime
        intro t' hmem
        rw [hl.tasks] at hmem
        have hknown := (ModelExecutor.InferredOnce.of_reachable hexec).known call hcall t' hmem
        obtain ⟨-, hname'⟩ := hnamed.issued e t' (List.mem_of_getElem? hknown)
        obtain ⟨-, hname⟩ := hnamed.issued e t (List.mem_of_getElem? ht)
        rw [hname', ← hname, hreq]

/-- What the response of a future makes of the exchange. -/
theorem Sound.answer (h : Sound S s) {i : ι} {r : Request} {f : Future} {v : InferenceResponse}
    (hs : (s.clients i).session = .inferring r) (hf : s.futures i = some f)
    (hv : f.value s.runtime = some v) : ∃ x : Conversation.Answer (S.build r),
      x.response = v ∧ x.outputBuf = S.floats (f.buffer s.buffers (S.build r)) := by
  obtain ⟨r', hs', hp⟩ := h.coupled.futures i f hf
  obtain rfl : r = r' := Conversation.Session.inferring.inj (hs.symm.trans hs')
  cases f with
  | ready v' =>
    obtain rfl : v' = v := Option.some.inj hv
    have hresponds : Responds (S.build r) v' := by
      obtain rfl | rfl := hp
      · exact .runtimeStopped
      · exact .notRegistered
    exact ⟨⟨v', _, hresponds, S.length_floats _⟩, rfl, rfl⟩
  | promise e p =>
    obtain ⟨-, ⟨t, ht, hreq⟩, hl⟩ := hp
    have hlen : (S.floats (s.buffers e p)).length = 4 * (S.build r).outputBuffer.length := by
      rw [S.length_floats, hl]
    exact ⟨⟨v, _, .executor (h.backed e) ht hreq (List.mem_of_head? hv), hlen⟩, rfl, rfl⟩

/-! Whole runs. -/

variable [DecidableEq ι] {a : Action S}

/-! Each part of the state takes its own steps. -/

theorem runtime_of_moves (hm : Moves S s a u) : u.runtime = s.runtime ∨
    ∃ b, InferenceRuntime.step S.workerThreads s.runtime b = some u.runtime ∧
      ∀ e c, b = .exec e c → ModelExecutor.TorchBacked (s.runtime.execs e) c := by
  cases hm with
  | converse | respond => exact .inl rfl
  | @aside b x ha hx ht =>
    refine .inr ⟨b, hx, ?_⟩
    intro e c hb
    cases c with
    | inferBatch =>
      rw [hb] at ha
      cases ha
    | _ => trivial
  | @inferBatch e w loaded torch latencyNs executionNs batch waits results x hw hb hx =>
    refine .inr ⟨_, hx, ?_⟩
    intro f c hc
    cases hc
    intro batch' waits' hw'
    obtain ⟨rfl, rfl⟩ := ModelExecutor.WorkerPc.inferring.inj (hw.symm.trans hw')
    exact ⟨loaded, torch, latencyNs, results, hb, rfl⟩
  | inferAsync hn hs hx | replied hi hs hv hx | routed hi hs hx | asked hi hs ht hy hx
  | returned hi hx => exact .inr ⟨_, hx, nofun⟩

theorem client_of_moves (hm : Moves S s a u) (i : ι) : u.clients i = s.clients i ∨
    ∃ b : Conversation.Action S.build,
      Conversation.step (S.bytes i) (s.clients i) b = some (u.clients i) ∧
        (Undisturbed S i s a → Conversation.Undisturbed (s.clients i) b) := by
  cases hm with
  | @converse j b c ha hc =>
    by_cases hj : i = j
    · rw [hj]
      refine .inr ⟨b, ?_, fun hu => hu rfl⟩
      simp only [Function.update_self]
      exact hc
    · exact .inl (Function.update_of_ne hj ..)
  | @respond j answer r f hn hs hf hv hb =>
    by_cases hj : i = j
    · rw [hj]
      refine .inr ⟨.respond answer, ?_, fun _ => trivial⟩
      simp only [Conversation.step, hs, Function.update_self]
    · exact .inl (Function.update_of_ne hj ..)
  | _ => exact .inl rfl

theorem exchanges_of_moves (hm : Moves S s a u) (i : ι) {x : Exchange α}
    (hx : x ∈ (u.clients i).exchanges) :
    x ∈ (s.clients i).exchanges ∨ ∃ r f, Came S s i x r f := by
  cases hm with
  | @converse j b c hb hc =>
    left
    dsimp only at hx
    rw [Function.update_apply] at hx
    split_ifs at hx with hj
    · rw [hj, ← exchanges_converse hb hc]
      exact hx
    · exact hx
  | @respond j answer r f hn hs hf hv hb =>
    dsimp only at hx
    rw [Function.update_apply] at hx
    split_ifs at hx with hj
    · rw [hj]
      rcases List.mem_append.mp hx with hx | hx
      · exact .inl hx
      · rw [List.mem_singleton.mp hx]
        exact .inr ⟨r, f, hs, hf, rfl, hv, hb⟩
    · exact .inl hx
  | _ => exact .inl hx

theorem runs_of_moves (hm : Moves S s a u) : s.runs ⊆ u.runs := by
  cases hm with
  | inferBatch => exact List.subset_append_left _ _
  | _ => exact List.Subset.refl _

theorem Records.moves (h : Records s)
    (hr : (InferenceRuntime.system S.workerThreads).Reachable s.runtime) (hm : Moves S s a u) :
    Records u := by
  cases hm with
  | converse | respond => exact h.congr rfl rfl rfl
  | @aside b x hb hx ht =>
    refine h.keep hx ?_ (List.Subset.refl _) fun _ _ _ _ _ => rfl
    intro e w resps executionNs heq
    rw [heq] at hb
    cases hb
  | @asked i r e order ns y hi hs ht hy hx =>
    refine h.keep hx nofun (List.Subset.refl _) ?_
    intro f call hc t htask
    have hexec := ((InferenceRuntime.Tracked.of_reachable hr).occupied.execs f).reachable
    have hlt := ((ModelExecutor.InferredOnce.of_reachable hexec).known call hc t htask).lt
    dsimp only
    rw [Function.update_apply]
    split_ifs with hf
    · rw [hf] at hlt
      rw [Function.update_of_ne hlt.ne, hf]
    · rfl
  | @inferBatch e w loaded torch latencyNs executionNs batch waits results x hw hb hx =>
    exact h.inferBatch ⟨batch, results, executionNs, loaded, torch, latencyNs, hb⟩ hr hw hx rfl rfl
  | inferAsync hn hs hx | replied hi hs hv hx | routed hi hs hx | returned hi hx =>
    exact h.keep hx nofun (List.Subset.refl _) fun _ _ _ _ _ => rfl

theorem Sound.moves (h : Sound S s) (hm : Moves S s a u) : Sound S u where
  coupled := h.coupled.moves h.runtime hm
  runtime := by
    obtain heq | ⟨b, hx, -⟩ := runtime_of_moves hm
    · rw [heq]
      exact h.runtime
    · exact h.runtime.next hx
  backed := by
    intro e
    obtain heq | ⟨b, hx, hb⟩ := runtime_of_moves hm
    · rw [heq]
      exact h.backed e
    · have hturn := InferenceRuntime.execTurn_of_moves (InferenceRuntime.moves_of_step hx) e
      exact hturn.torchBacked (h.backed e) fun c hc => hb e c hc
  records := h.records.moves h.runtime hm

theorem Sound.of_reachable {C : State α ι → Action S → Prop}
    (hr : (system S).ReachableUnder C s) : Sound S s := by
  apply hr.invariant
  · intro s hs
    rw [show s = Service.initial S from hs]
    exact .initial
  · intro s a u h _ ht
    exact h.moves (moves_of_step h.coupled ht)

/-- Nothing but its response keeps a session waiting. -/
theorem Sound.respond_isSome (h : Sound S s) {i : ι} {f : Future} {v : InferenceResponse}
    (hn : s.calling = none) (hf : s.futures i = some f) (hv : f.value s.runtime = some v) :
    ∃ answer, (Service.step S s (.respond i answer)).isSome = true := by
  obtain ⟨r, hs, -⟩ := h.coupled.futures i f hf
  obtain ⟨x, hx, hbuf⟩ := h.answer hs hf hv
  have hanswer : ∀ r', ∃ x' : Conversation.Answer (S.build r'), r' = r →
      x'.response = v ∧ x'.outputBuf = S.floats (f.buffer s.buffers (S.build r)) := by
    intro r'
    by_cases hr : r' = r
    · subst hr
      exact ⟨x, fun _ => ⟨hx, hbuf⟩⟩
    · exact ⟨Conversation.turnAway _, fun he => absurd he hr⟩
  choose answer hanswer using hanswer
  obtain ⟨hv', hbuf'⟩ := hanswer r rfl
  refine ⟨answer, ?_⟩
  simp [Service.step, respond, hn, hs, hf, hv, hv', hbuf', Conversation.step]

theorem answered_of_reachable {C : State α ι → Action S → Prop}
    (hr : (system S).ReachableUnder C s) :
    ∀ i, ∀ x ∈ (s.clients i).exchanges, Answered S s x := by
  induction hr with
  | init hi =>
    rw [show _ = Service.initial S from hi]
    intro i x hx
    cases hx
  | @step s u a hr _ ht ih =>
    have hsound := Sound.of_reachable hr
    have hm := moves_of_step hsound.coupled ht
    intro i x hx
    obtain hx | ⟨r, f, hcame⟩ := exchanges_of_moves hm i hx
    · exact (ih i x hx).mono (runs_of_moves hm)
    · exact (hsound.answered hcame).mono (runs_of_moves hm)

/-- The conversation of a client is one of those that it has with a session alone. -/
theorem conversation_of_reachable {i : ι} (hr : (system S).ReachableUnder (Undisturbed S i) s) :
    (Conversation.system S.build (S.bytes i) (S.requests i)).ReachableUnder
      Conversation.Undisturbed (s.clients i) := by
  induction hr with
  | init hi =>
    rw [show _ = Service.initial S from hi]
    exact .init rfl
  | @step s u a hr hu ht ih =>
    obtain heq | ⟨b, hb, hub⟩ :=
      client_of_moves (moves_of_step (Sound.of_reachable hr).coupled ht) i
    · rw [heq]
      exact ih
    · exact .step ih (hub hu) hb

/-- Two clients of one model, the second with one element more. -/
def twoClients : Setting Nat Bool where
  workerThreads := 1
  config := ⟨[1]⟩
  memory := ⟨leNat, 0, fun _ => 0⟩
  floatBytes := leBytes 4
  length_floatBytes := length_leBytes 4
  bits := fun k => k.toUInt32
  arguments := fun i => ⟨[if i then 2 else 1], 1, [97]⟩

def pairModel : ModelMetadata := ⟨{ maxBatchSize := 2, maxBatchDelayUs := 0 }, .ready, true⟩

/-- Thread 1 registers the model. -/
def registerPair : List (Action twoClients) :=
  List.flatten [[.runtime (.registerModel 1 "a" (some pairModel))],
    List.replicate 3 (.runtime (.exec 0 (.caller 1 false none))), [.runtime (.advance 1 [] 0)]]

/-- Client `i` sends `n` elements, and its session asks the executor. -/
def ask (i : Bool) (n : Nat) : List (Action twoClients) :=
  List.flatten [[.converse i (.send 2), .converse i (.send 4), .converse i (.send (4 * n)),
      .converse i (.deliver (6 + 4 * n))],
    List.replicate 4 (.converse i .read),
    [.inferAsync i, .runtime (.advance 0 [] 0), .runtime (.advance 0 [] 7)],
    List.replicate 9 (.runtime (.exec 0 (.caller 0 false none))), [.runtime (.advance 0 [] 0)]]

theorem row_length_column (xs : List Nat) :
    ∀ r ∈ xs.map fun x => [x], r.length = ([] : List Nat).prod := by
  intro r hr
  obtain ⟨x, -, rfl⟩ := List.mem_map.mp hr
  rfl

def column (xs : List Nat) : TorchBackend.Piece Nat :=
  .readable (.batch ⟨[], xs.map fun x => [x], row_length_column xs⟩)

/-- Both requests are in one batch, and both promises are set. -/
def servePair : List (Action twoClients) :=
  List.flatten [registerPair, ask false 1, ask true 2,
    List.replicate 21 (.runtime (.exec 0 (.worker 0 false))),
    [.inferBatch 0 0 true (.ok [column [7], column [8, 9]]) (fun _ => 5) 3],
    List.replicate 2 (.runtime (.exec 0 (.worker 0 false)))]

def firstRequest : Request := ⟨[97], 1, [0, 0, 0, 0]⟩

def firstResponse : InferenceResponse where
  ok := true
  shape := [1]
  outputElemsWritten := 1
  latencyNs := 5
  routingNs := 7
  executionNs := 3

theorem responds_firstResponse : Responds (twoClients.build firstRequest) firstResponse := by
  have hrun : ((system twoClients).run (initial twoClients) servePair).map (fun s =>
      ((s.clients false).session, (s.futures false).map fun f => f.value s.runtime)) =
        some (.inferring firstRequest, some (some firstResponse)) := by
    decide +kernel
  obtain ⟨s, hs, hend⟩ := Option.map_eq_some_iff.mp hrun
  obtain ⟨hsession, hfuture⟩ := Prod.mk.inj hend
  obtain ⟨f, hf, hv⟩ := Option.map_eq_some_iff.mp hfuture
  have hsound := Sound.of_reachable (System.Reachable.run (.init rfl) hs)
  obtain ⟨x, hx, -⟩ := hsound.answer hsession hf hv
  rw [← hx]
  exact x.responds

def answerFirst (r : Request) : Conversation.Answer (twoClients.build r) :=
  if h : r = firstRequest then
    { response := firstResponse
      outputBuf := [7, 0, 0, 0]
      responds := h ▸ responds_firstResponse
      length_outputBuf := h ▸ rfl }
  else Conversation.turnAway _

/-- The first client reads its response while the second still waits. -/
def readFirst : List (Action twoClients) :=
  [.respond false answerFirst, .converse false (.write 1), .converse false (.write 8),
    .converse false (.write 4), .converse false (.write 4), .converse false .receive]

end Jellybean.Server.Service
