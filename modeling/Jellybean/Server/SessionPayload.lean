import Jellybean.Inference.BatchResponses
import Jellybean.Model.ModelExecutorPromises
import Jellybean.Server.SessionWrite

namespace Jellybean.Model.ModelExecutor

open Inference

variable {α : Type*} {cfg : Config} {s u : State α}

/-- The backend is `TorchBackend`, whatever LibTorch does in the call. -/
def TorchBacked (s : State α) : Action α → Prop
  | .inferBatch w resps _ => ∀ batch waits, s.workers w = .inferring batch waits →
    ∃ loaded torch latencyNs rs,
      TorchBackend.inferBatchRaising loaded torch (batch.map Task.req) latencyNs = some rs ∧
        resps = rs.map Result.response
  | _ => True

/-- Every response that the backend returned is within its request's output buffer. -/
def CallsWithin (s : State α) : Prop :=
  ∀ call ∈ s.batchCalls, List.Forall₂
    (fun t r => TorchBackend.Within t.req.outputBuffer.length r) call.tasks call.resps

theorem batchCalls_moves {a : Action α} (hm : Moves cfg s a u) :
    u.batchCalls = s.batchCalls ∨
      ∃ w batch waits resps executionNs, a = .inferBatch w resps executionNs ∧
        s.workers w = .inferring batch waits ∧
        u.batchCalls = s.batchCalls ++ [⟨batch, resps, executionNs⟩] := by
  cases hm with
  | caller hm => exact .inl (by cases hm <;> rfl)
  | worker hm => exact .inl (by cases hm <;> rfl)
  | inferBatch hw _ => exact .inr ⟨_, _, _, _, _, rfl, hw, rfl⟩
  | inferAsync | callStart | callStop | spuriousWake | tick | setReady => exact .inl rfl

theorem callsWithin_of_reachable (h : (system cfg).ReachableUnder TorchBacked s) :
    CallsWithin s := by
  refine h.invariant (P := CallsWithin) ?_ ?_
  · intro s ⟨ready, hs⟩ call hcall
    subst hs
    cases hcall
  · intro s a u hs hc ht call hcall
    rcases batchCalls_moves (moves_of_step ht) with heq | ⟨w, batch, waits, resps, e, rfl, hw, heq⟩
    · rw [heq] at hcall
      exact hs call hcall
    · rw [heq, List.mem_append, List.mem_singleton] at hcall
      rcases hcall with hcall | rfl
      · exact hs call hcall
      · obtain ⟨loaded, torch, latencyNs, rs, hrs, rfl⟩ := hc batch waits hw
        have hwithin := TorchBackend.within_inferBatchRaising hrs
        rw [List.forall₂_map_left_iff] at hwithin
        exact List.forall₂_map_right_iff.mpr hwithin

/-- Whatever a promise is given is within the output buffer of its request. -/
theorem promise_within (h : (system cfg).ReachableUnder TorchBacked s) {p : Nat}
    {v : InferenceResponse} (hv : v ∈ s.promises p) {t : Task α} (ht : s.issued[p]? = some t) :
    TorchBackend.Within t.req.outputBuffer.length v := by
  obtain ⟨t', ht', -, hanswer⟩ := (Provenance.of_reachable h.reachable).values p v hv
  have : t' = t := by
    rw [ht] at ht'
    exact (Option.some.inj ht').symm
  subst this
  rcases hanswer with (rfl | rfl | rfl | rfl) | ⟨call, hcall, j, r, wait, htask, hresp, -, rfl⟩
  · exact TorchBackend.within_of_none _ rfl
  · exact TorchBackend.within_of_none _ rfl
  · exact TorchBackend.within_of_none _ rfl
  · exact TorchBackend.within_of_none _ rfl
  · have hall := callsWithin_of_reachable h call hcall
    obtain ⟨htl, rfl⟩ := List.getElem?_eq_some_iff.mp htask
    obtain ⟨hrl, rfl⟩ := List.getElem?_eq_some_iff.mp hresp
    exact hall.get htl hrl

end Jellybean.Model.ModelExecutor

namespace Jellybean.Server

open Inference Model

variable {α : Type*}

/-- The responses that `InferenceRuntime::infer_async` can give to a request: its own two, and
those of an executor. -/
inductive Responds (req : InferenceRequest α) : InferenceResponse → Prop
  | runtimeStopped : Responds req { error := "runtime stopped" }
  | notRegistered : Responds req { error := "model not registered in runtime: " ++ req.modelId }
  | executor {cfg : ModelExecutor.Config} {s : ModelExecutor.State α} {p : Nat}
      {t : ModelExecutor.Task α} {v : InferenceResponse}
      (hr : (ModelExecutor.system cfg).ReachableUnder ModelExecutor.TorchBacked s)
      (ht : s.issued[p]? = some t) (hreq : t.req = req) (hv : v ∈ s.promises p) : Responds req v

theorem Responds.within {req : InferenceRequest α} {v : InferenceResponse} (h : Responds req v) :
    TorchBackend.Within req.outputBuffer.length v := by
  cases h with
  | runtimeStopped => exact TorchBackend.within_of_none _ rfl
  | notRegistered => exact TorchBackend.within_of_none _ rfl
  | executor hr ht hreq hv =>
    subst hreq
    exact ModelExecutor.promise_within hr hv ht

/-- A request of a session, its response, and the bytes of `output_buf` then. -/
structure Exchange (α : Type*) where
  req : InferenceRequest α
  response : InferenceResponse
  outputBuf : List UInt8
  responds : Responds req response
  length_outputBuf : outputBuf.length = 4 * req.outputBuffer.length

/-- What the client's loop takes from the connection for one request. -/
structure Reply where
  status : List UInt8
  latency : Nat
  outElems : Nat
  payload : List UInt8
  deriving DecidableEq

/-- `recv_all`; `none` while the bytes are not there. -/
def recvAll (n : Nat) (stream : List UInt8) : Option (List UInt8 × List UInt8) :=
  if n ≤ stream.length then some (stream.take n, stream.drop n) else none

/-- The reading half of the loop of `infer_client.py`. -/
def readResponse (stream : List UInt8) : Option (Reply × List UInt8) := do
  let (status, stream) ← recvAll 1 stream
  let (latency, stream) ← recvAll 8 stream
  let (outElems, stream) ← recvAll 4 stream
  if leNat outElems > 0 then
    let (payload, stream) ← recvAll (leNat outElems * 4) stream
    return (⟨status, leNat latency, leNat outElems, payload⟩, stream)
  else return (⟨status, leNat latency, leNat outElems, []⟩, stream)

def readResponses : Nat → List UInt8 → Option (List Reply × List UInt8)
  | 0, stream => some ([], stream)
  | n + 1, stream => do
    let (reply, stream) ← readResponse stream
    let (replies, stream) ← readResponses n stream
    return (reply :: replies, stream)

namespace Exchange

/-- What the session writes. -/
def sent (x : Exchange α) : SessionWrite.Response where
  ok := x.response.ok
  latencyNs := x.response.latencyNs
  outElems := x.response.outputElemsWritten
  outputBuf := x.outputBuf
  fits := by
    intro _
    have hbound := x.responds.within.2
    rw [x.length_outputBuf]
    omega

/-- The steps of the session for one response when every write is complete. -/
def completeWrites (x : Exchange α) : List SessionWrite.Action :=
  .respond x.sent :: x.sent.writes.map fun w => .accept w.length

/-- What the client is to get. -/
def reply (x : Exchange α) : Reply where
  status := leBytes 1 x.sent.status
  latency := x.response.latencyNs % 2^64
  outElems := x.response.outputElemsWritten
  payload := x.outputBuf.take (4 * x.response.outputElemsWritten)

theorem payload_iff (x : Exchange α) :
    (x.response.ok = true ∧ 0 < x.response.outputElemsWritten) ↔
      0 < x.response.outputElemsWritten := by
  constructor
  · intro h
    exact h.2
  · intro h
    exact ⟨(x.responds.within.2 h).1, h⟩

theorem recvAll_append {n : Nat} {bytes : List UInt8} (rest : List UInt8) (h : bytes.length = n) :
    recvAll n (bytes ++ rest) = some (bytes, rest) := by
  subst h
  simp [recvAll]

/-- No payload is left out: without `ok` there are no elements. -/
theorem frame_sent (x : Exchange α) :
    x.sent.frame = leBytes 1 x.sent.status ++ (leBytes 8 x.response.latencyNs ++
      (leBytes 4 x.response.outputElemsWritten ++ x.reply.payload)) := by
  have hpayload : (if x.sent.ok = true then x.outputBuf.take (4 * x.response.outputElemsWritten)
      else []) = x.reply.payload := by
    split
    · rfl
    · next hok =>
      have hzero : x.response.outputElemsWritten = 0 := by
        by_contra hne
        exact hok (x.responds.within.2 (Nat.pos_of_ne_zero hne)).1
      simp [reply, hzero]
  simp only [SessionWrite.Response.frame, List.append_assoc]
  rw [← hpayload]
  rfl

/-- The client takes exactly the frame of a response. -/
theorem readResponse_frame (x : Exchange α) (rest : List UInt8) :
    readResponse (x.sent.frame ++ rest) = some (x.reply, rest) := by
  have helems : leNat (leBytes 4 x.response.outputElemsWritten) = x.response.outputElemsWritten := by
    rw [leNat_leBytes]
    exact Nat.mod_eq_of_lt x.responds.within.1
  have hlatency : leNat (leBytes 8 x.response.latencyNs) = x.response.latencyNs % 2^64 := by
    rw [leNat_leBytes]
    norm_num
  unfold readResponse
  rw [frame_sent]
  simp only [List.append_assoc]
  rw [recvAll_append _ (length_leBytes 1 _)]
  simp only [Option.bind_eq_bind, Option.bind_some]
  rw [recvAll_append _ (length_leBytes 8 _)]
  simp only [Option.bind_some]
  rw [recvAll_append _ (length_leBytes 4 _)]
  simp only [Option.bind_some, helems, hlatency]
  by_cases hpos : 0 < x.response.outputElemsWritten
  · have hbound := (x.responds.within.2 hpos).2
    have hlen : x.reply.payload.length = x.response.outputElemsWritten * 4 := by
      rw [reply, List.length_take, x.length_outputBuf]
      omega
    rw [if_pos hpos, recvAll_append _ hlen]
    rfl
  · have hzero : x.response.outputElemsWritten = 0 := Nat.eq_zero_of_not_pos hpos
    rw [if_neg hpos]
    simp [reply, hzero]

theorem readResponses_frames (xs : List (Exchange α)) (rest : List UInt8) :
    readResponses xs.length (xs.flatMap (fun x => x.sent.frame) ++ rest) =
      some (xs.map reply, rest) := by
  induction xs with
  | nil => rfl
  | cons x xs ih =>
    rw [List.flatMap_cons, List.append_assoc, List.length_cons, readResponses, readResponse_frame]
    simp only [Option.bind_eq_bind, Option.bind_some]
    rw [ih]
    rfl

end Exchange

namespace SessionWrite

/-- Complete writes put all that is pending on the connection. -/
theorem run_accept_all (s : State) {ws : List (List UInt8)} (hp : s.pending = ws)
    (hne : ∀ w ∈ ws, w ≠ []) :
    ∃ t, system.run s (ws.map fun w => .accept w.length) = some t ∧ t.pending = [] ∧
      t.wire = s.wire ++ ws.flatten := by
  induction ws generalizing s with
  | nil => exact ⟨s, rfl, hp, by simp⟩
  | cons w ws ih =>
    have hpos : 0 < w.length := List.length_pos_iff.mpr (hne w (by simp))
    have hstep : system.step s (.accept w.length) = some { s with
        pending := ws
        wire := s.wire ++ w
        handed := s.handed + w.length
        sent := s.sent ++ (List.range w.length).map (s.handed + ·) } := by
      simp [system, step, hp, hpos]
    rw [List.map_cons, System.run_cons, hstep]
    obtain ⟨t, ht, hpend, hwire⟩ := ih { s with
        pending := ws
        wire := s.wire ++ w
        handed := s.handed + w.length
        sent := s.sent ++ (List.range w.length).map (s.handed + ·) } rfl
      fun v hv => hne v (by simp [hv])
    exact ⟨t, ht, hpend, by simp [hwire]⟩

theorem Response.writes_ne_nil (r : Response) : ∀ w ∈ r.writes, w ≠ [] := by
  intro w hw hnil
  subst hnil
  have hlen : ∀ k n, leBytes (k + 1) n ≠ [] := by
    intro k n h
    cases h
  unfold Response.writes at hw
  rw [List.mem_append] at hw
  rcases hw with hw | hw
  · simp only [List.mem_cons, List.not_mem_nil, or_false] at hw
    rcases hw with hw | hw | hw
    · exact hlen _ _ hw.symm
    · exact hlen _ _ hw.symm
    · exact hlen _ _ hw.symm
  · split at hw
    · next h =>
      have hfits := r.fits h.1
      have := congrArg List.length (List.mem_singleton.mp hw)
      rw [List.length_nil, List.length_take] at this
      omega
    · cases hw

/-- After complete writes the connection carries the frames of the responses. -/
theorem run_completeWrites (s : State) (hp : s.pending = []) (xs : List (Exchange α)) :
    ∃ t, system.run s (xs.flatMap Exchange.completeWrites) = some t ∧ t.pending = [] ∧
      t.wire = s.wire ++ xs.flatMap fun x => x.sent.frame := by
  induction xs generalizing s with
  | nil => exact ⟨s, rfl, hp, by simp⟩
  | cons x xs ih =>
    have hstep : system.step s (.respond x.sent) = some { s with
        pending := x.sent.writes
        frames := s.frames ++ x.sent.frame } := by
      simp [system, step, hp]
    obtain ⟨t, ht, hpend, hwire⟩ := run_accept_all { s with
        pending := x.sent.writes
        frames := s.frames ++ x.sent.frame } rfl x.sent.writes_ne_nil
    obtain ⟨u, hu, hpend', hwire'⟩ := ih t hpend
    refine ⟨u, ?_, hpend', ?_⟩
    · rw [List.flatMap_cons, System.run_append, Exchange.completeWrites, System.run_cons, hstep,
        Option.bind_some, ht, Option.bind_some, hu]
    · rw [hwire', hwire, x.sent.flatten_writes, List.flatMap_cons, List.append_assoc]

end SessionWrite

/-- Every response that reports elements is `ok` and within the output buffer, the payload is sent
exactly when the client expects one, and after any number of responses written completely the
client has taken exactly the bytes of those. -/
theorem payload_as_expected (xs : List (Exchange α)) (rest : List UInt8) :
    (∀ x ∈ xs, 0 < x.response.outputElemsWritten →
      x.response.ok = true ∧ x.response.outputElemsWritten ≤ x.req.outputBuffer.length) ∧
    (∀ x ∈ xs, (x.response.ok = true ∧ 0 < x.response.outputElemsWritten) ↔
      0 < x.reply.outElems) ∧
    ∃ s, SessionWrite.system.run SessionWrite.initial (xs.flatMap Exchange.completeWrites) = some s ∧
      s.pending = [] ∧
      readResponses xs.length (s.wire ++ rest) = some (xs.map Exchange.reply, rest) := by
  refine ⟨?_, ?_, ?_⟩
  · intro x _
    exact x.responds.within.2
  · intro x _
    exact x.payload_iff
  · obtain ⟨s, hs, hpend, hwire⟩ := SessionWrite.run_completeWrites SessionWrite.initial rfl xs
    refine ⟨s, hs, hpend, ?_⟩
    rw [hwire]
    exact Exchange.readResponses_frames xs rest

end Jellybean.Server
