import Jellybean.Framework.System
import Jellybean.Server.WireProtocol

namespace Jellybean.Server

namespace SessionWrite

/-- What a session sends back. `outputBuf` is the memory the backend wrote to; it holds the
`outElems` floats of a successful response. -/
structure Response where
  ok : Bool
  latencyNs : Nat
  outElems : Nat
  outputBuf : List UInt8
  fits : ok = true → 4 * outElems ≤ outputBuf.length

def Response.status (r : Response) : Nat := if r.ok then 1 else 0

/-- The response frame of the wire protocol: the payload follows only when `ok`. -/
def Response.frame (r : Response) : List UInt8 :=
  leBytes 1 r.status ++ leBytes 8 r.latencyNs ++ leBytes 4 r.outElems ++
    if r.ok then r.outputBuf.take (4 * r.outElems) else []

/-- The buffers of the up to four `co_await sock.write` of one response. -/
def Response.writes (r : Response) : List (List UInt8) :=
  [leBytes 1 r.status, leBytes 8 r.latencyNs, leBytes 4 r.outElems] ++
    if r.ok ∧ 0 < r.outElems then [r.outputBuf.take (4 * r.outElems)] else []

/-- `pending` are the writes of the current response that are still to come and `wire` the bytes
on the connection. The rest only records: the frames of all responses so far, how many of their
bytes were given to `::send`, and for each byte on the connection its offset in the frames. -/
structure State where
  pending : List (List UInt8)
  wire : List UInt8
  frames : List UInt8
  handed : Nat
  sent : List Nat

inductive Action where
  | respond (r : Response)
  | accept (k : Nat)
  | eagain

/-- The result of `::send` is only logged: the coroutine goes on to the next write. -/
def step (s : State) : Action → Option State
  | .respond r =>
    if s.pending = [] then
      some { s with pending := r.writes, frames := s.frames ++ r.frame }
    else none
  | .accept k =>
    match s.pending with
    | [] => none
    | w :: ws =>
      if 0 < k ∧ k ≤ w.length then
        some { s with
          pending := ws
          wire := s.wire ++ w.take k
          handed := s.handed + w.length
          sent := s.sent ++ (List.range k).map (s.handed + ·) }
      else none
  | .eagain =>
    match s.pending with
    | [] => none
    | w :: ws => some { s with pending := ws, handed := s.handed + w.length }

def initial : State := ⟨[], [], [], 0, []⟩

def system : System State Action where
  init s := s = initial
  step := step

/-- A byte goes out only while every byte given to `::send` before was accepted. -/
def NothingDropped (s : State) : Action → Prop
  | .accept _ => s.wire.length = s.handed
  | _ => True

instance (s : State) : (a : Action) → Decidable (NothingDropped s a)
  | .accept _ => inferInstanceAs (Decidable (s.wire.length = s.handed))
  | .respond _ | .eagain => .isTrue trivial

theorem Response.flatten_writes (r : Response) : r.writes.flatten = r.frame := by
  unfold Response.writes Response.frame
  by_cases hok : r.ok = true
  · by_cases hz : 0 < r.outElems
    · simp [hok, hz]
    · obtain hz : r.outElems = 0 := by omega
      simp [hok, hz]
  · simp [hok]

/-- What holds in every reachable state. -/
structure FramesInv (s : State) : Prop where
  handed_le : s.handed ≤ s.frames.length
  pending : s.frames.drop s.handed = s.pending.flatten
  sent_length : s.sent.length = s.wire.length
  wire_le : s.wire.length ≤ s.handed

theorem FramesInv.step {s t : State} {a : Action} (h : FramesInv s) (hs : step s a = some t) :
    FramesInv t := by
  obtain ⟨hle, hpend, hsent, hwire⟩ := h
  cases a with
  | respond r =>
    simp only [SessionWrite.step] at hs
    split_ifs at hs with hnil
    cases hs
    rw [hnil, List.flatten_nil] at hpend
    have hlen : s.frames.length = s.handed := by
      have := List.drop_eq_nil_iff.mp hpend
      omega
    refine ⟨by simp only [List.length_append]; omega, ?_, hsent, hwire⟩
    simp only [r.flatten_writes]
    rw [List.drop_append_of_le_length hle, hpend, List.nil_append]
  | accept k =>
    simp only [SessionWrite.step] at hs
    split at hs
    · cases hs
    · rename_i w ws hp
      split_ifs at hs with hk
      cases hs
      rw [hp, List.flatten_cons] at hpend
      have hlen := congrArg List.length hpend
      rw [List.length_drop, List.length_append] at hlen
      refine ⟨by dsimp only; omega, ?_, by simp [hsent, hk.2], by simp; omega⟩
      dsimp only
      rw [← List.drop_drop, hpend, List.drop_left]
  | eagain =>
    simp only [SessionWrite.step] at hs
    split at hs
    · cases hs
    · rename_i w ws hp
      cases hs
      rw [hp, List.flatten_cons] at hpend
      have hlen := congrArg List.length hpend
      rw [List.length_drop, List.length_append] at hlen
      refine ⟨by dsimp only; omega, ?_, hsent, by dsimp only; omega⟩
      dsimp only
      rw [← List.drop_drop, hpend, List.drop_left]

theorem framesInv_initial : FramesInv initial := ⟨le_rfl, rfl, rfl, le_rfl⟩

/-- The bytes on the connection are the frames' first bytes, in order and without a gap. -/
def InOrder (s : State) : Prop := s.wire <+: s.frames ∧ s.sent = List.range s.sent.length

/-- A send that meets the condition keeps the order, and one that does not leaves a gap. -/
theorem inOrder_accept {s t : State} {k : Nat} (h : FramesInv s) (ho : InOrder s)
    (hs : step s (.accept k) = some t) :
    (NothingDropped s (.accept k) → InOrder t) ∧
      (t.sent = List.range t.sent.length → NothingDropped s (.accept k)) := by
  obtain ⟨hle, hpend, hsent, -⟩ := h
  obtain ⟨hpre, hrange⟩ := ho
  simp only [step] at hs
  split at hs
  · cases hs
  · rename_i w ws hp
    split_ifs at hs with hk
    cases hs
    simp only [NothingDropped, InOrder]
    constructor
    · intro hd
      refine ⟨?_, ?_⟩
      · have hw : s.wire = s.frames.take s.handed := by
          rw [← hd]
          exact List.prefix_iff_eq_take.mp hpre
        have hf : s.frames = s.wire ++ (w ++ ws.flatten) := by
          conv_lhs => rw [← List.take_append_drop s.handed s.frames]
          rw [← hw, hpend, hp, List.flatten_cons]
        refine ⟨w.drop k ++ ws.flatten, ?_⟩
        rw [List.append_assoc, ← List.append_assoc (w.take k), List.take_append_drop]
        exact hf.symm
      · rw [List.length_append, List.length_map, List.length_range, List.range_add, ← hrange, hsent,
          hd]
    · intro hr
      rw [List.length_append, List.length_map, List.length_range, List.range_add, ← hrange, hsent]
        at hr
      have hr := List.append_cancel_left hr
      obtain ⟨m, rfl⟩ : ∃ m, k = m + 1 := ⟨k - 1, by omega⟩
      rw [List.range_succ_eq_map] at hr
      simp only [List.map_cons, List.cons.injEq, add_zero] at hr
      exact hr.1.symm

theorem InOrder.step {s t : State} {a : Action} (h : FramesInv s) (ho : InOrder s)
    (hc : NothingDropped s a) (hs : step s a = some t) : InOrder t := by
  cases a with
  | respond r =>
    simp only [SessionWrite.step] at hs
    split_ifs at hs with hnil
    cases hs
    exact ⟨ho.1.trans (List.prefix_append _ _), ho.2⟩
  | accept k => exact (inOrder_accept h ho hs).1 hc
  | eagain =>
    simp only [SessionWrite.step] at hs
    split at hs
    · cases hs
    · cases hs
      exact ho

/-- In every run that sends no byte after a short or refused send, the connection carries at
every moment a prefix of the response frames. The condition is the weakest step by step: a byte
sent against it is not the one that follows those on the connection. -/
theorem wire_prefix_frames {s : State} (h : system.ReachableUnder NothingDropped s) :
    s.wire <+: s.frames ∧
      ∀ k t, step s (.accept k) = some t → ¬ NothingDropped s (.accept k) →
        t.sent ≠ List.range t.sent.length := by
  have hinv : FramesInv s ∧ InOrder s := by
    refine System.ReachableUnder.invariant (P := fun s => FramesInv s ∧ InOrder s) ?_ ?_ h
    · rintro s rfl
      exact ⟨framesInv_initial, List.prefix_refl _, rfl⟩
    · rintro s a t ⟨hf, ho⟩ hc hs
      exact ⟨hf.step hs, ho.step hf hc hs⟩
  refine ⟨hinv.2.1, fun k t hs hn hr => ?_⟩
  exact hn ((inOrder_accept hinv.1 hinv.2 hs).2 hr)

/-- A successful response with one output element. -/
def oneElem : Response := ⟨true, 5, 1, [1, 2, 3, 4], fun _ => le_rfl⟩

/-- Only the last send is short. -/
def shortAtEnd : List Action := [.respond oneElem, .accept 1, .accept 8, .accept 4, .accept 2]

theorem wire_prefix_frames_oneElem :
    ∃ s, system.run initial shortAtEnd = some s ∧ s.wire.length = 15 ∧ s.wire <+: s.frames := by
  have h0 : system.ReachableUnder NothingDropped initial := .init rfl
  have hc : system.Complies NothingDropped initial shortAtEnd := by decide
  exact ⟨_, rfl, rfl, (wire_prefix_frames (h0.run hc rfl)).1⟩

/-- Three of the eight latency bytes are accepted, then the element count follows them. -/
theorem short_latency_shifts :
    ∃ s, system.Reachable s ∧
      system.run initial [.respond oneElem, .accept 1, .accept 3, .accept 4] = some s ∧
      s.wire = [1, 5, 0, 0, 1, 0, 0, 0] ∧ ¬ s.wire <+: s.frames := by
  have hr : system.run initial [.respond oneElem, .accept 1, .accept 3, .accept 4]
      = some ⟨[[1, 2, 3, 4]], [1, 5, 0, 0, 1, 0, 0, 0],
          [1, 5, 0, 0, 0, 0, 0, 0, 0, 1, 0, 0, 0, 1, 2, 3, 4], 13, [0, 1, 2, 3, 9, 10, 11, 12]⟩ := by
    rfl
  have h0 : system.Reachable initial := .init rfl
  exact ⟨_, h0.run hr, hr, rfl, by decide⟩

end SessionWrite

end Jellybean.Server
