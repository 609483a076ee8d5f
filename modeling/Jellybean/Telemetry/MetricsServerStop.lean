import Jellybean.Telemetry.MetricsServerRuns

namespace Jellybean.Telemetry.MetricsServer

variable {ι : Type*} {s t : State ι} {capacity : Nat}

/-- The owner, the loop and a client that reads go on. -/
def Action.Progress : Action ι → Prop
  | .control _ | .loop | .write _ | .writeError | .recv _ _ => True
  | _ => False

/-- How many steps a call has before it, apart from what it waits for. -/
def Control.left : Control → Nat
  | .idle | .destroyed => 0
  | .storeStopped | .spawn | .leave _ => 1
  | .forget | .join _ => 2
  | .abandon | .forgetClosed _ => 3
  | .listen | .close _ => 4
  | .bind | .shutdown _ => 5
  | .socket | .stopCas _ => 6
  | .startCas => 7

/-- How many steps the loop has before it once `stopped_` is set. -/
def Loop.left : Loop ι → Nat
  | .none | .exited => 0
  | .check | .failed => 1
  | .accept _ | .closing _ => 2
  | .load | .checkWrite _ _ => 3
  | .writing _ _ => 4

/-- How many bytes the client has to read before the loop can write. -/
def blocked (capacity : Nat) (s : State ι) : Nat :=
  match s.loop with
  | .writing i _ => (s.clients i).buffer.length + 1 - capacity
  | _ => 0

def callRank (capacity : Nat) (s : State ι) : Nat :=
  6 * s.control.left + s.loop.left + blocked capacity s

def Returned (s : State ι) : Prop := s.control = .idle ∨ s.control = .destroyed

/-- A step of a call. -/
structure Closer (capacity : Nat) (s t : State ι) : Prop where
  killed : t.killed = s.killed
  rank : callRank capacity t < callRank capacity s

/-- The owner may give the loop its thread or take it. -/
theorem Closer.owner {c : Control} (hc : s.control = c) (hlt : t.control.left < c.left)
    (hk : t.killed = s.killed)
    (hloop : t.loop = s.loop ∧ t.clients = s.clients ∨ t.loop = .check ∨ t.loop = .none) :
    Closer capacity s t where
  killed := hk
  rank := by
    unfold callRank blocked
    rw [hc]
    obtain ⟨hl, hclients⟩ | hl | hl := hloop
    · rw [hl, hclients]
      omega
    · rw [hl]
      simp only [Loop.left]
      omega
    · rw [hl]
      simp only [Loop.left]
      omega

/-- Nothing but the loop that it joins keeps the owner waiting. -/
theorem Disciplined.controlStep_closer (h : Disciplined s) (capacity : Nat) (hr : ¬Returned s)
    (hjoin : ∀ d, s.control = .join d → s.loop = .exited) :
    ∃ t, controlStep s true = some t ∧ Closer capacity s t := by
  have hs := h.stand
  unfold controlStep
  cases hc : s.control with
  | idle => exact absurd (.inl hc) hr
  | destroyed => exact absurd (.inr hc) hr
  | socket | bind | forget | storeStopped | forgetClosed =>
    exact ⟨_, rfl, .owner hc (by simp [Control.left]) rfl (.inl ⟨rfl, rfl⟩)⟩
  | startCas | stopCas =>
    dsimp only
    split_ifs
    · exact ⟨_, rfl, .owner hc (by simp [Control.left]) rfl (.inl ⟨rfl, rfl⟩)⟩
    · exact ⟨_, rfl, .owner hc (by simp [Control.left]) rfl (.inl ⟨rfl, rfl⟩)⟩
  | listen =>
    dsimp only
    split
    · exact ⟨_, rfl, .owner hc (by simp [Control.left]) rfl (.inl ⟨rfl, rfl⟩)⟩
    · exact ⟨_, rfl, .owner hc (by simp [Control.left]) rfl (.inl ⟨rfl, rfl⟩)⟩
  | abandon =>
    rw [hc] at hs
    obtain ⟨-, -, fd, hfd, hopened⟩ := own_socket hs rfl
    have hclose := closeSocket_of_open fd .forget (by rw [hopened]; nofun)
      (by rw [hopened]; nofun)
    simp only [hfd, hclose]
    exact ⟨_, rfl, .owner hc (by simp [Control.left]) rfl (.inl ⟨rfl, rfl⟩)⟩
  | spawn =>
    dsimp only
    split_ifs
    · exact ⟨_, rfl, .owner hc (by simp [Control.left]) rfl (.inl ⟨rfl, rfl⟩)⟩
    · exact ⟨_, rfl, .owner hc (by simp [Control.left]) rfl (.inr (.inl rfl))⟩
  | shutdown d =>
    rw [hc] at hs
    obtain ⟨-, -, fd, hfd, hlistening⟩ := own_socket hs rfl
    simp only [hfd, hlistening]
    exact ⟨_, rfl, .owner hc (by simp [Control.left]) rfl (.inl ⟨rfl, rfl⟩)⟩
  | close d =>
    rw [hc] at hs
    obtain ⟨-, -, fd, hfd, hshut⟩ := own_socket hs rfl
    have hclose := closeSocket_of_open fd (.forgetClosed d) (by rw [hshut]; nofun)
      (by rw [hshut]; nofun)
    simp only [hfd, hclose]
    exact ⟨_, rfl, .owner hc (by simp [Control.left]) rfl (.inl ⟨rfl, rfl⟩)⟩
  | join d =>
    rw [hc] at hs
    simp only [Control.stands, State.stand, List.mem_singleton, Prod.mk.injEq] at hs
    simp only [if_pos hs.2.2, hjoin d hc]
    exact ⟨_, rfl, .owner hc (by simp [Control.left]) rfl (.inr (.inr rfl))⟩
  | leave d =>
    dsimp only
    split_ifs
    · exact ⟨_, rfl, .owner hc (by simp [Control.left]) rfl (.inl ⟨rfl, rfl⟩)⟩
    · exact ⟨_, rfl, .owner hc (by simp [Control.left]) rfl (.inl ⟨rfl, rfl⟩)⟩
    · exact ⟨_, rfl, .owner hc (by simp [Control.left]) rfl (.inl ⟨rfl, rfl⟩)⟩

/-- A step of the loop or of its client. -/
theorem Closer.loop (hc : t.control = s.control) (hk : t.killed = s.killed)
    (hlt : t.loop.left + blocked capacity t < s.loop.left + blocked capacity s) :
    Closer capacity s t where
  killed := hk
  rank := by
    unfold callRank
    rw [hc]
    omega

variable [DecidableEq ι]

/-- A loop that writes goes on once its client has read enough or is gone. -/
theorem Sound.writing_closer (h : Sound s) (hcap : 0 < capacity) (hk : s.killed = false)
    {i : ι} {rest : List UInt8} (hl : s.loop = .writing i rest) :
    ∃ a t, Action.Progress a ∧ MetricsServer.step capacity s a = some t ∧
      Closer capacity s t := by
  have hkilled : ¬s.killed = true := Bool.eq_false_iff.mp hk
  have hd := h.delivered i
  have hopened := h.opened hl rfl
  have hrest : 0 < rest.length := List.length_pos_of_ne_nil (h.writing i rest hl)
  cases hp : (s.clients i).phase with
  | away => exact absurd hp (hd.not_away (by rw [hopened]; nofun))
  | finished => exact absurd hp (hd.not_finished (by rw [hopened]; nofun))
  | gone =>
    refine ⟨.writeError, { s with loop := .closing i, killed := false }, trivial, ?_,
      .loop rfl ?_ ?_⟩
    · simp [MetricsServer.step, hkilled, MetricsServer.writeError, hl, hp]
    · exact hk.symm
    · simp only [hl, Loop.left, blocked]
      omega
  | reading =>
    by_cases hfull : (s.clients i).buffer.length + 1 ≤ capacity
    · let c : Client :=
        { s.clients i with buffer := (s.clients i).buffer ++ rest.take 1 }
      refine ⟨.write 1, { setClient s i c with loop := .checkWrite i (rest.drop 1) }, trivial, ?_,
        .loop rfl rfl ?_⟩
      · simp only [MetricsServer.step, if_neg hkilled, MetricsServer.write, hl]
        exact if_pos ⟨Nat.one_pos, hrest, hfull⟩
      · simp only [hl, Loop.left, blocked]
        omega
    · let c : Client := { s.clients i with
        buffer := (s.clients i).buffer.drop 1
        data := (s.clients i).data ++ (s.clients i).buffer.take 1 }
      refine ⟨.recv i 1, setClient s i c, trivial, ?_, .loop rfl rfl ?_⟩
      · simp only [MetricsServer.step, if_neg hkilled, MetricsServer.clientStep]
        exact if_pos ⟨hp, Nat.one_pos, by omega, by omega⟩
      · simp only [setClient, hl, Loop.left, blocked, Function.update_self, c, List.length_drop]
        omega

/-- A loop whose owner waits for it comes to its end. -/
theorem Sound.loop_closer (h : Sound s) (hcap : 0 < capacity) (hk : s.killed = false)
    {d : Bool} (hc : s.control = .join d) (hne : s.loop ≠ .exited) :
    ∃ a t, Action.Progress a ∧ MetricsServer.step capacity s a = some t ∧
      Closer capacity s t := by
  have hs := h.stand
  rw [hc] at hs
  simp only [Control.stands, State.stand, List.mem_singleton, Prod.mk.injEq] at hs
  obtain ⟨hstopped, hfd, hj⟩ := hs
  have hkilled : ¬s.killed = true := Bool.eq_false_iff.mp hk
  cases hl : s.loop with
  | none => exact absurd hl (h.thread.mp hj)
  | exited => exact absurd hl hne
  | check | failed =>
    refine ⟨.loop, { s with loop := .exited }, trivial, ?_, .loop rfl rfl ?_⟩
    · simp [MetricsServer.step, hkilled, MetricsServer.loopStep, hl, hstopped]
    · simp [hl, Loop.left, blocked]
  | load =>
    refine ⟨.loop, { s with loop := .accept s.listenFd }, trivial, ?_, .loop rfl rfl ?_⟩
    · simp [MetricsServer.step, hkilled, MetricsServer.loopStep, hl]
    · simp [hl, Loop.left, blocked]
  | accept fd =>
    have hdeaf : fd.map s.sockets ≠ some .listening := by
      intro hmap
      obtain ⟨fd', -, hlistening⟩ := Option.map_eq_some_iff.mp hmap
      have hown : s.listenFd ≠ some fd' := by
        rw [Option.map_eq_none_iff.mp hfd]
        exact (Option.some_ne_none fd').symm
      obtain hsock | hsock := h.closed fd' hown
      · rw [hsock] at hlistening
        cases hlistening
      · rw [hsock] at hlistening
        cases hlistening
    refine ⟨.loop, { s with loop := .failed }, trivial, ?_, .loop rfl rfl ?_⟩
    · simp only [MetricsServer.step, if_neg hkilled, MetricsServer.loopStep, hl]
    · simp [hl, Loop.left, blocked]
  | checkWrite i rest =>
    by_cases hnil : rest = []
    · refine ⟨.loop, { s with loop := .closing i }, trivial, ?_, .loop rfl rfl ?_⟩
      · simp [MetricsServer.step, hkilled, MetricsServer.loopStep, hl, hnil]
      · simp [hl, Loop.left, blocked]
    · let c : Client := { s.clients i with cut := true }
      refine ⟨.loop, { setClient s i c with loop := .closing i }, trivial, ?_, .loop rfl rfl ?_⟩
      · simp [MetricsServer.step, hkilled, MetricsServer.loopStep, hl, hnil, hstopped, c]
      · simp [hl, Loop.left, blocked]
  | writing i rest => exact h.writing_closer hcap hk hl
  | closing i =>
    have hopened := h.opened hl rfl
    let c : Client := { s.clients i with conn := .closed }
    refine ⟨.loop, { setClient s i c with loop := .check }, trivial, ?_, .loop rfl rfl ?_⟩
    · simp [MetricsServer.step, hkilled, MetricsServer.loopStep, hl, hopened, c]
    · simp [hl, Loop.left, blocked]

/-- A call of `start`, `stop` or the destructor returns if only the owner, the loop and the client
it serves go on. -/
theorem calls_return (hs : (system ι capacity).Reachable s) (hcap : 0 < capacity)
    (hk : s.killed = false) : (system ι capacity).CanReach Action.Progress Returned s := by
  apply System.CanReach.of_variant
    (Q := fun s => (system ι capacity).Reachable s ∧ s.killed = false) (callRank capacity) _
    ⟨hs, hk⟩
  intro s hq
  obtain ⟨hs, hk⟩ := hq
  have h := Sound.of_reachable hs
  by_cases hr : Returned s
  · exact .inl hr
  · right
    have hnext : ∃ a t, Action.Progress a ∧ MetricsServer.step capacity s a = some t ∧
        Closer capacity s t := by
      by_cases hjoin : ∃ d, s.control = .join d ∧ s.loop ≠ .exited
      · obtain ⟨d, hc, hne⟩ := hjoin
        exact h.loop_closer hcap hk hc hne
      · push Not at hjoin
        obtain ⟨t, ht, hcloser⟩ := h.controlStep_closer capacity hr hjoin
        refine ⟨.control true, t, trivial, ?_, hcloser⟩
        rw [MetricsServer.step, if_neg (Bool.eq_false_iff.mp hk)]
        exact ht
    obtain ⟨a, t, ha, ht, hcloser⟩ := hnext
    exact ⟨a, t, ha, ht, ⟨hs.next ht, hcloser.killed.trans hk⟩, hcloser.rank⟩

/-- A client has its buffer full when the server is stopped. -/
def fullBuffer : List (Action Unit) :=
  [.start, .control true, .control true, .control true, .control true, .control true,
    .connect () 0, .loop, .loop, .accept () .empty, .loop, .write 1, .loop, .stop true,
    .control true, .control true, .control true, .control true]

theorem calls_return_fullBuffer :
    ∃ s, (system Unit 1).run initial fullBuffer = some s ∧
      s.control = .join true ∧ (system Unit 1).CanReach Action.Progress Returned s := by
  have hrun : ((system Unit 1).run initial fullBuffer).map (fun s => (s.control, s.killed)) =
      some (.join true, false) := by
    decide +kernel
  obtain ⟨s, hs, he⟩ := Option.map_eq_some_iff.mp hrun
  obtain ⟨hc, hk⟩ := Prod.mk.inj he
  exact ⟨s, hs, hc, calls_return (System.Reachable.run (.init rfl) hs) Nat.one_pos hk⟩

/-! A client that does not read. -/

/-- The owner waits for the loop and the loop for its client. -/
structure Stalled (capacity : Nat) (i : ι) (s : State ι) : Prop where
  control : ∃ d, s.control = .join d
  joinable : s.joinable = true
  loop : ∃ rest, s.loop = .writing i rest
  phase : (s.clients i).phase = .reading
  conn : (s.clients i).conn = .opened
  full : capacity ≤ (s.clients i).buffer.length

/-- A client step changes nothing but its client. -/
theorem clientStep_frame {i : ι} {a : Action ι} (ht : clientStep s i a = some t) :
    ∃ c, t = setClient s i c := by
  cases a with
  | connect _ fd =>
    dsimp only [clientStep] at ht
    split_ifs at ht
    exact ⟨_, (Option.some.inj ht).symm⟩
  | recv _ k =>
    dsimp only [clientStep] at ht
    split_ifs at ht
    exact ⟨_, (Option.some.inj ht).symm⟩
  | eof _ =>
    dsimp only [clientStep] at ht
    split_ifs at ht
    exact ⟨_, (Option.some.inj ht).symm⟩
  | give _ =>
    dsimp only [clientStep] at ht
    split_ifs at ht
    exact ⟨_, (Option.some.inj ht).symm⟩
  | _ => cases ht

/-- What another client does is nothing to a stalled server. -/
theorem Stalled.other {i j : ι} (h : Stalled capacity i s) (hj : j ≠ i) {a : Action ι}
    (ht : clientStep s j a = some t) : Stalled capacity i t := by
  obtain ⟨c, rfl⟩ := clientStep_frame ht
  have hsame : (setClient s j c).clients i = s.clients i := Function.update_of_ne hj.symm _ _
  refine ⟨h.control, h.joinable, h.loop, ?_, ?_, ?_⟩
  · rw [hsame]
    exact h.phase
  · rw [hsame]
    exact h.conn
  · rw [hsame]
    exact h.full

/-- The client neither reads nor leaves. -/
def Action.Apart (i : ι) : Action ι → Prop
  | .recv j _ | .give j => j ≠ i
  | _ => True

theorem Stalled.step {i : ι} (h : Stalled capacity i s) {a : Action ι} (ha : a.Apart i)
    (ht : MetricsServer.step capacity s a = some t) : Stalled capacity i t := by
  obtain ⟨d, hc⟩ := h.control
  obtain ⟨rest, hl⟩ := h.loop
  unfold MetricsServer.step at ht
  split_ifs at ht
  cases a with
  | start | stop =>
    dsimp only at ht
    rw [hc] at ht
    cases ht
  | control ok =>
    simp only [controlStep, hc, if_pos h.joinable, hl] at ht
    cases ht
  | loop =>
    simp only [loopStep, hl] at ht
    cases ht
  | accept | acceptError =>
    simp only [MetricsServer.accept, hl] at ht
    cases ht
  | write k =>
    simp only [MetricsServer.write, hl] at ht
    split_ifs at ht with hif
    have hfull := h.full
    omega
  | writeError | sigpipe =>
    have hnot : (s.clients i).phase ≠ .gone := by
      rw [h.phase]
      nofun
    simp only [MetricsServer.writeError, hl, if_neg hnot] at ht
    cases ht
  | connect j fd =>
    by_cases hj : j = i
    · have hnot : (s.clients i).phase ≠ .away := by
        rw [h.phase]
        nofun
      rw [hj] at ht
      dsimp only [clientStep] at ht
      rw [if_neg fun hif => hnot hif.1] at ht
      cases ht
    · exact h.other hj ht
  | eof j =>
    by_cases hj : j = i
    · have hnot : (s.clients i).conn ≠ .closed := by
        rw [h.conn]
        nofun
      rw [hj] at ht
      dsimp only [clientStep] at ht
      rw [if_neg fun hif => hnot hif.2.2] at ht
      cases ht
    · exact h.other hj ht
  | recv j k => exact h.other ha ht
  | give j => exact h.other ha ht

end Jellybean.Telemetry.MetricsServer
